import Mathlib.Tactic.IntervalCases
import Otsos.Drivers.InputSystem
import Otsos.Drivers.MousePackets
import Otsos.Lib.Ps2

/-!
# Switching the mouse on

`mouse_init` against the controller and the mouse.  Interrupts are on already:
between any two accesses to a port the devices may act and the two handlers may
run.
-/

namespace Otsos

open Lib

/-- The accesses of `mouse_init` to the ports, each after a wait. -/
inductive PortOp where
  | wait (type : UInt8)
  | outb (port : ℕ) (v : UInt8)
  /-- `status = (inb(0x60) | 2)` -/
  | readStatus
  /-- `outb(0x60, status)` -/
  | writeStatus
  | inb
deriving DecidableEq

def mouseWait (type : UInt8) : List PortOp := [.wait type]

def mouseWrite (val : UInt8) : List PortOp :=
  mouseWait 1 ++ [.outb 0x64 0xD4] ++ mouseWait 1 ++ [.outb 0x60 val]

/-- No caller uses the byte. -/
def mouseRead : List PortOp := mouseWait 0 ++ [.inb]

def mouseInit : List PortOp :=
  mouseWait 1 ++ [.outb 0x64 0xA8] ++
  mouseWait 1 ++ [.outb 0x64 0x20] ++
  mouseWait 0 ++ [.readStatus] ++
  mouseWait 1 ++ [.outb 0x64 0x60] ++
  mouseWait 1 ++ [.writeStatus] ++
  mouseWrite 0xF6 ++ mouseRead ++ mouseWrite 0xF4 ++ mouseRead

/-- The loop of `mouse_wait` returns before its time is up. -/
def waitOver (type status : UInt8) : Bool :=
  if type = 0 then status &&& 1 = 1 else status &&& 2 = 0

/-- `mouse_init` before its access number `pc`, with the statics of `mouse.c`
and the screen.  `handled` and `reported` are ghosts: the bytes that
`mouse_handler` has read, and the movements that the mouse has reported. -/
structure MouseSetup where
  controller : Ps2.Controller
  keyRequested : Bool
  mouseRequested : Bool
  unmasked : Irq → Bool
  pc : ℕ
  timeout : ℕ
  status : UInt8
  driver : Mouse × Vga
  handled : List UInt8
  reported : List MousePacket

namespace MouseSetup

/-- The next access of `mouse_init`. -/
def kernel (s : MouseSetup) : Option MouseSetup :=
  let next := { s with pc := s.pc + 1, timeout := 100000 }
  match mouseInit[s.pc]? with
  | some (.wait type) =>
      if s.timeout = 0 ∨ waitOver type s.controller.status then some next
      else some { s with timeout := s.timeout - 1 }
  | some (.outb port v) =>
      some { next with controller := s.controller.write ⟨port = 0x64, v⟩ }
  | some .readStatus =>
      let (v, controller) := s.controller.read
      some { next with controller := controller, status := v ||| 2 }
  | some .writeStatus =>
      some { next with controller := s.controller.write ⟨false, s.status⟩ }
  | some .inb => some { next with controller := s.controller.read.2 }
  | none => none

def handleMouse (s : MouseSetup) : MouseSetup :=
  let status := s.controller.status
  if status &&& 1 = 0 ∨ status &&& 0x20 = 0 then s
  else
    let (data, controller) := s.controller.read
    { s with
      controller := controller
      driver := s.driver.1.take s.driver.2 data
      handled := s.handled ++ [data] }

/-- `irq_handler`, which reads a byte for the keyboard and drops it. -/
def interrupt (s : MouseSetup) : Irq → Option MouseSetup
  | .keyboard =>
      if s.unmasked .keyboard ∧ s.keyRequested then
        some { s with
          keyRequested := false
          controller := s.controller.read.2 }
      else none
  | .mouse =>
      if s.unmasked .mouse ∧ s.mouseRequested then
        some { s with mouseRequested := false }.handleMouse
      else none

end MouseSetup

inductive SetupAction where
  | kernel
  | accept
  | answer
  | send
  | report (p : MousePacket)
  | interrupt (irq : Irq)

def SetupAction.isKernel : SetupAction → Bool
  | .kernel => true
  | _ => false

def MouseSetup.act (s : MouseSetup) : SetupAction → Option MouseSetup
  | .kernel => s.kernel
  | .accept => s.controller.accept.map fun c => { s with controller := c }
  | .answer =>
      s.controller.giveAnswer.map fun c =>
        { s with
          controller := c
          keyRequested := s.keyRequested || s.controller.keyInterrupts }
  | .send =>
      s.controller.send.map fun c =>
        { s with
          controller := c
          mouseRequested := s.mouseRequested || s.controller.mouseInterrupts }
  | .report p =>
      (s.controller.report p.bytes).map fun c =>
        { s with controller := c, reported := s.reported ++ [p] }
  | .interrupt irq => s.interrupt irq

/-- Runs in which the states before an access of `mouse_init` meet a
condition. -/
inductive SetupRun (P : MouseSetup → Prop) (s₀ : MouseSetup) :
    MouseSetup → Prop
  | start : SetupRun P s₀ s₀
  | step {s s' : MouseSetup} {a : SetupAction} (before : SetupRun P s₀ s)
      (meets : a.isKernel → P s) (taken : s.act a = some s') :
      SetupRun P s₀ s'

def PortOp.isWrite : PortOp → Bool
  | .outb _ _ => true
  | .writeStatus => true
  | _ => false

/-- The controller is done with what `mouse_init` waits for: it has taken the
last write, and answered the command `0x20` before the answer is read. -/
structure MouseSetup.Punctual (s : MouseSetup) : Prop where
  write : ∀ op ∈ mouseInit[s.pc]?, op.isWrite → s.controller.input = none
  read : mouseInit[s.pc]? = some .readStatus →
    s.controller.input = none ∧ s.controller.answer = none

/-- Interrupts come before the next access of `mouse_init`. -/
structure MouseSetup.Prompt (s : MouseSetup) : Prop where
  key : s.keyRequested → ¬ s.unmasked .keyboard
  mouse : s.mouseRequested → ¬ s.unmasked .mouse

/-- Before `mouse_init`, with nothing under way. -/
structure MouseSetup.Fresh (config : UInt8) (s : MouseSetup) : Prop where
  settings : s.controller.settings = ⟨config, none, false⟩
  empty : s.controller.full = false
  input : s.controller.input = none
  answer : s.controller.answer = none
  queue : s.controller.queue = []
  requested : s.keyRequested = false ∧ s.mouseRequested = false
  pc : s.pc = 0
  handled : s.handled = []
  reported : s.reported = []

/-! ## The writes -/

def PortOp.write (status : UInt8) : PortOp → Option Ps2.HostWrite
  | .outb port v => some ⟨port = 0x64, v⟩
  | .writeStatus => some ⟨false, status⟩
  | _ => none

/-- All writes of `mouse_init`. -/
def setupWrites (status : UInt8) : List Ps2.HostWrite :=
  [⟨true, 0xA8⟩, ⟨true, 0x20⟩, ⟨true, 0x60⟩, ⟨false, status⟩, ⟨true, 0xD4⟩,
    ⟨false, 0xF6⟩, ⟨true, 0xD4⟩, ⟨false, 0xF4⟩]

/-- The writes so far. -/
def MouseSetup.writes (s : MouseSetup) : List Ps2.HostWrite :=
  (mouseInit.take s.pc).filterMap (PortOp.write s.status)

/-- The configuration byte once the mouse may send. -/
def enabled (config : UInt8) : UInt8 := config &&& ~~~0x20

variable {P : MouseSetup → Prop} {s s' : MouseSetup} {config status : UInt8}
  {pc : ℕ} {op : PortOp} {ws : List Ps2.HostWrite} {w : Ps2.HostWrite}

theorem mouseInit_writes (status : UInt8) :
    mouseInit.filterMap (PortOp.write status) = setupWrites status := rfl

theorem writes_begin (s : MouseSetup) : s.writes <+: setupWrites s.status := by
  rw [← mouseInit_writes]
  exact (List.take_prefix _ _).filterMap _

theorem writes_next (h : mouseInit[pc]? = some op) (status : UInt8) :
    (mouseInit.take (pc + 1)).filterMap (PortOp.write status) =
      (mouseInit.take pc).filterMap (PortOp.write status) ++
        (op.write status).toList := by
  rw [List.take_add_one, h, List.filterMap_append]
  cases hop : op.write status <;> simp [hop]

theorem readStatus_pc (h : mouseInit[pc]? = some .readStatus) : pc = 5 := by
  have hlt : pc < 22 := (List.getElem?_eq_some_iff.mp h).1
  interval_cases pc <;> revert h <;> decide

theorem writes_early (h : pc ≤ 5) (status : UInt8) :
    (mouseInit.take pc).filterMap (PortOp.write status) <+:
      [⟨true, 0xA8⟩, ⟨true, 0x20⟩] :=
  List.IsPrefix.filterMap (PortOp.write status)
    ((List.take_prefix_take_left h : mouseInit.take pc <+: mouseInit.take 5))

/-- The first `k` writes, and what they have made of the settings. -/
theorem prefix_setupWrites (h : ws <+: setupWrites status) :
    ∃ k ≤ 8, ws = (setupWrites status).take k := by
  have hlength := h.length_le
  exact ⟨ws.length, hlength, List.prefix_iff_eq_take.mp h⟩

/-- What follows from which writes have been taken. -/
structure Consequences (config status : UInt8) (ws : List Ps2.HostWrite) :
    Prop where
  silent : Ps2.Settings.replies ⟨config, none, false⟩ ws = [] →
    (Ps2.Settings.afterAll ⟨config, none, false⟩ ws).reporting = false
  later : Ps2.Settings.replies ⟨config, none, false⟩ ws ≠ [] →
    ¬ ws <+: [⟨true, 0xA8⟩, ⟨true, 0x20⟩] ∧
      (Ps2.Settings.afterAll ⟨config, none, false⟩ ws).config = status
  last : (Ps2.Settings.afterAll ⟨config, none, false⟩ ws).reporting = true →
    ws = setupWrites status
  answered : ⟨true, 0x20⟩ ∈ ws → ws <+: [⟨true, 0xA8⟩, ⟨true, 0x20⟩] →
    (Ps2.Settings.afterAll ⟨config, none, false⟩ ws).config = enabled config

theorem take_early {k : ℕ} (hk : k ≤ 8)
    (h : (setupWrites status).take k <+: [⟨true, 0xA8⟩, ⟨true, 0x20⟩]) :
    k ≤ 2 := by
  have hlength := h.length_le
  rw [List.length_take, show (setupWrites status).length = 8 from rfl] at hlength
  simp only [List.length_cons, List.length_nil] at hlength
  omega

theorem consequences (config : UInt8) (h : ws <+: setupWrites status) :
    Consequences config status ws := by
  obtain ⟨k, hk, rfl⟩ := prefix_setupWrites h
  constructor
  case silent =>
    -- the first reply is to the sixth write
    interval_cases k <;> intro hreplies <;> first | rfl | cases hreplies
  case later =>
    intro hreplies
    refine ⟨fun hearly => ?_, ?_⟩
    · have hshort := take_early hk hearly
      interval_cases k <;> exact hreplies rfl
    · interval_cases k <;> first | rfl | exact absurd rfl hreplies
  case last =>
    interval_cases k <;> intro hreporting <;> first | rfl | cases hreporting
  case answered =>
    intro hasked hearly
    have hshort := take_early hk hearly
    interval_cases k
    · exact absurd hasked List.not_mem_nil
    · exact absurd (List.mem_singleton.mp hasked) (by decide)
    · rfl

/-! ## The invariant -/

/-- The controller has taken the writes `ws`. -/
structure SetupProgress (config : UInt8) (ws : List Ps2.HostWrite)
    (s : MouseSetup) : Prop where
  writes : ws ++ s.controller.input.toList = s.writes
  settings : s.controller.settings =
    Ps2.Settings.afterAll ⟨config, none, false⟩ ws
  status : 5 < s.pc → s.status = enabled config ||| 2
  unasked : ⟨true, 0x20⟩ ∉ ws → s.controller.answer = none
  answered : s.pc ≤ 5 → ⟨true, 0x20⟩ ∈ ws →
    s.controller.answer = some (enabled config) ∨
      (s.controller.answer = none ∧
        s.controller.latch.value = enabled config)
  quiet : Ps2.Settings.replies ⟨config, none, false⟩ ws = [] →
    s.controller.queue = [] ∧ s.reported = []

theorem MouseSetup.Fresh.progress (h : s.Fresh config) :
    SetupProgress config [] s where
  writes := by rw [h.input, MouseSetup.writes, h.pc]; rfl
  settings := h.settings
  status := by rw [h.pc]; omega
  unasked := fun _ => h.answer
  answered := fun _ hasked => absurd hasked List.not_mem_nil
  quiet := fun _ => ⟨h.queue, h.reported⟩

namespace SetupProgress

theorem ws_begin (h : SetupProgress config ws s) : ws <+: setupWrites s.status :=
  (h.writes ▸ List.prefix_append ws _ : ws <+: s.writes).trans (writes_begin s)

theorem consequences (h : SetupProgress config ws s) :
    Consequences config s.status ws :=
  Otsos.consequences config h.ws_begin

theorem ws_early (h : SetupProgress config ws s) (hpc : s.pc ≤ 5) :
    ws <+: [⟨true, 0xA8⟩, ⟨true, 0x20⟩] :=
  (h.writes ▸ List.prefix_append ws _ : ws <+: s.writes).trans
    (writes_early hpc s.status)

/-- An access that writes, or a wait or a read after which the byte is not
used. -/
theorem advance (h : SetupProgress config ws s) (hop : mouseInit[s.pc]? = some op)
    (hother : op ≠ .readStatus) {c : Ps2.Controller} {timeout : ℕ}
    (hinput : ws ++ c.input.toList =
      s.writes ++ (op.write s.status).toList)
    (hsettings : c.settings = s.controller.settings)
    (hanswer : c.answer = s.controller.answer)
    (hlatch : c.latch = s.controller.latch)
    (hqueue : c.queue = s.controller.queue) :
    SetupProgress config ws
      { s with controller := c, pc := s.pc + 1, timeout := timeout } := by
  have hpc : s.pc ≠ 5 := by
    intro hfive
    rw [hfive] at hop
    exact hother (Option.some.inj hop).symm
  constructor
  · rw [hinput, MouseSetup.writes, MouseSetup.writes]
    exact (writes_next hop s.status).symm
  · exact hsettings.trans h.settings
  · intro hlater
    have hstill : 5 < s.pc + 1 := hlater
    exact h.status (by omega)
  · intro hasked
    exact hanswer.trans (h.unasked hasked)
  · intro hearly hasked
    have hstill : s.pc + 1 ≤ 5 := hearly
    show c.answer = _ ∨ (c.answer = none ∧ c.latch.value = _)
    rw [hanswer, hlatch]
    exact h.answered (by omega) hasked
  · intro hreplies
    obtain ⟨hempty, hreported⟩ := h.quiet hreplies
    exact ⟨hqueue.trans hempty, hreported⟩

theorem kernel (h : SetupProgress config ws s) (hpunctual : s.Punctual)
    (hstep : s.kernel = some s') : SetupProgress config ws s' := by
  unfold MouseSetup.kernel at hstep
  cases hop : mouseInit[s.pc]? with
  | none =>
      rw [hop] at hstep
      cases hstep
  | some op =>
      rw [hop] at hstep
      have hwrites := h.writes
      have hwrite (hkind : op.isWrite) : s.controller.input = none :=
        hpunctual.write op hop hkind
      cases op with
      | wait type =>
          dsimp only at hstep
          split at hstep
          · cases hstep
            refine h.advance hop (by simp) ?_ rfl rfl rfl rfl
            rw [hwrites]
            exact (List.append_nil _).symm
          · cases hstep
            exact ⟨h.writes, h.settings, h.status, h.unasked, h.answered,
              h.quiet⟩
      | outb port v =>
          cases hstep
          rw [hwrite rfl] at hwrites
          refine h.advance hop (by simp) ?_ rfl rfl rfl rfl
          rw [← hwrites, Option.toList_none, List.append_nil]
          rfl
      | readStatus =>
          have hpc := readStatus_pc hop
          obtain ⟨hinput, hanswer⟩ := hpunctual.read hop
          have hws : ws = [⟨true, 0xA8⟩, ⟨true, 0x20⟩] := by
            rw [hinput, MouseSetup.writes, hpc, Option.toList_none,
              List.append_nil] at hwrites
            exact hwrites
          have hasked : (⟨true, 0x20⟩ : Ps2.HostWrite) ∈ ws := by
            rw [hws]
            exact List.mem_cons_of_mem _ List.mem_cons_self
          have hvalue : s.controller.latch.value = enabled config := by
            rcases h.answered (by omega) hasked with hpending | ⟨-, hlatch⟩
            · rw [hanswer] at hpending
              cases hpending
            · exact hlatch
          cases hstep
          constructor
          · show ws ++ s.controller.input.toList =
              (mouseInit.take (s.pc + 1)).filterMap _
            rw [hinput, hws, hpc]
            rfl
          · exact h.settings
          · intro _
            show s.controller.latch.value ||| 2 = _
            rw [hvalue]
          · exact h.unasked
          · intro hearly
            have hsix : s.pc + 1 ≤ 5 := hearly
            omega
          · exact h.quiet
      | writeStatus =>
          cases hstep
          rw [hwrite rfl] at hwrites
          refine h.advance hop (by simp) ?_ rfl rfl rfl rfl
          rw [← hwrites, Option.toList_none, List.append_nil]
          rfl
      | inb =>
          cases hstep
          refine h.advance hop (by simp) ?_ rfl rfl rfl rfl
          rw [show (s.controller.read.2).input = s.controller.input from rfl,
            hwrites]
          exact (List.append_nil _).symm

/-- The question is the second write. -/
theorem asked_now (hshort : ws ++ [w] <+: [⟨true, 0xA8⟩, ⟨true, 0x20⟩])
    (hasked : ⟨true, 0x20⟩ ∈ ws ++ [w]) :
    ws = [⟨true, 0xA8⟩] ∧ w = ⟨true, 0x20⟩ := by
  rcases ws with _ | ⟨v, _ | ⟨u, vs⟩⟩
  · obtain ⟨rfl, -⟩ := List.cons_prefix_cons.mp hshort
    exact absurd (List.mem_singleton.mp hasked) (by decide)
  · obtain ⟨rfl, hrest⟩ := List.cons_prefix_cons.mp hshort
    obtain ⟨rfl, -⟩ := List.cons_prefix_cons.mp hrest
    exact ⟨rfl, rfl⟩
  · have hlength := hshort.length_le
    simp at hlength

theorem accept (h : SetupProgress config ws s) {c : Ps2.Controller}
    (hstep : s.controller.accept = some c) :
    ∃ w, s.controller.input = some w ∧
      SetupProgress config (ws ++ [w]) { s with controller := c } := by
  obtain ⟨w, hinput, rfl⟩ := Ps2.Controller.accept_cases hstep
  have hwrites := h.writes
  rw [hinput] at hwrites
  have hall : ws ++ [w] <+: setupWrites s.status := by
    have hbegins := writes_begin s
    rwa [← hwrites] at hbegins
  refine ⟨w, hinput, ?_⟩
  constructor
  · exact (List.append_nil _).trans hwrites
  · rw [Ps2.Settings.afterAll_append, ← h.settings]
  · exact h.status
  · intro hunasked
    rw [List.mem_append, List.mem_singleton, not_or] at hunasked
    show (s.controller.settings.answer w).or s.controller.answer = none
    rw [Ps2.Settings.answer, if_neg (Ne.symm hunasked.2),
      h.unasked hunasked.1]
    rfl
  · intro hearly hasked
    have hshort : ws ++ [w] <+: [⟨true, 0xA8⟩, ⟨true, 0x20⟩] := by
      have hbegins := writes_early hearly s.status
      rwa [← MouseSetup.writes, ← hwrites] at hbegins
    obtain ⟨rfl, rfl⟩ := asked_now hshort hasked
    left
    show (s.controller.settings.answer ⟨true, 0x20⟩).or s.controller.answer =
      some (enabled config)
    rw [h.settings]
    rfl
  · intro hreplies
    rw [Ps2.Settings.replies_append, List.append_eq_nil_iff] at hreplies
    obtain ⟨hempty, hreported⟩ := h.quiet hreplies.1
    refine ⟨?_, hreported⟩
    show s.controller.queue ++ s.controller.settings.reply w = []
    rw [hempty, h.settings, hreplies.2]
    rfl

theorem giveAnswer (h : SetupProgress config ws s) {c : Ps2.Controller} {r : Bool}
    (hstep : s.controller.giveAnswer = some c) :
    SetupProgress config ws { s with controller := c, keyRequested := r } := by
  obtain ⟨-, v, hanswer, rfl⟩ := Ps2.Controller.giveAnswer_cases hstep
  refine ⟨h.writes, h.settings, h.status, fun _ => rfl, ?_, h.quiet⟩
  intro hearly hasked
  rcases h.answered hearly hasked with hpending | ⟨hnone, -⟩
  · rw [hanswer] at hpending
    exact Or.inr ⟨rfl, Option.some.inj hpending⟩
  · rw [hanswer] at hnone
    cases hnone

/-- A byte of the mouse cannot come before its first command. -/
theorem replies_ne_nil (h : SetupProgress config ws s)
    (hqueue : s.controller.queue ≠ []) :
    Ps2.Settings.replies ⟨config, none, false⟩ ws ≠ [] :=
  fun hreplies => hqueue (h.quiet hreplies).1

theorem send (h : SetupProgress config ws s) {c : Ps2.Controller} {r : Bool}
    (hstep : s.controller.send = some c) :
    SetupProgress config ws { s with controller := c, mouseRequested := r } := by
  obtain ⟨-, -, b, bs, hqueue, rfl⟩ := Ps2.Controller.send_cases hstep
  have hreplies := h.replies_ne_nil (by rw [hqueue]; exact List.cons_ne_nil _ _)
  refine ⟨h.writes, h.settings, h.status, h.unasked, ?_, ?_⟩
  · intro hearly _
    exact absurd (h.ws_early hearly) (h.consequences.later hreplies).1
  · intro hnone
    exact absurd hnone hreplies

theorem report (h : SetupProgress config ws s) {c : Ps2.Controller} {p : MousePacket}
    (hstep : s.controller.report p.bytes = some c) :
    SetupProgress config ws
      { s with controller := c, reported := s.reported ++ [p] } := by
  obtain ⟨hreporting, rfl⟩ := Ps2.Controller.report_cases hstep
  refine ⟨h.writes, h.settings, h.status, h.unasked, h.answered, ?_⟩
  intro hnone
  have hsilent := h.consequences.silent hnone
  rw [← h.settings, hreporting] at hsilent
  cases hsilent

theorem interrupt (h : SetupProgress config ws s) {irq : Irq}
    (hstep : s.interrupt irq = some s') : SetupProgress config ws s' := by
  cases irq with
  | keyboard =>
      simp only [MouseSetup.interrupt] at hstep
      split at hstep
      · cases hstep
        exact ⟨h.writes, h.settings, h.status, h.unasked, h.answered, h.quiet⟩
      · cases hstep
  | mouse =>
      simp only [MouseSetup.interrupt] at hstep
      split at hstep
      · cases hstep
        unfold MouseSetup.handleMouse
        dsimp only
        split
        · exact ⟨h.writes, h.settings, h.status, h.unasked, h.answered,
            h.quiet⟩
        · exact ⟨h.writes, h.settings, h.status, h.unasked, h.answered,
            h.quiet⟩
      · cases hstep

theorem step (h : SetupProgress config ws s) {a : SetupAction}
    (hpunctual : a.isKernel → s.Punctual) (hstep : s.act a = some s') :
    ∃ ws', SetupProgress config ws' s' := by
  cases a with
  | kernel => exact ⟨ws, h.kernel (hpunctual rfl) hstep⟩
  | accept =>
      obtain ⟨c, hc, rfl⟩ := Option.map_eq_some_iff.mp hstep
      obtain ⟨w, -, hnext⟩ := h.accept hc
      exact ⟨ws ++ [w], hnext⟩
  | answer =>
      obtain ⟨c, hc, rfl⟩ := Option.map_eq_some_iff.mp hstep
      exact ⟨ws, h.giveAnswer hc⟩
  | send =>
      obtain ⟨c, hc, rfl⟩ := Option.map_eq_some_iff.mp hstep
      exact ⟨ws, h.send hc⟩
  | report p =>
      obtain ⟨c, hc, rfl⟩ := Option.map_eq_some_iff.mp hstep
      exact ⟨ws, h.report hc⟩
  | interrupt irq => exact ⟨ws, h.interrupt hstep⟩

end SetupProgress

theorem SetupRun.progress {s₀ : MouseSetup} (hfresh : s₀.Fresh config)
    (hrun : SetupRun MouseSetup.Punctual s₀ s) : ∃ ws, SetupProgress config ws s := by
  induction hrun with
  | start => exact ⟨[], hfresh.progress⟩
  | step before meets taken ih =>
      obtain ⟨ws, h⟩ := ih
      exact h.step meets taken

/-- When all is written and taken, the mouse reports its movements, and of the
configuration byte only the bits for the mouse have changed. -/
theorem mouseInit_settings {s₀ : MouseSetup} (hfresh : s₀.Fresh config)
    (hrun : SetupRun MouseSetup.Punctual s₀ s)
    (hdone : s.pc = mouseInit.length) (hinput : s.controller.input = none) :
    s.controller.settings = ⟨enabled config ||| 2, none, true⟩ := by
  obtain ⟨ws, h⟩ := hrun.progress hfresh
  have hpc : s.pc = 22 := hdone
  have hws : ws = setupWrites s.status := by
    have hwrites := h.writes
    rw [hinput, MouseSetup.writes, hpc, Option.toList_none,
      List.append_nil] at hwrites
    exact hwrites
  rw [h.settings, hws, ← h.status (by omega)]
  rfl

/-! ## A run -/

theorem SetupRun.mono {Q : MouseSetup → Prop} {s₀ : MouseSetup}
    (hPQ : ∀ s, P s → Q s) (hrun : SetupRun P s₀ s) : SetupRun Q s₀ s := by
  induction hrun with
  | start => exact .start
  | step before meets taken ih =>
      exact .step ih (fun hkernel => hPQ _ (meets hkernel)) taken

def MouseSetup.InTime (s : MouseSetup) : Prop := s.Punctual ∧ s.Prompt

instance (s : MouseSetup) : Decidable s.Punctual :=
  decidable_of_iff
    ((∀ op ∈ mouseInit[s.pc]?, op.isWrite → s.controller.input = none) ∧
      (mouseInit[s.pc]? = some .readStatus →
        s.controller.input = none ∧ s.controller.answer = none))
    ⟨fun h => ⟨h.1, h.2⟩, fun h => ⟨h.write, h.read⟩⟩

instance (s : MouseSetup) : Decidable s.Prompt :=
  decidable_of_iff
    ((s.keyRequested → ¬ s.unmasked .keyboard) ∧
      (s.mouseRequested → ¬ s.unmasked .mouse))
    ⟨fun h => ⟨h.1, h.2⟩, fun h => ⟨h.key, h.mouse⟩⟩

instance (s : MouseSetup) : Decidable s.InTime :=
  inferInstanceAs (Decidable (_ ∧ _))

/-- The actions in turn; `none` lets the time of a wait run out. -/
def MouseSetup.replay (s : MouseSetup) :
    List (Option SetupAction) → Option MouseSetup
  | [] => some s
  | some a :: as =>
      if a.isKernel → s.InTime then (s.act a).bind (replay · as) else none
  | none :: as =>
      match mouseInit[s.pc]? with
      | some (.wait type) =>
          if waitOver type s.controller.status = false ∧ s.InTime then
            replay { s with pc := s.pc + 1, timeout := 100000 } as
          else none
      | _ => none

theorem SetupRun.waitOut {s₀ : MouseSetup} {type : UInt8}
    (hrun : SetupRun MouseSetup.InTime s₀ s)
    (hop : mouseInit[s.pc]? = some (.wait type))
    (hwaits : waitOver type s.controller.status = false) (htime : s.InTime) :
    SetupRun MouseSetup.InTime s₀
      { s with pc := s.pc + 1, timeout := 100000 } := by
  obtain ⟨n, hn⟩ : ∃ n, s.timeout = n := ⟨_, rfl⟩
  induction n generalizing s with
  | zero =>
      refine .step hrun (a := .kernel) (fun _ => htime) ?_
      simp only [MouseSetup.act, MouseSetup.kernel, hop, hn, true_or, if_true]
  | succ n ih =>
      have hnext : s.act .kernel = some { s with timeout := n } := by
        simp only [MouseSetup.act, MouseSetup.kernel, hop, hwaits, hn]
        rfl
      have hlater : SetupRun MouseSetup.InTime s₀ { s with timeout := n } :=
        .step hrun (fun _ => htime) hnext
      have hend := ih hlater hop hwaits
        ⟨⟨htime.1.write, htime.1.read⟩, ⟨htime.2.key, htime.2.mouse⟩⟩ rfl
      exact hend

theorem SetupRun.replay {s₀ : MouseSetup} {as : List (Option SetupAction)}
    (hrun : SetupRun MouseSetup.InTime s₀ s) (h : s.replay as = some s') :
    SetupRun MouseSetup.InTime s₀ s' := by
  induction as generalizing s with
  | nil => exact Option.some.inj h ▸ hrun
  | cons a as ih =>
      cases a with
      | some a =>
          rw [MouseSetup.replay] at h
          split at h
          · rename_i hmeets
            obtain ⟨t, ht, hrest⟩ := Option.bind_eq_some_iff.mp h
            exact ih (.step hrun hmeets ht) hrest
          · cases h
      | none =>
          rw [MouseSetup.replay] at h
          split at h
          · rename_i type hop
            split at h
            · rename_i hwaits
              exact ih (hrun.waitOut hop hwaits.1 hwaits.2) h
            · cases h
          · cases h

/-- The mouse is still disabled, and the keyboard has no interrupt. -/
def mouseOff : MouseSetup where
  controller := ⟨⟨0x20, none, false⟩, ⟨false, 0⟩, false, none, none, []⟩
  keyRequested := false
  mouseRequested := false
  unmasked := fun _ => true
  pc := 0
  timeout := 100000
  status := 0
  driver := (Mouse.initial, ⟨fun _ => 0, 0, 0⟩)
  handled := []
  reported := []

/-- One cell to the right. -/
def oneRight : MousePacket where
  first := 0x08
  second := 8
  third := 0
  framed := by decide
  inRange := by decide

/-- A wait that is over at once, and a write that the controller takes. -/
def writesOnce : List (Option SetupAction) :=
  [some .kernel, some .kernel, some .accept]

/-- The mouse acknowledges, and the handler reads that; `mouse_read` waits in
vain. -/
def acknowledges : List (Option SetupAction) :=
  [some .send, some (.interrupt .mouse), none, some .kernel]

def switchesOn : List (Option SetupAction) :=
  writesOnce ++ writesOnce ++ [some .answer, some .kernel, some .kernel] ++
    writesOnce ++ writesOnce ++
    writesOnce ++ writesOnce ++ acknowledges ++
    writesOnce ++ writesOnce ++ acknowledges

/-- After it the mouse has reported a movement, and its first byte is read. -/
def mouseOn : MouseSetup :=
  (mouseOff.replay (switchesOn ++
    [some (.report oneRight), some .send, some (.interrupt .mouse)])).get
    (by decide +kernel)

theorem mouseOff_fresh : mouseOff.Fresh 0x20 :=
  ⟨rfl, rfl, rfl, rfl, rfl, ⟨rfl, rfl⟩, rfl, rfl, rfl⟩

theorem mouseOn_reached : SetupRun MouseSetup.InTime mouseOff mouseOn :=
  SetupRun.start.replay (Option.some_get _).symm

theorem mouseInit_settings_mouseOn :
    mouseOn.controller.settings = ⟨enabled 0x20 ||| 2, none, true⟩ :=
  mouseInit_settings mouseOff_fresh
    (mouseOn_reached.mono fun _ hs => hs.1) (by decide +kernel)
    (by decide +kernel)

end Otsos
