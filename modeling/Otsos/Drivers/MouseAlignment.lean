import Otsos.Drivers.MouseInit

/-!
# Who reads the acknowledgements

`mouse_init` waits for the mouse to acknowledge its commands.  If interrupts
come before the next access the handler has always read the byte first, and it
takes the two acknowledgements for the beginning of a packet.
-/

namespace Otsos

open Lib

/-- The driver after bytes that are all from the mouse. -/
def takeAll (d : Mouse × Vga) (bytes : List UInt8) : Mouse × Vga :=
  bytes.foldl (fun d b => d.1.take d.2 b) d

/-- Every byte of the mouse goes to the handler. -/
structure HandlerFirst (config : UInt8) (start : Mouse × Vga)
    (ws : List Ps2.HostWrite) (s : MouseSetup) : Prop where
  progress : SetupProgress config ws s
  unmasked : s.unmasked .mouse = true
  mouse : s.controller.unread ≠ [] → s.mouseRequested = true
  key : s.keyRequested = true → s.unmasked .keyboard = true →
    s.controller.full = true ∧ s.controller.latch.fromMouse = false
  bytes : s.handled ++ s.controller.unread ++ s.controller.queue =
    Ps2.Settings.replies ⟨config, none, false⟩ ws ++
      s.reported.flatMap MousePacket.bytes
  reporting : s.reported ≠ [] → s.controller.settings.reporting = true
  driver : s.driver = takeAll start s.handled

variable {P : MouseSetup → Prop} {s s' : MouseSetup} {config : UInt8}
  {start : Mouse × Vga} {ws : List Ps2.HostWrite} {c : Ps2.Controller}

theorem unread_of_empty (h : c.full = false) : c.unread = [] := by
  simp [Ps2.Controller.unread, h]

theorem unread_of_key (h : c.latch.fromMouse = false) : c.unread = [] := by
  simp [Ps2.Controller.unread, h]

theorem MouseSetup.Fresh.handlerFirst (h : s.Fresh config)
    (hunmasked : s.unmasked .mouse = true) :
    HandlerFirst config s.driver [] s where
  progress := h.progress
  unmasked := hunmasked
  mouse := fun hunread => absurd (unread_of_empty h.empty) hunread
  key := fun hkey => by rw [h.requested.1] at hkey; cases hkey
  bytes := by
    rw [h.handled, unread_of_empty h.empty, h.queue, h.reported]
    rfl
  reporting := fun hreported => absurd h.reported hreported
  driver := by rw [h.handled]; rfl

/-- What an access of `mouse_init` leaves as it is. -/
structure SameDevices (s s' : MouseSetup) : Prop where
  keyRequested : s'.keyRequested = s.keyRequested
  mouseRequested : s'.mouseRequested = s.mouseRequested
  unmasked : s'.unmasked = s.unmasked
  driver : s'.driver = s.driver
  handled : s'.handled = s.handled
  reported : s'.reported = s.reported
  settings : s'.controller.settings = s.controller.settings
  queue : s'.controller.queue = s.controller.queue
  unread : s.controller.unread = [] → s'.controller.unread = []

theorem kernel_sameDevices (h : s.kernel = some s') : SameDevices s s' := by
  have hread : s.controller.read.2.unread = [] := unread_of_empty rfl
  unfold MouseSetup.kernel at h
  dsimp only at h
  split at h
  · split at h
    · cases h
      exact ⟨rfl, rfl, rfl, rfl, rfl, rfl, rfl, rfl, id⟩
    · cases h
      exact ⟨rfl, rfl, rfl, rfl, rfl, rfl, rfl, rfl, id⟩
  · cases h
    exact ⟨rfl, rfl, rfl, rfl, rfl, rfl, rfl, rfl, id⟩
  · cases h
    exact ⟨rfl, rfl, rfl, rfl, rfl, rfl, rfl, rfl, fun _ => hread⟩
  · cases h
    exact ⟨rfl, rfl, rfl, rfl, rfl, rfl, rfl, rfl, id⟩
  · cases h
    exact ⟨rfl, rfl, rfl, rfl, rfl, rfl, rfl, rfl, fun _ => hread⟩
  · cases h

namespace HandlerFirst

/-- `mouse_init` finds no byte of the mouse. -/
theorem unread_eq (h : HandlerFirst config start ws s) (hprompt : s.Prompt) :
    s.controller.unread = [] := by
  by_contra hunread
  exact hprompt.mouse (h.mouse hunread) h.unmasked

theorem kernel (h : HandlerFirst config start ws s)
    (hpunctual : s.Punctual) (hprompt : s.Prompt)
    (hstep : s.kernel = some s') : HandlerFirst config start ws s' := by
  have hunread := h.unread_eq hprompt
  have hsame := kernel_sameDevices hstep
  have hunread' := hsame.unread hunread
  constructor
  · exact h.progress.kernel hpunctual hstep
  · rw [hsame.unmasked]
    exact h.unmasked
  · exact fun hne => absurd hunread' hne
  · rw [hsame.keyRequested, hsame.unmasked]
    exact fun hrequested hopen => absurd hopen (hprompt.key hrequested)
  · have hbytes := h.bytes
    rw [hunread] at hbytes
    rw [hunread', hsame.handled, hsame.queue, hsame.reported]
    exact hbytes
  · rw [hsame.reported, hsame.settings]
    exact h.reporting
  · rw [hsame.driver, hsame.handled]
    exact h.driver

/-- While a write waits the mouse does not report yet. -/
theorem reported_eq (h : HandlerFirst config start ws s)
    (hinput : s.controller.input ≠ none) : s.reported = [] := by
  by_contra hreported
  have hreporting := h.reporting hreported
  rw [h.progress.settings] at hreporting
  have hall := h.progress.consequences.last hreporting
  have hlength := (writes_begin s).length_le
  rw [← h.progress.writes, hall, List.length_append] at hlength
  obtain ⟨w, hw⟩ := Option.ne_none_iff_exists'.mp hinput
  rw [hw, Option.toList_some, List.length_singleton] at hlength
  omega

theorem accept (h : HandlerFirst config start ws s)
    (hstep : s.controller.accept = some c) :
    ∃ w, HandlerFirst config start (ws ++ [w]) { s with controller := c } := by
  obtain ⟨w, hinput, hnext⟩ := h.progress.accept hstep
  have hreported := h.reported_eq (by rw [hinput]; exact Option.some_ne_none w)
  obtain ⟨v, hv, rfl⟩ := Ps2.Controller.accept_cases hstep
  obtain rfl : v = w := Option.some.inj (hv.symm.trans hinput)
  refine ⟨v, hnext, h.unmasked, h.mouse, h.key, ?_, ?_, h.driver⟩
  · have hbytes := h.bytes
    rw [hreported, List.flatMap_nil, List.append_nil] at hbytes
    show s.handled ++ s.controller.unread ++
      (s.controller.queue ++ s.controller.settings.reply v) =
        _ ++ s.reported.flatMap _
    rw [hreported, List.flatMap_nil, List.append_nil,
      Ps2.Settings.replies_append, ← hbytes, h.progress.settings,
      List.append_assoc, List.append_assoc, List.append_assoc]
  · exact fun hne => absurd hreported hne

theorem giveAnswer (h : HandlerFirst config start ws s)
    (hstep : s.controller.giveAnswer = some c) :
    HandlerFirst config start ws { s with
      controller := c
      keyRequested := s.keyRequested || s.controller.keyInterrupts } := by
  have hnext := h.progress.giveAnswer
    (r := s.keyRequested || s.controller.keyInterrupts) hstep
  obtain ⟨hempty, v, -, rfl⟩ := Ps2.Controller.giveAnswer_cases hstep
  have hbytes := h.bytes
  rw [unread_of_empty hempty] at hbytes
  have hunread : Ps2.Controller.unread { s.controller with
      latch := ⟨false, v⟩, full := true, answer := none } = [] :=
    unread_of_key rfl
  refine ⟨hnext, h.unmasked, fun hne => absurd hunread hne,
    fun _ _ => ⟨rfl, rfl⟩, ?_, h.reporting, h.driver⟩
  rw [hunread]
  exact hbytes

/-- The mouse sends nothing before its interrupt has been switched on. -/
theorem mouseInterrupts (h : HandlerFirst config start ws s)
    (hqueue : s.controller.queue ≠ []) :
    s.controller.mouseInterrupts = true := by
  have hreplies := h.progress.replies_ne_nil hqueue
  obtain ⟨hlate, hconfig⟩ := h.progress.consequences.later hreplies
  have hpc : 5 < s.pc := by
    by_contra hearly
    exact hlate (h.progress.ws_early (by omega))
  rw [Ps2.Controller.mouseInterrupts, h.progress.settings, hconfig,
    h.progress.status hpc, decide_eq_true_eq]
  intro hzero
  have hbit := congrArg (fun u => u.toBitVec.getLsbD 1) hzero
  simp at hbit

theorem send (h : HandlerFirst config start ws s)
    (hstep : s.controller.send = some c) :
    HandlerFirst config start ws { s with
      controller := c
      mouseRequested :=
        s.mouseRequested || s.controller.mouseInterrupts } := by
  have hnext := h.progress.send
    (r := s.mouseRequested || s.controller.mouseInterrupts) hstep
  obtain ⟨hempty, -, b, bs, hqueue, rfl⟩ := Ps2.Controller.send_cases hstep
  have hinterrupts := h.mouseInterrupts
    (by rw [hqueue]; exact List.cons_ne_nil _ _)
  refine ⟨hnext, h.unmasked, ?_, ?_, ?_, h.reporting, h.driver⟩
  · intro _
    show (s.mouseRequested || s.controller.mouseInterrupts) = true
    rw [hinterrupts, Bool.or_true]
  · intro hrequested hopen
    obtain ⟨hfull, -⟩ := h.key hrequested hopen
    rw [hempty] at hfull
    cases hfull
  · have hbytes := h.bytes
    rw [unread_of_empty hempty, List.append_nil, hqueue] at hbytes
    rw [← hbytes]
    show s.handled ++ [b] ++ bs = s.handled ++ b :: bs
    rw [List.append_assoc, List.singleton_append]

theorem report (h : HandlerFirst config start ws s) {p : MousePacket}
    (hstep : s.controller.report p.bytes = some c) :
    HandlerFirst config start ws { s with
      controller := c
      reported := s.reported ++ [p] } := by
  have hnext := h.progress.report hstep
  obtain ⟨hreporting, rfl⟩ := Ps2.Controller.report_cases hstep
  refine ⟨hnext, h.unmasked, h.mouse, h.key, ?_, fun _ => hreporting,
    h.driver⟩
  show s.handled ++ s.controller.unread ++ (s.controller.queue ++ p.bytes) =
    _ ++ (s.reported ++ [p]).flatMap _
  rw [← List.append_assoc, h.bytes, List.flatMap_append, List.append_assoc,
    List.flatMap_singleton]

theorem interrupt (h : HandlerFirst config start ws s) {irq : Irq}
    (hstep : s.interrupt irq = some s') : HandlerFirst config start ws s' := by
  have hnext := h.progress.interrupt hstep
  cases irq with
  | keyboard =>
      simp only [MouseSetup.interrupt] at hstep
      split at hstep
      · rename_i hrequested
        cases hstep
        obtain ⟨hfull, hkey⟩ := h.key hrequested.2 hrequested.1
        have hbytes := h.bytes
        rw [unread_of_key hkey] at hbytes
        have hread : s.controller.read.2.unread = [] := unread_of_empty rfl
        refine ⟨hnext, h.unmasked, fun hne => absurd hread hne, ?_, ?_,
          h.reporting, h.driver⟩
        · intro hagain
          cases hagain
        · rw [hread]
          exact hbytes
      · cases hstep
  | mouse =>
      simp only [MouseSetup.interrupt] at hstep
      split at hstep
      · cases hstep
        unfold MouseSetup.handleMouse at hnext ⊢
        dsimp only at hnext ⊢
        split
        · rename_i hother
          rw [if_pos hother] at hnext
          have hunread : s.controller.unread = [] := by
            rw [Ps2.Controller.status_full,
              Ps2.Controller.status_fromMouse] at hother
            exact hother.elim unread_of_empty unread_of_key
          exact ⟨hnext, h.unmasked, fun hne => absurd hunread hne, h.key,
            h.bytes, h.reporting, h.driver⟩
        · rename_i hours
          rw [if_neg hours] at hnext
          rw [Ps2.Controller.status_full, Ps2.Controller.status_fromMouse,
            not_or, Bool.not_eq_false, Bool.not_eq_false] at hours
          have hunread : s.controller.unread = [s.controller.latch.value] := by
            rw [Ps2.Controller.unread, if_pos hours]
          have hread : s.controller.read.2.unread = [] := unread_of_empty rfl
          refine ⟨hnext, h.unmasked, fun hne => absurd hread hne, ?_, ?_,
            h.reporting, ?_⟩
          · intro hrequested hopen
            obtain ⟨-, hkey⟩ := h.key hrequested hopen
            rw [hours.2] at hkey
            cases hkey
          · have hbytes := h.bytes
            rw [hunread] at hbytes
            show s.handled ++ [s.controller.latch.value] ++
              s.controller.read.2.unread ++ s.controller.queue = _
            rw [hread, List.append_nil]
            exact hbytes
          · show s.driver.1.take s.driver.2 s.controller.latch.value =
              takeAll start (s.handled ++ [s.controller.latch.value])
            have hdriver := h.driver
            rw [takeAll] at hdriver
            rw [takeAll, List.foldl_append, ← hdriver]
            rfl
      · cases hstep

theorem step (h : HandlerFirst config start ws s) {a : SetupAction}
    (hmeets : a.isKernel → s.InTime) (hstep : s.act a = some s') :
    ∃ ws', HandlerFirst config start ws' s' := by
  cases a with
  | kernel =>
      obtain ⟨hpunctual, hprompt⟩ := hmeets rfl
      exact ⟨ws, h.kernel hpunctual hprompt hstep⟩
  | accept =>
      obtain ⟨c, hc, rfl⟩ := Option.map_eq_some_iff.mp hstep
      obtain ⟨w, hnext⟩ := h.accept hc
      exact ⟨ws ++ [w], hnext⟩
  | answer =>
      obtain ⟨c, hc, rfl⟩ := Option.map_eq_some_iff.mp hstep
      exact ⟨ws, h.giveAnswer hc⟩
  | send =>
      obtain ⟨c, hc, rfl⟩ := Option.map_eq_some_iff.mp hstep
      exact ⟨ws, h.send hc⟩
  | report p =>
      obtain ⟨c, hc, rfl⟩ := Option.map_eq_some_iff.mp hstep
      exact ⟨ws, h.report hc⟩
  | interrupt irq => exact ⟨ws, h.interrupt hstep⟩

end HandlerFirst

theorem SetupRun.handlerFirst {s₀ : MouseSetup} (hfresh : s₀.Fresh config)
    (hunmasked : s₀.unmasked .mouse = true)
    (hrun : SetupRun MouseSetup.InTime s₀ s) :
    ∃ ws, HandlerFirst config s₀.driver ws s := by
  induction hrun with
  | start => exact ⟨[], hfresh.handlerFirst hunmasked⟩
  | step before meets taken ih =>
      obtain ⟨ws, h⟩ := ih
      exact h.step meets taken

/-! ## Where the packets begin -/

/-- The mouse acknowledges twice, and before it reports a movement. -/
theorem HandlerFirst.acknowledged (h : HandlerFirst config start ws s) :
    Ps2.Settings.replies ⟨config, none, false⟩ ws ++
        s.reported.flatMap MousePacket.bytes <+:
      0xFA :: 0xFA :: s.reported.flatMap MousePacket.bytes := by
  by_cases hreported : s.reported = []
  · obtain ⟨k, hk, rfl⟩ := prefix_setupWrites h.progress.ws_begin
    rw [hreported, List.flatMap_nil, List.append_nil]
    interval_cases k <;> exact ⟨_, rfl⟩
  · have hreporting := h.reporting hreported
    rw [h.progress.settings] at hreporting
    rw [h.progress.consequences.last hreporting]
    exact List.prefix_rfl

theorem HandlerFirst.handled_begins (h : HandlerFirst config start ws s) :
    s.handled <+: 0xFA :: 0xFA :: s.reported.flatMap MousePacket.bytes := by
  refine List.IsPrefix.trans ?_ h.acknowledged
  rw [← h.bytes, List.append_assoc]
  exact List.prefix_append _ _

theorem mouseHandler_ready (d : Mouse × Vga) (b : UInt8) :
    mouseHandler d ⟨0x21, b⟩ = d.1.take d.2 b := by
  have hready : ¬ ((0x21 : UInt8) &&& 1 = 0 ∨ (0x21 : UInt8) &&& 0x20 = 0) := by
    decide
  exact if_neg hready

/-- The pointer after bytes that are all from the mouse. -/
theorem takeAll_state (v : Vga) (bytes : List UInt8) :
    (takeAll (Mouse.initial, v) bytes).1.state =
      (packets bytes).foldl MouseState.follow Mouse.initial.state := by
  have hpolls : takeAll (Mouse.initial, v) bytes =
      (bytes.map fun b => (⟨0x21, b⟩ : Poll)).foldl mouseHandler
        (Mouse.initial, v) := by
    simp only [List.foldl_map, mouseHandler_ready, takeAll]
  rw [hpolls, (Marked.initial v).foldl, List.nil_append, mouseBytes_ready]

/-- No packet begins with an acknowledgement. -/
theorem MousePacket.triple_ne (p : MousePacket) (a b : UInt8) :
    p.triple ≠ (0xFA, a, b) := by
  intro hsame
  have hfirst : p.first = 0xFA := congrArg Prod.fst hsame
  have hrange := p.inRange
  rw [hfirst] at hrange
  exact absurd hrange (by decide)

theorem first_shifted {handled : List UInt8} {ps : List MousePacket}
    (hbegins : handled <+: 0xFA :: 0xFA :: ps.flatMap MousePacket.bytes)
    (hthree : 3 ≤ handled.length) : ∃ p ∈ ps.head?,
      (packets handled).head? = some (0xFA, 0xFA, p.first) := by
  cases ps with
  | nil =>
      have hlength := hbegins.length_le
      simp at hlength
      omega
  | cons p ps =>
      refine ⟨p, rfl, ?_⟩
      have hbytes : (p :: ps).flatMap MousePacket.bytes =
          p.first :: p.second :: p.third ::
            ps.flatMap MousePacket.bytes := rfl
      rw [hbytes] at hbegins
      rcases handled with _ | ⟨a, _ | ⟨b, _ | ⟨c, rest⟩⟩⟩
      · simp at hthree
      · simp at hthree
      · simp at hthree
      · obtain ⟨rfl, hsecond⟩ := List.cons_prefix_cons.mp hbegins
        obtain ⟨rfl, hthird⟩ := List.cons_prefix_cons.mp hsecond
        obtain ⟨rfl, -⟩ := List.cons_prefix_cons.mp hthird
        rw [packets_packet (by decide)]
        rfl

/-- If interrupts come in time, the handler's bytes begin with the two
acknowledgements: the pointer moves by packets that are shifted by two bytes,
and the first of them is none that the mouse could have reported. -/
theorem mouseInit_shifts {s₀ : MouseSetup} {v : Vga} (hfresh : s₀.Fresh config)
    (hdriver : s₀.driver = (Mouse.initial, v))
    (hunmasked : s₀.unmasked .mouse = true)
    (hrun : SetupRun MouseSetup.InTime s₀ s) :
    s.handled <+: 0xFA :: 0xFA :: s.reported.flatMap MousePacket.bytes ∧
    s.driver.1.state =
      (packets s.handled).foldl MouseState.follow Mouse.initial.state ∧
    (3 ≤ s.handled.length → ∃ p ∈ s.reported.head?,
      (packets s.handled).head? = some (0xFA, 0xFA, p.first) ∧
      ∀ q : MousePacket, q.triple ≠ (0xFA, 0xFA, p.first)) := by
  obtain ⟨ws, h⟩ := hrun.handlerFirst hfresh hunmasked
  have hbegins := h.handled_begins
  refine ⟨hbegins, ?_, ?_⟩
  · rw [h.driver, hdriver, takeAll_state]
  · intro hthree
    obtain ⟨p, hp, hfirst⟩ := first_shifted hbegins hthree
    exact ⟨p, hp, hfirst, fun q => q.triple_ne _ _⟩

theorem mouseInit_shifts_mouseOn :
    mouseOn.handled <+:
      0xFA :: 0xFA :: mouseOn.reported.flatMap MousePacket.bytes ∧
    mouseOn.driver.1.state = (packets mouseOn.handled).foldl MouseState.follow
      Mouse.initial.state ∧
    (3 ≤ mouseOn.handled.length → ∃ p ∈ mouseOn.reported.head?,
      (packets mouseOn.handled).head? = some (0xFA, 0xFA, p.first) ∧
      ∀ q : MousePacket, q.triple ≠ (0xFA, 0xFA, p.first)) :=
  mouseInit_shifts mouseOff_fresh rfl rfl mouseOn_reached

example : mouseOn.handled = [0xFA, 0xFA, 0x08] := by decide +kernel

end Otsos
