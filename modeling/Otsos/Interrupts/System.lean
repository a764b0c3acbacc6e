import Otsos.Interrupts.Stubs

/-!
# Interrupts of the running kernel

Processor, controllers and devices together.  Between interrupts the processor
runs code of the kernel, of which only this is assumed: it keeps the tables and
room on its stack.  Devices act at any time, also while `irq_handler` runs.
-/

namespace Otsos

open Lib Lib.X64

/-- `interrupted` is a ghost: the state that an interrupt saved, and its
vector, while the handler runs. -/
structure InterruptSystem where
  cpu : Cpu
  pics : PicPair
  interrupted : Option (Cpu × ℕ)

/-- The processor can take an interrupt. -/
structure Interruptible (k : InterruptImage) (c : Cpu) : Prop where
  loaded : IdtLoaded k c
  room : 192 ≤ c.alignedRsp.toNat

/-- After `init_idt`. -/
def InterruptSystem.start (k : InterruptImage) (c : Cpu) (s : PicPair) :
    InterruptSystem :=
  ⟨(initIdt k c s).1, (initIdt k c s).2, none⟩

/-- The last statement of `irq_handler` reads the number from `regs`. -/
def InterruptSystem.irqHandlerEnd (s : InterruptSystem) : PicPair :=
  irqEnd s.pics (registersAt s.cpu.mem (s.cpu.gpr .rdi)).intNo

inductive InterruptStep (k : InterruptImage) :
    InterruptSystem → InterruptSystem → Prop where
  | request {s n} (device : n ∈ PicPair.lines) :
      InterruptStep k s { s with pics := s.pics.request n }
  | withdraw {s n} (device : n ∈ PicPair.lines) :
      InterruptStep k s { s with pics := s.pics.withdraw n }
  | kernel {s c} (idle : s.interrupted = none) (ready : Interruptible k c) :
      InterruptStep k s { s with cpu := c }
  | take {s vector pics c rf} (enabled : s.cpu.rflags &&& 0x200 ≠ 0)
      (taken : s.pics.acknowledge = some (vector, pics))
      (called : k.atHandler s.cpu vector none rf = some c) :
      InterruptStep k s ⟨c, pics, some (s.cpu.saved rf, vector)⟩
  | finish {s c₀ vector c} (handling : s.interrupted = some (c₀, vector))
      (returned : Returned 176 s.cpu c) (kept : IdtLoaded k c) :
      InterruptStep k s ⟨run id (stubExit vector) c, s.irqHandlerEnd, none⟩

inductive InterruptRun (k : InterruptImage) (s₀ : InterruptSystem) :
    InterruptSystem → Prop where
  | start : InterruptRun k s₀ s₀
  | step {s s'} (before : InterruptRun k s₀ s) (step : InterruptStep k s s') :
      InterruptRun k s₀ s'

/-- While a handler runs. -/
structure Handling (k : InterruptImage) (masks : UInt8 × UInt8)
    (s : InterruptSystem) (c₀ : Cpu) (vector : ℕ) : Prop where
  ready : Interruptible k c₀
  called : ∃ c rf, c.saved rf = c₀ ∧
    k.atHandler c vector none rf = some s.cpu
  serving : ∃ served, InService vector served ∧ Remapped masks served s.pics

/-- The invariant. -/
def Ordered (k : InterruptImage) (masks : UInt8 × UInt8)
    (s : InterruptSystem) : Prop :=
  match s.interrupted with
  | none => Interruptible k s.cpu ∧ Remapped masks (none, none) s.pics
  | some (c₀, vector) => Handling k masks s c₀ vector

variable {k : InterruptImage} {masks : UInt8 × UInt8} {s s' : InterruptSystem}
  {c c₀ c₁ : Cpu} {vector : ℕ} {rf : Bool}

theorem InService.bounds {served : Option ℕ × Option ℕ}
    (h : InService vector served) : 32 ≤ vector ∧ vector < 48 := by
  cases h with
  | master line => omega
  | slave line => omega
  | spuriousMaster => omega
  | spuriousSlave => omega

theorem IdtLoaded.saved_iff : IdtLoaded k (c.saved rf) ↔ IdtLoaded k c :=
  ⟨fun h => h.congr rfl rfl (fun _ _ _ => rfl) fun _ _ _ => rfl,
    fun h => h.congr rfl rfl (fun _ _ _ => rfl) fun _ _ _ => rfl⟩

namespace Handling

theorem bounds (h : Handling k masks s c₀ vector) :
    32 ≤ vector ∧ vector < 48 := by
  obtain ⟨served, hserved, -⟩ := h.serving
  exact hserved.bounds

theorem entered (h : Handling k masks s c₀ vector) :
    AtHandler c₀ vector none s.cpu ∧
      registersAt s.cpu.mem (s.cpu.gpr .rdi) = contextOf c₀ vector 0 ∧
      ∀ c, Returned 176 s.cpu c →
        run id (stubExit vector) c = { c₀ with mem := c.mem } := by
  obtain ⟨hlow, hhigh⟩ := h.bounds
  obtain ⟨c, rf, rfl, hsame⟩ := h.called
  have hloaded := IdtLoaded.saved_iff.mp h.ready.loaded
  obtain ⟨c', hcall, hat, hregisters, hresumes⟩ :=
    @IdtLoaded.interrupt_device k c vector rf hloaded hlow hhigh h.ready.room
  rw [hcall] at hsame
  cases hsame
  exact ⟨hat, hregisters, hresumes⟩

theorem resumed (h : Handling k masks s c₀ vector)
    (hreturned : Returned 176 s.cpu c) (hkept : IdtLoaded k c) :
    Interruptible k { c₀ with mem := c.mem } := by
  obtain ⟨hat, -, -⟩ := h.entered
  refine ⟨hkept.congr ?_ ?_ (fun _ _ _ => rfl) fun _ _ _ => rfl,
    h.ready.room⟩
  · rw [hkept.idtr]
    exact h.ready.loaded.idtr
  · rw [hreturned.gdtr, hat.gdtr]

theorem ended (h : Handling k masks s c₀ vector) :
    Remapped masks (none, none) s.irqHandlerEnd ∧
      ∀ n ∈ PicPair.lines,
        s.irqHandlerEnd.requested n = s.pics.requested n := by
  obtain ⟨-, hregisters, -⟩ := h.entered
  obtain ⟨served, hserved, hpics⟩ := h.serving
  rw [InterruptSystem.irqHandlerEnd, hregisters]
  exact hpics.finish hserved

end Handling

namespace Ordered

theorem of_idle {pics : PicPair} (hready : Interruptible k c)
    (hpics : Remapped masks (none, none) pics) :
    Ordered k masks ⟨c, pics, none⟩ := ⟨hready, hpics⟩

theorem start (h : BeforeIdt k c) (hroom : 192 ≤ c.alignedRsp.toNat)
    (s₀ : PicPair) :
    Ordered k (s₀.inb pic1Data, s₀.inb pic2Data)
      (InterruptSystem.start k c s₀) := by
  have hpics := picRemap_remapped s₀
  rw [← initIdt_pics (k := k) (c := c)] at hpics
  exact of_idle ⟨h.loaded s₀, hroom⟩ hpics

/-- The devices change neither the processor nor what is in service. -/
theorem devices {pics : PicPair} (h : Ordered k masks s)
    (hpics : ∀ served, Remapped masks served s.pics →
      Remapped masks served pics) :
    Ordered k masks { s with pics := pics } := by
  unfold Ordered at h ⊢
  cases hinterrupted : s.interrupted with
  | none =>
      rw [hinterrupted] at h
      exact ⟨h.1, hpics _ h.2⟩
  | some left =>
      rw [hinterrupted] at h
      obtain ⟨hready, hcalled, served, hserved, hserving⟩ := h
      exact ⟨hready, hcalled, served, hserved, hpics _ hserving⟩

theorem idle (h : Ordered k masks s) (hidle : s.interrupted = none) :
    Interruptible k s.cpu ∧ Remapped masks (none, none) s.pics := by
  rw [Ordered, hidle] at h
  exact h

theorem handling (h : Ordered k masks s)
    (hhandling : s.interrupted = some (c₀, vector)) :
    Handling k masks s c₀ vector := by
  rw [Ordered, hhandling] at h
  exact h

/-- Interrupts are disabled while a handler runs. -/
theorem idle_of_enabled (h : Ordered k masks s)
    (henabled : s.cpu.rflags &&& 0x200 ≠ 0) : s.interrupted = none := by
  cases hinterrupted : s.interrupted with
  | none => rfl
  | some left => exact absurd (h.handling hinterrupted).entered.1.masked henabled

theorem step (h : Ordered k masks s) (hstep : InterruptStep k s s') :
    Ordered k masks s' := by
  cases hstep with
  | request device => exact h.devices fun _ hpics => hpics.request _
  | withdraw device => exact h.devices fun _ hpics => hpics.withdraw device
  | kernel idle ready =>
      have hpics := (h.idle idle).2
      rw [Ordered, idle]
      exact ⟨ready, hpics⟩
  | take enabled taken called =>
      obtain ⟨hready, hpics⟩ := h.idle (h.idle_of_enabled enabled)
      obtain ⟨vector, pics, served, htaken, hserving, hserved, -⟩ := hpics.take
      rw [htaken] at taken
      cases taken
      exact ⟨⟨IdtLoaded.saved_iff.mpr hready.loaded, hready.room⟩,
        ⟨_, _, rfl, called⟩, served, hserved, hserving⟩
  | finish handling returned kept =>
      have hhandling := h.handling handling
      have hresumes := hhandling.entered.2.2 _ returned
      refine ⟨?_, hhandling.ended.1⟩
      show Interruptible k (run id _ _)
      rw [hresumes]
      exact hhandling.resumed returned kept

theorem run (h : Ordered k masks s) (hrun : InterruptRun k s s') :
    Ordered k masks s' := by
  induction hrun with
  | start => exact h
  | step before step ih => exact ih.step step

/-- An interrupt that is requested is taken: its stub gets to the call. -/
theorem take (h : Ordered k masks s)
    (henabled : s.cpu.rflags &&& 0x200 ≠ 0) (rf : Bool) :
    ∃ vector pics c,
      InterruptStep k s ⟨c, pics, some (s.cpu.saved rf, vector)⟩ ∧
        Taken s.pics vector pics := by
  obtain ⟨hready, hpics⟩ := h.idle (h.idle_of_enabled henabled)
  obtain ⟨vector, pics, served, htaken, -, hserved, htake⟩ := hpics.take
  obtain ⟨hlow, hhigh⟩ := hserved.bounds
  obtain ⟨c, hcalled, -⟩ :=
    @IdtLoaded.interrupt_device k s.cpu vector rf hready.loaded hlow hhigh
      hready.room
  exact ⟨vector, pics, c, .take henabled htaken hcalled, htake⟩

end Ordered

/-- From `init_idt` on, whatever devices and kernel do, and in whatever order:
an interrupt is only taken outside a handler, and comes to its stub's call.
The handler finds the saved context with the vector in its argument; once it
returns, the interrupted code goes on with all its registers, nothing is in
service, and no request was forgotten. -/
theorem interrupts_transparent (h : BeforeIdt k c)
    (hroom : 192 ≤ c.alignedRsp.toNat) (s₀ : PicPair)
    (hrun : InterruptRun k (.start k c s₀) s) :
    match s.interrupted with
    | none =>
        s.cpu.rflags &&& 0x200 ≠ 0 → ∀ rf, ∃ vector pics c,
          InterruptStep k s ⟨c, pics, some (s.cpu.saved rf, vector)⟩ ∧
            Taken s.pics vector pics
    | some (c₀, vector) =>
        s.cpu.rflags &&& 0x200 = 0 ∧
          registersAt s.cpu.mem (s.cpu.gpr .rdi) = contextOf c₀ vector 0 ∧
          (∀ c, Returned 176 s.cpu c →
            run id (stubExit vector) c = { c₀ with mem := c.mem }) ∧
          Remapped (s₀.inb pic1Data, s₀.inb pic2Data) (none, none)
            s.irqHandlerEnd ∧
          ∀ n ∈ PicPair.lines,
            s.irqHandlerEnd.requested n = s.pics.requested n := by
  have hordered := (Ordered.start h hroom s₀).run hrun
  cases hinterrupted : s.interrupted with
  | none => exact hordered.take
  | some left =>
      obtain ⟨hat, hregisters, hresumes⟩ :=
        (hordered.handling hinterrupted).entered
      obtain ⟨hended, hrequested⟩ := (hordered.handling hinterrupted).ended
      exact ⟨hat.masked, hregisters, hresumes, hended, hrequested⟩

/-- The keyboard's interrupt: its handler finds the saved context, and when it
returns without having done anything the interrupted code goes on. -/
theorem interrupts_transparent_smallCpu : ∃ s₀ s s' c₀,
    InterruptRun smallImage (.start smallImage smallCpu s₀) s ∧
      s.interrupted = some (c₀, 33) ∧
      registersAt s.cpu.mem (s.cpu.gpr .rdi) = contextOf c₀ 33 0 ∧
      InterruptStep smallImage s s' ∧ s'.interrupted = none ∧
      s'.cpu = { c₀ with mem := s.cpu.mem } ∧
      Remapped (0xB8, 0xEF) (none, none) s'.pics := by
  let s₀ : PicPair := ⟨remapped 8 4 0xB8, remapped 0x70 2 0xEF⟩
  let idle := InterruptSystem.start smallImage smallCpu s₀
  have hrequested : InterruptRun smallImage idle
      { idle with pics := idle.pics.request 1 } :=
    .step .start (.request (by decide))
  obtain ⟨vector, pics, c, hstep, htaken⟩ := interrupts_transparent
    smallCpu_beforeIdt (by decide) s₀ hrequested (by decide) false
  have hline : (idle.pics.request 1).nextLine = some 1 := by decide +kernel
  have hkeyboard : vector = 33 := by
    cases htaken with
    | line next requested =>
        rw [show (idle.pics.request 1).nextLine = some _ from next] at hline
        cases hline
        rfl
    | spuriousMaster next requested =>
        rw [show (idle.pics.request 1).nextLine = none from next] at hline
        cases hline
    | spuriousSlave stale answered requested =>
        have hmaster : (idle.pics.request 1).master.next = some 1 := by
          decide +kernel
        rw [show (idle.pics.request 1).master.next = some 2 from stale.1]
          at hmaster
        cases hmaster
  subst hkeyboard
  have hrun := hrequested.step hstep
  obtain ⟨hat, -⟩ := (((Ordered.start smallCpu_beforeIdt (by decide)
    s₀).run hrun).handling rfl).entered
  obtain ⟨-, hregisters, hresumes, hended, -⟩ :=
    interrupts_transparent smallCpu_beforeIdt (by decide) s₀ hrun
  have hloaded : IdtLoaded smallImage (idle.cpu.saved false) :=
    IdtLoaded.saved_iff.mpr (smallCpu_beforeIdt.loaded s₀)
  have hreturned : Returned 176 c c := ⟨rfl, fun _ _ _ => rfl, rfl, rfl⟩
  exact ⟨s₀, _, _, _, hrun, rfl, hregisters,
    .finish rfl hreturned (hat.loaded hloaded (by decide) (by decide)), rfl,
    hresumes c hreturned, hended⟩

end Otsos
