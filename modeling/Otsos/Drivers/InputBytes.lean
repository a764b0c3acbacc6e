import Otsos.Drivers.InputSystem

/-!
# Which bytes get lost

In every run, no byte of the keyboard or the mouse is lost exactly as long as
every step is a careful one.
-/

namespace Otsos

namespace InputSystem

variable {s s' : InputSystem} {i : InputStep} {args : ScanfArgs}
  {keys moves : List UInt8}

/-- Neither device's bytes change. -/
structure Kept (s s' : InputSystem) : Prop where
  keys : s'.keyBytes = s.keyBytes
  moves : s'.mouseBytes = s.mouseBytes

/-- What waits for `scanf` between its two reads is a key. -/
def KeyAwaited (s : InputSystem) : Prop :=
  s.pc = .scancode → s.controller.latch.fromMouse = false

/-! ## The controller -/

theorem sendKey_cases (h : s.sendKey = some s') :
    s.controller.full = false ∧ ∃ k ks, s.controller.keys = k :: ks ∧
      s' = { s with
        controller := ⟨⟨false, k⟩, true, ks, s.controller.moves⟩
        keyRequested := true } := by
  unfold sendKey at h
  split at h
  · rename_i k ks hfull hkeys
    cases h
    exact ⟨hfull, k, ks, hkeys, rfl⟩
  · cases h

theorem sendMove_cases (h : s.sendMove = some s') :
    s.controller.full = false ∧ ∃ b bs, s.controller.moves = b :: bs ∧
      s' = { s with
        controller := ⟨⟨true, b⟩, true, s.controller.keys, bs⟩
        mouseRequested := true } := by
  unfold sendMove at h
  split at h
  · rename_i b bs hfull hmoves
    cases h
    exact ⟨hfull, b, bs, hmoves, rfl⟩
  · cases h

theorem sendKey_kept_iff (h : s.sendKey = some s') :
    Kept s s' ↔ s.pc ≠ .scancode := by
  obtain ⟨hempty, k, ks, hkeys, rfl⟩ := sendKey_cases h
  have hmoves : mouseBytes { s with
      controller := ⟨⟨false, k⟩, true, ks, s.controller.moves⟩
      keyRequested := true } = s.mouseBytes := by
    simp [mouseBytes, owedMoves, hempty]
  constructor
  · intro hkept hpc
    have hlength := congrArg List.length hkept.keys
    simp [keyBytes, owedKeys, hpc, hkeys] at hlength
  · intro hpc
    refine ⟨?_, hmoves⟩
    simp [keyBytes, owedKeys, hpc, hempty, hkeys]

theorem sendMove_kept_iff (hkey : s.KeyAwaited) (h : s.sendMove = some s') :
    Kept s s' ↔ s.pc ≠ .scancode := by
  obtain ⟨hempty, b, bs, hmoves, rfl⟩ := sendMove_cases h
  constructor
  · intro hkept hpc
    have hsame := hkept.keys
    simp only [keyBytes, owedKeys, hpc, true_or, if_true,
      List.append_cancel_right_eq, List.append_cancel_left_eq,
      List.cons.injEq, and_true] at hsame
    have hsource := hkey hpc
    rw [← hsame] at hsource
    cases hsource
  · intro hpc
    constructor
    · simp [keyBytes, owedKeys, hpc, hempty]
    · simp [mouseBytes, owedMoves, hempty, hmoves]

/-! ## The interrupts -/

theorem status_full (c : Controller) :
    c.status &&& 1 = 0 ↔ c.full = false := by
  rw [Controller.status]
  cases c.full <;> cases c.latch.fromMouse <;> decide

theorem status_fromMouse (c : Controller) :
    c.status &&& 0x20 = 0 ↔ c.latch.fromMouse = false := by
  rw [Controller.status]
  cases c.full <;> cases c.latch.fromMouse <;> decide

theorem interrupt_keyboard_cases (h : s.interrupt .keyboard = some s') :
    s' = { s with
      keyRequested := false
      controller := { s.controller with full := false } } := by
  simp only [interrupt] at h
  split at h
  · cases h
    rfl
  · cases h

theorem interrupt_mouse_cases (h : s.interrupt .mouse = some s') :
    s' = { s with mouseRequested := false } ∨
      (s.controller.full = true ∧ s.controller.latch.fromMouse = true) ∧
        ∃ mouse scanf, s' = { s with
          mouseRequested := false
          controller := { s.controller with full := false }
          mouse := mouse
          scanf := scanf
          consumed := s.consumed ++ [s.controller.latch] } := by
  simp only [interrupt] at h
  split at h
  · rw [Option.some.injEq] at h
    change mouseHandler { s with mouseRequested := false } = s' at h
    unfold mouseHandler at h
    dsimp only at h
    split at h
    · exact Or.inl h.symm
    · rename_i hmouse
      rw [status_full, status_fromMouse, not_or, Bool.not_eq_false,
        Bool.not_eq_false] at hmouse
      exact Or.inr ⟨hmouse, _, _, h.symm⟩
  · cases h

theorem discarded_kept_iff (hpc : s.pc ≠ .scancode)
    (hkeys : s'.keyBytes =
      s.decoded ++ s.controller.keys.map (InputByte.mk false))
    (hmoves : s'.mouseBytes =
      s.consumed ++ s.controller.moves.map (InputByte.mk true)) :
    Kept s s' ↔ s.controller.full = false := by
  constructor
  · intro hkept
    by_contra hfull
    rw [Bool.not_eq_false] at hfull
    have hkey := congrArg List.length (hkeys.symm.trans hkept.keys)
    have hmove := congrArg List.length (hmoves.symm.trans hkept.moves)
    cases hsource : s.controller.latch.fromMouse with
    | false => simp [keyBytes, owedKeys, hfull, hsource] at hkey
    | true => simp [mouseBytes, owedMoves, hfull, hsource] at hmove
  · intro hempty
    constructor
    · rw [hkeys]
      simp [keyBytes, owedKeys, hpc, hempty]
    · rw [hmoves]
      simp [mouseBytes, owedMoves, hempty]

theorem interrupt_keyboard_kept_iff (hkey : s.KeyAwaited)
    (h : s.interrupt .keyboard = some s') :
    Kept s s' ↔ (s.controller.full → s.pc = .scancode) := by
  rw [interrupt_keyboard_cases h]
  by_cases hpc : s.pc = .scancode
  · refine iff_of_true ⟨?_, ?_⟩ fun _ => hpc
    · simp [keyBytes, owedKeys, hpc]
    · simp [mouseBytes, owedMoves, hkey hpc]
  · rw [discarded_kept_iff hpc]
    · simp [hpc]
    · simp [keyBytes, owedKeys, hpc]
    · simp [mouseBytes, owedMoves]

theorem interrupt_mouse_kept (hkey : s.KeyAwaited)
    (h : s.interrupt .mouse = some s') : Kept s s' := by
  rcases interrupt_mouse_cases h with
    rfl | ⟨⟨hfull, hsource⟩, mouse, scanf, rfl⟩
  · exact ⟨rfl, rfl⟩
  · have hpc : s.pc ≠ .scancode := by
      intro hpc
      rw [hkey hpc] at hsource
      cases hsource
    constructor
    · simp [keyBytes, owedKeys, hpc, hsource]
    · simp [mouseBytes, owedMoves, hfull, hsource]

/-! ## Polling -/

theorem poll_loop_cases (hpc : s.pc = .loop) (h : s.poll = some s') :
    s' = s ∨
      s' = { s with pc := .discard } ∨
      (s.controller.full = true ∧ s.controller.latch.fromMouse = false ∧
        s' = { s with pc := .scancode }) ∨
      ∃ scanf, s' = { s with pc := .caller, scanf := scanf } := by
  simp only [poll, hpc] at h
  split at h
  · split at h
    · exact Or.inl (Option.some.inj h).symm
    · rename_i hfull
      rw [status_full, Bool.not_eq_false] at hfull
      split at h
      · exact Or.inr (Or.inl (Option.some.inj h).symm)
      · rename_i hsource
        rw [not_not, status_fromMouse] at hsource
        exact Or.inr (Or.inr (Or.inl
          ⟨hfull, hsource, (Option.some.inj h).symm⟩))
  · exact Or.inr (Or.inr (Or.inr ⟨_, (Option.some.inj h).symm⟩))

theorem poll_scancode_cases (hpc : s.pc = .scancode) (h : s.poll = some s') :
    ∃ scanf pc, pc ≠ .scancode ∧ s' = { s with
      controller := { s.controller with full := false }
      scanf := scanf
      pc := pc
      decoded := s.decoded ++ [s.controller.latch] } := by
  simp only [poll, hpc, Option.some.injEq] at h
  refine ⟨_, _, ?_, h.symm⟩
  split
  · exact ScanfPc.noConfusion
  · exact ScanfPc.noConfusion

theorem poll_kept_iff (hkey : s.KeyAwaited) (h : s.poll = some s') :
    Kept s s' ↔ (s.pc = .discard → s.controller.full = false) := by
  cases hpc : s.pc with
  | loop =>
      refine iff_of_true ?_ fun hdiscard => by cases hdiscard
      rcases poll_loop_cases hpc h with rfl | rfl | ⟨hfull, hsource, rfl⟩ |
        ⟨scanf, rfl⟩
      · exact ⟨rfl, rfl⟩
      · exact ⟨by simp [keyBytes, owedKeys, hpc], rfl⟩
      · exact ⟨by simp [keyBytes, owedKeys, hpc, hfull, hsource], rfl⟩
      · exact ⟨by simp [keyBytes, owedKeys, hpc], rfl⟩
  | discard =>
      simp only [poll, hpc, Option.some.injEq] at h
      subst h
      rw [discarded_kept_iff (by rw [hpc]; exact ScanfPc.noConfusion)]
      · simp
      · simp [keyBytes, owedKeys, Controller.read]
      · simp [mouseBytes, owedMoves, Controller.read]
  | scancode =>
      refine iff_of_true ?_ fun hdiscard => by cases hdiscard
      obtain ⟨scanf, pc, hnext, rfl⟩ := poll_scancode_cases hpc h
      constructor
      · simp [keyBytes, owedKeys, hpc, hnext]
      · simp [mouseBytes, owedMoves, hkey hpc]
  | caller =>
      simp only [poll, hpc] at h
      cases h

/-! ## Every step -/

theorem call_kept (h : s.call args = some s') : Kept s s' := by
  unfold call at h
  split at h
  · rename_i hpc
    cases h
    exact ⟨by simp [keyBytes, owedKeys, hpc], rfl⟩
  · cases h

theorem step_kept_iff (hkey : s.KeyAwaited) (h : s.step i = some s') :
    Kept s s' ↔ s.Careful i := by
  cases i with
  | sendKey => exact sendKey_kept_iff h
  | sendMove => exact sendMove_kept_iff hkey h
  | interrupt irq =>
      cases irq with
      | keyboard => exact interrupt_keyboard_kept_iff hkey h
      | mouse => exact iff_of_true (interrupt_mouse_kept hkey h) trivial
  | poll => exact poll_kept_iff hkey h
  | call args => exact iff_of_true (call_kept h) trivial

theorem KeyAwaited.step (hkey : s.KeyAwaited) (hcareful : s.Careful i)
    (h : s.step i = some s') : s'.KeyAwaited := by
  intro hpc'
  cases i with
  | sendKey =>
      obtain ⟨-, k, ks, -, rfl⟩ := sendKey_cases h
      rfl
  | sendMove =>
      obtain ⟨-, b, bs, -, rfl⟩ := sendMove_cases h
      exact absurd hpc' hcareful
  | interrupt irq =>
      cases irq with
      | keyboard =>
          rw [interrupt_keyboard_cases h] at hpc' ⊢
          exact hkey hpc'
      | mouse =>
          rcases interrupt_mouse_cases h with rfl | ⟨-, mouse, scanf, rfl⟩
          · exact hkey hpc'
          · exact hkey hpc'
  | poll =>
      cases hpc : s.pc with
      | loop =>
          rcases poll_loop_cases hpc h with rfl | rfl | ⟨-, hsource, rfl⟩ |
            ⟨scanf, rfl⟩
          · exact hkey hpc'
          · cases hpc'
          · exact hsource
          · cases hpc'
      | discard =>
          simp only [InputSystem.step, poll, hpc, Option.some.injEq] at h
          subst h
          cases hpc'
      | scancode =>
          obtain ⟨scanf, pc, hnext, rfl⟩ := poll_scancode_cases hpc h
          exact absurd hpc' hnext
      | caller =>
          simp only [InputSystem.step, poll, hpc] at h
          cases h
  | call args =>
      simp only [InputSystem.step, call] at h
      split at h
      · cases h
        cases hpc'
      · cases h

/-! ## Every run -/

variable {s₀ : InputSystem} {trace : List (InputSystem × InputStep)}

theorem Fresh.noneLost (h : Fresh keys moves s) : NoneLost keys moves s := by
  have hpc : s.pc ≠ .scancode := by
    rcases h.loop with hpc | hpc
    · rw [hpc]; exact ScanfPc.noConfusion
    · rw [hpc]; exact ScanfPc.noConfusion
  constructor
  · simp [keyBytes, owedKeys, hpc, h.empty, h.decoded, h.keys]
  · simp [mouseBytes, owedMoves, h.empty, h.consumed, h.moves]

theorem Fresh.keyAwaited (h : Fresh keys moves s) : s.KeyAwaited := by
  intro hpc
  rcases h.loop with hloop | hcaller
  · rw [hloop] at hpc
    cases hpc
  · rw [hcaller] at hpc
    cases hpc

theorem NoneLost.step_iff (hnone : NoneLost keys moves s)
    (hkey : s.KeyAwaited) (h : s.step i = some s') :
    NoneLost keys moves s' ↔ s.Careful i := by
  rw [← step_kept_iff hkey h]
  constructor
  · intro hnone'
    exact ⟨hnone'.keys.trans hnone.keys.symm, hnone'.moves.trans hnone.moves.symm⟩
  · intro hkept
    exact ⟨hkept.keys.trans hnone.keys, hkept.moves.trans hnone.moves⟩

theorem run_careful (hfresh : Fresh keys moves s₀)
    (hrun : InputRun s₀ trace s) (hcareful : ∀ p ∈ trace, p.1.Careful p.2) :
    NoneLost keys moves s ∧ s.KeyAwaited := by
  induction hrun with
  | start => exact ⟨hfresh.noneLost, hfresh.keyAwaited⟩
  | step before taken ih =>
      obtain ⟨hnone, hkey⟩ :=
        ih fun p hp => hcareful p (List.mem_append_left _ hp)
      have hlast := hcareful _ (List.mem_append_right _ List.mem_cons_self)
      exact ⟨(hnone.step_iff hkey taken).mpr hlast, hkey.step hlast taken⟩

theorem careful_append (hcareful : ∀ p ∈ trace, p.1.Careful p.2)
    (hlast : s.Careful i) : ∀ p ∈ trace ++ [(s, i)], p.1.Careful p.2 := by
  intro p hp
  rcases List.mem_append.mp hp with hp | hp
  · exact hcareful p hp
  · rw [List.mem_singleton.mp hp]
    exact hlast

theorem none_lost_iff (hfresh : Fresh keys moves s₀)
    (hrun : InputRun s₀ trace s) :
    (∀ p ∈ trace, NoneLost keys moves p.1) ∧ NoneLost keys moves s ↔
      ∀ p ∈ trace, p.1.Careful p.2 := by
  induction hrun with
  | start =>
      refine iff_of_true ⟨?_, hfresh.noneLost⟩ ?_
      · intro p hp
        cases hp
      · intro p hp
        cases hp
  | @step trace s i s' before taken ih =>
      constructor
      · rintro ⟨htrace, hlast⟩
        have hbefore : ∀ p ∈ trace, NoneLost keys moves p.1 :=
          fun p hp => htrace p (List.mem_append_left _ hp)
        have hnone : NoneLost keys moves s :=
          htrace (s, i) (List.mem_append_right _ List.mem_cons_self)
        have hcareful := ih.mp ⟨hbefore, hnone⟩
        have hkey := (run_careful hfresh before hcareful).2
        exact careful_append hcareful ((hnone.step_iff hkey taken).mp hlast)
      · intro hcareful
        obtain ⟨htrace, hnone⟩ :=
          ih.mpr fun p hp => hcareful p (List.mem_append_left _ hp)
        constructor
        · intro p hp
          rcases List.mem_append.mp hp with hp | hp
          · exact htrace p hp
          · rw [List.mem_singleton.mp hp]
            exact hnone
        · exact (run_careful hfresh (before.step taken) hcareful).1

/-! ## Runs with one byte from each device -/

/-- `scanf` polling for a line on row 5, with a byte to come from each
device. -/
def oneOfEach : InputSystem where
  controller := ⟨⟨false, 0⟩, false, [0x1E], [0x08]⟩
  keyRequested := false
  mouseRequested := false
  args := ⟨2048, 5, 2, 0x0F⟩
  scanf := ⟨0, fun _ => 0, false, ⟨fun _ => 0, 0, 0⟩, false⟩
  pc := .loop
  mouse := ⟨⟨40, 12, 0⟩, 0, fun _ => 0⟩
  decoded := []
  consumed := []

theorem oneOfEach_fresh : Fresh [0x1E] [0x08] oneOfEach :=
  ⟨rfl, Or.inl rfl, rfl, rfl, rfl, rfl⟩

/-- A key polled before its interrupt is handled is not lost. -/
theorem none_lost_oneOfEach : ∃ trace s, InputRun oneOfEach trace s ∧
    trace.length = 4 ∧ NoneLost [0x1E] [0x08] s := by
  have hrun := (((@InputRun.start oneOfEach).step (i := .sendKey) rfl).step
    (i := .poll) rfl).step (i := .poll) rfl
  have hall := hrun.step (i := .interrupt .keyboard) rfl
  refine ⟨_, _, hall, rfl, ((none_lost_iff oneOfEach_fresh hall).mpr ?_).2⟩
  refine careful_append (careful_append (careful_append (careful_append
    (fun _ hp => nomatch hp) ?_) ?_) ?_) ?_
  · exact ScanfPc.noConfusion
  · exact ScanfPc.noConfusion
  · exact ScanfPc.noConfusion
  · exact Bool.noConfusion

/-- The keyboard interrupt throws away the key that raised it, and `scanf` a
mouse byte. -/
theorem bytes_lost :
    (∃ trace s, InputRun oneOfEach trace s ∧
        ¬ NoneLost [0x1E] [0x08] s ∧ s.keyBytes = []) ∧
      ∃ trace s, InputRun oneOfEach trace s ∧
        ¬ NoneLost [0x1E] [0x08] s ∧ s.mouseBytes = [] := by
  constructor
  · refine ⟨_, _, ((@InputRun.start oneOfEach).step (i := .sendKey) rfl).step
      (i := .interrupt .keyboard) rfl, fun hnone => ?_, rfl⟩
    exact absurd hnone.keys (by decide)
  · refine ⟨_, _, (((@InputRun.start oneOfEach).step (i := .sendMove) rfl).step
      (i := .poll) rfl).step (i := .poll) rfl, fun hnone => ?_, rfl⟩
    exact absurd hnone.moves (by decide)

end InputSystem

end Otsos
