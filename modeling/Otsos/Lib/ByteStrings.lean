import Otsos.Lib.ByteMemory

/-!
# Strings in memory

Strings that a zero ends, and what a store leaves of them.
-/

namespace Lib

/-- A string without zeros inside it, and its terminator. -/
def StringAt (m : Memory) : ℕ → List UInt8 → Prop
  | a, [] => m a = 0
  | a, c :: cs => m a = c ∧ c ≠ 0 ∧ StringAt m (a + 1) cs

variable {m : Memory} {a : ℕ} {c : UInt8} {cs first rest : List UInt8}

theorem StringAt.set_outside (h : StringAt m a cs) {x : ℕ} (v : UInt8)
    (hx : x < a ∨ a + cs.length < x) : StringAt (m.set x v) a cs := by
  induction cs generalizing a with
  | nil =>
      refine (Memory.set_other _ _ ?_).trans h
      simp only [List.length_nil] at hx
      omega
  | cons c cs ih =>
      obtain ⟨hhead, hc, hrest⟩ := h
      rw [List.length_cons] at hx
      refine ⟨(Memory.set_other _ _ (by omega)).trans hhead, hc, ?_⟩
      exact ih hrest (by omega)

/-- A zero in place of a character leaves the strings on both sides of it. -/
theorem StringAt.cut (h : StringAt m a (first ++ c :: rest)) :
    StringAt (m.set (a + first.length) 0) a first ∧
      StringAt (m.set (a + first.length) 0) (a + first.length + 1) rest := by
  induction first generalizing a with
  | nil =>
      obtain ⟨-, -, hrest⟩ := h
      exact ⟨Memory.set_same _ _ _,
        hrest.set_outside 0 (Or.inl (Nat.lt_succ_self a))⟩
  | cons d first ih =>
      obtain ⟨hhead, hd, htail⟩ := h
      obtain ⟨hfirst, hrest⟩ := ih htail
      rw [List.length_cons]
      rw [show a + 1 + first.length = a + (first.length + 1) by omega]
        at hfirst hrest
      exact ⟨⟨(Memory.set_other _ _ (by omega)).trans hhead, hd, hfirst⟩,
        hrest⟩

end Lib
