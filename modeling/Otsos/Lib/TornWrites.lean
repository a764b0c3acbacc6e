import Mathlib.Logic.Function.Basic

/-!
# Writes cut short

A store takes its writes one after the other, each as a whole.  If the power
fails, a beginning of them was made, and it does not show how long it is.
-/

namespace Lib

variable {κ β : Type*} [DecidableEq κ] {d d' : κ → β}
  {ws vs : List (κ × β)}

/-- The store after the writes. -/
def afterWrites (d : κ → β) (ws : List (κ × β)) : κ → β :=
  ws.foldl (fun d w => Function.update d w.1 w.2) d

/-- What may be in the store when the power fails. -/
def Torn (d : κ → β) (ws : List (κ × β)) (d' : κ → β) : Prop :=
  ∃ n, d' = afterWrites d (ws.take n)

@[simp] theorem afterWrites_nil : afterWrites d [] = d := rfl

@[simp] theorem afterWrites_cons {w : κ × β} :
    afterWrites d (w :: ws) = afterWrites (Function.update d w.1 w.2) ws :=
  rfl

@[simp] theorem afterWrites_append :
    afterWrites d (ws ++ vs) = afterWrites (afterWrites d ws) vs :=
  List.foldl_append

theorem Torn.all : Torn d ws (afterWrites d ws) :=
  ⟨ws.length, by rw [List.take_length]⟩

@[simp] theorem torn_nil : Torn d [] d' ↔ d' = d := by
  simp only [Torn, List.take_nil, afterWrites_nil, exists_const]

theorem torn_cons {w : κ × β} :
    Torn d (w :: ws) d' ↔
      d' = d ∨ Torn (Function.update d w.1 w.2) ws d' := by
  constructor
  · rintro ⟨n, hn⟩
    cases n with
    | zero => exact Or.inl hn
    | succ n => exact Or.inr ⟨n, hn⟩
  · rintro (hnone | ⟨n, hn⟩)
    · exact ⟨0, hnone⟩
    · exact ⟨n + 1, hn⟩

theorem torn_append :
    Torn d (ws ++ vs) d' ↔ Torn d ws d' ∨ Torn (afterWrites d ws) vs d' := by
  induction ws generalizing d with
  | nil =>
      rw [List.nil_append, afterWrites_nil, torn_nil]
      refine ⟨Or.inr, ?_⟩
      rintro (rfl | htorn)
      · exact ⟨0, rfl⟩
      · exact htorn
  | cons w ws ih =>
      rw [List.cons_append, torn_cons, torn_cons, ih, afterWrites_cons,
        or_assoc]

end Lib
