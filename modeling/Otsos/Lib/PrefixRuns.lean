import Mathlib.Data.List.Basic
import Mathlib.Data.List.Induction

/-!
# Runs compared after every prefix

Two machines that start in one state and read the same input are in the same
state after every prefix of it exactly if each next symbol takes them to the
same state from where both are.
-/

namespace Lib

variable {σ α : Type*} {f g : σ → α → σ} {s : σ} {ps qs : List α} {p : α}

theorem prefix_of_concat (h : qs ++ [p] <+: ps) : qs <+: ps :=
  (List.prefix_append _ _).trans h

theorem foldl_prefixes_iff :
    (∀ qs, qs <+: ps → qs.foldl f s = qs.foldl g s) ↔
      ∀ qs p, qs ++ [p] <+: ps →
        f (qs.foldl g s) p = g (qs.foldl g s) p := by
  constructor
  · intro hall qs p hprefix
    have hlong := hall (qs ++ [p]) hprefix
    rwa [List.foldl_concat, List.foldl_concat,
      hall qs (prefix_of_concat hprefix)] at hlong
  · intro hsteps qs
    induction qs using List.reverseRecOn with
    | nil => exact fun _ => rfl
    | append_singleton qs p ih =>
        intro hprefix
        rw [List.foldl_concat, List.foldl_concat,
          ih (prefix_of_concat hprefix), hsteps qs p hprefix]

/-- What every step keeps holds after every prefix. -/
theorem foldl_keeps {P : σ → Prop} (hstep : ∀ s p, P s → P (g s p))
    (hs : P s) (qs : List α) : P (qs.foldl g s) := by
  induction qs generalizing s with
  | nil => exact hs
  | cons p qs ih => exact ih (hstep s p hs)

end Lib
