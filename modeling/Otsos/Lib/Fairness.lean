import Mathlib.Data.Nat.Init
import Mathlib.Tactic.Common

/-!
# Runs under a fair schedule

Several parties take turns in an order that is not known, only that each of
those that matter comes again and again.  A system gets to its goal if in every
other state some party makes progress when it comes, and its turn is not lost
while it has to wait.
-/

namespace Lib

variable {σ κ : Type*}

/-- The state after the first `n` turns. -/
def runFor (step : σ → κ → σ) (schedule : ℕ → κ) (s : σ) : ℕ → σ
  | 0 => s
  | n + 1 => step (runFor step schedule s n) (schedule n)

def ComesAgain (schedule : ℕ → κ) (k : κ) : Prop :=
  ∀ n, ∃ m, n ≤ m ∧ schedule m = k

variable {step : σ → κ → σ} {schedule : ℕ → κ} {s : σ} {I goal : σ → Prop}

theorem runFor_invariant (hstep : ∀ s k, I s → I (step s k)) (h : I s)
    (n : ℕ) : I (runFor step schedule s n) := by
  induction n with
  | zero => exact h
  | succ n ih => exact hstep _ _ ih

/-- Outside the goal the party named by `helpful` brings the rank down, and the
others bring it down or leave it the turn. -/
structure Progress (step : σ → κ → σ) (I goal : σ → Prop) (rank : σ → ℕ)
    (helpful : σ → κ) : Prop where
  keeps : ∀ s k, I s → I (step s k)
  helps : ∀ s, I s → ¬ goal s → rank (step s (helpful s)) < rank s
  waits : ∀ s k, I s → ¬ goal s →
    rank (step s k) < rank s ∨
      rank (step s k) = rank s ∧ helpful (step s k) = helpful s

namespace Progress

variable {rank : σ → ℕ} {helpful : σ → κ}

/-- The rank falls, or the goal is reached, before the helpful party's turn is
over. -/
theorem falls (h : Progress step I goal rank helpful) (hs : I s) {n m : ℕ}
    (hle : n ≤ m)
    (hturn : schedule m = helpful (runFor step schedule s n)) :
    ∃ k, goal (runFor step schedule s k) ∨
      rank (runFor step schedule s k) < rank (runFor step schedule s n) := by
  by_contra hnone
  rw [not_exists] at hnone
  simp only [not_or, Nat.not_lt] at hnone
  -- up to its turn the rank stays, and the party is still the helpful one
  have hsame : ∀ k, n ≤ k → k ≤ m →
      rank (runFor step schedule s k) = rank (runFor step schedule s n) ∧
        helpful (runFor step schedule s k) =
          helpful (runFor step schedule s n) := by
    intro k hk
    induction k, hk using Nat.le_induction with
    | base => exact fun _ => ⟨rfl, rfl⟩
    | succ k hk ih =>
        intro hkm
        obtain ⟨hrank, hhelpful⟩ := ih (by omega)
        have hinv : I (runFor step schedule s k) := runFor_invariant h.keeps hs k
        have hnext := (hnone (k + 1)).2
        rcases h.waits _ (schedule k) hinv (hnone k).1 with hless | ⟨heq, hkeep⟩
        · rw [← hrank] at hnext
          exact absurd hless (Nat.not_lt.mpr hnext)
        · exact ⟨heq.trans hrank, hkeep.trans hhelpful⟩
  obtain ⟨hrank, hhelpful⟩ := hsame m hle (Nat.le_refl m)
  have hinv : I (runFor step schedule s m) := runFor_invariant h.keeps hs m
  have hfalls := h.helps _ hinv (hnone m).1
  rw [hhelpful, ← hturn, hrank] at hfalls
  exact absurd hfalls (Nat.not_lt.mpr (hnone (m + 1)).2)

theorem reaches (h : Progress step I goal rank helpful) (hs : I s)
    (hfair : ∀ s, ComesAgain schedule (helpful s)) :
    ∃ n, goal (runFor step schedule s n) := by
  have hfrom (r : ℕ) : ∀ n, rank (runFor step schedule s n) = r →
      ∃ k, goal (runFor step schedule s k) := by
    induction r using Nat.strongRecOn with
    | ind r ih =>
        intro n hr
        obtain ⟨m, hle, hturn⟩ := hfair (runFor step schedule s n) n
        obtain ⟨k, hgoal | hless⟩ := h.falls hs hle hturn
        · exact ⟨k, hgoal⟩
        · rw [hr] at hless
          exact ih _ hless k rfl
  exact hfrom _ 0 rfl

end Progress

end Lib
