import Mathlib.Data.List.Sort

/-!
# The lowest numbers of a list

The first elements of an increasing list are its lowest ones.
-/

namespace Lib

variable {free bs : List ℕ} {count i : ℕ}

/-- The `count` lowest numbers of `free`, in increasing order. -/
structure LowestOf (free : List ℕ) (count : ℕ) (bs : List ℕ) : Prop where
  length : bs.length = count
  increasing : bs.Pairwise (· < ·)
  mem : ∀ b ∈ bs, b ∈ free
  lowest : ∀ c ∈ free, c ∉ bs → ∀ b ∈ bs, b < c

theorem take_lowestOf (hsorted : free.Pairwise (· < ·))
    (hcount : count ≤ free.length) :
    LowestOf free count (free.take count) := by
  refine ⟨?_, hsorted.take, fun b hb => List.mem_of_mem_take hb, ?_⟩
  · rw [List.length_take]
    exact Nat.min_eq_left hcount
  · intro c hc hnot b hb
    rw [← List.take_append_drop count free] at hsorted hc
    have hdrop := (List.mem_append.mp hc).resolve_left hnot
    exact (List.pairwise_append.mp hsorted).2.2 b hb c hdrop

/-- In an increasing list zero is first or nowhere. -/
theorem index_of_zero (hsorted : bs.Pairwise (· < ·))
    (hi : bs[i]? = some 0) : i = 0 := by
  cases bs with
  | nil => cases hi
  | cons b bs =>
      cases i with
      | zero => rfl
      | succ i =>
          rw [List.getElem?_cons_succ] at hi
          have hlt := (List.pairwise_cons.mp hsorted).1 0
            (List.mem_of_getElem? hi)
          omega

end Lib
