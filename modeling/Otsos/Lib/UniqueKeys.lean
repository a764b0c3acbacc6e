import Mathlib.Tactic.Common

/-!
# Tables with unique keys

Some of the rows of a table are live, and every row has a key.  A change of one
row keeps the keys of the live rows apart exactly if no other live row has the
new key.
-/

namespace Lib

variable {ι κ : Type*} {live live' : ι → Prop} {key key' : ι → κ} {n : ι}

/-- No two live rows have the same key. -/
def UniqueKeys (live : ι → Prop) (key : ι → κ) : Prop :=
  ∀ i j, live i → live j → key i = key j → i = j

theorem UniqueKeys.congr (h : UniqueKeys live key)
    (hlive : ∀ j, live' j ↔ live j) (hkey : ∀ j, live j → key' j = key j) :
    UniqueKeys live' key' := by
  intro i j hi hj heq
  rw [hlive] at hi hj
  rw [hkey i hi, hkey j hj] at heq
  exact h i j hi hj heq

theorem UniqueKeys.change_iff (h : UniqueKeys live key)
    (hlive : ∀ j, j ≠ n → (live' j ↔ live j))
    (hkey : ∀ j, j ≠ n → live j → key' j = key j) :
    UniqueKeys live' key' ↔
      (live' n → ∀ j, j ≠ n → live j → key j ≠ key' n) := by
  constructor
  · intro h' hn j hj hlivej heq
    rw [← hkey j hj hlivej] at heq
    exact hj (h' j n ((hlive j hj).mpr hlivej) hn heq)
  · intro hfresh i j hi hj heq
    by_cases hin : i = n
    · by_cases hjn : j = n
      · rw [hin, hjn]
      · rw [hlive j hjn] at hj
        rw [hin, hkey j hjn hj] at heq
        rw [hin] at hi
        exact absurd heq.symm (hfresh hi j hjn hj)
    · rw [hlive i hin] at hi
      by_cases hjn : j = n
      · rw [hkey i hin hi, hjn] at heq
        rw [hjn] at hj
        exact absurd heq (hfresh hj i hin hi)
      · rw [hlive j hjn] at hj
        rw [hkey i hin hi, hkey j hjn hj] at heq
        exact h i j hi hj heq

end Lib
