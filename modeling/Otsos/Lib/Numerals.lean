import Mathlib.Data.Nat.Digits.Lemmas

/-!
# Numerals

A loop that divides by the base gives the digits of a number, the least
significant one first, and at least one of them.  Read from the other end they
are the numeral of the number, without leading zeros.
-/

namespace Lib

variable {b n k d : ℕ}

/-- The remainders of a loop of divisions that goes on while the quotient is
not zero. -/
def lowDigits (b n : ℕ) : List ℕ := if n = 0 then [0] else Nat.digits b n

/-- The digits in the order in which they are written. -/
def numeral (b n : ℕ) : List ℕ := (lowDigits b n).reverse

/-- The value of digits that are read from the left, after a number `v`. -/
def readDigits (b v : ℕ) (ds : List ℕ) : ℕ :=
  ds.foldl (fun v d => v * b + d) v

theorem lowDigits_step (hb : 1 < b) (n : ℕ) :
    lowDigits b n =
      n % b :: if n / b = 0 then [] else lowDigits b (n / b) := by
  unfold lowDigits
  by_cases hzero : n = 0
  · simp [hzero]
  · rw [if_neg hzero, Nat.digits_def' hb (Nat.pos_of_ne_zero hzero)]
    by_cases hlast : n / b = 0
    · rw [if_pos hlast, hlast, Nat.digits_zero]
    · rw [if_neg hlast, if_neg hlast]

theorem lowDigits_ne_nil : lowDigits b n ≠ [] := by
  unfold lowDigits
  split
  · simp
  · rwa [Nat.digits_ne_nil_iff_ne_zero]

theorem numeral_ne_nil : numeral b n ≠ [] := by
  rw [numeral, List.reverse_ne_nil_iff]
  exact lowDigits_ne_nil

theorem lowDigits_lt (hb : 1 < b) (hd : d ∈ lowDigits b n) : d < b := by
  unfold lowDigits at hd
  split at hd
  · rw [List.mem_singleton.mp hd]
    omega
  · exact Nat.digits_lt_base hb hd

theorem numeral_lt (hb : 1 < b) (hd : d ∈ numeral b n) : d < b :=
  lowDigits_lt hb (List.mem_reverse.mp hd)

theorem length_numeral : (numeral b n).length = (lowDigits b n).length :=
  List.length_reverse

theorem length_numeral_le (hb : 1 < b) (hk : 0 < k) (hn : n < b ^ k) :
    (numeral b n).length ≤ k := by
  rw [length_numeral, lowDigits]
  split
  · exact hk
  · exact (Nat.digits_length_le_iff hb n).mpr hn

theorem readDigits_numeral (b n : ℕ) : readDigits b 0 (numeral b n) = n := by
  have hvalue : readDigits b 0 (numeral b n) =
      Nat.ofDigits b (lowDigits b n) := by
    rw [readDigits, numeral, List.foldl_reverse, Nat.ofDigits_eq_foldr]
    simp only [Nat.mul_comm, Nat.add_comm, Nat.cast_id]
  rw [hvalue, lowDigits]
  split
  next hzero => simp [hzero]
  next => exact Nat.ofDigits_digits b n

/-- There is no leading zero. -/
theorem numeral_head (h : (numeral b n).head? = some 0) :
    n = 0 ∧ numeral b n = [0] := by
  have hzero : n = 0 := by
    by_contra hne
    rw [numeral, lowDigits, if_neg hne, List.head?_reverse,
      List.getLast?_eq_some_getLast (Nat.digits_ne_nil_iff_ne_zero.mpr hne)]
      at h
    exact Nat.getLast_digit_ne_zero b hne (Option.some.inj h)
  refine ⟨hzero, ?_⟩
  simp [hzero, numeral, lowDigits]

end Lib
