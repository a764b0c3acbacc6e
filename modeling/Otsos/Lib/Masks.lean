import Mathlib.Algebra.Group.Nat.Defs
import Mathlib.Data.Nat.Notation
import Mathlib.Tactic.Common

/-!
# Unsigned machine words

Unsigned words are natural numbers below `2 ^ 64` or `2 ^ 32`.  Wrapping
arithmetic, and `x & ~m`, the idiom for rounding addresses and sizes.
-/

namespace Lib

/-- The value of a natural number held in an unsigned 64-bit word. -/
def wrap64 (n : ℕ) : ℕ := n % 2 ^ 64

/-- Subtraction of unsigned 64-bit words. -/
def sub64 (a b : ℕ) : ℕ := (a + (2 ^ 64 - b)) % 2 ^ 64

/-- The value of a natural number held in an unsigned 32-bit word. -/
def wrap32 (n : ℕ) : ℕ := n % 2 ^ 32

/-- Subtraction of unsigned 32-bit words. -/
def sub32 (a b : ℕ) : ℕ := (a + (2 ^ 32 - b)) % 2 ^ 32

/-- `x & ~m` on unsigned 64-bit words. -/
def clearBits (x m : ℕ) : ℕ := x &&& (2 ^ 64 - 1 - m)

theorem wrap64_of_lt {n : ℕ} (hn : n < 2 ^ 64) : wrap64 n = n :=
  Nat.mod_eq_of_lt hn

theorem sub64_of_le {a b : ℕ} (ha : a < 2 ^ 64) (hb : b ≤ a) :
    sub64 a b = a - b := by
  unfold sub64
  omega

theorem wrap32_of_lt {n : ℕ} (hn : n < 2 ^ 32) : wrap32 n = n :=
  Nat.mod_eq_of_lt hn

theorem sub32_of_le {a b : ℕ} (ha : a < 2 ^ 32) (hb : b ≤ a) :
    sub32 a b = a - b := by
  unfold sub32
  omega

/-- The bits kept and the bits cleared add up to the word. -/
theorem clearBits_add_and {x m : ℕ} (hx : x < 2 ^ 64) (hm : m < 2 ^ 64) :
    clearBits x m + (x &&& m) = x := by
  let X : BitVec 64 := BitVec.ofNat 64 x
  let M : BitVec 64 := BitVec.ofNat 64 m
  have hdisjoint : (X &&& ~~~M) &&& (X &&& M) = 0#64 := by
    ext i hi
    simp only [BitVec.getElem_and, BitVec.getElem_not, BitVec.getElem_zero]
    cases X[i] <;> cases M[i] <;> rfl
  have hunion : (X &&& ~~~M) ||| (X &&& M) = X := by
    ext i hi
    simp only [BitVec.getElem_or, BitVec.getElem_and, BitVec.getElem_not]
    cases X[i] <;> cases M[i] <;> rfl
  have hsum : (X &&& ~~~M) + (X &&& M) = X := by
    rw [BitVec.add_eq_or_of_and_eq_zero _ _ hdisjoint, hunion]
  have hX : X.toNat = x := (BitVec.toNat_ofNat x 64).trans (Nat.mod_eq_of_lt hx)
  have hM : M.toNat = m := (BitVec.toNat_ofNat m 64).trans (Nat.mod_eq_of_lt hm)
  have hclear : (X &&& ~~~M).toNat = clearBits x m := by
    simp only [BitVec.toNat_and, BitVec.toNat_not, hX, hM, clearBits]
  have hkeep : (X &&& M).toNat = x &&& m := by
    simp only [BitVec.toNat_and, hX, hM]
  have hnat := congrArg BitVec.toNat hsum
  rwa [BitVec.toNat_add_of_and_eq_zero hdisjoint, hclear, hkeep, hX] at hnat

theorem clearBits_le (x m : ℕ) : clearBits x m ≤ x :=
  Nat.and_le_left

theorem le_clearBits_add {x m : ℕ} (hx : x < 2 ^ 64) (hm : m < 2 ^ 64) :
    x ≤ clearBits x m + m := by
  have hsum := clearBits_add_and hx hm
  have hle : x &&& m ≤ m := Nat.and_le_right
  omega

/-- Clearing the low `k` bits rounds down to a multiple of `2 ^ k`. -/
theorem clearBits_two_pow_sub_one {x k : ℕ} (hx : x < 2 ^ 64)
    (hk : 2 ^ k ≤ 2 ^ 64) : clearBits x (2 ^ k - 1) = x - x % 2 ^ k := by
  have hpos : 0 < 2 ^ k := Nat.two_pow_pos k
  have hsum := clearBits_add_and hx (m := 2 ^ k - 1) (by omega)
  rw [Nat.and_two_pow_sub_one_eq_mod] at hsum
  omega

theorem clearBits_two_pow_sub_one_mod {x k : ℕ} (hx : x < 2 ^ 64)
    (hk : 2 ^ k ≤ 2 ^ 64) : clearBits x (2 ^ k - 1) % 2 ^ k = 0 := by
  rw [clearBits_two_pow_sub_one hx hk]
  exact Nat.sub_mod_eq_zero_of_mod_eq (Nat.mod_mod _ _).symm

/-- If word and mask agree in their low four bits, those bits are cleared. -/
theorem clearBits_mod_sixteen {x m : ℕ} (hm : m < 2 ^ 64)
    (hlow : x % 16 = m % 16) : clearBits x m % 16 = 0 := by
  have hsplit : clearBits x m % 2 ^ 4 =
      (x % 2 ^ 4) &&& ((2 ^ 64 - 1 - m) % 2 ^ 4) := by
    unfold clearBits
    rw [Nat.and_mod_two_pow]
  have hcompl : (2 ^ 64 - 1 - m) % 2 ^ 4 = 15 - m % 16 := by omega
  have hsmall : ∀ r, r < 16 → r &&& (15 - r) = 0 := by decide
  rw [show (16 : ℕ) = 2 ^ 4 by rfl, hsplit, hcompl,
    show x % 2 ^ 4 = m % 16 from hlow]
  exact hsmall _ (Nat.mod_lt _ (by omega))

end Lib
