import Otsos.Lib.ByteMemory

/-!
# `memset` and `memcpy`

The two byte loops of `mlibc/string.c`, run over a byte memory.  `memcpy` goes
upwards one byte at a time, so its effect is the expected one when the
destination does not overlap the source.
-/

namespace Otsos

open Lib

/-- `while (n--) *p++ = c`. -/
def memset (m : Memory) (s : ℕ) (c : UInt8) : ℕ → Memory
  | 0 => m
  | n + 1 => memset (m.set s c) (s + 1) c n

/-- `while (n--) *d++ = *s++`. -/
def memcpy (m : Memory) (dest src : ℕ) : ℕ → Memory
  | 0 => m
  | n + 1 => memcpy (m.set dest (m src)) (dest + 1) (src + 1) n

theorem memset_outside (m : Memory) (c : UInt8) {s n x : ℕ}
    (hx : x < s ∨ s + n ≤ x) : memset m s c n x = m x := by
  induction n generalizing m s with
  | zero => rfl
  | succ n ih =>
      rw [memset, ih _ (by omega)]
      exact m.set_other c (by omega)

theorem memset_inside (m : Memory) (c : UInt8) {s n i : ℕ} (hi : i < n) :
    memset m s c n (s + i) = c := by
  induction n generalizing m s i with
  | zero => omega
  | succ n ih =>
      rw [memset]
      cases i with
      | zero =>
          rw [memset_outside _ _ (by omega)]
          exact m.set_same s c
      | succ i =>
          rw [show s + (i + 1) = s + 1 + i by omega]
          exact ih _ (by omega)

theorem memcpy_outside (m : Memory) {dest src n x : ℕ}
    (hx : x < dest ∨ dest + n ≤ x) : memcpy m dest src n x = m x := by
  induction n generalizing m dest src with
  | zero => rfl
  | succ n ih =>
      rw [memcpy, ih _ (by omega)]
      exact m.set_other _ (by omega)

theorem memcpy_inside (m : Memory) {dest src n i : ℕ} (hi : i < n)
    (hdisjoint : dest + n ≤ src ∨ src + n ≤ dest) :
    memcpy m dest src n (dest + i) = m (src + i) := by
  induction n generalizing m dest src i with
  | zero => omega
  | succ n ih =>
      rw [memcpy]
      cases i with
      | zero =>
          rw [memcpy_outside _ (by omega)]
          exact m.set_same dest (m src)
      | succ i =>
          rw [show dest + (i + 1) = dest + 1 + i by omega,
            show src + (i + 1) = src + 1 + i by omega,
            ih _ (by omega) (by omega)]
          exact m.set_other _ (by omega)

theorem memcpy_zeros (m : Memory) {dest src n : ℕ}
    (hzeros : ∀ i < n, m (src + i) = 0) (x : ℕ) :
    memcpy m dest src n x =
      if dest ≤ x ∧ x < dest + n then 0 else m x := by
  induction n generalizing m dest src with
  | zero =>
      rw [if_neg (by omega)]
      rfl
  | succ n ih =>
      have hhead : m src = 0 := hzeros 0 (by omega)
      rw [memcpy, hhead, ih]
      · by_cases hx : x = dest
        · rw [if_neg (by omega), if_pos (by omega), hx]
          exact m.set_same dest 0
        · rw [m.set_other 0 hx]
          by_cases hin : dest + 1 ≤ x ∧ x < dest + 1 + n
          · rw [if_pos hin, if_pos (by omega)]
          · rw [if_neg hin, if_neg (by omega)]
      · intro i hi
        by_cases hx : src + 1 + i = dest
        · rw [hx]
          exact m.set_same dest 0
        · rw [m.set_other 0 hx, show src + 1 + i = src + (i + 1) by omega]
          exact hzeros (i + 1) (by omega)

end Otsos
