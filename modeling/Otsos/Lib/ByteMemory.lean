import Mathlib.Algebra.Group.Nat.Defs
import Mathlib.Data.Nat.Notation
import Mathlib.Tactic.Common

/-!
# Byte-addressed memories

A memory gives a byte to every address.  Machine words are stored in little
endian order, and every store has a footprint: an interval of addresses
outside of which the memory is unchanged.  Programs are then reasoned about
through two facts, reading back what was stored and reading through a store
whose footprint is elsewhere.
-/

namespace Lib

/-- A byte for every address. -/
abbrev Memory := ℕ → UInt8

namespace Memory

/-- Store one byte. -/
def set (m : Memory) (a : ℕ) (v : UInt8) : Memory :=
  fun x => if x = a then v else m x

/-- The number held in `n` bytes at `a`, least significant byte first. -/
def load (m : Memory) (a : ℕ) : ℕ → ℕ
  | 0 => 0
  | n + 1 => (m a).toNat + 256 * load m (a + 1) n

/-- Store the low `n` bytes of `v` at `a`, least significant byte first. -/
def store (m : Memory) (a n v : ℕ) : Memory :=
  fun x => if a ≤ x ∧ x < a + n then UInt8.ofNat (v / 256 ^ (x - a)) else m x

@[simp] theorem set_same (m : Memory) (a : ℕ) (v : UInt8) :
    m.set a v a = v := by
  simp [set]

theorem set_other (m : Memory) {a x : ℕ} (v : UInt8) (hne : x ≠ a) :
    m.set a v x = m x := by
  simp [set, hne]

theorem store_outside (m : Memory) {a n x : ℕ} (v : ℕ)
    (hx : x < a ∨ a + n ≤ x) : m.store a n v x = m x := by
  unfold store
  rw [if_neg]
  omega

theorem store_inside (m : Memory) {a n i : ℕ} (v : ℕ) (hi : i < n) :
    m.store a n v (a + i) = UInt8.ofNat (v / 256 ^ i) := by
  unfold store
  rw [if_pos (by omega), Nat.add_sub_cancel_left]

theorem load_congr {m m' : Memory} {a n : ℕ}
    (hagree : ∀ i, i < n → m (a + i) = m' (a + i)) :
    m.load a n = m'.load a n := by
  induction n generalizing a with
  | zero => rfl
  | succ n ih =>
      have hhead : m a = m' a := by
        simpa using hagree 0 (by omega)
      have htail : m.load (a + 1) n = m'.load (a + 1) n := by
        apply ih
        intro i hi
        have h := hagree (i + 1) (by omega)
        rwa [show a + (i + 1) = a + 1 + i by omega] at h
      simp only [load, hhead, htail]

/-- The same word read from two memories at two addresses. -/
theorem load_congr_shift {m m' : Memory} {a b n : ℕ}
    (hagree : ∀ i, i < n → m (a + i) = m' (b + i)) :
    m.load a n = m'.load b n := by
  induction n generalizing a b with
  | zero => rfl
  | succ n ih =>
      have hhead : m a = m' b := by
        simpa using hagree 0 (by omega)
      have htail : m.load (a + 1) n = m'.load (b + 1) n := by
        apply ih
        intro i hi
        have h := hagree (i + 1) (by omega)
        rwa [show a + (i + 1) = a + 1 + i by omega,
          show b + (i + 1) = b + 1 + i by omega] at h
      simp only [load, hhead, htail]

theorem load_lt (m : Memory) (a n : ℕ) : m.load a n < 256 ^ n := by
  induction n generalizing a with
  | zero => simp [load]
  | succ n ih =>
      have hhead := (m a).toNat_lt
      have htail := ih (a + 1)
      simp only [load]
      rw [Nat.pow_succ]
      omega

theorem load_of_digits {m : Memory} {a n v : ℕ}
    (hdigits : ∀ i, i < n → m (a + i) = UInt8.ofNat (v / 256 ^ i)) :
    m.load a n = v % 256 ^ n := by
  induction n generalizing a v with
  | zero => simp [load, Nat.mod_one]
  | succ n ih =>
      have hhead : (m a).toNat = v % 256 := by
        have h := hdigits 0 (by omega)
        rw [Nat.add_zero, Nat.pow_zero, Nat.div_one] at h
        simp [h]
      have htail : m.load (a + 1) n = v / 256 % 256 ^ n := by
        apply ih
        intro i hi
        have h := hdigits (i + 1) (by omega)
        rw [show a + (i + 1) = a + 1 + i by omega] at h
        rw [h, Nat.div_div_eq_div_mul, Nat.pow_succ, Nat.mul_comm]
      simp only [load, hhead, htail]
      rw [Nat.pow_succ, Nat.mul_comm (256 ^ n) 256, Nat.mod_mul]

theorem load_eq_zero {m : Memory} {a n : ℕ}
    (hzero : ∀ x, a ≤ x → x < a + n → m x = 0) : m.load a n = 0 := by
  have hdigits : m.load a n = 0 % 256 ^ n := by
    apply load_of_digits
    intro i hi
    rw [hzero _ (by omega) (by omega), Nat.zero_div]
    rfl
  rw [hdigits, Nat.zero_mod]

theorem load_add (m : Memory) (a k n : ℕ) :
    m.load a (k + n) = m.load a k + 256 ^ k * m.load (a + k) n := by
  induction k generalizing a with
  | zero => simp [load]
  | succ k ih =>
      rw [Nat.add_right_comm, load, load, ih, Nat.pow_succ,
        show a + 1 + k = a + (k + 1) by omega, Nat.mul_add, ← Nat.mul_assoc,
        Nat.mul_comm 256 (256 ^ k), Nat.add_assoc]

/-- The first bytes of a word hold its low digits. -/
theorem load_prefix (m : Memory) {a k n : ℕ} (hk : k ≤ n) :
    m.load a k = m.load a n % 256 ^ k := by
  obtain ⟨r, rfl⟩ := Nat.exists_eq_add_of_le hk
  rw [load_add, Nat.add_mul_mod_self_left, Nat.mod_eq_of_lt (load_lt m a k)]

theorem load_store_same (m : Memory) (a n v : ℕ) :
    (m.store a n v).load a n = v % 256 ^ n := by
  apply load_of_digits
  intro i hi
  exact store_inside m v hi

theorem load_store_disjoint (m : Memory) {a n b k : ℕ} (v : ℕ)
    (hdisjoint : b + k ≤ a ∨ a + n ≤ b) :
    (m.store a n v).load b k = m.load b k := by
  apply load_congr
  intro i hi
  apply store_outside
  omega

theorem store_comm (m : Memory) {a n b k : ℕ} (v u : ℕ)
    (hdisjoint : b + k ≤ a ∨ a + n ≤ b) :
    (m.store a n v).store b k u = (m.store b k u).store a n v := by
  funext x
  unfold store
  by_cases ha : a ≤ x ∧ x < a + n
  · rw [if_neg (by omega), if_pos ha, if_pos ha]
  · rw [if_neg ha, if_neg ha]

/-- `m'` differs from `m` only at addresses satisfying `P`. -/
def FrameOutside (P : ℕ → Prop) (m m' : Memory) : Prop :=
  ∀ x, ¬ P x → m' x = m x

theorem FrameOutside.refl (P : ℕ → Prop) (m : Memory) :
    FrameOutside P m m :=
  fun _ _ => rfl

theorem FrameOutside.trans {P : ℕ → Prop} {m₁ m₂ m₃ : Memory}
    (h₁ : FrameOutside P m₁ m₂) (h₂ : FrameOutside P m₂ m₃) :
    FrameOutside P m₁ m₃ :=
  fun x hx => (h₂ x hx).trans (h₁ x hx)

theorem FrameOutside.mono {P Q : ℕ → Prop} {m m' : Memory}
    (h : FrameOutside P m m') (hPQ : ∀ x, P x → Q x) :
    FrameOutside Q m m' :=
  fun x hx => h x (fun hp => hx (hPQ x hp))

theorem FrameOutside.store {P : ℕ → Prop} {m : Memory} {a n : ℕ} (v : ℕ)
    (hfoot : ∀ x, a ≤ x → x < a + n → P x) :
    FrameOutside P m (m.store a n v) := by
  intro x hx
  apply store_outside
  by_contra hin
  exact hx (hfoot x (by omega) (by omega))

-- words are reasoned about through the lemmas above, never by unfolding
attribute [irreducible] load store

end Memory

end Lib
