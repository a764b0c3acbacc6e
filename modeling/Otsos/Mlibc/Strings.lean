import Otsos.Lib.ByteMemory

/-!
# C strings

The string functions of `mlibc/string.c` that the file system calls.  A C
string held by a caller is the list of its characters before the terminator;
a string inside a sector is read in place.
-/

namespace Otsos

open Lib

/-- A string without terminator inside it, as every `const char *` argument
is. -/
structure CString where
  chars : List UInt8
  terminated : 0 ∉ chars

/-- The characters of a string literal. -/
def literal (s : String) : List UInt8 := s.toList.map fun c => UInt8.ofNat c.toNat

/-- `strcmp(m + a, name) == 0` for a string `name` held by the caller. -/
def strcmpEq (m : Memory) : ℕ → List UInt8 → Bool
  | a, [] => m a == 0
  | a, c :: cs => m a == c && strcmpEq m (a + 1) cs

/-- `strcpy(m + a, src)`. -/
def strcpy (m : Memory) : ℕ → List UInt8 → Memory
  | a, [] => m.set a 0
  | a, c :: cs => strcpy (m.set a c) (a + 1) cs

/-- `for (i = 0; i < n; i++) dest[d + i] = src[k + i]`, between two different
arrays. -/
def copyBytes (dest : Memory) (d : ℕ) (src : Memory) (k : ℕ) : ℕ → Memory
  | 0 => dest
  | n + 1 => copyBytes (dest.set d (src k)) (d + 1) src (k + 1) n

/-- `for (i = 0; i < n; i++) dest[d + i] = name[i]`, stopping with the
characters. -/
def copyChars (dest : Memory) : ℕ → List UInt8 → Memory
  | _, [] => dest
  | d, c :: cs => copyChars (dest.set d c) (d + 1) cs

theorem copyBytes_outside (dest src : Memory) {d k n x : ℕ}
    (hx : x < d ∨ d + n ≤ x) : copyBytes dest d src k n x = dest x := by
  induction n generalizing dest d k with
  | zero => rfl
  | succ n ih =>
      rw [copyBytes, ih _ (by omega)]
      exact dest.set_other _ (by omega)

theorem copyBytes_inside (dest src : Memory) {d k n i : ℕ} (hi : i < n) :
    copyBytes dest d src k n (d + i) = src (k + i) := by
  induction n generalizing dest d k i with
  | zero => omega
  | succ n ih =>
      rw [copyBytes]
      cases i with
      | zero =>
          rw [copyBytes_outside _ _ (by omega)]
          exact dest.set_same d (src k)
      | succ i =>
          rw [show d + (i + 1) = d + 1 + i by omega,
            show k + (i + 1) = k + 1 + i by omega]
          exact ih _ (by omega)

theorem copyChars_outside (dest : Memory) {d x : ℕ} {cs : List UInt8}
    (hx : x < d ∨ d + cs.length ≤ x) : copyChars dest d cs x = dest x := by
  induction cs generalizing dest d with
  | nil => rfl
  | cons c cs ih =>
      simp only [List.length_cons] at hx
      rw [copyChars, ih _ (by omega)]
      exact dest.set_other _ (by omega)

theorem strcpy_eq (m : Memory) (a : ℕ) (cs : List UInt8) :
    strcpy m a cs = copyChars m a (cs ++ [0]) := by
  induction cs generalizing m a with
  | nil => rfl
  | cons c cs ih => exact ih _ _

theorem copyChars_concat (m : Memory) (a : ℕ) (cs : List UInt8) (c : UInt8) :
    copyChars m a (cs ++ [c]) = (copyChars m a cs).set (a + cs.length) c := by
  induction cs generalizing m a with
  | nil => rfl
  | cons d cs ih =>
      rw [List.cons_append, copyChars, ih, copyChars, List.length_cons,
        Nat.add_right_comm, Nat.add_assoc]

theorem strcpy_eq_set (m : Memory) (a : ℕ) (cs : List UInt8) :
    strcpy m a cs = (copyChars m a cs).set (a + cs.length) 0 := by
  rw [strcpy_eq, copyChars_concat]

/-- What was copied compares equal to a name exactly when the bytes are that
name and its terminator. -/
theorem strcmpEq_iff {m : Memory} {a : ℕ} {cs : List UInt8} :
    strcmpEq m a cs = true ↔
      (∀ i (h : i < cs.length), m (a + i) = cs[i]) ∧ m (a + cs.length) = 0 := by
  induction cs generalizing a with
  | nil => simp [strcmpEq]
  | cons c cs ih =>
      rw [strcmpEq, Bool.and_eq_true, beq_iff_eq, ih]
      constructor
      · rintro ⟨hhead, htail, hend⟩
        refine ⟨?_, by rw [← hend, List.length_cons]; congr 1; omega⟩
        intro i hi
        cases i with
        | zero => exact hhead
        | succ i =>
            rw [show a + (i + 1) = a + 1 + i by omega]
            exact htail i (by simpa using hi)
      · rintro ⟨hall, hend⟩
        refine ⟨hall 0 (by simp), ?_, ?_⟩
        · intro i hi
          rw [show a + 1 + i = a + (i + 1) by omega]
          exact hall (i + 1) (by simpa using hi)
        · rw [← hend, List.length_cons]
          congr 1
          omega

/-- A string in memory is equal to one name only. -/
theorem strcmpEq_unique {m : Memory} {a : ℕ} {cs ds : List UInt8}
    (hcs : 0 ∉ cs) (hds : 0 ∉ ds) (hc : strcmpEq m a cs = true)
    (hd : strcmpEq m a ds = true) : cs = ds := by
  induction cs generalizing a ds with
  | nil =>
      cases ds with
      | nil => rfl
      | cons d ds =>
          simp only [strcmpEq, Bool.and_eq_true, beq_iff_eq] at hc hd
          exact absurd (by simp [← hd.1, hc]) hds
  | cons c cs ih =>
      cases ds with
      | nil =>
          simp only [strcmpEq, Bool.and_eq_true, beq_iff_eq] at hc hd
          exact absurd (by simp [← hc.1, hd]) hcs
      | cons d ds =>
          simp only [strcmpEq, Bool.and_eq_true, beq_iff_eq] at hc hd
          rw [List.mem_cons, not_or] at hcs hds
          rw [ih hcs.2 hds.2 hc.2 hd.2, ← hc.1, ← hd.1]

theorem strcmpEq_iff_eq {m : Memory} {a : ℕ} {cs ds : List UInt8}
    (hcs : 0 ∉ cs) (hds : 0 ∉ ds) (hc : strcmpEq m a cs = true) :
    strcmpEq m a ds = true ↔ ds = cs := by
  constructor
  · intro hd
    exact strcmpEq_unique hds hcs hd hc
  · rintro rfl
    exact hc

theorem strcmpEq_congr {m m' : Memory} {a b : ℕ} {cs : List UInt8}
    (hagree : ∀ i ≤ cs.length, m' (b + i) = m (a + i)) :
    strcmpEq m' b cs = strcmpEq m a cs := by
  induction cs generalizing a b with
  | nil =>
      have hend := hagree 0 (by simp)
      simp only [Nat.add_zero] at hend
      simp only [strcmpEq, hend]
  | cons c cs ih =>
      have hhead := hagree 0 (by simp)
      simp only [Nat.add_zero] at hhead
      have htail : strcmpEq m' (b + 1) cs = strcmpEq m (a + 1) cs := by
        apply ih
        intro i hi
        have h := hagree (i + 1) (by simpa using hi)
        rwa [show b + (i + 1) = b + 1 + i by omega,
          show a + (i + 1) = a + 1 + i by omega] at h
      simp only [strcmpEq, hhead, htail]

theorem copyChars_inside (dest : Memory) {d i : ℕ} {cs : List UInt8}
    (hi : i < cs.length) : copyChars dest d cs (d + i) = cs[i] := by
  induction cs generalizing dest d i with
  | nil => simp at hi
  | cons c cs ih =>
      rw [copyChars]
      cases i with
      | zero =>
          rw [copyChars_outside _ (by omega)]
          exact dest.set_same d c
      | succ i =>
          rw [show d + (i + 1) = d + 1 + i by omega]
          exact ih _ (by simpa using hi)

/-- `strchr(m + a, c)` in an array of which `n` bytes are left. -/
def strchr (m : Memory) (c : UInt8) : ℕ → ℕ → Option ℕ
  | _, 0 => none
  | a, n + 1 =>
      if m a = 0 then if c = 0 then some a else none
      else if m a = c then some a
      else strchr m c (a + 1) n

/-- The string in an array of `n` bytes at `a`. -/
def cString (m : Memory) (a : ℕ) : ℕ → List UInt8
  | 0 => []
  | n + 1 => if m a = 0 then [] else m a :: cString m (a + 1) n

theorem cString_eq {m : Memory} {a n : ℕ} {cs : List UInt8}
    (hbytes : ∀ j (hj : j < cs.length), m (a + j) = cs[j])
    (hend : m (a + cs.length) = 0) (hcs : 0 ∉ cs) (hn : cs.length < n) :
    cString m a n = cs := by
  induction n generalizing a cs with
  | zero => omega
  | succ n ih =>
      cases cs with
      | nil => exact if_pos hend
      | cons c cs =>
          rw [List.mem_cons, not_or] at hcs
          rw [List.length_cons] at hn hend
          have hhead : m a = c := hbytes 0 (by simp)
          rw [cString, hhead, if_neg (Ne.symm hcs.1), ih _ _ hcs.2 (by omega)]
          · intro j hj
            rw [Nat.add_assoc, Nat.add_comm 1 j]
            exact hbytes (j + 1) (by simpa using hj)
          · rw [Nat.add_assoc, Nat.add_comm 1]
            exact hend

theorem length_cString_le (m : Memory) (a n : ℕ) :
    (cString m a n).length ≤ n := by
  induction n generalizing a with
  | zero => exact Nat.le_refl 0
  | succ n ih =>
      rw [cString]
      split
      · exact Nat.zero_le _
      · exact Nat.succ_le_succ (ih (a + 1))

theorem cString_strcpy (m : Memory) {a n : ℕ} {cs : List UInt8}
    (hcs : 0 ∉ cs) (hn : cs.length < n) : cString (strcpy m a cs) a n = cs := by
  rw [strcpy_eq]
  refine cString_eq ?_ ?_ hcs hn
  · intro j hj
    rw [copyChars_inside _ (by simp; omega)]
    exact List.getElem_append_left hj
  · rw [copyChars_inside _ (by simp)]
    exact List.getElem_concat_length rfl _

end Otsos
