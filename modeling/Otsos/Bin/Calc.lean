import Otsos.Mlibc.Numbers

/-!
# The calculator

What `calc` does once it has its three lines.  A division goes through `idiv`,
and a divide exception ends in `kernel_panic`.
-/

namespace Otsos

open Lib

/-- `cdq; idiv`: no quotient is a divide exception. -/
def idiv (a b : Int32) : Option Int32 :=
  let q := a.toInt.tdiv b.toInt
  if b = 0 ∨ q < -2 ^ 31 ∨ 2 ^ 31 ≤ q then none else some (a / b)

/-- A text with its colour. -/
structure Message where
  text : List UInt8
  color : UInt8
deriving DecidableEq

/-- `itoa(n, result_buf, 10)` and the `print` that follows it. -/
def calcResult (resultBuf : Memory) (n : Int32) : Message :=
  ⟨cString (itoa n resultBuf 0 10) 0 32, 0x0F⟩

def divByZero : Message := ⟨literal "Error: Div by zero", 0x0C⟩

/-- The message of `calc`, if the operation has one. -/
def calcOperation (resultBuf : Memory) (firstNumber secondNumber : Int32)
    (operation : UInt8) : Option (Option Message) :=
  if operation = 43 then
    some (some (calcResult resultBuf (firstNumber + secondNumber)))
  else if operation = 45 then
    some (some (calcResult resultBuf (firstNumber - secondNumber)))
  else if operation = 42 then
    some (some (calcResult resultBuf (firstNumber * secondNumber)))
  else if operation = 47 then
    if secondNumber ≠ 0 then
      (idiv firstNumber secondNumber).map fun q => some (calcResult resultBuf q)
    else some (some divByZero)
  else some none

/-- `calc` on what is typed at its prompts. -/
def calcLines (resultBuf : Memory) (first second operation : List UInt8) :
    Option (Option Message) :=
  calcOperation resultBuf (atoi first) (atoi second) (operation.headD 0)

/-- There is no divide exception, and a division gives the quotient, truncated
toward zero, or the error message. -/
def CalcSafe (resultBuf : Memory) (first second operation : List UInt8) :
    Prop :=
  ∃ out, calcLines resultBuf first second operation = some out ∧
    (operation.head? = some 47 → ∃ message, out = some message ∧
      (message = divByZero ∨
        CanonicalNumeral 10 ((atoi first).toInt.tdiv (atoi second).toInt)
          message.text))

/-- The least number divided by minus one, after wrapping to 32 bits. -/
def QuotientTooLarge (first second : List UInt8) : Prop :=
  typedNumber first % 2 ^ 32 = 2 ^ 31 ∧
    typedNumber second % 2 ^ 32 = 2 ^ 32 - 1

variable {a b : Int32}

/-- Only one quotient of 32-bit numbers has no 32 bits. -/
theorem quotient_large_iff (hb : b ≠ 0) :
    (a.toInt.tdiv b.toInt < -2 ^ 31 ∨ 2 ^ 31 ≤ a.toInt.tdiv b.toInt) ↔
      a.toInt = -2 ^ 31 ∧ b.toInt = -1 := by
  have hlow := a.le_toInt
  have hhigh := a.toInt_lt
  have hzero : b.toInt ≠ 0 := fun h => hb (Int32.toInt_inj.mp h)
  have habs : (a.toInt.tdiv b.toInt).natAbs =
      a.toInt.natAbs / b.toInt.natAbs := Int.natAbs_tdiv _ _
  by_cases hone : b.toInt = 1
  · rw [hone, Int.tdiv_one]
    omega
  by_cases hminus : b.toInt = -1
  · rw [hminus, Int.tdiv_neg, Int.tdiv_one]
    omega
  · have hhalf : a.toInt.natAbs / b.toInt.natAbs ≤ a.toInt.natAbs / 2 :=
      Nat.div_le_div_left (by omega) (by omega)
    omega

theorem idiv_eq_none :
    idiv a b = none ↔ b = 0 ∨ (a.toInt = -2 ^ 31 ∧ b.toInt = -1) := by
  have hnone : idiv a b = none ↔
      b = 0 ∨ a.toInt.tdiv b.toInt < -2 ^ 31 ∨
        2 ^ 31 ≤ a.toInt.tdiv b.toInt := by
    unfold idiv
    by_cases h : b = 0 ∨ a.toInt.tdiv b.toInt < -2 ^ 31 ∨
        2 ^ 31 ≤ a.toInt.tdiv b.toInt
    · rw [if_pos h]
      exact iff_of_true rfl h
    · rw [if_neg h]
      exact iff_of_false (Option.some_ne_none _) h
  rw [hnone]
  by_cases hb : b = 0
  · exact iff_of_true (Or.inl hb) (Or.inl hb)
  · rw [quotient_large_iff hb]

theorem idiv_eq_some {q : Int32} (h : idiv a b = some q) :
    q.toInt = a.toInt.tdiv b.toInt := by
  rw [idiv] at h
  split at h
  · cases h
  · rename_i hrange
    cases h
    rw [not_or, not_or, not_lt, not_le] at hrange
    rw [Int32.toInt_div]
    exact Int.bmod_eq_of_le (by omega) (by omega)

theorem calcResult_text (resultBuf : Memory) (n : Int32) :
    (calcResult resultBuf n).text = itoaText 10 n.toInt := by
  have hlength : (itoaText 10 n.toInt).length < 32 := by
    have hn : n.toInt.natAbs < 10 ^ 10 := by
      have hlow := n.le_toInt
      have hhigh := n.toInt_lt
      omega
    have hdigits := length_numeral_le (by omega) (by omega) hn
    rw [itoaText, List.length_append, List.length_map]
    split <;> simp only [List.length_singleton, List.length_nil] <;> omega
  exact cString_itoa (by decide) (by decide) n resultBuf hlength

theorem toInt_atoi_least (text : List UInt8) :
    (atoi text).toInt = -2 ^ 31 ↔ typedNumber text % 2 ^ 32 = 2 ^ 31 := by
  rw [atoi_eq, Int32.toInt_ofInt, Int.bmod_def]
  norm_num [Int32.size]
  split <;> omega

theorem toInt_atoi_minus_one (text : List UInt8) :
    (atoi text).toInt = -1 ↔ typedNumber text % 2 ^ 32 = 2 ^ 32 - 1 := by
  rw [atoi_eq, Int32.toInt_ofInt, Int.bmod_def]
  norm_num [Int32.size]
  split <;> omega

theorem calcLines_division {first second operation : List UInt8}
    (resultBuf : Memory) (hslash : operation.head? = some 47) :
    calcLines resultBuf first second operation =
      if atoi second ≠ 0 then
        (idiv (atoi first) (atoi second)).map fun q =>
          some (calcResult resultBuf q)
      else some (some divByZero) := by
  have hhead : operation.headD 0 = 47 := by
    rw [List.headD_eq_head?_getD, hslash, Option.getD_some]
  rw [calcLines, hhead]
  rfl

theorem calcOperation_isSome {resultBuf : Memory} {a b : Int32}
    {operation : UInt8} {out : Option Message}
    (h : calcOperation resultBuf a b operation = some out) :
    out.isSome = true ↔ operation ∈ [43, 45, 42, 47] := by
  unfold calcOperation at h
  split_ifs at h with hplus hminus htimes hslash hzero
  · cases h
    simp [hplus]
  · cases h
    simp [hminus]
  · cases h
    simp [htimes]
  · obtain ⟨q, -, rfl⟩ := Option.map_eq_some_iff.mp h
    simp [hslash]
  · cases h
    simp [hslash]
  · cases h
    simp [hplus, hminus, htimes, hslash]

theorem calcLines_other {operation : List UInt8} (resultBuf : Memory)
    (first second : List UInt8) (hslash : operation.head? ≠ some 47) :
    ∃ out, calcLines resultBuf first second operation = some out := by
  have hhead : operation.headD 0 ≠ 47 := by
    cases operation with
    | nil => decide
    | cons c operation => simpa using hslash
  rw [calcLines, calcOperation, if_neg hhead]
  split
  · exact ⟨_, rfl⟩
  · split
    · exact ⟨_, rfl⟩
    · split
      · exact ⟨_, rfl⟩
      · exact ⟨_, rfl⟩

theorem calcLines_eq_none {resultBuf : Memory}
    {first second operation : List UInt8} :
    calcLines resultBuf first second operation = none ↔
      operation.head? = some 47 ∧ QuotientTooLarge first second := by
  rw [QuotientTooLarge, ← toInt_atoi_least, ← toInt_atoi_minus_one]
  by_cases hslash : operation.head? = some 47
  · rw [calcLines_division resultBuf hslash, and_iff_right hslash]
    by_cases hzero : atoi second = 0
    · rw [if_neg (not_not.mpr hzero), hzero]
      apply iff_of_false
      · exact Option.some_ne_none _
      · exact fun hpair => absurd hpair.2 (by decide)
    · rw [if_pos hzero, Option.map_eq_none_iff, idiv_eq_none,
        or_iff_right hzero]
  · obtain ⟨out, hout⟩ := calcLines_other resultBuf first second hslash
    rw [hout]
    exact iff_of_false (Option.some_ne_none _) fun h => hslash h.1

/-- Exactly one pair of operands makes `calc` fault. -/
theorem calc_safe_iff (resultBuf : Memory)
    (first second operation : List UInt8) :
    CalcSafe resultBuf first second operation ↔
      ¬ (operation.head? = some 47 ∧ QuotientTooLarge first second) := by
  rw [← @calcLines_eq_none resultBuf]
  constructor
  · rintro ⟨out, hout, -⟩ hnone
    rw [hout] at hnone
    cases hnone
  · intro hsome
    obtain ⟨out, hout⟩ := Option.ne_none_iff_exists'.mp hsome
    refine ⟨out, hout, fun hslash => ?_⟩
    rw [calcLines_division resultBuf hslash] at hout
    by_cases hzero : atoi second = 0
    · rw [if_neg (not_not.mpr hzero)] at hout
      cases hout
      exact ⟨divByZero, rfl, Or.inl rfl⟩
    · rw [if_pos hzero] at hout
      obtain ⟨q, hdiv, rfl⟩ := Option.map_eq_some_iff.mp hout
      refine ⟨calcResult resultBuf q, rfl, Or.inr ?_⟩
      rw [calcResult_text, ← idiv_eq_some hdiv]
      exact itoaText_canonical (by omega) (by omega) _

/-- `-2147483648`, `-1` and `/`. -/
theorem calc_faults :
    ¬ CalcSafe (fun _ => 0) (literal "-2147483648") (literal "-1")
      (literal "/") := by
  rintro ⟨out, hout, -⟩
  have hdiv : idiv (atoi (literal "-2147483648")) (atoi (literal "-1")) =
      none := by decide
  rw [calcLines_division _ rfl, if_pos (by decide), hdiv] at hout
  cases hout

end Otsos
