import Mathlib.Data.List.TakeWhile
import Otsos.Lib.Numerals
import Otsos.Mlibc.Strings

/-!
# Numbers as text

`itoa` of `itoa.s` and `atoi` of `string.c`.  The digits come out of the
divisions in the wrong order and, for a negative number, as negative
remainders.  The table of digits is mirrored around its zero, so the sign of a
remainder does not matter.
-/

namespace Otsos

open Lib

/-- `.LC0`: the digit of a remainder `r` is at `35 + r`. -/
def lc0 : List UInt8 := literal
  "zyxwvutsrqponmlkjihgfedcba9876543210123456789abcdefghijklmnopqrstuvwxyz"

/-- The store of `.L2`. -/
def storeDigit (base eax : Int32) (s : Memory) (rsi : ℕ) : Memory :=
  s.set rsi (lc0.getD (35 + eax % base).toInt.toNat 0)

theorem natAbs_div_lt {base eax : Int32} (hbase : 2 ≤ base)
    (hnext : eax / base ≠ 0) :
    (eax / base).toInt.natAbs < eax.toInt.natAbs := by
  have htwo : 2 ≤ base.toInt := Int32.le_iff_toInt_le.mp hbase
  have hone : base ≠ -1 := by
    rintro rfl
    exact absurd htwo (by decide)
  have hdiv := Int32.toInt_div_of_ne_right eax base hone
  have hzero : (eax / base).toInt ≠ 0 := by
    intro h
    exact hnext (Int32.toInt_inj.mp h)
  rw [hdiv] at hzero ⊢
  rw [Int.natAbs_tdiv]
  apply Nat.div_lt_self
  · by_contra h
    have : eax.toInt = 0 := by omega
    rw [this] at hzero
    exact hzero (Int.zero_tdiv _)
  · omega

/-- The loop `.L2`: a digit for every quotient.  What is left is `rsi` behind
the digits and `r9d`, the last number that was divided. -/
def itoaDigits (base : Int32) (hbase : 2 ≤ base) (s : Memory) (rsi : ℕ)
    (eax : Int32) : Memory × ℕ × Int32 :=
  if eax / base = 0 then (storeDigit base eax s rsi, rsi + 1, eax)
  else
    itoaDigits base hbase (storeDigit base eax s rsi) (rsi + 1) (eax / base)
termination_by eax.toInt.natAbs
decreasing_by exact natAbs_div_lt hbase ‹_›

/-- The loop `.L5`: exchange the bytes at `rax` and `rcx` and step to the
middle. -/
def swapEnds (s : Memory) (rax rcx : ℕ) : Memory :=
  if rax < rcx then
    swapEnds ((s.set rcx (s rax)).set rax (s rcx)) (rax + 1) (rcx - 1)
  else s
termination_by rcx - rax

theorem toInt_cases (x : Int32) :
    x.toInt = if 2 * x.toUInt32.toNat < 2 ^ 32 then (x.toUInt32.toNat : ℤ)
      else x.toUInt32.toNat - (2 ^ 32 : ℕ) :=
  BitVec.toInt_eq_toNat_cond x.toBitVec

/-- What the unsigned comparison of `base - 2` tests. -/
theorem base_check {base : Int32} :
    (base - 2).toUInt32 ≤ 34 ↔ 2 ≤ base ∧ base ≤ 36 := by
  have hsub : (base - 2).toUInt32.toNat =
      (2 ^ 32 - 2 + base.toUInt32.toNat) % 2 ^ 32 := by
    rw [Int32.toUInt32_sub, UInt32.toNat_sub]
    rfl
  have hlt := base.toUInt32.toNat_lt
  rw [UInt32.le_iff_toNat_le, hsub, Int32.le_iff_toInt_le,
    Int32.le_iff_toInt_le, toInt_cases base]
  simp only [Int32.reduceToInt, UInt32.reduceToNat]
  split <;> omega

def itoa (value : Int32) (s : Memory) (str : ℕ) (base : Int32) : Memory :=
  if hcheck : (base - 2).toUInt32 ≤ 34 then
    let (s, rsi, r9d) := itoaDigits base (base_check.mp hcheck).1 s str value
    if r9d < 0 then swapEnds ((s.set rsi 45).set (rsi + 1) 0) str rsi
    else swapEnds (s.set rsi 0) str (rsi - 1)
  else s.set str 0

/-- The loop of `atoi`. -/
def atoiDigits (result : Int32) : List UInt8 → Int32
  | [] => result
  | c :: str =>
      if 48 ≤ c ∧ c ≤ 57 then
        atoiDigits (result * 10 + (Int32.ofNat c.toNat - 48)) str
      else result

def atoi : List UInt8 → Int32
  | 45 :: str => -1 * atoiDigits 0 str
  | str => 1 * atoiDigits 0 str

/-! ## Texts of numbers -/

/-- `0` to `9`, then `a` to `z`. -/
def digitChar (d : ℕ) : UInt8 := UInt8.ofNat (if d < 10 then 48 + d else 87 + d)

def charDigit (c : UInt8) : ℕ := if c ≤ 57 then c.toNat - 48 else c.toNat - 87

/-- The number that a text in base `b` stands for. -/
def signedValue (b : ℕ) : List UInt8 → ℤ
  | 45 :: text => -(readDigits b 0 (text.map charDigit) : ℤ)
  | text => readDigits b 0 (text.map charDigit)

/-- A minus sign exactly for the negative numbers, digits below the base, no
zero in front, and the right value. -/
structure CanonicalNumeral (b : ℕ) (v : ℤ) (text : List UInt8) : Prop where
  shape : ∃ ds : List ℕ, ds ≠ [] ∧ (∀ d ∈ ds, d < b) ∧
    (ds.head? = some 0 → ds = [0] ∧ v = 0) ∧
    text = (if v < 0 then [45] else []) ++ ds.map digitChar
  value : signedValue b text = v

/-- The text that `itoa` writes. -/
def itoaText (b : ℕ) (v : ℤ) : List UInt8 :=
  (if v < 0 then [45] else []) ++ (numeral b v.natAbs).map digitChar

theorem charDigit_digitChar {d : ℕ} (hd : d < 36) :
    charDigit (digitChar d) = d := by
  revert hd d
  decide

theorem digitChar_ne {d : ℕ} (hd : d < 36) :
    digitChar d ≠ 0 ∧ digitChar d ≠ 45 := by
  revert hd d
  decide

/-- The table does not see the sign of a remainder. -/
theorem lc0_digit {r : ℤ} (hr : r.natAbs < 36) :
    lc0.getD (35 + r).toNat 0 = digitChar r.natAbs := by
  have htable : ∀ d < 36, lc0.getD (35 + d) 0 = digitChar d ∧
      lc0.getD (35 - d) 0 = digitChar d := by decide
  have h := htable r.natAbs hr
  by_cases hsign : 0 ≤ r
  · rw [show (35 + r).toNat = 35 + r.natAbs by omega]
    exact h.1
  · rw [show (35 + r).toNat = 35 - r.natAbs by omega]
    exact h.2

theorem map_charDigit {ds : List ℕ} (hds : ∀ d ∈ ds, d < 36) :
    (ds.map digitChar).map charDigit = ds := by
  rw [List.map_map]
  conv_rhs => rw [← List.map_id ds]
  apply List.map_congr_left
  intro d hd
  exact charDigit_digitChar (hds d hd)

/-! ## The digits of `itoa` -/

theorem storeDigit_eq {base eax : Int32} (hbase : 2 ≤ base)
    (hmax : base ≤ 36) (s : Memory) (rsi : ℕ) :
    storeDigit base eax s rsi =
      s.set rsi (digitChar (eax.toInt.natAbs % base.toInt.toNat)) := by
  have htwo : 2 ≤ base.toInt := Int32.le_iff_toInt_le.mp hbase
  have hthirtysix : base.toInt ≤ 36 := Int32.le_iff_toInt_le.mp hmax
  have hnat : base.toInt.natAbs = base.toInt.toNat := by omega
  have hmod : (eax % base).toInt.natAbs =
      eax.toInt.natAbs % base.toInt.toNat := by
    rw [Int32.toInt_mod, Int.natAbs_tmod, hnat]
  have hlt : (eax % base).toInt.natAbs < 36 := by
    rw [hmod]
    have := Nat.mod_lt eax.toInt.natAbs (show 0 < base.toInt.toNat by omega)
    omega
  have hindex : (35 + eax % base).toInt = 35 + (eax % base).toInt := by
    rw [Int32.toInt_add, show (35 : Int32).toInt = 35 by decide]
    apply Int.bmod_eq_of_le <;> omega
  rw [storeDigit, hindex, lc0_digit hlt, hmod]

theorem natAbs_quotient {base eax : Int32} (hbase : 2 ≤ base) :
    (eax / base).toInt.natAbs = eax.toInt.natAbs / base.toInt.toNat := by
  have htwo : 2 ≤ base.toInt := Int32.le_iff_toInt_le.mp hbase
  have hone : base ≠ -1 := by
    rintro rfl
    exact absurd htwo (by decide)
  rw [Int32.toInt_div_of_ne_right eax base hone, Int.natAbs_tdiv,
    show base.toInt.natAbs = base.toInt.toNat by omega]
  rfl

theorem quotient_eq_zero {base eax : Int32} (hbase : 2 ≤ base) :
    eax / base = 0 ↔ eax.toInt.natAbs / base.toInt.toNat = 0 := by
  rw [← natAbs_quotient hbase, Int.natAbs_eq_zero, ← Int32.toInt_inj]
  rfl

/-- A quotient that is not zero has the sign of the dividend. -/
theorem quotient_neg {base eax : Int32} (hbase : 2 ≤ base)
    (hnext : eax / base ≠ 0) : eax / base < 0 ↔ eax < 0 := by
  have htwo : 2 ≤ base.toInt := Int32.le_iff_toInt_le.mp hbase
  have hone : base ≠ -1 := by
    rintro rfl
    exact absurd htwo (by decide)
  have hzero : (eax / base).toInt ≠ 0 := by
    intro h
    exact hnext (Int32.toInt_inj.mp h)
  rw [Int32.lt_iff_toInt_lt, Int32.lt_iff_toInt_lt,
    show (0 : Int32).toInt = 0 by decide]
  rw [Int32.toInt_div_of_ne_right eax base hone] at hzero ⊢
  constructor
  · intro hneg
    by_contra hpos
    have := Int.tdiv_nonneg (Int.not_lt.mp hpos) (show 0 ≤ base.toInt by omega)
    omega
  · intro hneg
    have := Int.tdiv_nonneg (show 0 ≤ -eax.toInt by omega)
      (show 0 ≤ base.toInt by omega)
    rw [Int.neg_tdiv] at this
    omega

theorem itoaDigits_spec {base : Int32} (hbase : 2 ≤ base)
    (hmax : base ≤ 36) (s : Memory) (rsi : ℕ) (eax : Int32) :
    ∃ r9d : Int32, (r9d < 0 ↔ eax < 0) ∧
      itoaDigits base hbase s rsi eax =
        (copyChars s rsi
          ((lowDigits base.toInt.toNat eax.toInt.natAbs).map digitChar),
        rsi + (lowDigits base.toInt.toNat eax.toInt.natAbs).length,
        r9d) := by
  have htwo : 2 ≤ base.toInt := Int32.le_iff_toInt_le.mp hbase
  have hb : 1 < base.toInt.toNat := by omega
  fun_induction itoaDigits base hbase s rsi eax with
  | case1 s rsi eax hlast =>
      have hzero := (quotient_eq_zero hbase).mp hlast
      refine ⟨eax, Iff.rfl, ?_⟩
      rw [lowDigits_step hb, if_pos hzero, storeDigit_eq hbase hmax]
      rfl
  | case2 s rsi eax hnext ih =>
      obtain ⟨r9d, hsign, hdigits⟩ := ih
      refine ⟨r9d, hsign.trans (quotient_neg hbase hnext), ?_⟩
      have hzero := mt (quotient_eq_zero hbase).mpr hnext
      rw [hdigits, lowDigits_step hb eax.toInt.natAbs, if_neg hzero,
        storeDigit_eq hbase hmax, natAbs_quotient hbase, List.map_cons,
        copyChars, List.length_cons, Nat.add_right_comm, Nat.add_assoc]

theorem swapEnds_outside {s : Memory} {rax rcx x : ℕ}
    (hx : x < rax ∨ rcx < x) : swapEnds s rax rcx x = s x := by
  fun_induction swapEnds s rax rcx with
  | case1 s rax rcx hlt ih =>
      rw [ih (by omega), Memory.set_other _ _ (by omega),
        Memory.set_other _ _ (by omega)]
  | case2 => rfl

theorem swapEnds_inside {s : Memory} {rax rcx x : ℕ} (hlow : rax ≤ x)
    (hhigh : x ≤ rcx) : swapEnds s rax rcx x = s (rax + rcx - x) := by
  fun_induction swapEnds s rax rcx with
  | case1 s rax rcx hlt ih =>
      by_cases hfirst : x = rax
      · subst hfirst
        rw [swapEnds_outside (by omega), Memory.set_same]
        congr 1
        omega
      · by_cases hlast : x = rcx
        · subst hlast
          rw [swapEnds_outside (by omega), Memory.set_other _ _ (by omega),
            Memory.set_same]
          congr 1
          omega
        · rw [ih (by omega) (by omega), Memory.set_other _ _ (by omega),
            Memory.set_other _ _ (by omega)]
          congr 1
          omega
  | case2 s rax rcx hle =>
      congr 1
      omega

/-- The exchanges turn a string in memory around. -/
theorem swapEnds_strcpy (s : Memory) (str : ℕ) {cs : List UInt8}
    (hne : cs ≠ []) :
    swapEnds (strcpy s str cs) str (str + cs.length - 1) =
      strcpy s str cs.reverse := by
  have hpos := List.length_pos_of_ne_nil hne
  funext x
  rw [strcpy_eq_set, strcpy_eq_set, List.length_reverse]
  by_cases hinside : str ≤ x ∧ x < str + cs.length
  · obtain ⟨i, rfl⟩ := Nat.exists_eq_add_of_le hinside.1
    rw [swapEnds_inside hinside.1 (by omega),
      show str + (str + cs.length - 1) - (str + i) =
        str + (cs.length - 1 - i) by omega,
      Memory.set_other _ _ (by omega), Memory.set_other _ _ (by omega),
      copyChars_inside _ (by omega), copyChars_inside _ (by simp; omega),
      List.getElem_reverse]
  · rw [swapEnds_outside (by omega)]
    by_cases hend : x = str + cs.length
    · rw [hend, Memory.set_same, Memory.set_same]
    · rw [Memory.set_other _ _ hend, Memory.set_other _ _ hend,
        copyChars_outside _ (by omega),
        copyChars_outside _ (by rw [List.length_reverse]; omega)]

theorem itoa_eq {base : Int32} (hbase : 2 ≤ base) (hmax : base ≤ 36)
    (value : Int32) (s : Memory) (str : ℕ) :
    itoa value s str base =
      strcpy s str (itoaText base.toInt.toNat value.toInt) := by
  obtain ⟨r9d, hsign, hdigits⟩ :=
    itoaDigits_spec (base_check.mp (base_check.mpr ⟨hbase, hmax⟩)).1 hmax s str
      value
  rw [itoa, dif_pos (base_check.mpr ⟨hbase, hmax⟩)]
  simp only [hdigits]
  have hneg : r9d < 0 ↔ value.toInt < 0 := by
    rw [hsign, Int32.lt_iff_toInt_lt]
    rfl
  generalize hcs : (lowDigits base.toInt.toNat value.toInt.natAbs).map
    digitChar = cs
  have hlength : (lowDigits base.toInt.toNat value.toInt.natAbs).length =
      cs.length := by
    rw [← hcs, List.length_map]
  have hreverse : (numeral base.toInt.toNat value.toInt.natAbs).map digitChar =
      cs.reverse := by
    rw [numeral, List.map_reverse, hcs]
  have hne : cs ≠ [] := by
    rw [← hcs]
    simpa using lowDigits_ne_nil
  rw [itoaText, hreverse, hlength]
  by_cases hv : value.toInt < 0
  · rw [if_pos (hneg.mpr hv), if_pos hv, ← copyChars_concat]
    have hswap := swapEnds_strcpy s str (show cs ++ [45] ≠ [] by simp)
    rw [strcpy_eq_set, List.length_append, List.length_singleton,
      List.reverse_append] at hswap
    exact hswap
  · rw [if_neg (mt hneg.mp hv), if_neg hv, ← strcpy_eq_set]
    exact swapEnds_strcpy s str hne

theorem signedValue_itoaText {b : ℕ} (hb : 1 < b) (hmax : b ≤ 36) (v : ℤ) :
    signedValue b (itoaText b v) = v := by
  have hdigits : ∀ d ∈ numeral b v.natAbs, d < 36 := by
    intro d hd
    have := numeral_lt hb hd
    omega
  have hvalue : readDigits b 0
      (((numeral b v.natAbs).map digitChar).map charDigit) = v.natAbs := by
    rw [map_charDigit hdigits, readDigits_numeral]
  unfold itoaText
  by_cases hv : v < 0
  · rw [if_pos hv, List.singleton_append, signedValue, hvalue]
    omega
  · rw [if_neg hv, List.nil_append]
    cases hcs : (numeral b v.natAbs).map digitChar with
    | nil => simp [numeral_ne_nil] at hcs
    | cons c cs =>
        have hc : c ≠ 45 := by
          have hmem : c ∈ (numeral b v.natAbs).map digitChar := by simp [hcs]
          obtain ⟨d, hd, rfl⟩ := List.mem_map.mp hmem
          exact (digitChar_ne (hdigits d hd)).2
        rw [hcs] at hvalue
        have hplain : signedValue b (c :: cs) =
            readDigits b 0 ((c :: cs).map charDigit) := by
          rw [signedValue]
          simp [hc]
        rw [hplain, hvalue]
        omega

theorem itoaText_canonical {b : ℕ} (hb : 1 < b) (hmax : b ≤ 36) (v : ℤ) :
    CanonicalNumeral b v (itoaText b v) where
  shape := by
    refine ⟨numeral b v.natAbs, numeral_ne_nil, fun d hd => numeral_lt hb hd,
      ?_, rfl⟩
    intro hhead
    have hzero := numeral_head hhead
    exact ⟨hzero.2, by omega⟩
  value := signedValue_itoaText hb hmax v

theorem itoaText_terminated {b : ℕ} (hb : 1 < b) (hmax : b ≤ 36) (v : ℤ) :
    0 ∉ itoaText b v := by
  intro hmem
  rcases List.mem_append.mp hmem with hsign | hdigit
  · split at hsign <;> simp at hsign
  · obtain ⟨d, hd, hzero⟩ := List.mem_map.mp hdigit
    have := numeral_lt hb hd
    exact (digitChar_ne (by omega)).1 hzero

/-- The longest texts are those of base two: a sign and 32 digits. -/
theorem length_itoaText {b : ℕ} (hb : 1 < b) (v : Int32) :
    (itoaText b v.toInt).length ≤ 33 := by
  have hv : v.toInt.natAbs < b ^ 32 := by
    have hlow := v.le_toInt
    have hhigh := v.toInt_lt
    have hpow : 2 ^ 32 ≤ b ^ 32 := Nat.pow_le_pow_left hb 32
    omega
  have hlength := length_numeral_le hb (by omega) hv
  rw [itoaText, List.length_append, List.length_map]
  split <;> simp only [List.length_singleton, List.length_nil] <;> omega

/-! ## The value that `atoi` finds -/

def isDigit (c : UInt8) : Bool := 48 ≤ c && c ≤ 57

/-- The number in front of a text. -/
def leadingNumber (n : ℕ) (text : List UInt8) : ℕ :=
  readDigits 10 n ((text.takeWhile isDigit).map charDigit)

theorem atoiDigits_eq (n : ℕ) (str : List UInt8) :
    atoiDigits (Int32.ofNat n) str = Int32.ofNat (leadingNumber n str) := by
  induction str generalizing n with
  | nil => rfl
  | cons c str ih =>
      rw [atoiDigits]
      by_cases hc : 48 ≤ c ∧ c ≤ 57
      · have hdigit : isDigit c = true := by simpa [isDigit] using hc
        have hlow : 48 ≤ c.toNat := UInt8.le_iff_toNat_le.mp hc.1
        have hstep : Int32.ofNat n * 10 + (Int32.ofNat c.toNat - 48) =
            Int32.ofNat (n * 10 + charDigit c) := by
          rw [charDigit, if_pos hc.2, Int32.ofNat_add, Int32.ofNat_mul,
            Int32.ofNat_sub _ _ hlow]
          rfl
        rw [if_pos hc, hstep, ih, leadingNumber, leadingNumber,
          List.takeWhile_cons_of_pos hdigit, List.map_cons, readDigits,
          readDigits, List.foldl_cons]
      · have hdigit : isDigit c = false := by
          simp only [isDigit]
          simpa using hc
        rw [if_neg hc, leadingNumber,
          List.takeWhile_cons_of_neg (by simp [hdigit])]
        rfl

theorem atoi_negative (str : List UInt8) :
    atoi (45 :: str) = -Int32.ofNat (leadingNumber 0 str) := by
  rw [atoi, Int32.neg_mul, Int32.one_mul]
  exact congrArg _ (atoiDigits_eq 0 str)

theorem atoi_plain {str : List UInt8} (hsign : str.head? ≠ some 45) :
    atoi str = Int32.ofNat (leadingNumber 0 str) := by
  have hplain : atoi str = 1 * atoiDigits 0 str := by
    unfold atoi
    split
    · simp at hsign
    · rfl
  rw [hplain, Int32.one_mul]
  exact atoiDigits_eq 0 str

/-- The number that `atoi` reads, before it is wrapped to 32 bits. -/
def typedNumber : List UInt8 → ℤ
  | 45 :: str => -(leadingNumber 0 str : ℤ)
  | str => leadingNumber 0 str

theorem atoi_eq (str : List UInt8) : atoi str = Int32.ofInt (typedNumber str) := by
  by_cases hsign : str.head? = some 45
  · obtain ⟨str', rfl⟩ := List.head?_eq_some_iff.mp hsign
    rw [atoi_negative, typedNumber, Int32.ofInt_neg, Int32.ofInt_eq_ofNat]
  · have hplain : typedNumber str = leadingNumber 0 str := by
      unfold typedNumber
      split
      · simp at hsign
      · rfl
    rw [atoi_plain hsign, hplain, Int32.ofInt_eq_ofNat]

theorem leadingNumber_digits {ds : List ℕ} (hds : ∀ d ∈ ds, d < 10) (n : ℕ) :
    leadingNumber n (ds.map digitChar) = readDigits 10 n ds := by
  have hall : ∀ c ∈ ds.map digitChar, isDigit c = true := by
    intro c hc
    obtain ⟨d, hd, rfl⟩ := List.mem_map.mp hc
    have hten : ∀ d < 10, isDigit (digitChar d) = true := by decide
    exact hten d (hds d hd)
  rw [leadingNumber, List.takeWhile_eq_self_iff.mpr hall,
    map_charDigit fun d hd => by have := hds d hd; omega]

theorem atoi_itoaText (v : Int32) : atoi (itoaText 10 v.toInt) = v := by
  have hvalue : leadingNumber 0
      ((numeral 10 v.toInt.natAbs).map digitChar) = v.toInt.natAbs := by
    rw [leadingNumber_digits fun d hd => numeral_lt (by omega) hd,
      readDigits_numeral]
  by_cases hv : v.toInt < 0
  · rw [itoaText, if_pos hv, List.singleton_append, atoi_negative, hvalue,
      ← Int32.ofInt_eq_ofNat, ← Int32.ofInt_neg,
      show -(v.toInt.natAbs : ℤ) = v.toInt by omega, Int32.ofInt_toInt]
  · have hsign : (itoaText 10 v.toInt).head? ≠ some 45 := by
      rw [itoaText, if_neg hv, List.nil_append, List.head?_map]
      intro hhead
      obtain ⟨d, hd, hminus⟩ := Option.map_eq_some_iff.mp hhead
      have hlt := numeral_lt (show 1 < 10 by omega) (List.mem_of_head? hd)
      exact (digitChar_ne (by omega)).2 hminus
    rw [atoi_plain hsign, itoaText, if_neg hv, List.nil_append, hvalue,
      ← Int32.ofInt_eq_ofNat,
      show (v.toInt.natAbs : ℤ) = v.toInt by omega, Int32.ofInt_toInt]

/-- A string that `itoa` has written to an array with room for it. -/
theorem cString_itoa {base : Int32} (hbase : 2 ≤ base) (hmax : base ≤ 36)
    (v : Int32) (s : Memory) {str n : ℕ}
    (hn : (itoaText base.toInt.toNat v.toInt).length < n) :
    cString (itoa v s str base) str n =
      itoaText base.toInt.toNat v.toInt := by
  have htwo : 2 ≤ base.toInt := Int32.le_iff_toInt_le.mp hbase
  have hthirtysix : base.toInt ≤ 36 := Int32.le_iff_toInt_le.mp hmax
  rw [itoa_eq hbase hmax,
    cString_strcpy _ (itoaText_terminated (by omega) (by omega) _) hn]

/-- What `itoa` leaves in memory is a string of at most 34 bytes, and nothing
else changes.  The string is the canonical numeral, and `atoi` reads a decimal
one back. -/
theorem itoa_canonical (v base : Int32) (hbase : 2 ≤ base)
    (hmax : base ≤ 36) (s : Memory) (str : ℕ) :
    ∃ text : List UInt8,
      itoa v s str base = strcpy s str text ∧
      (strcmpEq (itoa v s str base) str text = true ∧ 0 ∉ text) ∧
      text.length + 1 ≤ 34 ∧
      (∀ x, (x < str ∨ str + text.length < x) →
        itoa v s str base x = s x) ∧
      CanonicalNumeral base.toInt.toNat v.toInt text ∧
      (base = 10 → atoi text = v) := by
  have htwo : 2 ≤ base.toInt := Int32.le_iff_toInt_le.mp hbase
  have hthirtysix : base.toInt ≤ 36 := Int32.le_iff_toInt_le.mp hmax
  have hb : 1 < base.toInt.toNat := by omega
  have hb' : base.toInt.toNat ≤ 36 := by omega
  have hitoa := itoa_eq hbase hmax v s str
  refine ⟨itoaText base.toInt.toNat v.toInt, hitoa, ⟨?_, ?_⟩, ?_, ?_, ?_, ?_⟩
  · rw [hitoa, strcmpEq_iff, strcpy_eq_set]
    refine ⟨?_, Memory.set_same _ _ _⟩
    intro i hi
    rw [Memory.set_other _ _ (by omega), copyChars_inside _ hi]
  · exact itoaText_terminated hb hb' v.toInt
  · have := length_itoaText hb v
    omega
  · intro x hx
    rw [hitoa, strcpy_eq_set, Memory.set_other _ _ (by omega),
      copyChars_outside _ (by omega)]
  · exact itoaText_canonical hb hb' v.toInt
  · rintro rfl
    exact atoi_itoaText v

/-- The least number in base two takes all of the 34 bytes. -/
theorem itoa_canonical_least :
    ∃ text : List UInt8,
      itoa (-2147483648) (fun _ => 0) 0 2 = strcpy (fun _ => 0) 0 text ∧
      CanonicalNumeral 2 (-2147483648) text := by
  obtain ⟨text, hmem, -, -, -, hcanonical, -⟩ :=
    itoa_canonical (-2147483648) 2 (by decide) (by decide) (fun _ => 0) 0
  exact ⟨text, hmem, hcanonical⟩

end Otsos
