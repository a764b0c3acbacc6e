import Otsos.Mlibc.FormatScans
import Otsos.Mlibc.Numbers

/-!
# Three ways to write a number

`com1_printf` negates a negative number and widens it to 64 bits, `printf`
negates it as an unsigned one, `itoa` divides it as it is.  The texts are the
same but for the least number, whose negative is itself: widened, it has lost
its value.
-/

namespace Otsos

open Lib

/-! ## The digit loops -/

theorem readDigits_injective {b n n' : ℕ} (h : numeral b n = numeral b n') :
    n = n' := by
  rw [← readDigits_numeral b n, h, readDigits_numeral]

theorem decimalLoop_digit (ecx : UInt32) :
    (ecx - reciprocalTenth ecx * 10 + 48).toUInt8 =
      digitChar (ecx.toNat % 10) := by
  have hproduct : (reciprocalTenth ecx * 10).toNat = ecx.toNat / 10 * 10 := by
    have hlt := ecx.toNat_lt
    rw [UInt32.toNat_mul, reciprocalTenth_toNat]
    exact Nat.mod_eq_of_lt (by simp; omega)
  have hrest : (ecx - reciprocalTenth ecx * 10).toNat = ecx.toNat % 10 := by
    rw [UInt32.toNat_sub_of_le _ _ (by rw [UInt32.le_iff_toNat_le]; omega),
      hproduct]
    omega
  have htable : ∀ d < 10, (UInt32.ofNat d + 48).toUInt8 = digitChar d := by
    decide
  rw [← htable _ (Nat.mod_lt _ (by omega)), ← hrest, UInt32.ofNat_toNat]

theorem decimalLoop_eq (ecx : UInt32) :
    decimalLoop ecx = (lowDigits 10 ecx.toNat).map digitChar := by
  fun_induction decimalLoop ecx with
  | case1 ecx c hlast =>
      rw [lowDigits_step (by omega), if_pos (reciprocalTenth_eq_zero.mp hlast),
        List.map_cons, List.map_nil, ← decimalLoop_digit]
  | case2 ecx c hnext ih =>
      have hnext' := mt reciprocalTenth_eq_zero.mpr hnext
      rw [lowDigits_step (by omega), if_neg hnext', List.map_cons,
        ← decimalLoop_digit, ih, reciprocalTenth_toNat]

theorem com1Digits_digit (value : UInt64) :
    48 + (value % 10).toUInt8 = digitChar (value.toNat % 10) := by
  have hrest : (value % 10).toNat = value.toNat % 10 := by
    rw [UInt64.toNat_mod]
    rfl
  have htable : ∀ d < 10, 48 + (UInt64.ofNat d).toUInt8 = digitChar d := by
    decide
  rw [← htable _ (Nat.mod_lt _ (by omega)), ← hrest, UInt64.ofNat_toNat]

theorem com1Digits_eq (value : UInt64) :
    com1Digits value = (Nat.digits 10 value.toNat).map digitChar := by
  fun_induction com1Digits value with
  | case1 value hpos ih =>
      have hpos' : 0 < value.toNat := hpos
      rw [Nat.digits_def' (by omega) hpos', List.map_cons, com1Digits_digit, ih,
        UInt64.toNat_div]
      rfl
  | case2 value hzero =>
      have hzero' : value.toNat = 0 := Nat.eq_zero_of_not_pos hzero
      rw [hzero', Nat.digits_zero]
      rfl

theorem com1WriteDec_eq (value : UInt64) :
    com1WriteDec value = (numeral 10 value.toNat).map digitChar := by
  unfold com1WriteDec
  by_cases hzero : value = 0
  · rw [if_pos hzero, hzero]
    decide
  · have hzero' : value.toNat ≠ 0 := by
      intro h
      exact hzero (UInt64.toNat_inj.mp h)
    rw [if_neg hzero, com1Digits_eq, numeral, lowDigits, if_neg hzero',
      List.map_reverse]

/-! ## What is sent and what is shown -/

def Com1.bytes (s : Com1) : List UInt8 := s.sent.map Sent.byte

def Output.char : Output → UInt8
  | .cell _ _ c => c
  | .newline _ => 10

def Printf.chars (s : Printf) : List UInt8 := s.output.map Output.char

theorem Com1.bytes_write (s : Com1) (bytes : List UInt8) :
    (s.write bytes).bytes = s.bytes ++ bytes := by
  simp [Com1.bytes, Com1.write, Function.comp_def]

theorem Printf.chars_cell (s : Printf) (c : UInt8) :
    (s.cell false c).chars = s.chars ++ [c] := by
  simp [Printf.chars, Printf.cell, Output.char]

theorem Printf.chars_digits (s : Printf) (cs : List UInt8) :
    (s.digits cs).chars = s.chars ++ cs := by
  have hchars : (cs.zipIdx.map fun p =>
      Output.cell false (cellOffset s.edx s.edi + 2 * (p.2 : ℤ)) p.1).map
        Output.char = cs := by
    rw [List.map_map]
    exact List.zipIdx_map_fst 0 cs
  rw [Printf.chars, Printf.digits, List.map_append]
  exact congrArg (s.chars ++ ·) hchars

/-- The magnitude of a negative number as an unsigned one, the least number
included. -/
theorem neg_toUInt32_toNat {v : Int32} (hv : v.toInt < 0) :
    (-v).toUInt32.toNat = v.toInt.natAbs := by
  have hcases := toInt_cases v
  have hlt := v.toUInt32.toNat_lt
  have hneg : (-v).toUInt32.toNat =
      (2 ^ 32 - v.toUInt32.toNat) % 2 ^ 32 := by
    rw [Int32.toUInt32_neg, UInt32.toNat_neg]
    rfl
  rw [hneg]
  split at hcases <;> omega

theorem toUInt32_toNat {v : Int32} (hv : 0 ≤ v.toInt) :
    v.toUInt32.toNat = v.toInt.natAbs := by
  have hcases := toInt_cases v
  have hlt := v.toUInt32.toNat_lt
  split at hcases <;> omega

theorem Printf.chars_decimal (s : Printf) (v : Int32) :
    (s.decimal v).chars = s.chars ++ itoaText 10 v.toInt := by
  unfold Printf.decimal
  by_cases hzero : v = 0
  · rw [if_pos hzero, Printf.chars_cell, hzero]
    rfl
  · have hneg : v < 0 ↔ v.toInt < 0 := Int32.lt_iff_toInt_lt
    rw [if_neg hzero]
    by_cases hv : v.toInt < 0
    · rw [if_pos (hneg.mpr hv), Printf.chars_digits, Printf.chars_cell,
        decimalLoop_eq, neg_toUInt32_toNat hv, itoaText, if_pos hv, numeral,
        List.map_reverse, List.append_assoc]
    · rw [if_neg (mt hneg.mp hv), Printf.chars_digits, decimalLoop_eq,
        toUInt32_toNat (not_lt.mp hv), itoaText, if_neg hv, List.nil_append,
        numeral, List.map_reverse]

theorem toInt64_toNat (v : Int32) :
    (v.toInt64.toUInt64.toNat : ℤ) =
      if v.toInt < 0 then 2 ^ 64 + v.toInt else v.toInt := by
  have hcases : v.toInt64.toInt =
      if 2 * v.toInt64.toUInt64.toNat < 2 ^ 64 then
        (v.toInt64.toUInt64.toNat : ℤ)
      else v.toInt64.toUInt64.toNat - (2 ^ 64 : ℕ) :=
    BitVec.toInt_eq_toNat_cond v.toInt64.toBitVec
  have hlt := v.toInt64.toUInt64.toNat_lt
  have hhigh := v.toInt_lt
  have hlow := v.le_toInt
  rw [Int32.toInt_toInt64] at hcases
  split at hcases <;> split <;> omega

/-- The number whose digits `com1_printf` sends behind the sign. -/
def com1Magnitude (v : Int32) : ℕ :=
  if v.toInt < 0 then (-v).toInt64.toUInt64.toNat else v.toInt64.toUInt64.toNat

theorem com1Magnitude_eq_iff (v : Int32) :
    com1Magnitude v = v.toInt.natAbs ↔ v ≠ -2147483648 := by
  have hlow := v.le_toInt
  have hhigh := v.toInt_lt
  have hleast : v = -2147483648 ↔ v.toInt = -2147483648 := by
    rw [← Int32.toInt_inj]
    rfl
  have hminus : (-v).toInt = if v.toInt = -2147483648 then -2147483648
      else -v.toInt := by
    rw [Int32.toInt_neg, Int.bmod_def]
    norm_num
    split <;> split <;> omega
  have hwide := toInt64_toNat v
  have hwide' := toInt64_toNat (-v)
  rw [hminus] at hwide'
  rw [com1Magnitude, Ne, hleast]
  split at hwide <;> split at hwide' <;> split <;> omega

theorem Com1.bytes_decimal (s : Com1) (v : Int32) :
    (s.decimal v).bytes = s.bytes ++ (if v.toInt < 0 then [45] else []) ++
      (numeral 10 (com1Magnitude v)).map digitChar := by
  have hneg : v < 0 ↔ v.toInt < 0 := Int32.lt_iff_toInt_lt
  unfold Com1.decimal com1Magnitude
  by_cases hv : v.toInt < 0
  · rw [if_pos (hneg.mpr hv), if_pos hv, if_pos hv, Com1.bytes_write,
      Com1.bytes_write, com1WriteDec_eq]
  · rw [if_neg (mt hneg.mp hv), if_neg hv, if_neg hv, Com1.bytes_write,
      com1WriteDec_eq, List.append_nil]

/-! ## The three texts -/

/-- Wherever the format `%d`, the cursor and the array are, the two calls end,
and the bytes sent, the characters shown and the string of `itoa` are the
same. -/
def DecimalsAgree (v : Int32) : Prop :=
  ∀ (m : Memory) (format : ℕ) (args : VarArgs) (cursor : PrintfCursor)
    (s : Memory) (str : ℕ), StringAt m format (literal "%d") →
    (args.slot 0).toUInt32.toInt32 = v →
    ∃ sent shown, Com1Returns m format args sent ∧
      PrintfReturns m format args cursor shown ∧
      sent.state.bytes = cString (itoa v s str 10) str 34 ∧
      shown.state.chars = cString (itoa v s str 10) str 34

theorem decimal_not_lone : ¬ LoneEscape 37 (literal "%d") := fun h => h

theorem com1_decimal_returns {m : Memory} {format : ℕ} {args : VarArgs}
    {v : Int32} (hformat : StringAt m format (literal "%d"))
    (hv : (args.slot 0).toUInt32.toInt32 = v) :
    ∃ sent, Com1Returns m format args sent ∧
      sent.state.bytes = (if v.toInt < 0 then [45] else []) ++
        (numeral 10 (com1Magnitude v)).map digitChar := by
  obtain ⟨sent, hstops, hstate, -⟩ :=
    Scanner.scans_string (S := com1Printf args)
      (s := ⟨format, [], Com1.start, false⟩) hformat
      decimal_not_lone rfl
  have hdirective : sent.state = (⟨1, []⟩ : Com1).decimal v := by
    rw [hstate, ← hv]
    rfl
  refine ⟨sent, hstops, ?_⟩
  rw [hdirective, Com1.bytes_decimal]
  rfl

theorem printf_decimal_returns {m : Memory} {format : ℕ} {args : VarArgs}
    {v : Int32} (cursor : PrintfCursor)
    (hformat : StringAt m format (literal "%d"))
    (hv : (args.slot 0).toUInt32.toInt32 = v) :
    ∃ shown, PrintfReturns m format args cursor shown ∧
      shown.state.chars = itoaText 10 v.toInt := by
  obtain ⟨s, hstops, hstate, -⟩ :=
    Scanner.scans_string (S := printfScanner args)
      (s := ⟨format, [], Printf.start cursor, false⟩) hformat
      decimal_not_lone rfl
  have hdirective : s.state =
      ({ Printf.start cursor with arg := 1 } : Printf).decimal v := by
    rw [hstate, ← hv]
    rfl
  refine ⟨.ended m s, printfReturns_iff.mpr ⟨s, hstops, rfl⟩, ?_⟩
  change s.state.chars = _
  rw [hdirective, Printf.chars_decimal]
  rfl

theorem cString_itoa_decimal (v : Int32) (s : Memory) (str : ℕ) :
    cString (itoa v s str 10) str 34 = itoaText 10 v.toInt := by
  have hlength := @length_itoaText 10 (by omega) v
  exact cString_itoa (by decide) (by decide) v s (Nat.lt_succ_of_le hlength)

theorem com1_text_eq_iff (v : Int32) :
    (if v.toInt < 0 then [45] else []) ++
        (numeral 10 (com1Magnitude v)).map digitChar = itoaText 10 v.toInt ↔
      v ≠ -2147483648 := by
  rw [← com1Magnitude_eq_iff, itoaText, List.append_cancel_left_eq]
  constructor
  · intro h
    have hdigits := congrArg (List.map charDigit) h
    rw [map_charDigit, map_charDigit] at hdigits
    · exact readDigits_injective hdigits
    · intro d hd
      have := @numeral_lt 10 _ _ (by omega) hd
      omega
    · intro d hd
      have := @numeral_lt 10 _ _ (by omega) hd
      omega
  · intro h
    rw [h]

theorem DecimalsAgree.ne_least {v : Int32} (h : DecimalsAgree v) :
    v ≠ -2147483648 := by
  have hformat : StringAt (strcpy (fun _ => 0) 0 (literal "%d")) 0
      (literal "%d") := stringAt_strcpy _ 0 (by decide)
  have hv : v.toUInt32.toUInt64.toUInt32.toInt32 = v := by
    rw [UInt32.toUInt32_toUInt64, Int32.toInt32_toUInt32]
  let args : VarArgs := ⟨fun _ => v.toUInt32.toUInt64, fun _ => []⟩
  obtain ⟨sent, shown, hsent, -, hbytes, -⟩ :=
    h _ 0 args ⟨0, 0⟩ (fun _ => 0) 0 hformat hv
  obtain ⟨sent', hsent', hbytes'⟩ :=
    @com1_decimal_returns _ _ args _ hformat hv
  rw [hsent.unique hsent', hbytes', cString_itoa_decimal] at hbytes
  exact (com1_text_eq_iff v).mp hbytes

/-- The three texts differ for the least number, and for no other. -/
theorem decimals_agree_iff (v : Int32) :
    DecimalsAgree v ↔ v ≠ -2147483648 := by
  constructor
  · exact DecimalsAgree.ne_least
  · intro hv m format args cursor s str hformat hslot
    obtain ⟨sent, hsent, hbytes⟩ := com1_decimal_returns hformat hslot
    obtain ⟨shown, hshown, hchars⟩ :=
      printf_decimal_returns cursor hformat hslot
    rw [cString_itoa_decimal]
    exact ⟨sent, shown, hsent, hshown,
      hbytes.trans ((com1_text_eq_iff v).mpr hv), hchars⟩

theorem decimals_differ : ¬ DecimalsAgree (-2147483648) :=
  fun h => h.ne_least rfl

end Otsos
