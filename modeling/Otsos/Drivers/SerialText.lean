import Otsos.Mlibc.DecimalRenderers

/-!
# Reading what `com1_printf` sends

The text of a call is that of its pieces.  A conversion of fixed width, or one
that is followed by a character it cannot contain, can be found again in the
text, and its value read from it.
-/

namespace Otsos

open Lib

/-- The conversions that take an argument. -/
def takesArg (c : UInt8) : Bool := c ∈ [115, 99, 100, 117, 120, 112]

/-- What is sent for a conversion of the argument `i`. -/
def com1Directive (args : VarArgs) (i : ℕ) (c : UInt8) : List UInt8 :=
  (Com1.directive args ⟨i, []⟩ c).bytes

/-- The text of pieces whose conversions begin with the argument `i`. -/
def textOf (args : VarArgs) : ℕ → List Piece → List UInt8
  | _, [] => []
  | i, .plain c :: ps => c :: textOf args i ps
  | i, .directive c :: ps =>
      com1Directive args i c ++
        textOf args (if takesArg c then i + 1 else i) ps

/-- What a call sends. -/
def com1Text (format : List UInt8) (args : VarArgs) : List UInt8 :=
  textOf args 0 (pieces 37 format)

/-- The bytes of a conversion, where their number does not depend on the
argument. -/
def conversionWidth (c : UInt8) : Option ℕ :=
  if c = 115 ∨ c = 100 ∨ c = 117 then none
  else if c = 99 then some 1
  else if c = 120 then some 8
  else if c = 112 then some 18
  else if c = 37 then some 1
  else some 0

/-- Every conversion without a fixed width is followed by a character that its
text does not contain. -/
def Delimited (args : VarArgs) : ℕ → List Piece → Prop
  | _, [] => True
  | i, .plain _ :: ps => Delimited args i ps
  | i, .directive c :: ps =>
      ((conversionWidth c).isSome ∨
        ∃ d qs, ps = .plain d :: qs ∧ d ∉ com1Directive args i c) ∧
      Delimited args (if takesArg c then i + 1 else i) ps

/-- The character cannot be in the text of the conversion: no digit or sign,
and for a string the end of the line. -/
def delimits (c d : UInt8) : Bool :=
  if c = 115 then d = 10 else d ≠ 45 && (d < 48 || 57 < d)

def delimitedBy (c : UInt8) : List Piece → Bool
  | .plain d :: _ => delimits c d
  | _ => false

/-- What `Delimited` asks for can be seen from the format, if no string goes
over the end of a line. -/
def delimitable : List Piece → Bool
  | [] => true
  | .plain _ :: ps => delimitable ps
  | .directive c :: ps =>
      ((conversionWidth c).isSome || delimitedBy c ps) && delimitable ps

/-- What a conversion makes of its argument: a string, the low 8 or 32 bits, or
all of it. -/
def SameValue (args args' : VarArgs) (i : ℕ) (c : UInt8) : Prop :=
  if c = 115 then args.string (args.slot i) = args'.string (args'.slot i)
  else if c = 99 then (args.slot i).toUInt8 = (args'.slot i).toUInt8
  else if c = 100 ∨ c = 117 ∨ c = 120 then
    (args.slot i).toUInt32 = (args'.slot i).toUInt32
  else if c = 112 then args.slot i = args'.slot i
  else True

def SameValues (args args' : VarArgs) : ℕ → List Piece → Prop
  | _, [] => True
  | i, .plain _ :: ps => SameValues args args' i ps
  | i, .directive c :: ps =>
      SameValue args args' i c ∧
        SameValues args args' (if takesArg c then i + 1 else i) ps

/-- The conversions with the arguments they take. -/
def conversions : ℕ → List Piece → List (ℕ × UInt8)
  | _, [] => []
  | i, .plain _ :: ps => conversions i ps
  | i, .directive c :: ps =>
      (i, c) :: conversions (if takesArg c then i + 1 else i) ps

variable {args args' : VarArgs} {i : ℕ} {c : UInt8} {ps : List Piece}
  {r r' : List UInt8} {s : Com1}

/-! ## The text of a call -/

theorem decimal_bytes (s : Com1) (v : Int32) :
    (s.decimal v).bytes = s.bytes ++ ((⟨s.arg, []⟩ : Com1).decimal v).bytes ∧
      (s.decimal v).arg = s.arg := by
  unfold Com1.decimal
  split
  · rw [Com1.bytes_write, Com1.bytes_write, Com1.bytes_write,
      Com1.bytes_write, List.append_assoc, List.append_assoc]
    exact ⟨rfl, rfl⟩
  · rw [Com1.bytes_write, Com1.bytes_write]
    exact ⟨rfl, rfl⟩

theorem directive_bytes (args : VarArgs) (s : Com1) (c : UInt8) :
    (s.directive args c).bytes = s.bytes ++ com1Directive args s.arg c ∧
      (s.directive args c).arg = if takesArg c then s.arg + 1 else s.arg := by
  have hwrite (bytes : List UInt8) :
      (({ s with arg := s.arg + 1 } : Com1).write bytes).bytes =
        s.bytes ++ ((⟨s.arg + 1, []⟩ : Com1).write bytes).bytes := by
    rw [Com1.bytes_write, Com1.bytes_write]
    rfl
  unfold com1Directive Com1.directive
  dsimp only
  by_cases hs : c = 115
  · subst hs
    exact ⟨hwrite _, rfl⟩
  by_cases hc : c = 99
  · subst hc
    exact ⟨hwrite _, rfl⟩
  by_cases hd : c = 100
  · subst hd
    exact ⟨(decimal_bytes _ _).1, (decimal_bytes _ _).2⟩
  by_cases hu : c = 117
  · subst hu
    exact ⟨hwrite _, rfl⟩
  by_cases hx : c = 120
  · subst hx
    exact ⟨hwrite _, rfl⟩
  by_cases hp : c = 112
  · subst hp
    exact ⟨hwrite _, rfl⟩
  have htakes : takesArg c = false := by
    simp [takesArg, hs, hc, hd, hu, hx, hp]
  rw [if_neg hs, if_neg hc, if_neg hd, if_neg hu, if_neg hx, if_neg hp,
    if_neg hs, if_neg hc, if_neg hd, if_neg hu, if_neg hx, if_neg hp, htakes]
  by_cases hpercent : c = 37
  · rw [if_pos hpercent, if_pos hpercent]
    exact ⟨Com1.bytes_write _ _, rfl⟩
  · rw [if_neg hpercent, if_neg hpercent]
    exact ⟨(List.append_nil _).symm, rfl⟩

theorem pieces_bytes (ps : List Piece) (s : Com1) :
    (ps.foldl (com1Printf args).apply s).bytes =
      s.bytes ++ textOf args s.arg ps := by
  induction ps generalizing s with
  | nil => simp [textOf]
  | cons p ps ih =>
      rw [List.foldl_cons, ih]
      cases p with
      | plain c => simp [Scanner.apply, com1Printf, Com1.plain, textOf, Com1.bytes]
      | directive c =>
          obtain ⟨hbytes, harg⟩ := directive_bytes args s c
          have happly : (com1Printf args).apply s (.directive c) =
              s.directive args c := rfl
          rw [happly, hbytes, harg, textOf, List.append_assoc]

/-- A call with a whole format ends and sends its text. -/
theorem com1_returns_text {m : Memory} {format : ℕ} {cs : List UInt8}
    (hformat : StringAt m format cs) (hpaired : ¬ LoneEscape 37 cs) :
    ∃ s, Com1Returns m format args s ∧ s.state.bytes = com1Text cs args := by
  obtain ⟨s, hstops, hstate, -⟩ :=
    Scanner.scans_string (S := com1Printf args)
      (s := ⟨format, [], Com1.start, false⟩) hformat hpaired rfl
  refine ⟨s, hstops, ?_⟩
  rw [hstate, pieces_bytes]
  rfl

/-! ## Where a conversion ends -/

theorem length_com1Directive {n : ℕ} (h : conversionWidth c = some n) :
    (com1Directive args i c).length = n := by
  have hwrite (bytes : List UInt8) (arg : ℕ) :
      ((⟨arg, []⟩ : Com1).write bytes).bytes = bytes := Com1.bytes_write _ _
  unfold conversionWidth at h
  split_ifs at h with hvaries hc hx hp hpercent
  · rw [← Option.some.inj h, hc]
    rfl
  · rw [← Option.some.inj h, hx]
    rfl
  · rw [← Option.some.inj h, hp]
    rfl
  · rw [← Option.some.inj h, hpercent]
    rfl
  · rw [not_or, not_or] at hvaries
    obtain ⟨hs, hd, hu⟩ := hvaries
    rw [← Option.some.inj h]
    unfold com1Directive Com1.directive
    dsimp only
    rw [if_neg hs, if_neg hc, if_neg hd, if_neg hu, if_neg hx, if_neg hp,
      if_neg hpercent]
    rfl

def SameTexts (args args' : VarArgs) : ℕ → List Piece → Prop
  | _, [] => True
  | i, .plain _ :: ps => SameTexts args args' i ps
  | i, .directive c :: ps =>
      com1Directive args i c = com1Directive args' i c ∧
        SameTexts args args' (if takesArg c then i + 1 else i) ps

/-- A text ends before the first character that it cannot contain. -/
theorem append_delimiter_inj {t t' : List UInt8} (ht : c ∉ t) (ht' : c ∉ t')
    (h : t ++ c :: r = t' ++ c :: r') : t = t' ∧ r = r' := by
  induction t generalizing t' with
  | nil =>
      cases t' with
      | nil => exact ⟨rfl, (List.cons.inj h).2⟩
      | cons d t' =>
          rw [(List.cons.inj h).1] at ht'
          exact absurd List.mem_cons_self ht'
  | cons d t ih =>
      cases t' with
      | nil =>
          rw [← (List.cons.inj h).1] at ht
          exact absurd List.mem_cons_self ht
      | cons d' t' =>
          obtain ⟨hhead, htail⟩ := List.cons.inj h
          obtain ⟨hrest, hr⟩ :=
            ih (fun hmem => ht (List.mem_cons_of_mem _ hmem))
              (fun hmem => ht' (List.mem_cons_of_mem _ hmem)) htail
          exact ⟨by rw [hhead, hrest], hr⟩

theorem textOf_append_inj (h : Delimited args i ps)
    (h' : Delimited args' i ps)
    (heq : textOf args i ps ++ r = textOf args' i ps ++ r') :
    SameTexts args args' i ps ∧ r = r' := by
  induction ps generalizing i with
  | nil => exact ⟨trivial, heq⟩
  | cons p ps ih =>
      cases p with
      | plain c => exact ih h h' (List.cons.inj heq).2
      | directive c =>
          obtain ⟨hend, hrest⟩ := h
          obtain ⟨hend', hrest'⟩ := h'
          rw [textOf, textOf, List.append_assoc, List.append_assoc] at heq
          have hsplit : com1Directive args i c = com1Directive args' i c ∧
              textOf args (if takesArg c then i + 1 else i) ps ++ r =
                textOf args' (if takesArg c then i + 1 else i) ps ++ r' := by
            rcases hend with hfixed | ⟨d, qs, hps, hd⟩
            · obtain ⟨n, hn⟩ := Option.isSome_iff_exists.mp hfixed
              refine List.append_inj heq ?_
              rw [length_com1Directive hn, length_com1Directive hn]
            · rcases hend' with hfixed | ⟨d', qs', hps', hd'⟩
              · obtain ⟨n, hn⟩ := Option.isSome_iff_exists.mp hfixed
                refine List.append_inj heq ?_
                rw [length_com1Directive hn, length_com1Directive hn]
              · rw [hps] at hps'
                cases hps'
                rw [hps, textOf, textOf, List.cons_append, List.cons_append]
                  at heq ⊢
                obtain ⟨htext, hr⟩ := append_delimiter_inj hd hd' heq
                exact ⟨htext, by rw [hr]⟩
          obtain ⟨htext, hr⟩ := hsplit
          obtain ⟨htexts, hr⟩ := ih hrest hrest' hr
          exact ⟨⟨htext, htexts⟩, hr⟩

theorem textOf_eq_of_sameTexts (h : SameTexts args args' i ps) :
    textOf args i ps = textOf args' i ps := by
  induction ps generalizing i with
  | nil => rfl
  | cons p ps ih =>
      cases p with
      | plain c => rw [textOf, textOf, ih h]
      | directive c => rw [textOf, textOf, h.1, ih h.2]

/-! ## The values -/

theorem hexDigit_inj : ∀ d < 16, ∀ e < 16,
    com1HexDigits.getD d 0 = com1HexDigits.getD e 0 → d = e := by decide

theorem hexByte_inj {v w : UInt8}
    (h : com1WriteHexByte v = com1WriteHexByte w) : v = w := by
  have hhigh (b : UInt8) : ((b >>> 4) &&& 0xF).toNat = b.toNat / 16 := by
    have hlt := b.toNat_lt
    rw [UInt8.toNat_and, UInt8.toNat_shiftRight]
    refine (Nat.and_two_pow_sub_one_eq_mod _ 4).trans ?_
    rw [Nat.shiftRight_eq_div_pow]
    show b.toNat / 16 % 16 = b.toNat / 16
    omega
  have hlow (b : UInt8) : (b &&& 0xF).toNat = b.toNat % 16 := by
    rw [UInt8.toNat_and]
    exact Nat.and_two_pow_sub_one_eq_mod _ 4
  have hv := v.toNat_lt
  have hw := w.toNat_lt
  unfold com1WriteHexByte at h
  rw [hhigh, hlow, hhigh, hlow] at h
  obtain ⟨hfirst, hsecond⟩ := List.cons.inj h
  have hdiv := hexDigit_inj _ (by omega) _ (by omega) hfirst
  have hmod := hexDigit_inj _ (by omega) _ (by omega) (List.cons.inj hsecond).1
  apply UInt8.toNat_inj.mp
  omega

theorem hexWord_inj {v w : UInt16}
    (h : com1WriteHexWord v = com1WriteHexWord w) : v = w := by
  have hv := v.toNat_lt
  have hw := w.toNat_lt
  obtain ⟨hhigh, hlow⟩ := List.append_inj h rfl
  have hhigh' := congrArg UInt8.toNat (hexByte_inj hhigh)
  have hlow' := congrArg UInt8.toNat (hexByte_inj hlow)
  rw [UInt16.toNat_toUInt8, UInt16.toNat_toUInt8, UInt16.toNat_shiftRight,
    UInt16.toNat_shiftRight, Nat.shiftRight_eq_div_pow,
    Nat.shiftRight_eq_div_pow] at hhigh'
  rw [UInt16.toNat_toUInt8, UInt16.toNat_toUInt8] at hlow'
  apply UInt16.toNat_inj.mp
  change v.toNat / 256 % 2 ^ 8 = w.toNat / 256 % 2 ^ 8 at hhigh'
  omega

theorem hexDword_inj {v w : UInt32}
    (h : com1WriteHexDword v = com1WriteHexDword w) : v = w := by
  have hv := v.toNat_lt
  have hw := w.toNat_lt
  obtain ⟨hhigh, hlow⟩ := List.append_inj h rfl
  have hhigh' := congrArg UInt16.toNat (hexWord_inj hhigh)
  have hlow' := congrArg UInt16.toNat (hexWord_inj hlow)
  rw [UInt32.toNat_toUInt16, UInt32.toNat_toUInt16, UInt32.toNat_shiftRight,
    UInt32.toNat_shiftRight, Nat.shiftRight_eq_div_pow,
    Nat.shiftRight_eq_div_pow] at hhigh'
  rw [UInt32.toNat_toUInt16, UInt32.toNat_toUInt16] at hlow'
  change v.toNat / 2 ^ 16 % 2 ^ 16 = w.toNat / 2 ^ 16 % 2 ^ 16 at hhigh'
  apply UInt32.toNat_inj.mp
  omega

theorem hexQword_inj {v w : UInt64}
    (h : com1WriteHexQword v = com1WriteHexQword w) : v = w := by
  have hv := v.toNat_lt
  have hw := w.toNat_lt
  obtain ⟨hhigh, hlow⟩ := List.append_inj h rfl
  have hhigh' := congrArg UInt32.toNat (hexDword_inj hhigh)
  have hlow' := congrArg UInt32.toNat (hexDword_inj hlow)
  rw [UInt64.toNat_toUInt32, UInt64.toNat_toUInt32, UInt64.toNat_shiftRight,
    UInt64.toNat_shiftRight, Nat.shiftRight_eq_div_pow,
    Nat.shiftRight_eq_div_pow] at hhigh'
  rw [UInt64.toNat_toUInt32, UInt64.toNat_toUInt32] at hlow'
  change v.toNat / 2 ^ 32 % 2 ^ 32 = w.toNat / 2 ^ 32 % 2 ^ 32 at hhigh'
  apply UInt64.toNat_inj.mp
  omega

/-- The digits that follow are never a sign. -/
theorem sign_ne_digits {n n' : ℕ} :
    45 :: (numeral 10 n).map digitChar ≠ (numeral 10 n').map digitChar := by
  intro h
  have hmem : 45 ∈ (numeral 10 n').map digitChar := by
    rw [← h]
    exact List.mem_cons_self
  obtain ⟨d, hd, hchar⟩ := List.mem_map.mp hmem
  have hlt := @numeral_lt 10 _ _ (by omega) hd
  exact (digitChar_ne (by omega)).2 hchar

theorem digits_inj {n n' : ℕ}
    (h : (numeral 10 n).map digitChar = (numeral 10 n').map digitChar) :
    n = n' := by
  have hdigits (n : ℕ) : ∀ d ∈ numeral 10 n, d < 36 := by
    intro d hd
    have := @numeral_lt 10 _ _ (by omega) hd
    omega
  have hvalues := congrArg (List.map charDigit) h
  rw [map_charDigit (hdigits _), map_charDigit (hdigits _)] at hvalues
  exact readDigits_injective hvalues

theorem writeDec_inj {v w : UInt64}
    (h : com1WriteDec v = com1WriteDec w) : v = w := by
  rw [com1WriteDec_eq, com1WriteDec_eq] at h
  exact UInt64.toNat_inj.mp (digits_inj h)

theorem toInt64_inj {v w : Int32}
    (h : v.toInt64.toUInt64.toNat = w.toInt64.toUInt64.toNat) : v = w := by
  have hvalue := toInt64_toNat v
  have hvalue' := toInt64_toNat w
  have hlow := v.le_toInt
  have hlow' := w.le_toInt
  have hhigh := v.toInt_lt
  have hhigh' := w.toInt_lt
  apply Int32.toInt_inj.mp
  split at hvalue <;> split at hvalue' <;> omega

theorem decimal_inj {v w : Int32} {s : Com1}
    (h : (s.decimal v).bytes = (s.decimal w).bytes) : v = w := by
  rw [Com1.bytes_decimal, Com1.bytes_decimal, List.append_assoc,
    List.append_assoc, List.append_cancel_left_eq] at h
  by_cases hv : v.toInt < 0
  · rw [if_pos hv] at h
    by_cases hw : w.toInt < 0
    · rw [if_pos hw, List.append_cancel_left_eq] at h
      have hmagnitude := digits_inj h
      rw [com1Magnitude, com1Magnitude, if_pos hv, if_pos hw] at hmagnitude
      exact Int32.neg_inj.mp (toInt64_inj hmagnitude)
    · rw [if_neg hw] at h
      exact absurd h sign_ne_digits
  · rw [if_neg hv] at h
    by_cases hw : w.toInt < 0
    · rw [if_pos hw] at h
      exact absurd h.symm sign_ne_digits
    · rw [if_neg hw, List.append_cancel_left_eq] at h
      have hmagnitude := digits_inj h
      rw [com1Magnitude, com1Magnitude, if_neg hv, if_neg hw] at hmagnitude
      exact toInt64_inj hmagnitude

theorem decimal_chars {v : Int32} {arg : ℕ} {c : UInt8}
    (h : c ∈ ((⟨arg, []⟩ : Com1).decimal v).bytes) :
    c = 45 ∨ 48 ≤ c ∧ c ≤ 57 := by
  have hdigit : ∀ d < 10, 48 ≤ digitChar d ∧ digitChar d ≤ 57 := by decide
  rw [Com1.bytes_decimal, List.mem_append, List.mem_append] at h
  rcases h with (hstart | hsign) | hdigits
  · cases hstart
  · split at hsign
    · exact Or.inl (List.mem_singleton.mp hsign)
    · cases hsign
  · obtain ⟨d, hd, rfl⟩ := List.mem_map.mp hdigits
    exact Or.inr (hdigit d (numeral_lt (by omega) hd))

theorem writeDec_chars {v : UInt64} (h : c ∈ com1WriteDec v) :
    c = 45 ∨ 48 ≤ c ∧ c ≤ 57 := by
  have hdigit : ∀ d < 10, 48 ≤ digitChar d ∧ digitChar d ≤ 57 := by decide
  rw [com1WriteDec_eq] at h
  obtain ⟨d, hd, rfl⟩ := List.mem_map.mp h
  exact Or.inr (hdigit d (numeral_lt (by omega) hd))

theorem com1Directive_eq (args : VarArgs) (i : ℕ) (c : UInt8) :
    com1Directive args i c =
      if c = 115 then args.string (args.slot i)
      else if c = 99 then [(args.slot i).toUInt8]
      else if c = 100 then
        ((⟨i + 1, []⟩ : Com1).decimal (args.slot i).toUInt32.toInt32).bytes
      else if c = 117 then com1WriteDec (args.slot i).toUInt32.toUInt64
      else if c = 120 then com1WriteHexDword (args.slot i).toUInt32
      else if c = 112 then literal "0x" ++ com1WriteHexQword (args.slot i)
      else if c = 37 then [37]
      else [] := by
  have hwrite (bytes : List UInt8) (arg : ℕ) :
      ((⟨arg, []⟩ : Com1).write bytes).bytes = bytes := Com1.bytes_write _ _
  unfold com1Directive Com1.directive
  dsimp only
  simp only [apply_ite Com1.bytes, hwrite]
  rfl

theorem not_mem_com1Directive {d : UInt8}
    (hstrings : ∀ w, 10 ∉ args.string w)
    (hwidth : ¬ (conversionWidth c).isSome) (h : delimits c d = true) :
    d ∉ com1Directive args i c := by
  have hnumber {d : UInt8} (hd : (d ≠ 45 && (d < 48 || 57 < d)) = true) :
      ¬ (d = 45 ∨ 48 ≤ d ∧ d ≤ 57) := by
    rw [Bool.and_eq_true, Bool.or_eq_true, decide_eq_true_eq, decide_eq_true_eq,
      decide_eq_true_eq, UInt8.lt_iff_toNat_lt, UInt8.lt_iff_toNat_lt] at hd
    rw [UInt8.le_iff_toNat_le, UInt8.le_iff_toNat_le]
    rintro (hsign | hdigit)
    · exact hd.1 hsign
    · omega
  rw [com1Directive_eq]
  unfold delimits at h
  by_cases hs : c = 115
  · rw [if_pos hs, decide_eq_true_eq] at h
    rw [if_pos hs, h]
    exact hstrings _
  rw [if_neg hs] at h
  by_cases hd : c = 100
  · subst hd
    exact fun hmem => hnumber h (decimal_chars hmem)
  by_cases hu : c = 117
  · subst hu
    exact fun hmem => hnumber h (writeDec_chars hmem)
  · refine absurd ?_ hwidth
    unfold conversionWidth
    rw [if_neg (by simp only [hs, hd, hu, or_self, not_false_eq_true])]
    split_ifs <;> rfl

theorem delimited_of_delimitable (hstrings : ∀ w, 10 ∉ args.string w)
    (h : delimitable ps = true) : Delimited args i ps := by
  induction ps generalizing i with
  | nil => trivial
  | cons p ps ih =>
      cases p with
      | plain c => exact ih h
      | directive c =>
          rw [delimitable, Bool.and_eq_true, Bool.or_eq_true] at h
          refine ⟨?_, ih h.2⟩
          rcases h.1 with hfixed | hnext
          · exact Or.inl hfixed
          · by_cases hfixed : (conversionWidth c).isSome
            · exact Or.inl hfixed
            · right
              cases ps with
              | nil => cases hnext
              | cons q qs =>
                  cases q with
                  | plain d =>
                      exact ⟨d, qs, rfl,
                        not_mem_com1Directive hstrings hfixed hnext⟩
                  | directive d => cases hnext

theorem sameText_iff : com1Directive args i c = com1Directive args' i c ↔
    SameValue args args' i c := by
  rw [com1Directive_eq, com1Directive_eq, SameValue]
  by_cases hs : c = 115
  · rw [if_pos hs, if_pos hs, if_pos hs]
  by_cases hc : c = 99
  · simp only [if_neg hs, if_pos hc, List.cons.injEq, and_true]
  by_cases hd : c = 100
  · have hnumber : c = 100 ∨ c = 117 ∨ c = 120 := Or.inl hd
    simp only [if_neg hs, if_neg hc, if_pos hd, if_pos hnumber]
    refine ⟨fun h => ?_, fun h => by rw [h]⟩
    exact congrArg Int32.toUInt32 (decimal_inj h)
  by_cases hu : c = 117
  · have hnumber : c = 100 ∨ c = 117 ∨ c = 120 := Or.inr (Or.inl hu)
    simp only [if_neg hs, if_neg hc, if_neg hd, if_pos hu, if_pos hnumber]
    refine ⟨fun h => ?_, fun h => by rw [h]⟩
    have hsame := congrArg UInt64.toUInt32 (writeDec_inj h)
    rwa [UInt32.toUInt32_toUInt64, UInt32.toUInt32_toUInt64] at hsame
  by_cases hx : c = 120
  · have hnumber : c = 100 ∨ c = 117 ∨ c = 120 := Or.inr (Or.inr hx)
    simp only [if_neg hs, if_neg hc, if_neg hd, if_neg hu, if_pos hx,
      if_pos hnumber]
    exact ⟨hexDword_inj, fun h => by rw [h]⟩
  have hnumber : ¬ (c = 100 ∨ c = 117 ∨ c = 120) := by
    simp only [hd, hu, hx, or_self, not_false_eq_true]
  by_cases hp : c = 112
  · simp only [if_neg hs, if_neg hc, if_neg hd, if_neg hu, if_neg hx, if_pos hp,
      if_neg hnumber, List.append_cancel_left_eq]
    exact ⟨hexQword_inj, fun h => by rw [h]⟩
  simp only [if_neg hs, if_neg hc, if_neg hd, if_neg hu, if_neg hx, if_neg hp,
    if_neg hnumber]

theorem sameTexts_iff : SameTexts args args' i ps ↔
    SameValues args args' i ps := by
  induction ps generalizing i with
  | nil => exact Iff.rfl
  | cons p ps ih =>
      cases p with
      | plain c => exact ih
      | directive c =>
          rw [SameTexts, SameValues, sameText_iff, ih]

/-- The text of a format and the values in it determine each other, whatever
is sent behind it. -/
theorem com1Text_append_iff {cs : List UInt8}
    (h : Delimited args 0 (pieces 37 cs))
    (h' : Delimited args' 0 (pieces 37 cs)) :
    com1Text cs args ++ r = com1Text cs args' ++ r' ↔
      SameValues args args' 0 (pieces 37 cs) ∧ r = r' := by
  constructor
  · intro heq
    obtain ⟨htexts, hr⟩ := textOf_append_inj h h' heq
    exact ⟨sameTexts_iff.mp htexts, hr⟩
  · rintro ⟨hvalues, rfl⟩
    rw [com1Text, com1Text,
      textOf_eq_of_sameTexts (sameTexts_iff.mpr hvalues)]

theorem sameValues_iff : SameValues args args' i ps ↔
    ∀ p ∈ conversions i ps, SameValue args args' p.1 p.2 := by
  induction ps generalizing i with
  | nil => simp [SameValues, conversions]
  | cons p ps ih =>
      cases p with
      | plain c => exact ih
      | directive c =>
          rw [SameValues, conversions, List.forall_mem_cons, ih]

/-- Several calls one behind the other. -/
theorem com1Texts_append_iff {calls : List (List UInt8 × VarArgs × VarArgs)}
    (h : ∀ call ∈ calls, Delimited call.2.1 0 (pieces 37 call.1) ∧
      Delimited call.2.2 0 (pieces 37 call.1)) :
    (calls.flatMap fun call => com1Text call.1 call.2.1) ++ r =
        (calls.flatMap fun call => com1Text call.1 call.2.2) ++ r' ↔
      (∀ call ∈ calls, SameValues call.2.1 call.2.2 0 (pieces 37 call.1)) ∧
        r = r' := by
  induction calls with
  | nil => simp
  | cons call calls ih =>
      rw [List.forall_mem_cons] at h
      rw [List.flatMap_cons, List.flatMap_cons, List.append_assoc,
        List.append_assoc, com1Text_append_iff h.1.1 h.1.2, ih h.2,
        List.forall_mem_cons, and_assoc]

/-- Two calls of `com1_printf` with a format whose conversions can be found in
its text send the same bytes if and only if their arguments have the same
values there. -/
theorem com1_printf_readable {m m' : Memory} {a a' : ℕ} {cs : List UInt8}
    (hformat : StringAt m a cs) (hformat' : StringAt m' a' cs)
    (hpaired : ¬ LoneEscape 37 cs) (h : Delimited args 0 (pieces 37 cs))
    (h' : Delimited args' 0 (pieces 37 cs)) :
    ∃ s s', Com1Returns m a args s ∧ Com1Returns m' a' args' s' ∧
      (s.state.bytes = s'.state.bytes ↔
        SameValues args args' 0 (pieces 37 cs)) := by
  obtain ⟨s, hreturns, hbytes⟩ :=
    @com1_returns_text args _ _ _ hformat hpaired
  obtain ⟨s', hreturns', hbytes'⟩ :=
    @com1_returns_text args' _ _ _ hformat' hpaired
  refine ⟨s, s', hreturns, hreturns', ?_⟩
  have hiff := @com1Text_append_iff _ _ [] [] _ h h'
  rw [List.append_nil, List.append_nil] at hiff
  rw [hbytes, hbytes', hiff]
  exact and_iff_left rfl

instance decidableLoneEscape (escape : UInt8) :
    (cs : List UInt8) → Decidable (LoneEscape escape cs)
  | [] => inferInstanceAs (Decidable False)
  | [c] => inferInstanceAs (Decidable (c = escape))
  | c :: d :: cs =>
      have := decidableLoneEscape escape cs
      have := decidableLoneEscape escape (d :: cs)
      inferInstanceAs (Decidable
        (if c = escape then LoneEscape escape cs
          else LoneEscape escape (d :: cs)))

theorem com1_printf_readable_code :
    ∃ s s', Com1Returns (strcpy (fun _ => 0) 7 (literal "%d (%x)")) 7
        ⟨fun _ => 14, fun _ => []⟩ s ∧
      Com1Returns (strcpy (fun _ => 0) 9 (literal "%d (%x)")) 9
        ⟨fun _ => 13, fun _ => []⟩ s' ∧
      (s.state.bytes = s'.state.bytes ↔
        SameValues ⟨fun _ => 14, fun _ => []⟩ ⟨fun _ => 13, fun _ => []⟩ 0
          (pieces 37 (literal "%d (%x)"))) :=
  com1_printf_readable (stringAt_strcpy _ _ (by decide))
    (stringAt_strcpy _ _ (by decide)) (by decide)
    (delimited_of_delimitable (fun _ => List.not_mem_nil) (by decide))
    (delimited_of_delimitable (fun _ => List.not_mem_nil) (by decide))

end Otsos
