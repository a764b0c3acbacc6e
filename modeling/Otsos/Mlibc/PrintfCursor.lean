import Otsos.Mlibc.DecimalRenderers

/-!
# The cursor of `printf`

Characters of the format and of strings wrap at the right edge.  Conversions do
not look for it, so the cursor stays on the screen as long as none of them
comes to the last column.
-/

namespace Otsos

open Lib

/-! ## Runs of calls -/

structure PrintfCall where
  format : List UInt8
  args : VarArgs

/-- Calls one after the other from the upper left corner, each of which
satisfies `P` where it starts; what is drawn, and the cursor. -/
inductive PrintfRun (P : PrintfCursor → PrintfCall → Prop) :
    PrintfCursor → List Output → Prop
  | start : PrintfRun P ⟨0, 0⟩ []
  | call {cursor : PrintfCursor} {output : List Output} {c : PrintfCall}
      {m : Memory} {format : ℕ} {l : PrintfLoop}
      (run : PrintfRun P cursor output) (hP : P cursor c)
      (hstring : StringAt m format c.format)
      (hpaired : ¬ LoneEscape 37 c.format)
      (hreturns : PrintfReturns m format c.args cursor l) :
      PrintfRun P (l.state.cursor cursor) (output ++ l.state.output)

structure PrintfCursor.OnScreen (cursor : PrintfCursor) : Prop where
  col : 0 ≤ cursor.col.toInt ∧ cursor.col.toInt ≤ 79
  row : 0 ≤ cursor.row.toInt ∧ cursor.row.toInt ≤ 24

/-- The character and its attribute lie in the page. -/
def Output.OnPage : Output → Prop
  | .cell _ offset _ => 0 ≤ offset ∧ offset + 1 < 4000
  | .newline _ => True

/-! ## The layout of a call -/

/-- The column behind a character that wraps. -/
def columnAfter (col : ℕ) (c : UInt8) : ℕ :=
  if c = 10 ∨ col = 79 then 0 else col + 1

/-- What a conversion writes without looking for the edge. -/
def conversionText (word : UInt64) (c : UInt8) : Option (List UInt8) :=
  if c = 99 then some [word.toUInt8]
  else if c = 100 ∨ c = 105 then
    some (itoaText 10 word.toUInt32.toInt32.toInt)
  else if c = 120 then
    some ((numeral 16 word.toUInt32.toNat).map digitChar)
  else none

/-- No conversion comes to the last column. -/
def ConversionsFit (args : VarArgs) : ℕ → ℕ → List Piece → Prop
  | _, _, [] => True
  | col, arg, .plain c :: ps => ConversionsFit args (columnAfter col c) arg ps
  | col, arg, .directive c :: ps =>
      if c = 37 then col + 1 ≤ 79 ∧ ConversionsFit args (col + 1) arg ps
      else if c = 115 then
        ConversionsFit args
          ((args.string (args.slot arg)).foldl columnAfter col) (arg + 1) ps
      else
        match conversionText (args.slot arg) c with
        | some text => col + text.length ≤ 79 ∧
            ConversionsFit args (col + text.length) (arg + 1) ps
        | none => ConversionsFit args col arg ps

def CallFits (cursor : PrintfCursor) (c : PrintfCall) : Prop :=
  ConversionsFit c.args cursor.col.toInt.toNat 0 (pieces 37 c.format)

variable {s : Printf} {cursor : PrintfCursor} {output : List Output}

/-! ## One character -/

theorem cellOffset_eq {row col : Int32} (hrow : 0 ≤ row.toInt ∧ row.toInt ≤ 24)
    (hcol : 0 ≤ col.toInt ∧ col.toInt ≤ 79) :
    cellOffset row col = (row.toInt * 80 + col.toInt) * 2 := by
  have hproduct : (row * 80).toInt = row.toInt * 80 := by
    rw [Int32.toInt_mul, show (80 : Int32).toInt = 80 by decide]
    exact Int.bmod_eq_of_le (by omega) (by omega)
  have hsum : (row * 80 + col).toInt = row.toInt * 80 + col.toInt := by
    rw [Int32.toInt_add, hproduct]
    exact Int.bmod_eq_of_le (by omega) (by omega)
  rw [cellOffset, Int32.toInt_mul, hsum, show (2 : Int32).toInt = 2 by decide]
  exact Int.bmod_eq_of_le (by omega) (by omega)

namespace Printf

structure OnScreen (s : Printf) : Prop where
  col : 0 ≤ s.edi.toInt ∧ s.edi.toInt ≤ 79
  row : 0 ≤ s.edx.toInt ∧ s.edx.toInt ≤ 24
  output : ∀ o ∈ s.output, o.OnPage

theorem edi_add {edi : Int32} (h : 0 ≤ edi.toInt ∧ edi.toInt ≤ 79) {n : ℕ}
    (hn : n ≤ 80) : (edi + Int32.ofNat n).toInt = edi.toInt + n := by
  have hnat : (Int32.ofNat n).toInt = n :=
    Int32.toInt_ofNat_of_lt (by omega)
  rw [Int32.toInt_add, hnat]
  exact Int.bmod_eq_of_le (by omega) (by omega)

theorem OnScreen.cell_onPage (h : s.OnScreen) (fromFormat : Bool)
    (c : UInt8) :
    (Output.cell fromFormat (cellOffset s.edx s.edi) c).OnPage := by
  have hcol := h.col
  have hrow := h.row
  rw [Output.OnPage, cellOffset_eq hrow hcol]
  omega

theorem OnScreen.nextLine (h : ∀ o ∈ s.output, o.OnPage)
    (hrow : 0 ≤ s.edx.toInt ∧ s.edx.toInt ≤ 24) : s.nextLine.OnScreen := by
  have hnext : (s.edx + 1).toInt = s.edx.toInt + 1 := by
    rw [Int32.toInt_add, show (1 : Int32).toInt = 1 by decide]
    exact Int.bmod_eq_of_le (by omega) (by omega)
  refine ⟨show 0 ≤ (0 : Int32).toInt ∧ (0 : Int32).toInt ≤ 79 by decide, ?_, h⟩
  simp only [Printf.nextLine]
  split
  next hle =>
    rw [Int32.le_iff_toInt_le, hnext] at hle
    rw [hnext]
    exact ⟨by omega, hle⟩
  next => decide

/-- A character at the cursor, where it does not fill the line. -/
theorem OnScreen.cell (h : s.OnScreen) (fromFormat : Bool) (c : UInt8)
    (hfits : s.edi.toInt + 1 ≤ 79) :
    (s.cell fromFormat c).OnScreen ∧
      (s.cell fromFormat c).edi.toInt = s.edi.toInt + 1 := by
  have hcol := h.col
  have hnext : (s.edi + 1).toInt = s.edi.toInt + 1 :=
    edi_add hcol (n := 1) (by omega)
  refine ⟨⟨?_, h.row, ?_⟩, hnext⟩
  · rw [show (s.cell fromFormat c).edi = s.edi + 1 from rfl, hnext]
    omega
  · intro o ho
    rcases List.mem_append.mp ho with hold | hnew
    · exact h.output o hold
    · rw [List.mem_singleton.mp hnew]
      exact h.cell_onPage fromFormat c

theorem OnScreen.character (h : s.OnScreen) (fromFormat : Bool) (c : UInt8) :
    (s.character fromFormat c).OnScreen ∧
      (s.character fromFormat c).edi.toInt.toNat =
        columnAfter s.edi.toInt.toNat c := by
  have hcol := h.col
  have hzero : (0 : Int32).toInt.toNat = 0 := by decide
  unfold Printf.character columnAfter
  by_cases hline : c = 10
  · rw [if_pos hline, if_pos (Or.inl hline)]
    refine ⟨?_, hzero⟩
    have hnext := @OnScreen.nextLine
      { s with output := s.output ++ [.newline fromFormat] } ?_ h.row
    · exact hnext
    · intro o ho
      rcases List.mem_append.mp ho with hold | hnew
      · exact h.output o hold
      · rw [List.mem_singleton.mp hnew]
        trivial
  · have hnext : (s.edi + 1).toInt = s.edi.toInt + 1 :=
      edi_add hcol (n := 1) (by omega)
    have hwraps : (79 : Int32) < (s.cell fromFormat c).edi ↔
        s.edi.toInt = 79 := by
      rw [Int32.lt_iff_toInt_lt, show (s.cell fromFormat c).edi = s.edi + 1
        from rfl, hnext, show (79 : Int32).toInt = 79 by decide]
      omega
    rw [if_neg hline]
    dsimp only
    by_cases hedge : s.edi.toInt = 79
    · rw [if_pos (hwraps.mpr hedge), if_pos (Or.inr (by omega))]
      refine ⟨OnScreen.nextLine ?_ h.row, hzero⟩
      intro o ho
      rcases List.mem_append.mp ho with hold | hnew
      · exact h.output o hold
      · rw [List.mem_singleton.mp hnew]
        exact h.cell_onPage fromFormat c
    · obtain ⟨hcell, hedi⟩ := h.cell fromFormat c (by omega)
      have hstays : ¬ (c = 10 ∨ s.edi.toInt.toNat = 79) :=
        not_or.mpr ⟨hline, by omega⟩
      rw [if_neg (mt hwraps.mp hedge), if_neg hstays, hedi]
      exact ⟨hcell, by omega⟩

theorem OnScreen.string (h : s.OnScreen) (cs : List UInt8) :
    (cs.foldl (fun s c => s.character false c) s).OnScreen ∧
      (cs.foldl (fun s c => s.character false c) s).edi.toInt.toNat =
        cs.foldl columnAfter s.edi.toInt.toNat := by
  induction cs generalizing s with
  | nil => exact ⟨h, rfl⟩
  | cons c cs ih =>
      obtain ⟨hnext, hcol⟩ := h.character false c
      rw [List.foldl_cons, List.foldl_cons, ← hcol]
      exact ih hnext

/-! ## Conversions -/

theorem OnScreen.digits (h : s.OnScreen) (cs : List UInt8)
    (hfits : s.edi.toInt + cs.length ≤ 79) :
    (s.digits cs).OnScreen ∧
      (s.digits cs).edi.toInt = s.edi.toInt + cs.length := by
  have hcol := h.col
  have hrow := h.row
  have hnext := edi_add hcol (n := cs.length) (by omega)
  refine ⟨⟨?_, h.row, ?_⟩, hnext⟩
  · rw [show (s.digits cs).edi = s.edi + Int32.ofNat cs.length from rfl, hnext]
    omega
  · intro o ho
    rcases List.mem_append.mp ho with hold | hnew
    · exact h.output o hold
    · obtain ⟨⟨c, k⟩, hmem, rfl⟩ := List.mem_map.mp hnew
      have hk : k < cs.length := by
        have hget := List.mk_mem_zipIdx_iff_getElem?.mp hmem
        exact (List.getElem?_eq_some_iff.mp hget).1
      simp only [Output.OnPage]
      rw [cellOffset_eq hrow hcol]
      omega

theorem OnScreen.decimal (h : s.OnScreen) (v : Int32)
    (hfits : s.edi.toInt + (itoaText 10 v.toInt).length ≤ 79) :
    (s.decimal v).OnScreen ∧ (s.decimal v).edi.toInt =
      s.edi.toInt + (itoaText 10 v.toInt).length := by
  have hneg : v < 0 ↔ v.toInt < 0 := Int32.lt_iff_toInt_lt
  unfold Printf.decimal
  by_cases hzero : v = 0
  · have hone : (itoaText 10 v.toInt).length = 1 := by
      rw [hzero]
      decide
    rw [if_pos hzero, hone]
    rw [hone] at hfits
    exact h.cell false 48 hfits
  · rw [if_neg hzero]
    by_cases hv : v.toInt < 0
    · have hdigits : ((decimalLoop (-v).toUInt32).reverse).length + 1 =
          (itoaText 10 v.toInt).length := by
        rw [decimalLoop_eq, neg_toUInt32_toNat hv, itoaText, if_pos hv]
        simp [length_numeral]
      rw [if_pos (hneg.mpr hv)]
      obtain ⟨hcell, hedi⟩ := h.cell false 45 (by omega)
      obtain ⟨hdone, hend⟩ := hcell.digits
        (decimalLoop (-v).toUInt32).reverse (by omega)
      exact ⟨hdone, by omega⟩
    · have hdigits : ((decimalLoop v.toUInt32).reverse).length =
          (itoaText 10 v.toInt).length := by
        rw [decimalLoop_eq, toUInt32_toNat (not_lt.mp hv), itoaText, if_neg hv]
        simp [length_numeral]
      rw [if_neg (mt hneg.mp hv), ← hdigits]
      exact h.digits _ (by omega)

theorem hexLoop_length (r10d : UInt32) :
    (hexLoop r10d).length = (lowDigits 16 r10d.toNat).length := by
  fun_induction hexLoop r10d with
  | case1 r10d c hlast =>
      rw [lowDigits_step (by omega), if_pos (shiftRight_four_eq_zero.mp hlast)]
      rfl
  | case2 r10d c hnext ih =>
      have hnext' := mt shiftRight_four_eq_zero.mpr hnext
      rw [lowDigits_step (by omega), if_neg hnext', List.length_cons,
        List.length_cons, ih, shiftRight_four_toNat]

theorem OnScreen.hex (h : s.OnScreen) (n : UInt32)
    (hfits : s.edi.toInt + (numeral 16 n.toNat).length ≤ 79) :
    (s.hex n).OnScreen ∧
      (s.hex n).edi.toInt = s.edi.toInt + (numeral 16 n.toNat).length := by
  unfold Printf.hex
  by_cases hzero : n = 0
  · have hone : (numeral 16 n.toNat).length = 1 := by
      rw [hzero]
      decide
    rw [if_pos hzero, hone]
    rw [hone] at hfits
    exact h.cell false 48 hfits
  · have hdigits : (hexLoop n).reverse.length = (numeral 16 n.toNat).length := by
      rw [List.length_reverse, hexLoop_length, length_numeral]
    rw [if_neg hzero, ← hdigits]
    exact h.digits _ (by omega)

end Printf

/-! ## Calls -/

/-- A conversion that takes a word, where it fits. -/
theorem Printf.OnScreen.conversion (h : s.OnScreen) (args : VarArgs)
    {c : UInt8} {text : List UInt8} (hpercent : c ≠ 37)
    (htext : conversionText (args.slot s.arg) c = some text)
    (hfits : s.edi.toInt + text.length ≤ 79) :
    (s.directive args c).OnScreen ∧
      (s.directive args c).edi.toInt = s.edi.toInt + text.length ∧
      (s.directive args c).arg = s.arg + 1 := by
  have htaken : ({ s with arg := s.arg + 1 } : Printf).OnScreen :=
    ⟨h.col, h.row, h.output⟩
  unfold conversionText at htext
  unfold Printf.directive
  dsimp only
  rw [if_neg hpercent]
  by_cases hchar : c = 99
  · rw [if_pos hchar] at htext ⊢
    cases htext
    obtain ⟨hdone, hend⟩ := htaken.cell false (args.slot s.arg).toUInt8 hfits
    exact ⟨hdone, hend, rfl⟩
  rw [if_neg hchar] at htext ⊢
  by_cases hdecimal : c = 100 ∨ c = 105
  · rw [if_pos hdecimal] at htext ⊢
    cases htext
    obtain ⟨hdone, hend⟩ :=
      htaken.decimal (args.slot s.arg).toUInt32.toInt32 hfits
    refine ⟨hdone, hend, ?_⟩
    unfold Printf.decimal
    split_ifs <;> rfl
  rw [if_neg hdecimal] at htext ⊢
  by_cases hhex : c = 120
  · subst hhex
    rw [if_pos rfl] at htext
    rw [if_neg (by decide), if_pos rfl]
    cases htext
    rw [List.length_map] at hfits ⊢
    obtain ⟨hdone, hend⟩ := htaken.hex (args.slot s.arg).toUInt32 hfits
    refine ⟨hdone, hend, ?_⟩
    unfold Printf.hex
    split_ifs <;> rfl
  · rw [if_neg hhex] at htext
    cases htext

theorem Printf.arg_character (s : Printf) (fromFormat : Bool) (c : UInt8) :
    (s.character fromFormat c).arg = s.arg := by
  unfold Printf.character
  dsimp only
  split_ifs <;> rfl

theorem Printf.arg_string (s : Printf) (cs : List UInt8) :
    (cs.foldl (fun s c => s.character false c) s).arg = s.arg := by
  induction cs generalizing s with
  | nil => rfl
  | cons c cs ih => rw [List.foldl_cons, ih, Printf.arg_character]

/-- One directive, and the layout behind it. -/
theorem Printf.OnScreen.directive (h : s.OnScreen) (args : VarArgs) (c : UInt8)
    {ps : List Piece}
    (hfits : ConversionsFit args s.edi.toInt.toNat s.arg (.directive c :: ps)) :
    (s.directive args c).OnScreen ∧
      ConversionsFit args (s.directive args c).edi.toInt.toNat
        (s.directive args c).arg ps := by
  have hcol := h.col
  rw [ConversionsFit] at hfits
  by_cases hpercent : c = 37
  · rw [if_pos hpercent] at hfits
    obtain ⟨hdone, hend⟩ := h.cell false 37 (by omega)
    have hdirective : s.directive args c = s.cell false 37 := by
      rw [Printf.directive, if_pos hpercent]
    rw [hdirective, hend, show (s.edi.toInt + 1).toNat = s.edi.toInt.toNat + 1
      by omega]
    exact ⟨hdone, hfits.2⟩
  rw [if_neg hpercent] at hfits
  by_cases hstring : c = 115
  · have htaken : ({ s with arg := s.arg + 1 } : Printf).OnScreen :=
      ⟨h.col, h.row, h.output⟩
    obtain ⟨hdone, hend⟩ := htaken.string (args.string (args.slot s.arg))
    have hdirective : s.directive args c =
        (args.string (args.slot s.arg)).foldl
          (fun s c => s.character false c) { s with arg := s.arg + 1 } := by
      subst hstring
      rfl
    rw [if_pos hstring] at hfits
    rw [hdirective, hend, Printf.arg_string]
    exact ⟨hdone, hfits⟩
  rw [if_neg hstring] at hfits
  cases htext : conversionText (args.slot s.arg) c with
  | some text =>
      rw [htext] at hfits
      obtain ⟨hdone, hend, harg⟩ :=
        h.conversion args hpercent htext (by omega)
      rw [hend, harg, show (s.edi.toInt + (text.length : ℤ)).toNat =
        s.edi.toInt.toNat + text.length by omega]
      exact ⟨hdone, hfits.2⟩
  | none =>
      have hnone : s.directive args c = s := by
        simp only [conversionText] at htext
        simp only [Printf.directive, if_neg hpercent, if_neg hstring]
        split_ifs at htext ⊢
        rfl
      rw [htext] at hfits
      rw [hnone]
      exact ⟨h, hfits⟩

theorem Printf.OnScreen.pieces (h : s.OnScreen) (args : VarArgs)
    {ps : List Piece}
    (hfits : ConversionsFit args s.edi.toInt.toNat s.arg ps) :
    (ps.foldl (printfScanner args).apply s).OnScreen := by
  induction ps generalizing s with
  | nil => exact h
  | cons p ps ih =>
      rw [List.foldl_cons]
      cases p with
      | plain c =>
          obtain ⟨hnext, hcol⟩ := h.character true c
          rw [ConversionsFit, ← hcol, ← s.arg_character true c] at hfits
          exact ih hnext hfits
      | directive c =>
          obtain ⟨hnext, hrest⟩ := h.directive args c hfits
          exact ih hnext hrest

theorem Printf.OnScreen.stored (h : s.OnScreen) (hold : cursor.OnScreen) :
    (s.cursor cursor).OnScreen := by
  constructor
  · simp only [Printf.cursor]
    split
    · exact h.col
    · exact hold.col
  · simp only [Printf.cursor]
    split
    · exact h.row
    · exact hold.row

theorem PrintfReturns.onScreen {m : Memory} {format : ℕ} {c : PrintfCall}
    {l : PrintfLoop} (hcursor : cursor.OnScreen)
    (hstring : StringAt m format c.format)
    (hpaired : ¬ LoneEscape 37 c.format) (hfits : CallFits cursor c)
    (hreturns : PrintfReturns m format c.args cursor l) :
    l.state.OnScreen := by
  obtain ⟨s, hstops, rfl⟩ := printfReturns_iff.mp hreturns
  obtain ⟨s', hstops', hstate, -⟩ :=
    Scanner.scans_string (S := printfScanner c.args)
      (s := ⟨format, [], Printf.start cursor, false⟩) hstring hpaired rfl
  have hstart : (Printf.start cursor).OnScreen :=
    ⟨hcursor.col, hcursor.row, by simp [Printf.start]⟩
  change s.state.OnScreen
  rw [hstops.unique hstops', hstate]
  exact hstart.pieces c.args hfits

/-- The cursor stays on the screen, and what is drawn in the page, in every run
in which no conversion comes to the last column. -/
theorem printf_on_screen (hrun : PrintfRun CallFits cursor output) :
    cursor.OnScreen ∧ ∀ o ∈ output, o.OnPage := by
  induction hrun with
  | start => exact ⟨⟨by decide, by decide⟩, by simp⟩
  | call run hfits hstring hpaired hreturns ih =>
      have hstate := hreturns.onScreen ih.1 hstring hpaired hfits
      refine ⟨hstate.stored ih.1, ?_⟩
      intro o ho
      rcases List.mem_append.mp ho with hold | hnew
      · exact ih.2 o hold
      · exact hstate.output o hnew

/-- A string of `n` letters and the number 120. -/
def lettersThenNumber (n : ℕ) : VarArgs where
  slot := fun i => if i = 0 then 0 else 120
  string := fun _ => List.replicate n 97

/-- Any call extends a run, and leaves the cursor where its pieces do. -/
theorem PrintfRun.extend {P : PrintfCursor → PrintfCall → Prop}
    {c : PrintfCall} (run : PrintfRun P cursor output) (col row : Int32)
    (hP : P cursor c) (hformat : 0 ∉ c.format)
    (hpaired : ¬ LoneEscape 37 c.format)
    (hends :
      let s := (pieces 37 c.format).foldl (printfScanner c.args).apply
        (Printf.start cursor)
      (s.cursor cursor).col = col ∧ (s.cursor cursor).row = row) :
    ∃ output', PrintfRun P ⟨col, row⟩ (output ++ output') := by
  have hstring := stringAt_strcpy (fun _ => 0) 0 hformat
  obtain ⟨s, hstops, hstate, -⟩ :=
    Scanner.scans_string (S := printfScanner c.args)
      (s := ⟨0, [], Printf.start cursor, false⟩) hstring hpaired rfl
  have hreturns : PrintfReturns _ 0 c.args cursor (.ended _ s) :=
    printfReturns_iff.mpr ⟨s, hstops, rfl⟩
  have hrun := run.call hP hstring hpaired hreturns
  change PrintfRun P (s.state.cursor cursor) (output ++ s.state.output) at hrun
  rw [hstate] at hrun
  obtain ⟨rfl, rfl⟩ := hends
  exact ⟨_, hrun⟩

/-- A number that ends in front of the last column, and behind it a letter in
that column and a number in the next line. -/
theorem printf_on_screen_number : ∃ output output',
    PrintfRun CallFits ⟨79, 0⟩ output ∧
    PrintfRun CallFits ⟨1, 1⟩ (output ++ output') ∧
    (PrintfCursor.mk 1 1).OnScreen ∧ ∀ o ∈ output ++ output', o.OnPage := by
  have hfirst : CallFits ⟨0, 0⟩ ⟨literal "%s%d", lettersThenNumber 76⟩ := by
    refine ⟨?_, trivial⟩
    decide +kernel
  have hsecond : CallFits ⟨79, 0⟩ ⟨literal "a%d", lettersThenNumber 0⟩ := by
    refine ⟨?_, trivial⟩
    decide +kernel
  obtain ⟨output, hrun⟩ := PrintfRun.start.extend 79 0 hfirst (by decide)
    (fun h => h) (by decide +kernel)
  obtain ⟨output', hrun'⟩ := hrun.extend 1 1 hsecond (by decide)
    (fun h => h) (by decide +kernel)
  exact ⟨output, output', hrun, hrun', printf_on_screen hrun'⟩

/-- The call `printf("%s%c", s, 'x')` with 79 letters in `s` leaves the cursor
in column 80. -/
theorem printf_leaves_screen : ∃ cursor output,
    PrintfRun (fun _ _ => True) cursor output ∧ ¬ cursor.OnScreen := by
  obtain ⟨output, hrun⟩ :=
    PrintfRun.start.extend (P := fun _ _ => True)
      (c := ⟨literal "%s%c", lettersThenNumber 79⟩) 80 0 trivial (by decide)
      (fun h => h) (by decide +kernel)
  exact ⟨_, _, hrun, fun h => absurd h.col.2 (by decide)⟩

end Otsos
