import Otsos.Drivers.SerialPort

/-!
# How far the format is read

`com1_printf` and `printf` scan their format alike, one with the test at the
top of its loop and one with the next character loaded at the bottom.
-/

namespace Otsos

open Lib

variable {m : Memory} {a : ℕ} {cs : List UInt8} {args : VarArgs}
  {cursor : PrintfCursor}

/-! ## The loop of `printf` -/

def printfScanner (args : VarArgs) : Scanner Printf where
  escape := 37
  plain := fun s c => s.character true c
  directive := Printf.directive args

/-- The loop at a character, with the load of it behind it. -/
def PrintfLoop.loaded (m : Memory) (s : Scan Printf) : PrintfLoop where
  r10 := s.pos
  cl := m s.pos
  reads := s.pos :: s.reads
  state := s.state
  stopped := m s.pos == 0

/-- The loop at the terminator. -/
def PrintfLoop.ended (m : Memory) (s : Scan Printf) : PrintfLoop where
  r10 := s.pos
  cl := m s.pos
  reads := s.reads
  state := s.state
  stopped := true

theorem pass_loaded {s : Scan Printf} (hopen : s.stopped = false)
    (hc : m s.pos ≠ 0) :
    (PrintfLoop.loaded m s).pass m args =
      .loaded m ((printfScanner args).pass m s) := by
  have hgoes : (PrintfLoop.loaded m s).stopped = false := by
    simpa [PrintfLoop.loaded] using hc
  rw [PrintfLoop.pass, if_neg (by simp [hgoes])]
  by_cases hescape : m s.pos = 37
  · rw [Scanner.pass_escape hopen hc hescape,
      if_neg (show ¬ (PrintfLoop.loaded m s).cl ≠ 37 from not_not.mpr hescape)]
    rfl
  · rw [Scanner.pass_plain hopen hc hescape,
      if_pos (show (PrintfLoop.loaded m s).cl ≠ 37 from hescape)]
    rfl

theorem pass_open {S : Scanner Printf} {s : Scan Printf}
    (hopen : s.stopped = false) (hc : m s.pos ≠ 0) :
    (S.pass m s).stopped = false := by
  by_cases hescape : m s.pos = S.escape
  · rw [Scanner.pass_escape hopen hc hescape]
    exact hopen
  · rw [Scanner.pass_plain hopen hc hescape]
    exact hopen

theorem loaded_end {s : Scan Printf} (hopen : s.stopped = false)
    (hend : m s.pos = 0) :
    PrintfLoop.loaded m s =
      .ended m ((printfScanner args).pass m s) := by
  rw [Scanner.pass_end hopen hend]
  simp [PrintfLoop.loaded, PrintfLoop.ended, hend]

theorem loop_of_stops {s s' : Scan Printf} (hopen : s.stopped = false)
    (hstops : (printfScanner args).Stops m s s') :
    ∃ n, (PrintfLoop.pass m args)^[n] (.loaded m s) = .ended m s' := by
  obtain ⟨n, hn, hstopped⟩ := hstops
  induction n generalizing s with
  | zero =>
      rw [Function.iterate_zero_apply] at hn
      rw [← hn, hopen] at hstopped
      cases hstopped
  | succ n ih =>
      rw [Function.iterate_succ_apply] at hn
      by_cases hend : m s.pos = 0
      · have hlast : ((printfScanner args).pass m s).stopped = true := by
          rw [Scanner.pass_end hopen hend]
        rw [Scanner.iterate_stopped hlast] at hn
        exact ⟨0, by rw [← hn]; exact loaded_end hopen hend⟩
      · obtain ⟨k, hk⟩ := ih (pass_open hopen hend) hn
        refine ⟨k + 1, ?_⟩
        rw [Function.iterate_succ_apply, pass_loaded hopen hend, hk]

theorem stops_of_loop {s : Scan Printf} {l : PrintfLoop} {n : ℕ}
    (hopen : s.stopped = false)
    (hn : (PrintfLoop.pass m args)^[n] (.loaded m s) = l)
    (hstopped : l.stopped = true) :
    ∃ s', (printfScanner args).Stops m s s' ∧ l = .ended m s' := by
  induction n generalizing s with
  | zero =>
      have hend : m s.pos = 0 := by
        rw [← hn] at hstopped
        exact beq_iff_eq.mp hstopped
      have hlast : ((printfScanner args).pass m s).stopped = true := by
        rw [Scanner.pass_end hopen hend]
      exact ⟨_, ⟨1, rfl, hlast⟩, hn.symm.trans (loaded_end hopen hend)⟩
  | succ n ih =>
      by_cases hend : m s.pos = 0
      · have hdone : (PrintfLoop.loaded m s).stopped = true :=
          beq_iff_eq.mpr hend
        have hfixed : (PrintfLoop.loaded m s).pass m args = .loaded m s := by
          rw [PrintfLoop.pass, if_pos hdone]
        rw [Function.iterate_succ_apply, hfixed] at hn
        exact ih hopen hn
      · rw [Function.iterate_succ_apply, pass_loaded hopen hend] at hn
        obtain ⟨s', hstops, hl⟩ := ih (pass_open hopen hend) hn
        exact ⟨s', hstops.of_pass, hl⟩

/-- A call of `printf` ends where the scan of its format stops. -/
theorem printfReturns_iff {l : PrintfLoop} :
    PrintfReturns m a args cursor l ↔
      ∃ s, (printfScanner args).Stops m ⟨a, [], Printf.start cursor, false⟩ s ∧
        l = .ended m s := by
  constructor
  · rintro ⟨n, hn, hstopped⟩
    exact stops_of_loop rfl hn hstopped
  · rintro ⟨s, hstops, rfl⟩
    obtain ⟨n, hn⟩ := loop_of_stops rfl hstops
    exact ⟨n, hn, rfl⟩

/-! ## The characters of the format -/

/-- The characters that are not part of a pair. -/
def plainChars (cs : List UInt8) : List UInt8 :=
  (pieces 37 cs).filterMap fun
    | .plain c => some c
    | .directive _ => none

/-- The character of the format that is put out. -/
def Output.literal : Output → Option UInt8
  | .cell true _ c => some c
  | .newline true => some 10
  | _ => none

def Sent.literal (b : Sent) : Option UInt8 :=
  if b.fromFormat then some b.byte else none

def Printf.literals (s : Printf) : List UInt8 := s.output.filterMap Output.literal

def Com1.literals (s : Com1) : List UInt8 := s.sent.filterMap Sent.literal

namespace Com1

@[simp] theorem literals_plain (s : Com1) (c : UInt8) :
    (s.plain c).literals = s.literals ++ [c] := by
  simp [literals, plain, Sent.literal]

@[simp] theorem literals_write (s : Com1) (bytes : List UInt8) :
    (s.write bytes).literals = s.literals := by
  simp [literals, write, Sent.literal, List.filterMap_map, Function.comp_def]

theorem literals_directive (args : VarArgs) (s : Com1) (c : UInt8) :
    (s.directive args c).literals = s.literals := by
  have htaken : ({ s with arg := s.arg + 1 } : Com1).literals = s.literals :=
    rfl
  simp only [directive, decimal]
  split_ifs <;> simp [htaken]

end Com1

namespace Printf

@[simp] theorem literals_cell (s : Printf) (c : UInt8) :
    (s.cell false c).literals = s.literals := by
  simp [literals, cell, Output.literal]

@[simp] theorem literals_digits (s : Printf) (cs : List UInt8) :
    (s.digits cs).literals = s.literals := by
  simp [literals, digits, Output.literal, List.filterMap_map,
    Function.comp_def]

@[simp] theorem literals_nextLine (s : Printf) :
    s.nextLine.literals = s.literals := rfl

theorem literals_character (s : Printf) (fromFormat : Bool) (c : UInt8) :
    (s.character fromFormat c).literals =
      s.literals ++ if fromFormat then [c] else [] := by
  unfold character
  by_cases hline : c = 10
  · rw [if_pos hline]
    cases fromFormat <;> simp [literals, Output.literal, hline]
  · have hcell : (s.cell fromFormat c).literals =
        s.literals ++ if fromFormat then [c] else [] := by
      cases fromFormat <;> simp [literals, cell, Output.literal]
    rw [if_neg hline]
    dsimp only
    split
    · rw [literals_nextLine, hcell]
    · exact hcell

theorem literals_string (s : Printf) (cs : List UInt8) :
    (cs.foldl (fun s c => s.character false c) s).literals = s.literals := by
  induction cs generalizing s with
  | nil => rfl
  | cons c cs ih =>
      rw [List.foldl_cons, ih, literals_character]
      exact List.append_nil _

theorem literals_directive (args : VarArgs) (s : Printf) (c : UInt8) :
    (s.directive args c).literals = s.literals := by
  have htaken : ({ s with arg := s.arg + 1 } : Printf).literals = s.literals :=
    rfl
  simp only [directive, decimal, hex]
  split_ifs <;> simp [htaken, literals_string]

end Printf

/-- Plain characters are put out as they are, and directives put out nothing of
the format. -/
theorem literals_pieces {σ : Type*} {S : Scanner σ} (literals : σ → List UInt8)
    (hplain : ∀ s c, literals (S.plain s c) = literals s ++ [c])
    (hdirective : ∀ s c, literals (S.directive s c) = literals s) (s : σ)
    (ps : List Piece) :
    literals (ps.foldl S.apply s) = literals s ++ ps.filterMap fun
      | .plain c => some c
      | .directive _ => none := by
  induction ps generalizing s with
  | nil => simp
  | cons p ps ih =>
      rw [List.foldl_cons, ih]
      cases p with
      | plain c => simp [Scanner.apply, hplain]
      | directive c => simp [Scanner.apply, hdirective]

/-! ## The scans -/

/-- Whatever lies behind the format, the call ends, reads nothing behind the
terminator and sends the plain characters once and in order. -/
def Com1ScansExactly (cs : List UInt8) : Prop :=
  ∀ (m : Memory) (format : ℕ) (args : VarArgs), StringAt m format cs →
    ∃ s, Com1Returns m format args s ∧
      (∀ r ∈ s.reads, r ≤ format + cs.length) ∧
      s.state.literals = plainChars cs

def PrintfScansExactly (cs : List UInt8) : Prop :=
  ∀ (m : Memory) (format : ℕ) (args : VarArgs) (cursor : PrintfCursor),
    StringAt m format cs →
    ∃ l, PrintfReturns m format args cursor l ∧
      (∀ r ∈ l.reads, r ≤ format + cs.length) ∧
      l.state.literals = plainChars cs

theorem stringAt_strcpy (m : Memory) (a : ℕ) (hcs : 0 ∉ cs) :
    StringAt (strcpy m a cs) a cs := by
  induction cs generalizing m a with
  | nil => exact Memory.set_same _ _ _
  | cons c cs ih =>
      rw [List.mem_cons, not_or] at hcs
      refine ⟨?_, Ne.symm hcs.1, ih _ _ hcs.2⟩
      rw [strcpy, strcpy_eq, copyChars_outside _ (by omega), Memory.set_same]

theorem com1_scans_iff (hcs : 0 ∉ cs) :
    Com1ScansExactly cs ↔ ¬ LoneEscape 37 cs := by
  constructor
  · intro h
    obtain ⟨s, hstops, hreads, -⟩ :=
      h _ 0 ⟨fun _ => 0, fun _ => []⟩ (stringAt_strcpy (fun _ => 0) 0 hcs)
    exact (Scanner.stops_within_iff (stringAt_strcpy _ 0 hcs) rfl rfl).mp
      ⟨s, hstops, hreads⟩
  · intro hpaired m format args hstring
    obtain ⟨s, hstops, hstate, hreads⟩ :=
      Scanner.scans_string (S := com1Printf args)
        (s := ⟨format, [], Com1.start, false⟩) hstring hpaired rfl
    refine ⟨s, hstops, fun r hr => ?_, ?_⟩
    · exact (hreads r hr).resolve_left List.not_mem_nil
    · rw [hstate, literals_pieces Com1.literals Com1.literals_plain
        (Com1.literals_directive args)]
      rfl

theorem printf_scans_iff (hcs : 0 ∉ cs) :
    PrintfScansExactly cs ↔ ¬ LoneEscape 37 cs := by
  constructor
  · intro h
    obtain ⟨l, hreturns, hreads, -⟩ :=
      h _ 0 ⟨fun _ => 0, fun _ => []⟩ ⟨0, 0⟩
        (stringAt_strcpy (fun _ => 0) 0 hcs)
    obtain ⟨s, hstops, rfl⟩ := printfReturns_iff.mp hreturns
    exact (Scanner.stops_within_iff (stringAt_strcpy _ 0 hcs) rfl rfl).mp
      ⟨s, hstops, hreads⟩
  · intro hpaired m format args cursor hstring
    obtain ⟨s, hstops, hstate, hreads⟩ :=
      Scanner.scans_string (S := printfScanner args)
        (s := ⟨format, [], Printf.start cursor, false⟩) hstring hpaired rfl
    refine ⟨.ended m s, printfReturns_iff.mpr ⟨s, hstops, rfl⟩, ?_, ?_⟩
    · exact fun r hr => (hreads r hr).resolve_left List.not_mem_nil
    · change s.state.literals = _
      rw [hstate, literals_pieces Printf.literals
        (fun s c => Printf.literals_character s true c)
        (Printf.literals_directive args)]
      rfl

/-- Both scans are exact for the formats that do not end in a `%` of their
own. -/
theorem format_scans_iff (format : CString) :
    (Com1ScansExactly format.chars ↔ ¬ LoneEscape 37 format.chars) ∧
      (PrintfScansExactly format.chars ↔ ¬ LoneEscape 37 format.chars) :=
  ⟨com1_scans_iff format.terminated, printf_scans_iff format.terminated⟩

/-- The format `%`. -/
theorem format_scans_lone :
    ¬ Com1ScansExactly (literal "%") ∧ ¬ PrintfScansExactly (literal "%") := by
  have hcs : (0 : UInt8) ∉ literal "%" := by decide
  constructor
  · exact fun h => (com1_scans_iff hcs).mp h rfl
  · exact fun h => (printf_scans_iff hcs).mp h rfl

end Otsos
