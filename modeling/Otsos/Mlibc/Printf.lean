import Mathlib.Data.Int.Notation
import Otsos.Lib.EscapedScan
import Otsos.Mlibc.Strings

/-!
# `printf`

`printf.s`: text on the screen from the cursor on.  Characters of the format
and of strings go to the next line at the right edge; conversions are written
without looking for it.  Addresses on the screen are counted from `0xb8000`.
The call of `update_cursor` at the end is left out.  `%x` fetches its digits
with two SSE moves, and no code of the kernel enables SSE in `CR4`; here they
are taken to work.
-/

namespace Otsos

open Lib

/-- The arguments behind the format: one word for each, in the order in which
`va_arg` goes through the registers and the stack, and the strings that
pointers point to. -/
structure VarArgs where
  slot : ℕ → UInt64
  string : UInt64 → List UInt8

/-- What `printf` does to the screen: a character with attribute 7 at an
offset, or a new line. -/
inductive Output where
  | cell (fromFormat : Bool) (offset : ℤ) (c : UInt8)
  | newline (fromFormat : Bool)

/-- `cursor_col` and `cursor_row`. -/
structure PrintfCursor where
  col : Int32
  row : Int32

/-- The registers of `printf` under their names: the column, the row, and
whether they have changed. -/
structure Printf where
  edi : Int32
  edx : Int32
  bl : Bool
  sil : Bool
  /-- The arguments that were taken. -/
  arg : ℕ
  output : List Output

/-- The offset of a cell, in 32 bits and then sign-extended. -/
def cellOffset (row col : Int32) : ℤ := ((row * 80 + col) * 2).toInt

namespace Printf

def start (cursor : PrintfCursor) : Printf :=
  ⟨cursor.col, cursor.row, false, false, 0, []⟩

/-- `.L55`: the counters that changed are stored. -/
def cursor (old : PrintfCursor) (s : Printf) : PrintfCursor where
  col := if s.bl then s.edi else old.col
  row := if s.sil then s.edx else old.row

/-- A character at the cursor, which moves to the right. -/
def cell (s : Printf) (fromFormat : Bool) (c : UInt8) : Printf :=
  { s with
    edi := s.edi + 1
    bl := true
    output := s.output ++ [.cell fromFormat (cellOffset s.edx s.edi) c] }

/-- `.L53` and `.L52`. -/
def nextLine (s : Printf) : Printf :=
  { s with
    edi := 0
    edx := if s.edx + 1 ≤ 24 then s.edx + 1 else 0
    bl := true
    sil := true }

/-- `.L3` for the format and `.L20` for a string. -/
def character (s : Printf) (fromFormat : Bool) (c : UInt8) : Printf :=
  if c = 10 then
    { s.nextLine with output := s.output ++ [.newline fromFormat] }
  else
    let s := s.cell fromFormat c
    if 79 < s.edi then s.nextLine else s

/-- `.L17` and `.L30`: digits from one offset on. -/
def digits (s : Printf) (cs : List UInt8) : Printf :=
  { s with
    edi := s.edi + Int32.ofNat cs.length
    bl := true
    output := s.output ++ cs.zipIdx.map fun (c, k) =>
      .cell false (cellOffset s.edx s.edi + 2 * k) c }

end Printf

/-- `imul rdi, 3435973837; shr rdi, 35`. -/
def reciprocalTenth (ecx : UInt32) : UInt32 :=
  ((ecx.toUInt64 * 3435973837) >>> 35).toUInt32

/-- The multiplication is exact: the error of the reciprocal is too small to
reach the next multiple of ten. -/
theorem reciprocalTenth_toNat (ecx : UInt32) :
    (reciprocalTenth ecx).toNat = ecx.toNat / 10 := by
  have hlt := ecx.toNat_lt
  have hproduct : (ecx.toUInt64 * 3435973837).toNat =
      ecx.toNat * 3435973837 := by
    rw [UInt64.toNat_mul, UInt32.toNat_toUInt64]
    exact Nat.mod_eq_of_lt (by simp; omega)
  have hshift : ((ecx.toUInt64 * 3435973837) >>> 35).toNat =
      ecx.toNat * 3435973837 / 2 ^ 35 := by
    rw [UInt64.toNat_shiftRight, hproduct, Nat.shiftRight_eq_div_pow]
    rfl
  have herror : 2 * (ecx.toNat / 10) + ecx.toNat % 10 * 3435973837 < 2 ^ 35 := by
    omega
  have hsplit : ecx.toNat * 3435973837 = 2 ^ 35 * (ecx.toNat / 10) +
      (2 * (ecx.toNat / 10) + ecx.toNat % 10 * 3435973837) := by omega
  rw [reciprocalTenth, UInt64.toNat_toUInt32, hshift, hsplit,
    Nat.mul_add_div (by omega), Nat.div_eq_of_lt herror, Nat.add_zero]
  exact Nat.mod_eq_of_lt (by omega)

theorem reciprocalTenth_eq_zero {ecx : UInt32} :
    reciprocalTenth ecx = 0 ↔ ecx.toNat / 10 = 0 := by
  rw [← reciprocalTenth_toNat, ← UInt32.toNat_inj]
  rfl

/-- `.L16`: the digits in the order in which they are pushed. -/
def decimalLoop (ecx : UInt32) : List UInt8 :=
  let c := (ecx - reciprocalTenth ecx * 10 + 48).toUInt8
  if reciprocalTenth ecx = 0 then [c] else c :: decimalLoop (reciprocalTenth ecx)
termination_by ecx.toNat
decreasing_by
  have := mt reciprocalTenth_eq_zero.mpr ‹_›
  rw [reciprocalTenth_toNat]
  omega

/-- `.LC3`. -/
def hexDigits : List UInt8 := literal "0123456789abcdef"

theorem shiftRight_four_toNat (r10d : UInt32) :
    (r10d >>> 4).toNat = r10d.toNat / 16 := by
  rw [UInt32.toNat_shiftRight, Nat.shiftRight_eq_div_pow]
  rfl

theorem shiftRight_four_eq_zero {r10d : UInt32} :
    r10d >>> 4 = 0 ↔ r10d.toNat / 16 = 0 := by
  rw [← shiftRight_four_toNat, ← UInt32.toNat_inj]
  rfl

/-- `.L29`. -/
def hexLoop (r10d : UInt32) : List UInt8 :=
  let c := hexDigits.getD (r10d &&& 15).toNat 0
  if r10d >>> 4 = 0 then [c] else c :: hexLoop (r10d >>> 4)
termination_by r10d.toNat
decreasing_by
  have hnext := mt shiftRight_four_eq_zero.mpr ‹_›
  rw [shiftRight_four_toNat]
  omega

namespace Printf

/-- `.L10`: a minus sign, then the digits of the magnitude. -/
def decimal (s : Printf) (ecx : Int32) : Printf :=
  if ecx = 0 then s.cell false 48
  else if ecx < 0 then
    (s.cell false 45).digits (decimalLoop (-ecx).toUInt32).reverse
  else s.digits (decimalLoop ecx.toUInt32).reverse

/-- `.L7`. -/
def hex (s : Printf) (r10d : UInt32) : Printf :=
  if r10d = 0 then s.cell false 48 else s.digits (hexLoop r10d).reverse

/-- The character behind `%`: `.L4` and the jump table `.L8`. -/
def directive (args : VarArgs) (s : Printf) (c : UInt8) : Printf :=
  let word := args.slot s.arg
  let taken : Printf := { s with arg := s.arg + 1 }
  if c = 37 then s.cell false 37
  else if c = 99 then taken.cell false word.toUInt8
  else if c = 100 ∨ c = 105 then taken.decimal word.toUInt32.toInt32
  else if c = 115 then
    (args.string word).foldl (fun s c => s.character false c) taken
  else if c = 120 then taken.hex word.toUInt32
  else s

end Printf

/-- The scan loop, with the character that `cl` holds at `.L32`. -/
structure PrintfLoop where
  r10 : ℕ
  cl : UInt8
  reads : List ℕ
  state : Printf
  stopped : Bool

/-- `.L6` for a loop that has come to `rax`. -/
def PrintfLoop.next (format : Memory) (l : PrintfLoop) (rax : ℕ) : PrintfLoop :=
  { l with
    r10 := rax + 1
    cl := format (rax + 1)
    reads := (rax + 1) :: l.reads
    stopped := format (rax + 1) == 0 }

/-- `.L32`. -/
def PrintfLoop.pass (format : Memory) (args : VarArgs) (l : PrintfLoop) :
    PrintfLoop :=
  if l.stopped then l
  else if l.cl ≠ 37 then
    { l with state := l.state.character true l.cl }.next format l.r10
  else
    { l with
      reads := (l.r10 + 1) :: l.reads
      state := l.state.directive args (format (l.r10 + 1)) }.next format
        (l.r10 + 1)

def PrintfLoop.start (format : Memory) (rdi : ℕ) (cursor : PrintfCursor) :
    PrintfLoop where
  r10 := rdi
  cl := format rdi
  reads := [rdi]
  state := Printf.start cursor
  stopped := format rdi == 0

/-- A call with the format at `rdi` comes to its end in `l`. -/
def PrintfReturns (format : Memory) (rdi : ℕ) (args : VarArgs)
    (cursor : PrintfCursor) (l : PrintfLoop) : Prop :=
  ∃ n, (PrintfLoop.pass format args)^[n] (PrintfLoop.start format rdi cursor) =
    l ∧ l.stopped = true

end Otsos
