import Otsos.Mlibc.Printf

/-!
# The serial port

The text functions of `com1.c`.  `com1_write_byte` waits until the port takes
the byte; what is sent is a list of bytes here.
-/

namespace Otsos

open Lib

/-- A byte that was sent, and whether it is a character of the format. -/
structure Sent where
  fromFormat : Bool
  byte : UInt8

def com1HexDigits : List UInt8 := literal "0123456789ABCDEF"

def com1WriteHexByte (value : UInt8) : List UInt8 :=
  [com1HexDigits.getD ((value >>> 4) &&& 0xF).toNat 0,
    com1HexDigits.getD (value &&& 0xF).toNat 0]

def com1WriteHexWord (value : UInt16) : List UInt8 :=
  com1WriteHexByte (value >>> 8).toUInt8 ++ com1WriteHexByte value.toUInt8

def com1WriteHexDword (value : UInt32) : List UInt8 :=
  com1WriteHexWord (value >>> 16).toUInt16 ++ com1WriteHexWord value.toUInt16

def com1WriteHexQword (value : UInt64) : List UInt8 :=
  com1WriteHexDword (value >>> 32).toUInt32 ++ com1WriteHexDword value.toUInt32

theorem div_ten_lt {value : UInt64} (h : 0 < value) :
    (value / 10).toNat < value.toNat := by
  have hpos : 0 < value.toNat := h
  rw [UInt64.toNat_div]
  exact Nat.div_lt_self hpos (by decide)

/-- The digits in the order in which they are put into `buffer`. -/
def com1Digits (value : UInt64) : List UInt8 :=
  if 0 < value then (48 + (value % 10).toUInt8) :: com1Digits (value / 10)
  else []
termination_by value.toNat
decreasing_by exact div_ten_lt ‹_›

def com1WriteDec (value : UInt64) : List UInt8 :=
  if value = 0 then [48] else (com1Digits value).reverse

/-- `com1_printf` between two steps: the arguments that were taken, and what
was sent. -/
structure Com1 where
  arg : ℕ
  sent : List Sent

namespace Com1

def start : Com1 := ⟨0, []⟩

def write (s : Com1) (bytes : List UInt8) : Com1 :=
  { s with sent := s.sent ++ bytes.map fun byte => ⟨false, byte⟩ }

/-- The case `d`; `val` is sign-extended for `com1_write_dec`. -/
def decimal (s : Com1) (val : Int32) : Com1 :=
  if val < 0 then
    (s.write [45]).write (com1WriteDec (-val).toInt64.toUInt64)
  else s.write (com1WriteDec val.toInt64.toUInt64)

/-- The `switch` on the character behind `%`. -/
def directive (args : VarArgs) (s : Com1) (c : UInt8) : Com1 :=
  let word := args.slot s.arg
  let taken : Com1 := { s with arg := s.arg + 1 }
  if c = 115 then taken.write (args.string word)
  else if c = 99 then taken.write [word.toUInt8]
  else if c = 100 then taken.decimal word.toUInt32.toInt32
  else if c = 117 then taken.write (com1WriteDec word.toUInt32.toUInt64)
  else if c = 120 then taken.write (com1WriteHexDword word.toUInt32)
  else if c = 112 then
    taken.write (literal "0x" ++ com1WriteHexQword word)
  else if c = 37 then s.write [37]
  else s

def plain (s : Com1) (c : UInt8) : Com1 :=
  { s with sent := s.sent ++ [⟨true, c⟩] }

end Com1

/-- The loop of `com1_printf`: a pass with its test in front. -/
def com1Printf (args : VarArgs) : Scanner Com1 where
  escape := 37
  plain := Com1.plain
  directive := Com1.directive args

/-- A call with the format at `format` comes to its end in `s`. -/
def Com1Returns (m : Memory) (format : ℕ) (args : VarArgs) (s : Scan Com1) :
    Prop :=
  (com1Printf args).Stops m ⟨format, [], Com1.start, false⟩ s

end Otsos
