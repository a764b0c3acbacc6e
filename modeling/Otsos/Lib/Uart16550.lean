import Mathlib.Data.Nat.Notation
import Mathlib.Tactic.Common

/-!
# The 16550 serial port

The registers of the port and its two queues.  There is no shift register: a
transmission is told by its beginning, with the byte and the settings that hold
then.  The modem's side and the error bits but the overrun are left out too.
-/

namespace Lib

/-- What the other end of a line has to know: the divisor of the clock, and
the line control but the bit for the divisor's ports. -/
structure LineSettings where
  divisor : ℕ
  format : UInt8
deriving DecidableEq, Repr

structure Uart where
  divisorLow : UInt8
  divisorHigh : UInt8
  interruptEnable : UInt8
  fifo : Bool
  lineControl : UInt8
  modemControl : UInt8
  /-- Bytes to send, the oldest first. -/
  transmit : List UInt8
  receive : List UInt8
  overrun : Bool

namespace Uart

/-- The first two ports are those of the divisor. -/
def divisorAccess (u : Uart) : Bool := u.lineControl.toNat.testBit 7

/-- What is sent comes back instead of going on the line. -/
def loops (u : Uart) : Bool := u.modemControl.toNat.testBit 4

def capacity (u : Uart) : ℕ := if u.fifo then 16 else 1

def settings (u : Uart) : LineSettings where
  divisor := u.divisorLow.toNat + 256 * u.divisorHigh.toNat
  format := u.lineControl &&& 0x7F

/-- A byte to send; behind a full queue it is lost, and without queues it takes
the place of the one that waits. -/
def enqueue (u : Uart) (v : UInt8) : Uart :=
  if u.transmit.length < u.capacity then
    { u with transmit := u.transmit ++ [v] }
  else if u.fifo then u
  else { u with transmit := [v] }

/-- Switching the queues on or off empties them. -/
def fifoControl (u : Uart) (v : UInt8) : Uart :=
  let on := v.toNat.testBit 0
  { u with
    fifo := on
    receive := if on ≠ u.fifo ∨ v.toNat.testBit 1 then [] else u.receive
    transmit := if on ≠ u.fifo ∨ v.toNat.testBit 2 then [] else u.transmit }

/-- A write to the port at an offset. -/
def outb (u : Uart) (offset : ℕ) (v : UInt8) : Uart :=
  if offset = 0 then
    if u.divisorAccess then { u with divisorLow := v } else u.enqueue v
  else if offset = 1 then
    if u.divisorAccess then { u with divisorHigh := v }
    else { u with interruptEnable := v &&& 0x0F }
  else if offset = 2 then u.fifoControl v
  else if offset = 3 then { u with lineControl := v }
  else if offset = 4 then { u with modemControl := v &&& 0x1F }
  else u

/-- Bit 0: a byte has come; bit 1: one was lost; bit 5: nothing waits to be
sent. -/
def lineStatus (u : Uart) : UInt8 :=
  (if u.receive = [] then 0 else 0x01) ||| (if u.overrun then 0x02 else 0) |||
    (if u.transmit = [] then 0x20 else 0)

/-- A read of the line status forgets the overrun. -/
def readLineStatus (u : Uart) : UInt8 × Uart :=
  (u.lineStatus, { u with overrun := false })

/-- A byte arrives. -/
def arrive (u : Uart) (v : UInt8) : Uart :=
  if u.receive.length < u.capacity then
    { u with receive := u.receive ++ [v] }
  else { u with overrun := true }

/-- The transmission of the oldest byte begins. -/
def transmitNext (u : Uart) : Option ((LineSettings × UInt8) × Uart) :=
  match u.transmit with
  | [] => none
  | v :: vs => some ((u.settings, v), { u with transmit := vs })

theorem sendable_iff (u : Uart) :
    u.lineStatus &&& 0x20 ≠ 0 ↔ u.transmit = [] := by
  unfold lineStatus
  by_cases hidle : u.transmit = []
  · rw [if_pos hidle]
    refine iff_of_true ?_ hidle
    split_ifs <;> decide
  · rw [if_neg hidle]
    refine iff_of_false ?_ hidle
    split_ifs <;> decide

end Uart

end Lib
