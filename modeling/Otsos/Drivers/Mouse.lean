import Mathlib.Data.Int.Notation
import Otsos.Drivers.Vga

/-!
# Decoding the mouse

What `mouse_handler` does with a byte.  Three bytes make a packet, and a packet
moves the highlighted cell.
-/

namespace Otsos

open Lib

/-- `mouse_state_t`. -/
structure MouseState where
  x : ℤ
  y : ℤ
  buttons : UInt8
deriving DecidableEq

structure Mouse where
  state : MouseState
  cycle : ℕ
  byte : ℕ → UInt8

/-- `b / 8` for a signed `b`. -/
def eighth (b : UInt8) : ℤ := b.toInt8.toInt.tdiv 8

/-- Clamping as written: a test against 0, then one against `bound`. -/
def clamp (v bound : ℤ) : ℤ :=
  let v := if v < 0 then 0 else v
  if v ≥ bound then bound - 1 else v

/-- The state after a packet. -/
def MouseState.moved (s : MouseState) (byte : ℕ → UInt8) : MouseState where
  x := clamp (s.x + eighth (byte 1)) 80
  y := clamp (s.y - eighth (byte 2)) 25
  buttons := byte 0 &&& 0x07

/-- `v[(y * 80 + x) * 2 + 1] ^= 0x77`. -/
def invertCell (v : Memory) (s : MouseState) : Memory :=
  let offset := ((s.y * 80 + s.x) * 2 + 1).toNat
  v.set offset (v offset ^^^ 0x77)

/-- `mouse_handler` once it has a byte. -/
def Mouse.take (m : Mouse) (v : Vga) (data : UInt8) : Mouse × Vga :=
  if m.cycle = 0 ∧ data &&& 0x08 = 0 then (m, v)
  else
    let m := { m with
      byte := Function.update m.byte m.cycle data
      cycle := m.cycle + 1 }
    if m.cycle = 3 then
      let old := m.state
      let m := { m with cycle := 0, state := old.moved m.byte }
      if old.x ≠ m.state.x ∨ old.y ≠ m.state.y then
        (m, { v with
          videoMemory := invertCell (invertCell v.videoMemory old) m.state })
      else (m, v)
    else (m, v)

end Otsos
