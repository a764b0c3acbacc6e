import Otsos.Drivers.Vga

/-!
# Decoding the keyboard

What `scanf` does with a scan code.  Characters are bytes.
-/

namespace Otsos

open Lib

def chars (cs : List Char) : List UInt8 :=
  cs.map fun c => UInt8.ofNat c.toNat

def kbdUs : List UInt8 :=
  [0, 27] ++
  chars ['1', '2', '3', '4', '5', '6', '7', '8', '9', '0', '-', '='] ++
  [8, 9] ++
  chars ['q', 'w', 'e', 'r', 't', 'y', 'u', 'i', 'o', 'p', '[', ']'] ++
  [10, 0] ++
  chars ['a', 's', 'd', 'f', 'g', 'h', 'j', 'k', 'l', ';'] ++
  [39, 96, 0, 92] ++
  chars ['z', 'x', 'c', 'v', 'b', 'n', 'm', ',', '.', '/'] ++
  [0, 42, 0, 32] ++ List.replicate 13 0 ++
  chars ['7', '8', '9', '-', '4', '5', '6', '+', '1', '2', '3', '0', '.'] ++
  List.replicate 44 0

def kbdUsShift : List UInt8 :=
  [0, 27] ++
  chars ['!', '@', '#', '$', '%', '^', '&', '*', '(', ')', '_', '+'] ++
  [8, 9] ++
  chars ['Q', 'W', 'E', 'R', 'T', 'Y', 'U', 'I', 'O', 'P'] ++
  [123, 125, 10, 0] ++
  chars ['A', 'S', 'D', 'F', 'G', 'H', 'J', 'K', 'L', ':'] ++
  [34, 126, 0, 124] ++
  chars ['Z', 'X', 'C', 'V', 'B', 'N', 'M', '<', '>', '?'] ++
  [0, 42, 0, 32] ++ List.replicate 13 0 ++
  chars ['7', '8', '9', '-', '4', '5', '6', '+', '1', '2', '3', '0', '.'] ++
  List.replicate 44 0

/-- The arguments of `scanf`. -/
structure ScanfArgs where
  maxLen : ℕ
  row : ℕ
  col : ℕ
  color : UInt8

/-- The locals of `scanf`, with `shift_pressed` and the screen. -/
structure Scanf where
  i : ℕ
  buffer : Memory
  shiftPressed : Bool
  vga : Vga
  returned : Bool

def ScanfArgs.offset (args : ScanfArgs) : ℕ := (args.row * 80 + args.col) * 2

/-- A character for the line. -/
def Scanf.append (args : ScanfArgs) (s : Scanf) (character : UInt8) : Scanf :=
  let v := { s.vga with
    videoMemory := putCell s.vga.videoMemory (args.offset + s.i * 2) character
      args.color }
  let v := v.print (chars ['/', '>']) args.row 0 0x0F
  { s with
    buffer := s.buffer.set s.i character
    i := s.i + 1
    vga := v.updateCursor (args.col + (s.i + 1)) args.row }

/-- The body of the loop in `scanf` once it has a scan code. -/
def Scanf.key (args : ScanfArgs) (s : Scanf) (scancode : UInt8) : Scanf :=
  if scancode = 0x2A ∨ scancode = 0x36 then { s with shiftPressed := true }
  else if scancode = 0xAA ∨ scancode = 0xB6 then
    { s with shiftPressed := false }
  else if scancode < 0x80 then
    if scancode = 0x1C then
      { s with
        buffer := s.buffer.set s.i 0
        vga := s.vga.updateCursor args.col (args.row + 2)
        returned := true }
    else if scancode = 0x0E then
      if 0 < s.i then
        let v := { s.vga with
          videoMemory := putCell s.vga.videoMemory
            (args.offset + (s.i - 1) * 2) 32 args.color }
        { s with
          i := s.i - 1
          vga := v.updateCursor (args.col + (s.i - 1)) args.row }
      else s
    else
      let table := if s.shiftPressed then kbdUsShift else kbdUs
      let character := table.getD scancode.toNat 0
      if character ≠ 0 ∧ character ≠ 10 then s.append args character else s
  else s

end Otsos
