import Otsos.Lib.ByteMemory

/-!
# The text screen

`vga.c`: 25 rows of 80 cells, a character and its attribute each.  Addresses
are counted from `0xb8000`.
-/

namespace Otsos

open Lib

/-- What `vga.c` writes to: the video memory, `terminal_row` and the cursor
position held by the screen. -/
structure Vga where
  videoMemory : Memory
  terminalRow : ℕ
  cursor : ℕ

/-- Rows 1 to 24 move up and row 24 is cleared.  The loops go upwards, so no
byte is read after it was overwritten. -/
def scrollScreen (v : Memory) : Memory := fun i =>
  if i < 80 * 24 * 2 then v (i + 160)
  else if i < 80 * 25 * 2 then if i % 2 = 0 then 32 else 0x07
  else v i

def clearScreen (v : Memory) : Memory := fun i =>
  if i < 80 * 25 * 2 then if i % 2 = 0 then 32 else 0x07 else v i

/-- A character with its attribute. -/
def putCell (v : Memory) (offset : ℕ) (character color : UInt8) : Memory :=
  (v.set offset character).set (offset + 1) color

def putCells (v : Memory) (offset : ℕ) (color : UInt8) :
    List UInt8 → Memory
  | [] => v
  | c :: cs => putCells (putCell v offset c color) (offset + 2) color cs

def Vga.scrolled (v : Vga) : Vga :=
  { v with videoMemory := scrollScreen v.videoMemory }

def Vga.print (v : Vga) (message : List UInt8) (row col : ℕ)
    (color : UInt8) : Vga :=
  let (v, row) := if 25 ≤ row then (v.scrolled, 24) else (v, row)
  { v with
    terminalRow := row
    videoMemory := putCells v.videoMemory ((row * 80 + col) * 2) color message }

def Vga.updateCursor (v : Vga) (x y : ℕ) : Vga :=
  let (v, y) := if 25 ≤ y then (v.scrolled, 24) else (v, y)
  { v with
    terminalRow := y
    cursor := (y * 80 + x) % 2 ^ 16 }

/-! ## Cells -/

variable {v : Memory} {offset x : ℕ} {c color : UInt8}

theorem putCell_char : putCell v offset c color offset = c := by
  rw [putCell, Memory.set_other _ _ (by omega), Memory.set_same]

theorem putCell_color : putCell v offset c color (offset + 1) = color :=
  Memory.set_same _ _ _

theorem putCell_outside (hx : x < offset ∨ offset + 2 ≤ x) :
    putCell v offset c color x = v x := by
  rw [putCell, Memory.set_other _ _ (by omega),
    Memory.set_other _ _ (by omega)]

theorem putCells_outside {cs : List UInt8}
    (hx : x < offset ∨ offset + 2 * cs.length ≤ x) :
    putCells v offset color cs x = v x := by
  induction cs generalizing v offset with
  | nil => rfl
  | cons c cs ih =>
      simp only [List.length_cons] at hx
      rw [putCells, ih (by omega), putCell_outside (by omega)]

theorem putCells_inside {cs : List UInt8} {j : ℕ} (hj : j < cs.length) :
    putCells v offset color cs (offset + 2 * j) = cs[j] ∧
      putCells v offset color cs (offset + 2 * j + 1) = color := by
  induction cs generalizing v offset j with
  | nil => cases hj
  | cons c cs ih =>
      cases j with
      | zero =>
          rw [putCells, putCells_outside (Or.inl (by omega)),
            putCells_outside (Or.inl (by omega))]
          exact ⟨putCell_char, putCell_color⟩
      | succ j =>
          have hnext : offset + 2 * (j + 1) = offset + 2 + 2 * j := by omega
          rw [putCells, hnext]
          exact ih (Nat.lt_of_succ_lt_succ hj)

theorem Vga.print_outside {s : Vga} {message : List UInt8} {row col : ℕ}
    (hrow : row ≤ 24) (hx : x < (row * 80 + col) * 2 ∨
      (row * 80 + col) * 2 + 2 * message.length ≤ x) :
    (s.print message row col color).videoMemory x = s.videoMemory x := by
  unfold Vga.print
  rw [if_neg (by omega)]
  exact putCells_outside hx

theorem Vga.updateCursor_videoMemory {s : Vga} {y : ℕ} (x : ℕ)
    (hy : y ≤ 24) : (s.updateCursor x y).videoMemory = s.videoMemory := by
  unfold Vga.updateCursor
  rw [if_neg (by omega)]

end Otsos
