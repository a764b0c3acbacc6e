import Otsos.Bin.Calc
import Otsos.Drivers.ScreenStores

/-!
# The terminal

What the programs write with: the screen, the keyboard and the line counter
`*current_line`, which they pass on to `print` and count up.
-/

namespace Otsos

open Lib

/-- `stored` is a ghost: the offsets from `0xb8000` of the bytes stored so
far. -/
structure Terminal where
  vga : Vga
  shiftPressed : Bool
  currentLine : ℕ
  stored : List ℕ

namespace Terminal

def print (t : Terminal) (message : List UInt8) (row col : ℕ)
    (color : UInt8) : Terminal :=
  { t with
    vga := t.vga.print message row col color
    stored := t.stored ++ printOffsets message row col }

def clearScreen (t : Terminal) : Terminal :=
  { t with
    vga := { t.vga with videoMemory := Otsos.clearScreen t.vga.videoMemory }
    stored := t.stored ++ pageOffsets }

/-- `(*current_line)++`. -/
def nextLine (t : Terminal) : Terminal :=
  { t with currentLine := t.currentLine + 1 }

/-- `print(text, (*current_line)++, 0, color)`. -/
def say (t : Terminal) (m : Message) : Terminal :=
  (t.print m.text t.currentLine 0 m.color).nextLine

def sayAll (t : Terminal) (messages : List Message) : Terminal :=
  messages.foldl say t

/-- A label and, from column `col` on, a text behind it. -/
def sayLabelled (t : Terminal) (label : Message) (col : ℕ) (m : Message) :
    Terminal :=
  ((t.print label.text t.currentLine 0 label.color).print m.text t.currentLine
    col m.color).nextLine

/-- `print("/>", *current_line, 0, 0x0F)`. -/
def prompt (t : Terminal) : Terminal :=
  t.print (literal "/>") t.currentLine 0 0x0F

/-- `if (*current_line >= 25) *current_line = 24`. -/
def clamp (t : Terminal) : Terminal :=
  if 25 ≤ t.currentLine then { t with currentLine := 24 } else t

/-- `scanf(buffer, 2048, row, col, 0x0F, dir)`, and whether it returned. -/
def scanf (t : Terminal) (buffer : Memory) (row col : ℕ)
    (polls : List Poll) : Terminal × Memory × Bool :=
  let args : ScanfArgs := ⟨2048, row, col, 0x0F⟩
  let s := Otsos.scanf args buffer t.shiftPressed t.vga polls
  ({ t with
    vga := s.vga
    shiftPressed := s.shiftPressed
    stored := t.stored ++ scanfOffsets args
      ⟨0, buffer, t.shiftPressed, t.vga, false⟩ polls },
    s.buffer, s.returned)

variable {t : Terminal} {m label : Message} {messages : List Message}
  {message : List UInt8} {buffer v₀ : Memory} {row col : ℕ} {color : UInt8}
  {polls : List Poll}

/-! ## The line counter -/

theorem clamp_currentLine :
    t.clamp.currentLine =
      if 25 ≤ t.currentLine then 24 else t.currentLine := by
  unfold clamp
  split
  · rfl
  · rfl

/-! ## Staying on the page -/

/-- Everything was stored on the text page, and the memory behind it is as in
`v₀`. -/
structure OnPage (v₀ : Memory) (t : Terminal) : Prop where
  stored : StoresOnPage t.stored
  beyond : ∀ x, 80 * 25 * 2 ≤ x → t.vga.videoMemory x = v₀ x

/-- More stores, and nothing else that changes. -/
theorem OnPage.stores {t' : Terminal} {offsets : List ℕ} (h : t.OnPage v₀)
    (hstored : t'.stored = t.stored ++ offsets)
    (honPage : StoresOnPage offsets)
    (hkeeps : ∀ x, x ∉ offsets → t'.vga.videoMemory x = t.vga.videoMemory x) :
    t'.OnPage v₀ := by
  constructor
  · rw [hstored, storesOnPage_append]
    exact ⟨h.stored, honPage⟩
  · intro x hx
    rw [hkeeps x fun hmem => Nat.not_lt.mpr hx (honPage x hmem)]
    exact h.beyond x hx

theorem OnPage.print (h : t.OnPage v₀) (hfits : PrintFits message row col) :
    (t.print message row col color).OnPage v₀ :=
  h.stores rfl (printOffsets_onPage.mpr hfits) fun _ => Vga.print_keeps

theorem OnPage.clearScreen (h : t.OnPage v₀) : t.clearScreen.OnPage v₀ :=
  h.stores rfl pageOffsets_onPage fun _ => clearScreen_keeps

theorem OnPage.nextLine (h : t.OnPage v₀) : t.nextLine.OnPage v₀ :=
  ⟨h.stored, h.beyond⟩

theorem OnPage.clamp (h : t.OnPage v₀) : t.clamp.OnPage v₀ := by
  unfold Terminal.clamp
  split
  · exact ⟨h.stored, h.beyond⟩
  · exact h

theorem OnPage.prompt (h : t.OnPage v₀) : t.prompt.OnPage v₀ :=
  h.print (printFits_short _ (by decide))

theorem OnPage.say (h : t.OnPage v₀)
    (hfits : PrintFits m.text t.currentLine 0) : (t.say m).OnPage v₀ :=
  (h.print hfits).nextLine

theorem OnPage.say_short (h : t.OnPage v₀) (hshort : m.text.length ≤ 80) :
    (t.say m).OnPage v₀ :=
  h.say (printFits_short _ (by omega))

theorem OnPage.sayAll (h : t.OnPage v₀)
    (hshort : ∀ m ∈ messages, m.text.length ≤ 80) :
    (t.sayAll messages).OnPage v₀ := by
  unfold Terminal.sayAll
  induction messages generalizing t with
  | nil => exact h
  | cons m messages ih =>
      rw [List.forall_mem_cons] at hshort
      exact ih (h.say_short hshort.1) hshort.2

theorem OnPage.sayLabelled (h : t.OnPage v₀)
    (hlabel : label.text.length ≤ 80) (hshort : col + m.text.length ≤ 80) :
    (t.sayLabelled label col m).OnPage v₀ := by
  have hprinted : (t.print label.text t.currentLine 0 label.color).OnPage v₀ :=
    h.print (printFits_short _ (by omega))
  exact (hprinted.print (printFits_short _ hshort)).nextLine

/-! ## What is typed -/

theorem OnPage.scanf (h : t.OnPage v₀)
    (hfits : TypedFits ⟨2048, row, col, 0x0F⟩ t.shiftPressed polls) :
    (t.scanf buffer row col polls).1.OnPage v₀ := by
  refine h.stores rfl ?_ fun _ => scanfLoop_keeps
  have hstart := HoldsLine.start ⟨2048, row, col, 0x0F⟩ buffer t.shiftPressed
    t.vga
  exact (hstart.offsets_onPage rfl (Nat.le_add_left 1 2047)
    (Or.inl rfl)).mpr hfits

theorem scanf_returned
    (hreturned : (t.scanf buffer row col polls).2.2 = true) :
    let e := editLine 2047 t.shiftPressed polls
    e.Closed 2047 ∧
      (t.scanf buffer row col polls).1.shiftPressed = e.shift ∧
      cString (t.scanf buffer row col polls).2.1 0 2048 = e.line ∧
      0 ∉ e.line := by
  intro e
  obtain ⟨hline, hclosed⟩ := (HoldsLine.start ⟨2048, row, col, 0x0F⟩ buffer
    t.shiftPressed t.vga).loop rfl (Nat.le_add_left 1 2047) polls
  refine ⟨hclosed.mp hreturned, hline.shift, ?_, hline.noNul⟩
  refine cString_eq ?_ ?_ hline.noNul ?_
  · intro j hj
    rw [Nat.zero_add]
    exact hline.bytes j hj
  · rw [Nat.zero_add]
    have hend := hline.ended hreturned
    rw [hline.length] at hend
    exact hend
  · have hroom := hline.room
    exact Nat.lt_succ_of_le hroom

end Terminal

end Otsos
