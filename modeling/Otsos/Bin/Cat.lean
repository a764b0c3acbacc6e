import Otsos.Lib.ByteStrings
import Otsos.Bin.Terminal

/-!
# The lines that `cat` prints

The loop of `cat` cuts the buffer at its newlines, in place, and prints piece
after piece.  What it prints are the lines of the text.
-/

namespace Otsos

open Lib

/-- `while (line && *line)`: every iteration but the last goes past a newline
of `buffer[2048]`, which bounds their number. -/
def catLoop (t : Terminal) (buffer : Memory) (line : ℕ) : ℕ → Terminal
  | 0 => t
  | fuel + 1 =>
      if buffer line = 0 then t
      else
        match strchr buffer 10 line (2048 - line) with
        | some nextLine =>
            let buffer := buffer.set nextLine 0
            let t := t.say ⟨cString buffer line (2048 - line), 0x0F⟩
            catLoop t.clamp buffer (nextLine + 1) fuel
        | none =>
            (t.say ⟨cString buffer line (2048 - line), 0x0F⟩).clamp

/-- The pieces of a text between its newlines; a newline at its end opens no
further one. -/
def textLines : List UInt8 → List (List UInt8)
  | [] => []
  | c :: cs =>
      if c = 10 then [] :: textLines cs
      else
        match textLines cs with
        | [] => [[c]]
        | line :: lines => (c :: line) :: lines

/-- One line after the other. -/
def Terminal.sayLines (t : Terminal) (lines : List (List UInt8)) : Terminal :=
  lines.foldl (fun t line => (t.say ⟨line, 0x0F⟩).clamp) t

/-- `print(line, row, 0, 0x0F)`. -/
structure LinePrint where
  text : List UInt8
  row : ℕ

/-- `*current_line` after it was counted up from `row` and clamped. -/
def afterLine (row : ℕ) : ℕ := if 25 ≤ row + 1 then 24 else row + 1

/-- The calls of `print` that the loop makes, from `*current_line = row` on. -/
def catPrints (row : ℕ) (buffer : Memory) (line : ℕ) : ℕ → List LinePrint
  | 0 => []
  | fuel + 1 =>
      if buffer line = 0 then []
      else
        match strchr buffer 10 line (2048 - line) with
        | some nextLine =>
            let buffer := buffer.set nextLine 0
            ⟨cString buffer line (2048 - line), row⟩ ::
              catPrints (afterLine row) buffer (nextLine + 1) fuel
        | none => [⟨cString buffer line (2048 - line), row⟩]

def Terminal.printLine (t : Terminal) (p : LinePrint) : Terminal :=
  (t.print p.text p.row 0 0x0F).nextLine.clamp

def linePrints (row : ℕ) : List (List UInt8) → List LinePrint
  | [] => []
  | line :: lines => ⟨line, row⟩ :: linePrints (afterLine row) lines

variable {m : Memory} {a n row : ℕ} {c : UInt8}
  {cs text first rest : List UInt8}

/-! ## Splitting -/

theorem textLines_append (hfirst : 10 ∉ first) :
    textLines (first ++ 10 :: rest) = first :: textLines rest := by
  induction first with
  | nil => rfl
  | cons c first ih =>
      rw [List.mem_cons, not_or] at hfirst
      rw [List.cons_append, textLines, if_neg (Ne.symm hfirst.1),
        ih hfirst.2]

theorem textLines_last (hne : text ≠ []) (htext : 10 ∉ text) :
    textLines text = [text] := by
  induction text with
  | nil => exact absurd rfl hne
  | cons c cs ih =>
      rw [List.mem_cons, not_or] at htext
      rw [textLines, if_neg (Ne.symm htext.1)]
      by_cases hcs : cs = []
      · rw [hcs]
        rfl
      · rw [ih hcs htext.2]

/-! ## Strings in the buffer -/

theorem cString_of_stringAt (h : StringAt m a cs) (hn : cs.length < n) :
    cString m a n = cs := by
  induction cs generalizing a n with
  | nil =>
      cases n with
      | zero => rfl
      | succ n => exact if_pos h
  | cons c cs ih =>
      obtain ⟨hhead, hc, hrest⟩ := h
      cases n with
      | zero => omega
      | succ n =>
          rw [List.length_cons] at hn
          rw [cString, hhead, if_neg hc, ih hrest (by omega)]

/-- A zero in the array ends the string in it. -/
theorem stringAt_cString {k : ℕ} (hk : k < n) (hzero : m (a + k) = 0) :
    StringAt m a (cString m a n) ∧ (cString m a n).length ≤ k := by
  induction n generalizing a k with
  | zero => omega
  | succ n ih =>
      rw [cString]
      by_cases hend : m a = 0
      · rw [if_pos hend]
        exact ⟨hend, Nat.zero_le k⟩
      · rw [if_neg hend]
        cases k with
        | zero => exact absurd hzero hend
        | succ k =>
            rw [← Nat.add_assoc, Nat.add_right_comm] at hzero
            obtain ⟨hrest, hlength⟩ := ih (by omega) hzero
            exact ⟨⟨rfl, hend, hrest⟩, Nat.succ_le_succ hlength⟩

theorem strchr_found (h : StringAt m a (first ++ c :: rest))
    (hfirst : c ∉ first) (hn : first.length < n) :
    strchr m c a n = some (a + first.length) := by
  induction first generalizing a n with
  | nil =>
      obtain ⟨hhead, hc, -⟩ := h
      cases n with
      | zero => omega
      | succ n => rw [strchr, hhead, if_neg hc, if_pos rfl]; rfl
  | cons d first ih =>
      obtain ⟨hhead, hd, hrest⟩ := h
      rw [List.mem_cons, not_or] at hfirst
      cases n with
      | zero => omega
      | succ n =>
          rw [List.length_cons] at hn ⊢
          rw [strchr, hhead, if_neg hd, if_neg (Ne.symm hfirst.1),
            ih hrest hfirst.2 (by omega)]
          congr 1
          omega

theorem strchr_missing (h : StringAt m a cs) (hc : c ≠ 0)
    (hcs : c ∉ cs) : strchr m c a n = none := by
  induction cs generalizing a n with
  | nil =>
      cases n with
      | zero => rfl
      | succ n => rw [strchr, if_pos (show m a = 0 from h), if_neg hc]
  | cons d cs ih =>
      obtain ⟨hhead, hd, hrest⟩ := h
      rw [List.mem_cons, not_or] at hcs
      cases n with
      | zero => rfl
      | succ n =>
          rw [strchr, hhead, if_neg hd, if_neg (Ne.symm hcs.1),
            ih hrest hcs.2]

/-! ## The loop -/

theorem catLoop_prints (t : Terminal) (buffer : Memory) (line fuel : ℕ) :
    catLoop t buffer line fuel =
      (catPrints t.currentLine buffer line fuel).foldl
        Terminal.printLine t := by
  induction fuel generalizing t buffer line with
  | zero => rfl
  | succ fuel ih =>
      rw [catLoop, catPrints]
      by_cases hend : buffer line = 0
      · rw [if_pos hend, if_pos hend]
        rfl
      · rw [if_neg hend, if_neg hend]
        cases strchr buffer 10 line (2048 - line) with
        | none => rfl
        | some nextLine =>
            simp only [ih, List.foldl_cons, Terminal.clamp_currentLine]
            rfl

theorem catPrints_eq {buffer : Memory} {line fuel : ℕ}
    (h : StringAt buffer line text) (hroom : line + text.length < 2048)
    (hfuel : text.length < fuel) :
    catPrints row buffer line fuel = linePrints row (textLines text) := by
  induction fuel generalizing row buffer line text with
  | zero => omega
  | succ fuel ih =>
      by_cases hnil : text = []
      · subst hnil
        exact if_pos h
      · have hopen : buffer line ≠ 0 := by
          cases text with
          | nil => exact absurd rfl hnil
          | cons c cs =>
              obtain ⟨hhead, hc, -⟩ := h
              rwa [hhead]
        rw [catPrints, if_neg hopen]
        by_cases hnewline : (10 : UInt8) ∈ text
        · obtain ⟨first, rest, rfl, hfirst⟩ :=
            List.eq_append_cons_of_mem hnewline
          rw [List.length_append, List.length_cons] at hroom hfuel
          obtain ⟨hleft, hright⟩ := h.cut
          rw [strchr_found h hfirst (by omega), textLines_append hfirst]
          simp only
          rw [cString_of_stringAt hleft (by omega),
            ih hright (by omega) (by omega)]
          rfl
        · rw [strchr_missing h (by decide) hnewline,
            textLines_last hnil hnewline, cString_of_stringAt h (by omega)]
          rfl

theorem foldl_linePrints (t : Terminal) (lines : List (List UInt8)) :
    (linePrints t.currentLine lines).foldl Terminal.printLine t =
      t.sayLines lines := by
  unfold Terminal.sayLines
  induction lines generalizing t with
  | nil => rfl
  | cons line lines ih =>
      rw [List.foldl_cons, ← ih, Terminal.clamp_currentLine]
      rfl

theorem catLoop_eq {t : Terminal} {buffer : Memory} {line fuel : ℕ}
    (h : StringAt buffer line text) (hroom : line + text.length < 2048)
    (hfuel : text.length < fuel) :
    catLoop t buffer line fuel = t.sayLines (textLines text) := by
  rw [catLoop_prints, catPrints_eq h hroom hfuel, foldl_linePrints]

end Otsos
