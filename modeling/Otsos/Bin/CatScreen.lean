import Otsos.Bin.Programs

/-!
# Where the lines of `cat` end up

`print` scrolls the screen for row 25 and behind, but the loop of `cat` puts
the line counter back from 25 to 24 before `print` can see it.  Once a line is
on the last row every further one is printed over it.
-/

namespace Otsos

open Lib

/-- A printed line and the row that it is on by now, which is negative once
the line has scrolled off the top. -/
structure PlacedLine where
  text : List UInt8
  row : ℤ

def PlacedLine.scrolled (l : PlacedLine) : PlacedLine :=
  { l with row := l.row - 1 }

/-- Where the lines are after one more call of `print`. -/
def placeLine (placed : List PlacedLine) (p : LinePrint) : List PlacedLine :=
  if 25 ≤ p.row then placed.map PlacedLine.scrolled ++ [⟨p.text, 24⟩]
  else placed ++ [⟨p.text, p.row⟩]

def placedLines (prints : List LinePrint) : List PlacedLine :=
  prints.foldl placeLine []

/-- If the line is still on the screen, its row shows it. -/
def PlacedLine.ShownIn (l : PlacedLine) (v : Memory) : Prop :=
  0 ≤ l.row → ∀ j (hj : j < l.text.length),
    v ((l.row.toNat * 80 + j) * 2) = l.text[j] ∧
      v ((l.row.toNat * 80 + j) * 2 + 1) = 0x0F

/-- The calls of `print` for the text in the first bytes of the buffer. -/
def Terminal.catCalls (t : Terminal) (buffer : Memory) (bytesRead : ℕ) :
    List LinePrint :=
  catPrints t.currentLine (buffer.set bytesRead 0) 0 2048

/-- The lines of the text were printed, in order, and are on consecutive rows
in that order; those that are not on the screen are on the rows above it. -/
structure ShowsEveryLine (t : Terminal) (buffer : Memory)
    (text : List UInt8) : Prop where
  texts : (t.catCalls buffer text.length).map LinePrint.text = textLines text
  rows : (placedLines (t.catCalls buffer text.length)).IsChain
    fun l l' => l'.row = l.row + 1
  shown : ∀ l ∈ placedLines (t.catCalls buffer text.length),
    l.ShownIn (t.catShow buffer text.length).vga.videoMemory

variable {t : Terminal} {buffer v : Memory} {text line : List UInt8}
  {lines : List (List UInt8)} {placed : List PlacedLine} {row : ℕ}

/-! ## The calls -/

theorem linePrints_texts (row : ℕ) (lines : List (List UInt8)) :
    (linePrints row lines).map LinePrint.text = lines := by
  induction lines generalizing row with
  | nil => rfl
  | cons line lines ih => rw [linePrints, List.map_cons, ih]

theorem catCalls_eq
    (hcontent : ∀ i (hi : i < text.length), buffer i = text[i])
    (hnul : 0 ∉ text) (hsize : text.length ≤ 2047) :
    t.catCalls buffer text.length =
      linePrints t.currentLine (textLines text) := by
  have hend : buffer.set text.length 0 (0 + text.length) = 0 := by
    rw [Nat.zero_add]
    exact Memory.set_same _ _ _
  have hbytes : ∀ i (hi : i < text.length),
      buffer.set text.length 0 (0 + i) = text[i] := by
    intro i hi
    rw [Nat.zero_add, Memory.set_other _ _ (by omega), hcontent i hi]
  have hstring := (stringAt_cString (n := 2048)
    (show text.length < 2048 by omega) hend).1
  rw [cString_eq hbytes hend hnul (by omega)] at hstring
  exact catPrints_eq hstring (by omega) (by omega)

theorem afterLine_eq (row : ℕ) : afterLine row = min (row + 1) 24 := by
  unfold afterLine
  split <;> omega

/-- Where the lines are placed, the first of them printed for `row`. -/
def placedFrom (row : ℕ) : List (List UInt8) → List PlacedLine
  | [] => []
  | line :: lines => ⟨line, row⟩ :: placedFrom (afterLine row) lines

/-- On the screen no call scrolls. -/
theorem foldl_placeLine (hrow : row ≤ 24) :
    (linePrints row lines).foldl placeLine placed =
      placed ++ placedFrom row lines := by
  induction lines generalizing row placed with
  | nil => exact (List.append_nil placed).symm
  | cons line lines ih =>
      have hafter : afterLine row ≤ 24 := by
        rw [afterLine_eq]
        omega
      have hplace : placeLine placed ⟨line, row⟩ = placed ++ [⟨line, row⟩] :=
        if_neg (Nat.not_le.mpr (Nat.lt_succ_of_le hrow))
      rw [linePrints, placedFrom, List.foldl_cons, hplace, ih hafter,
        List.append_assoc, List.singleton_append]

/-- A first call for row 25 scrolls before there is a line to lose. -/
theorem placedLines_linePrints (hrow : row ≤ 25) :
    placedLines (linePrints row lines) = placedFrom (min row 24) lines := by
  unfold placedLines
  by_cases hlast : row ≤ 24
  · rw [foldl_placeLine hlast, List.nil_append, Nat.min_eq_left hlast]
  · obtain rfl : row = 25 := by omega
    cases lines with
    | nil => rfl
    | cons line lines =>
        rw [linePrints, List.foldl_cons]
        exact foldl_placeLine (le_refl 24)

/-! ## Rows -/

theorem placedFrom_chain_iff (lines : List (List UInt8)) (hrow : row ≤ 24) :
    ((placedFrom row lines).IsChain fun l l' => l'.row = l.row + 1) ↔
      row + lines.length ≤ 25 := by
  induction lines generalizing row with
  | nil => exact iff_of_true .nil (by simp; omega)
  | cons line lines ih =>
      cases lines with
      | nil =>
          refine iff_of_true (.singleton _) ?_
          rw [List.length_singleton]
          omega
      | cons next lines =>
          have hafter : afterLine row ≤ 24 := by
            rw [afterLine_eq]
            omega
          have hrest := ih hafter
          rw [placedFrom] at hrest ⊢
          rw [placedFrom, List.isChain_cons_cons, hrest, afterLine_eq]
          simp only [List.length_cons]
          omega

theorem rows_distinct
    (hrows : placed.IsChain fun l l' => l'.row = l.row + 1) :
    placed.Pairwise fun l l' => l.row ≠ l'.row := by
  have hup : placed.Pairwise fun l l' => l.row < l'.row := by
    rw [← List.isChain_iff_pairwise]
    exact hrows.imp fun l l' hnext => by omega
  exact hup.imp fun hlt => Int.ne_of_lt hlt

/-! ## Cells -/

def LinePrint.on (s : Vga) (p : LinePrint) : Vga := s.print p.text p.row 0 0x0F

theorem printLine_vga (prints : List LinePrint) :
    (prints.foldl Terminal.printLine t).vga =
      prints.foldl LinePrint.on t.vga := by
  induction prints generalizing t with
  | nil => rfl
  | cons p prints ih =>
      have hone : (t.printLine p).vga = p.on t.vga := by
        unfold Terminal.printLine Terminal.clamp
        split <;> rfl
      rw [List.foldl_cons, List.foldl_cons, ih, hone]

theorem Vga.print_shown (s : Vga) (line : List UInt8) (row : ℕ) :
    PlacedLine.ShownIn ⟨line, (min row 24 : ℕ)⟩
      (s.print line row 0 0x0F).videoMemory := by
  intro _ j hj
  have hvideo : ∃ v, (s.print line row 0 0x0F).videoMemory =
      putCells v ((min row 24 * 80 + 0) * 2) 0x0F line := by
    unfold Vga.print
    by_cases hscroll : 25 ≤ row
    · rw [if_pos hscroll, Nat.min_eq_right (by omega)]
      exact ⟨_, rfl⟩
    · rw [if_neg hscroll, Nat.min_eq_left (by omega)]
      exact ⟨_, rfl⟩
  obtain ⟨v, hvideo⟩ := hvideo
  have hcell : (((min row 24 : ℕ) : ℤ).toNat * 80 + j) * 2 =
      (min row 24 * 80 + 0) * 2 + 2 * j := by
    omega
  simp only [hvideo, hcell]
  exact putCells_inside hj

theorem placedLines_concat (prints : List LinePrint) (p : LinePrint) :
    placedLines (prints ++ [p]) = placeLine (placedLines prints) p :=
  List.foldl_concat _ _ _ _

theorem placedLines_bounds {prints : List LinePrint}
    (hwidth : ∀ p ∈ prints, p.text.length ≤ 80) :
    ∀ l ∈ placedLines prints, l.row ≤ 24 ∧ l.text.length ≤ 80 := by
  induction prints using List.reverseRecOn with
  | nil => exact fun l hl => absurd hl List.not_mem_nil
  | append_singleton prints p ih =>
      rw [List.forall_mem_append, List.forall_mem_singleton] at hwidth
      have hold := ih hwidth.1
      rw [placedLines_concat, placeLine]
      split
      · rw [List.forall_mem_append, List.forall_mem_map,
          List.forall_mem_singleton]
        refine ⟨fun l hl => ⟨?_, (hold l hl).2⟩, le_refl 24, hwidth.2⟩
        have hrow := (hold l hl).1
        simp only [PlacedLine.scrolled]
        omega
      · rw [List.forall_mem_append, List.forall_mem_singleton]
        refine ⟨hold, ?_, hwidth.2⟩
        simp only
        omega

theorem PlacedLine.ShownIn.scroll {l : PlacedLine} (h : l.ShownIn v)
    (hrow : l.row ≤ 24) (hwidth : l.text.length ≤ 80) :
    l.scrolled.ShownIn (scrollScreen v) := by
  intro hvisible j hj
  simp only [PlacedLine.scrolled] at hvisible hj ⊢
  obtain ⟨hchar, hcolor⟩ := h (by omega) j hj
  have hcell : (l.row.toNat * 80 + j) * 2 =
      ((l.row - 1).toNat * 80 + j) * 2 + 160 := by
    omega
  rw [hcell] at hchar hcolor
  unfold scrollScreen
  rw [if_pos (by omega), if_pos (by omega)]
  exact ⟨hchar, hcolor⟩

/-- Printing on one row leaves the lines of the others. -/
theorem PlacedLine.ShownIn.print_elsewhere {l : PlacedLine} (h : l.ShownIn v)
    (hwidth : l.text.length ≤ 80) (hline : line.length ≤ 80)
    (hother : l.row ≠ row) :
    l.ShownIn (putCells v ((row * 80 + 0) * 2) 0x0F line) := by
  intro hvisible j hj
  rw [putCells_outside (by omega), putCells_outside (by omega)]
  exact h hvisible j hj

/-- Whatever is printed, lines on rows of their own are shown. -/
theorem placedLines_shown {prints : List LinePrint}
    (hwidth : ∀ p ∈ prints, p.text.length ≤ 80)
    (hrows : (placedLines prints).Pairwise fun l l' => l.row ≠ l'.row)
    (s : Vga) :
    ∀ l ∈ placedLines prints,
      l.ShownIn (prints.foldl LinePrint.on s).videoMemory := by
  induction prints using List.reverseRecOn with
  | nil => exact fun l hl => absurd hl List.not_mem_nil
  | append_singleton prints p ih =>
      rw [List.forall_mem_append, List.forall_mem_singleton] at hwidth
      have hbounds := placedLines_bounds hwidth.1
      have hnew := Vga.print_shown (prints.foldl LinePrint.on s) p.text p.row
      rw [placedLines_concat, placeLine] at hrows ⊢
      rw [List.foldl_concat]
      by_cases hscroll : 25 ≤ p.row
      · rw [if_pos hscroll, List.pairwise_append] at hrows
        have hdistinct : (placedLines prints).Pairwise
            fun l l' => l.row ≠ l'.row := by
          refine (List.pairwise_map.mp hrows.1).imp fun hne heq => hne ?_
          simp only [PlacedLine.scrolled, heq]
        have hvideo : (p.on (prints.foldl LinePrint.on s)).videoMemory =
            putCells (scrollScreen (prints.foldl LinePrint.on s).videoMemory)
              ((24 * 80 + 0) * 2) 0x0F p.text := by
          unfold LinePrint.on Vga.print
          rw [if_pos hscroll]
          rfl
        rw [Nat.min_eq_right (by omega)] at hnew
        rw [if_pos hscroll, List.forall_mem_append, List.forall_mem_map,
          List.forall_mem_singleton]
        refine ⟨fun l hl => ?_, hnew⟩
        obtain ⟨hrow, hshort⟩ := hbounds l hl
        have hup := (ih hwidth.1 hdistinct l hl).scroll hrow hshort
        rw [hvideo]
        refine hup.print_elsewhere hshort hwidth.2 ?_
        simp only [PlacedLine.scrolled]
        omega
      · rw [if_neg hscroll, List.pairwise_append] at hrows
        obtain ⟨hdistinct, -, hother⟩ := hrows
        have hvideo : (p.on (prints.foldl LinePrint.on s)).videoMemory =
            putCells (prints.foldl LinePrint.on s).videoMemory
              ((p.row * 80 + 0) * 2) 0x0F p.text := by
          unfold LinePrint.on Vga.print
          rw [if_neg hscroll]
        rw [Nat.min_eq_left (by omega)] at hnew
        rw [if_neg hscroll, List.forall_mem_append,
          List.forall_mem_singleton]
        refine ⟨fun l hl => ?_, hnew⟩
        have hshown := ih hwidth.1 hdistinct l hl
        rw [hvideo]
        exact hshown.print_elsewhere (hbounds l hl).2 hwidth.2
          (hother l hl _ (List.mem_singleton_self _))

/-- Exactly the texts that end on the last row or above, and those of one line
at most, are shown line by line. -/
theorem cat_shows_iff (t : Terminal) (buffer : Memory) (text : List UInt8)
    (hcontent : ∀ i (hi : i < text.length), buffer i = text[i])
    (hnul : 0 ∉ text) (hsize : text.length ≤ 2047)
    (hwidth : ∀ line ∈ textLines text, line.length ≤ 80)
    (hrow : t.currentLine ≤ 25) :
    ShowsEveryLine t buffer text ↔
      t.currentLine + (textLines text).length ≤ 25 ∨
        (textLines text).length ≤ 1 := by
  have hcalls := catCalls_eq (t := t) hcontent hnul hsize
  have hchain := placedFrom_chain_iff (textLines text)
    (show min t.currentLine 24 ≤ 24 by omega)
  rw [← placedLines_linePrints hrow, ← hcalls] at hchain
  have hcondition : t.currentLine + (textLines text).length ≤ 25 ∨
      (textLines text).length ≤ 1 ↔
        min t.currentLine 24 + (textLines text).length ≤ 25 := by
    omega
  rw [hcondition, ← hchain]
  refine ⟨ShowsEveryLine.rows, fun hrows => ⟨?_, hrows, ?_⟩⟩
  · rw [hcalls]
    exact linePrints_texts _ _
  · have hvideo : (t.catShow buffer text.length).vga =
        (t.catCalls buffer text.length).foldl LinePrint.on t.vga := by
      unfold Terminal.catShow
      rw [catLoop_prints, printLine_vga]
      rfl
    have hshort : ∀ p ∈ t.catCalls buffer text.length,
        p.text.length ≤ 80 := by
      rw [← List.forall_mem_map (f := LinePrint.text)
        (P := fun line => line.length ≤ 80), hcalls, linePrints_texts]
      exact hwidth
    rw [hvideo]
    exact placedLines_shown hshort (rows_distinct hrows) t.vga

def blankTerminal (currentLine : ℕ) : Terminal :=
  ⟨⟨fun i => if i % 2 = 0 then 32 else 0x07, 0, 0⟩, false, currentLine, []⟩

def twoLines : List UInt8 := [97, 10, 98]

/-- The two lines end on the last row. -/
theorem cat_shows_twoLines :
    ShowsEveryLine (blankTerminal 23) (fun i => twoLines.getD i 0) twoLines :=
  (cat_shows_iff (blankTerminal 23) (fun i => twoLines.getD i 0) twoLines
    (fun i hi => by simp [hi]) (by decide) (by decide) (by decide)
    (by decide)).mpr (Or.inl (by decide))

/-- From line 24 on, the second of two lines is printed over the first. -/
theorem cat_overwrites :
    ¬ ∀ (t : Terminal) (buffer : Memory) (text : List UInt8),
      (∀ i (hi : i < text.length), buffer i = text[i]) → 0 ∉ text →
      text.length ≤ 2047 → (∀ line ∈ textLines text, line.length ≤ 80) →
      1 ≤ t.currentLine → t.currentLine ≤ 25 →
      ShowsEveryLine t buffer text := by
  intro hall
  have hshows := hall (blankTerminal 24) (fun i => twoLines.getD i 0) twoLines
    (fun i hi => by simp [hi]) (by decide) (by decide) (by decide) (by decide)
    (by decide)
  have hrows : ¬ (placedLines ((blankTerminal 24).catCalls
      (fun i => twoLines.getD i 0) twoLines.length)).IsChain
      fun l l' => l'.row = l.row + 1 := by
    decide +kernel
  exact hrows hshows.rows

end Otsos
