import Otsos.Drivers.LineEditor

/-!
# What is stored to the screen

The offsets from `0xb8000` of the bytes that `print`, `update_cursor` and
`scanf` store, in their order, and when all of them lie on the text page.
Cells are counted from the first one of the page.
-/

namespace Otsos

open Lib

def cellOffsets (cell n : ℕ) : List ℕ := List.range' (cell * 2) (2 * n)

/-- The offsets that `clear_screen` and `scroll_screen` store at. -/
def pageOffsets : List ℕ := List.range (80 * 25 * 2)

def printOffsets (message : List UInt8) (row col : ℕ) : List ℕ :=
  if 25 ≤ row then pageOffsets ++ cellOffsets (24 * 80 + col) message.length
  else cellOffsets (row * 80 + col) message.length

def cursorOffsets (y : ℕ) : List ℕ := if 25 ≤ y then pageOffsets else []

/-- The cell of the first character typed. -/
def ScanfArgs.cell (args : ScanfArgs) : ℕ := args.row * 80 + args.col

def Scanf.keyOffsets (args : ScanfArgs) (s : Scanf) (scancode : UInt8) :
    List ℕ :=
  match keyEvent s.shiftPressed scancode with
  | .enter => cursorOffsets (args.row + 2)
  | .erase =>
      if 0 < s.i then
        cellOffsets (args.cell + (s.i - 1)) 1 ++ cursorOffsets args.row
      else []
  | .letter _ =>
      cellOffsets (args.cell + s.i) 1 ++
        printOffsets (chars ['/', '>']) args.row 0 ++ cursorOffsets args.row
  | _ => []

def Scanf.passOffsets (args : ScanfArgs) (s : Scanf) (p : Poll) : List ℕ :=
  if p.status &&& 0x01 ≠ 0 then
    if p.status &&& 0x20 ≠ 0 then [] else s.keyOffsets args p.data
  else []

def scanfOffsets (args : ScanfArgs) (s : Scanf) : List Poll → List ℕ
  | [] => []
  | p :: ps =>
      let s := s.test args
      if s.returned then []
      else s.passOffsets args p ++ scanfOffsets args (s.pass args p) ps

/-! ## Nothing else changes -/

variable {v : Memory} {s : Scanf} {args : ScanfArgs} {screen : Vga}
  {message : List UInt8} {row col cell n x y : ℕ} {c color : UInt8}

theorem mem_cellOffsets :
    x ∈ cellOffsets cell n ↔ cell * 2 ≤ x ∧ x < cell * 2 + 2 * n :=
  List.mem_range'_1

theorem mem_pageOffsets : x ∈ pageOffsets ↔ x < 80 * 25 * 2 := List.mem_range

theorem scrollScreen_keeps (hx : x ∉ pageOffsets) :
    scrollScreen v x = v x := by
  rw [mem_pageOffsets] at hx
  unfold scrollScreen
  rw [if_neg (by omega), if_neg (by omega)]

theorem clearScreen_keeps (hx : x ∉ pageOffsets) : clearScreen v x = v x := by
  rw [mem_pageOffsets] at hx
  exact if_neg hx

theorem putCell_keeps (hx : x ∉ cellOffsets cell 1) :
    putCell v (cell * 2) c color x = v x := by
  rw [mem_cellOffsets] at hx
  exact putCell_outside (by omega)

theorem Vga.print_keeps (hx : x ∉ printOffsets message row col) :
    (screen.print message row col color).videoMemory x =
      screen.videoMemory x := by
  unfold printOffsets at hx
  by_cases hrow : 25 ≤ row
  · rw [if_pos hrow, List.mem_append, not_or, mem_cellOffsets] at hx
    unfold Vga.print
    rw [if_pos hrow]
    refine (putCells_outside ?_).trans (scrollScreen_keeps hx.1)
    omega
  · rw [if_neg hrow, mem_cellOffsets] at hx
    exact Vga.print_outside (by omega) (by omega)

theorem Vga.updateCursor_keeps (col : ℕ) (hx : x ∉ cursorOffsets y) :
    (screen.updateCursor col y).videoMemory x = screen.videoMemory x := by
  unfold cursorOffsets at hx
  by_cases hrow : 25 ≤ y
  · rw [if_pos hrow] at hx
    unfold Vga.updateCursor
    rw [if_pos hrow]
    exact scrollScreen_keeps hx
  · rw [Vga.updateCursor_videoMemory col (by omega)]

theorem Scanf.append_keeps (c : UInt8)
    (hx : x ∉ cellOffsets (args.cell + s.i) 1 ++
      printOffsets (chars ['/', '>']) args.row 0 ++ cursorOffsets args.row) :
    (s.append args c).vga.videoMemory x = s.vga.videoMemory x := by
  rw [List.mem_append, List.mem_append, not_or, not_or] at hx
  obtain ⟨⟨hcell, hprompt⟩, hcursor⟩ := hx
  rw [Scanf.append, Vga.updateCursor_keeps _ hcursor, Vga.print_keeps hprompt]
  rw [show args.offset + s.i * 2 = (args.cell + s.i) * 2 from
    (Nat.add_mul _ _ _).symm]
  exact putCell_keeps hcell

theorem Scanf.erase_keeps (hpos : 0 < s.i)
    (hx : x ∉ cellOffsets (args.cell + (s.i - 1)) 1 ++
      cursorOffsets args.row) :
    (s.erase args).vga.videoMemory x = s.vga.videoMemory x := by
  rw [List.mem_append, not_or] at hx
  rw [Scanf.erase, if_pos hpos, Vga.updateCursor_keeps _ hx.2]
  rw [show args.offset + (s.i - 1) * 2 = (args.cell + (s.i - 1)) * 2 from
    (Nat.add_mul _ _ _).symm]
  exact putCell_keeps hx.1

theorem Scanf.key_keeps {scancode : UInt8}
    (hx : x ∉ s.keyOffsets args scancode) :
    (s.key args scancode).vga.videoMemory x = s.vga.videoMemory x := by
  unfold Scanf.keyOffsets at hx
  rw [s.key_eq]
  cases hevent : keyEvent s.shiftPressed scancode with
  | shift pressed => rfl
  | enter =>
      rw [hevent] at hx
      exact Vga.updateCursor_keeps _ hx
  | erase =>
      rw [hevent] at hx
      by_cases hpos : 0 < s.i
      · rw [if_pos hpos] at hx
        exact Scanf.erase_keeps hpos hx
      · rw [Scanf.erase, if_neg hpos]
  | letter c =>
      rw [hevent] at hx
      exact Scanf.append_keeps c hx
  | nothing => rfl

theorem Scanf.passOffsets_key {p : Poll} (hkey : p.FromKeyboard) :
    s.passOffsets args p = s.keyOffsets args p.data := by
  rw [Scanf.passOffsets, if_pos hkey.1, if_neg (not_not.mpr hkey.2)]

theorem Scanf.passOffsets_idle {p : Poll} (hkey : ¬ p.FromKeyboard) :
    s.passOffsets args p = [] := by
  unfold Scanf.passOffsets
  by_cases hready : p.status &&& 0x01 ≠ 0
  · rw [if_pos hready, if_pos fun hmouse => hkey ⟨hready, hmouse⟩]
  · rw [if_neg hready]

theorem Scanf.pass_keeps {p : Poll} (hx : x ∉ s.passOffsets args p) :
    (s.pass args p).vga.videoMemory x = s.vga.videoMemory x := by
  by_cases hkey : p.FromKeyboard
  · rw [Scanf.passOffsets_key hkey] at hx
    rw [Scanf.pass_key hkey]
    exact Scanf.key_keeps hx
  · rw [Scanf.pass_idle hkey]

theorem Scanf.test_vga : (s.test args).vga = s.vga := by
  unfold Scanf.test
  split
  · rfl
  · split
    · rfl
    · rfl

/-- `scanf` stores to the video memory at these offsets only. -/
theorem scanfLoop_keeps {polls : List Poll}
    (hx : x ∉ scanfOffsets args s polls) :
    (scanfLoop args s polls).vga.videoMemory x = s.vga.videoMemory x := by
  induction polls generalizing s with
  | nil => rw [scanfLoop, Scanf.test_vga]
  | cons p ps ih =>
      rw [scanfOffsets] at hx
      rw [scanfLoop]
      by_cases hdone : (s.test args).returned = true
      · rw [if_pos hdone, Scanf.test_vga]
      · rw [if_neg hdone, List.mem_append, not_or] at hx
        rw [if_neg hdone, ih hx.2, Scanf.pass_keeps hx.1, Scanf.test_vga]

/-! ## The text page -/

def StoresOnPage (offsets : List ℕ) : Prop := ∀ o ∈ offsets, o < 80 * 25 * 2

/-- The `n` cells from `cell` on are cells of the page. -/
def CellsFit (cell n : ℕ) : Prop := n = 0 ∨ cell + n ≤ 80 * 25

/-- `print` brings the row onto the page, but not the end of the text. -/
def PrintFits (message : List UInt8) (row col : ℕ) : Prop :=
  CellsFit (min row 24 * 80 + col) message.length

/-- At no time does the line that is typed reach beyond the page. -/
def TypedFits (args : ScanfArgs) (shift : Bool) (polls : List Poll) : Prop :=
  ∀ n, CellsFit args.cell
    (editLine (args.maxLen - 1) shift (polls.take n)).line.length

theorem storesOnPage_append {offsets offsets' : List ℕ} :
    StoresOnPage (offsets ++ offsets') ↔
      StoresOnPage offsets ∧ StoresOnPage offsets' :=
  List.forall_mem_append

theorem storesOnPage_nil : StoresOnPage [] := fun _ hmem => nomatch hmem

theorem pageOffsets_onPage : StoresOnPage pageOffsets :=
  fun _ hmem => mem_pageOffsets.mp hmem

theorem cellOffsets_onPage :
    StoresOnPage (cellOffsets cell n) ↔ CellsFit cell n := by
  unfold StoresOnPage CellsFit
  simp only [mem_cellOffsets]
  constructor
  · intro h
    by_cases hn : n = 0
    · exact Or.inl hn
    · have hlast := h (cell * 2 + 2 * n - 1) (by omega)
      omega
  · intro hfits o hmem
    omega

theorem printOffsets_onPage :
    StoresOnPage (printOffsets message row col) ↔
      PrintFits message row col := by
  unfold printOffsets PrintFits
  by_cases hrow : 25 ≤ row
  · rw [if_pos hrow, storesOnPage_append, cellOffsets_onPage,
      Nat.min_eq_right (by omega)]
    exact and_iff_right pageOffsets_onPage
  · rw [if_neg hrow, cellOffsets_onPage, Nat.min_eq_left (by omega)]

theorem cursorOffsets_onPage (y : ℕ) : StoresOnPage (cursorOffsets y) := by
  unfold cursorOffsets
  split
  · exact pageOffsets_onPage
  · exact storesOnPage_nil

/-- A text that ends in its row fits in any row. -/
theorem printFits_short (row : ℕ) (h : col + message.length ≤ 80) :
    PrintFits message row col := by
  have hrow : min row 24 ≤ 24 := Nat.min_le_right _ _
  exact Or.inr (by omega)

theorem promptOffsets_onPage (row : ℕ) :
    StoresOnPage (printOffsets (chars ['/', '>']) row 0) :=
  printOffsets_onPage.mpr (printFits_short row (by decide))

/-! ## The line that is typed -/

variable {e : Editor} {buffer v₀ : Memory} {polls : List Poll}

/-- A key stores on the page exactly if the line behind it fits. -/
theorem keyOffsets_onPage {scancode : UInt8} (hlength : s.i = e.line.length)
    (hshift : s.shiftPressed = e.shift)
    (hfits : CellsFit args.cell e.line.length) :
    StoresOnPage (s.keyOffsets args scancode) ↔
      CellsFit args.cell (e.apply (keyEvent e.shift scancode)).line.length := by
  unfold Scanf.keyOffsets
  rw [hshift, hlength]
  cases hevent : keyEvent e.shift scancode with
  | shift pressed => exact iff_of_true storesOnPage_nil hfits
  | nothing => exact iff_of_true storesOnPage_nil hfits
  | enter => exact iff_of_true (cursorOffsets_onPage _) hfits
  | erase =>
      simp only [Editor.apply, List.length_dropLast]
      unfold CellsFit at hfits ⊢
      apply iff_of_true
      · split
        · rw [storesOnPage_append, cellOffsets_onPage]
          exact ⟨Or.inr (by omega), cursorOffsets_onPage _⟩
        · exact storesOnPage_nil
      · omega
  | letter c =>
      simp only [Editor.apply, List.length_append, List.length_singleton]
      rw [storesOnPage_append, storesOnPage_append, cellOffsets_onPage,
        and_iff_left (cursorOffsets_onPage _),
        and_iff_left (promptOffsets_onPage _)]
      unfold CellsFit
      omega

/-- What `scanf` stores lies on the page exactly if the line always fits. -/
theorem HoldsLine.offsets_onPage (h : HoldsLine args buffer v₀ s e)
    (hreturned : s.returned = e.entered) (hmax : 1 ≤ args.maxLen)
    (hfits : CellsFit args.cell e.line.length) :
    StoresOnPage (scanfOffsets args s polls) ↔
      ∀ n, CellsFit args.cell ((keyboardBytes (polls.take n)).foldl
        (Editor.step (args.maxLen - 1)) e).line.length := by
  induction polls generalizing s e with
  | nil =>
      refine iff_of_true storesOnPage_nil fun n => ?_
      rw [List.take_nil]
      exact hfits
  | cons p ps ih =>
      obtain ⟨-, hclosed⟩ := h.test hreturned hmax
      rw [scanfOffsets, forall_take_cons (P := fun polls =>
        CellsFit args.cell ((keyboardBytes polls).foldl _ e).line.length),
        show keyboardBytes [] = [] from rfl, List.foldl_nil,
        and_iff_right hfits]
      by_cases hdone : (s.test args).returned = true
      · rw [if_pos hdone]
        refine iff_of_true storesOnPage_nil fun n => ?_
        rw [foldl_step_closed (hclosed.mp hdone)]
        exact hfits
      · have hopen := mt hclosed.mpr hdone
        rw [if_neg hdone, Scanf.test_open hdone, storesOnPage_append]
        simp only [keyboardBytes_cons]
        by_cases hkey : p.FromKeyboard
        · obtain ⟨hnext, hreturned'⟩ := h.key hreturned hopen hmax p.data
          simp only [if_pos hkey, List.foldl_cons, Editor.step, if_neg hopen]
          rw [Scanf.pass_key hkey, Scanf.passOffsets_key hkey,
            keyOffsets_onPage h.length h.shift hfits]
          by_cases hlonger : CellsFit args.cell
              (e.apply (keyEvent e.shift p.data)).line.length
          · rw [and_iff_right hlonger]
            exact ih hnext hreturned' hlonger
          · exact iff_of_false (fun hboth => hlonger hboth.1)
              fun hall => hlonger (hall 0)
        · simp only [if_neg hkey]
          rw [Scanf.pass_idle hkey, Scanf.passOffsets_idle hkey,
            and_iff_right storesOnPage_nil]
          exact ih h hreturned hfits

theorem length_step_le (room : ℕ) (e : Editor) (code : UInt8) :
    (e.step room code).line.length ≤ e.line.length + 1 := by
  unfold Editor.step
  split
  · exact Nat.le_succ _
  · cases keyEvent e.shift code with
    | erase =>
        simp only [Editor.apply, List.length_dropLast]
        omega
    | letter c => simp [Editor.apply]
    | shift pressed => exact Nat.le_succ _
    | enter => exact Nat.le_succ _
    | nothing => exact Nat.le_succ _

theorem length_foldl_step_le (room : ℕ) (e : Editor) (codes : List UInt8) :
    (codes.foldl (Editor.step room) e).line.length ≤
      e.line.length + codes.length := by
  induction codes generalizing e with
  | nil => exact Nat.le_refl _
  | cons code codes ih =>
      have hstep := length_step_le room e code
      have hrest := ih (e.step room code)
      rw [List.foldl_cons, List.length_cons]
      omega

/-- Few bytes fit whatever they are. -/
theorem typedFits_short {shift : Bool}
    (h : args.cell + polls.length ≤ 80 * 25) : TypedFits args shift polls := by
  intro n
  right
  have hbytes : (keyboardBytes (polls.take n)).length ≤ polls.length := by
    unfold keyboardBytes
    rw [List.length_map]
    exact Nat.le_trans (List.length_filter_le _ _)
      (List.length_take_le' n polls)
  have hline := length_foldl_step_le (args.maxLen - 1) ⟨[], shift, false⟩
    (keyboardBytes (polls.take n))
  unfold editLine
  rw [List.length_nil] at hline
  omega

end Otsos
