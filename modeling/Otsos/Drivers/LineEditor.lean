import Otsos.Drivers.Keyboard
import Otsos.Mlibc.Strings

/-!
# `scanf` is a line editor

`scanf` as a function of what its poll loop sees.  The loop keeps a line in an
array and its image on the screen; seen from outside it is a fold over the
bytes of the keyboard, with a list of characters as the state.
-/

namespace Otsos

open Lib

/-- What one pass of the poll loop finds at the two ports: the status, and the
byte that a read of the data port gives. -/
structure Poll where
  status : UInt8
  data : UInt8

def Scanf.pass (args : ScanfArgs) (s : Scanf) (p : Poll) : Scanf :=
  if p.status &&& 0x01 ≠ 0 then
    if p.status &&& 0x20 ≠ 0 then s else s.key args p.data
  else s

/-- The test of the loop, and the way out behind it. -/
def Scanf.test (args : ScanfArgs) (s : Scanf) : Scanf :=
  if s.returned then s
  else if s.i + 1 < args.maxLen then s
  else { s with buffer := s.buffer.set s.i 0, returned := true }

/-- The loop, for as long as there are polls: without them it still waits. -/
def scanfLoop (args : ScanfArgs) (s : Scanf) : List Poll → Scanf
  | [] => s.test args
  | p :: ps =>
      let s := s.test args
      if s.returned then s else scanfLoop args (s.pass args p) ps

def scanf (args : ScanfArgs) (buffer : Memory) (shiftPressed : Bool)
    (vga : Vga) (polls : List Poll) : Scanf :=
  scanfLoop args ⟨0, buffer, shiftPressed, vga, false⟩ polls

/-! ## The editor -/

inductive KeyEvent where
  | shift (pressed : Bool)
  | enter
  | erase
  | letter (c : UInt8)
  | nothing

/-- What a byte of the keyboard means. -/
def keyEvent (shift : Bool) (code : UInt8) : KeyEvent :=
  if code = 0x2A ∨ code = 0x36 then .shift true
  else if code = 0xAA ∨ code = 0xB6 then .shift false
  else if code = 0x1C then .enter
  else if code = 0x0E then .erase
  else if code < 0x80 then
    let c := (if shift then kbdUsShift else kbdUs).getD code.toNat 0
    if c = 0 ∨ c = 10 then .nothing else .letter c
  else .nothing

structure Editor where
  line : List UInt8
  shift : Bool
  entered : Bool

/-- Nothing more is read: Enter was pressed, or the line holds `room`
characters. -/
def Editor.Closed (room : ℕ) (e : Editor) : Prop :=
  e.entered = true ∨ room ≤ e.line.length

instance (room : ℕ) (e : Editor) : Decidable (e.Closed room) :=
  inferInstanceAs (Decidable (_ ∨ _))

def Editor.apply (e : Editor) : KeyEvent → Editor
  | .shift pressed => { e with shift := pressed }
  | .enter => { e with entered := true }
  | .erase => { e with line := e.line.dropLast }
  | .letter c => { e with line := e.line ++ [c] }
  | .nothing => e

def Editor.step (room : ℕ) (e : Editor) (code : UInt8) : Editor :=
  if e.Closed room then e else e.apply (keyEvent e.shift code)

/-- There is a byte, and it is not one of the mouse. -/
def Poll.FromKeyboard (p : Poll) : Prop :=
  p.status &&& 0x01 ≠ 0 ∧ p.status &&& 0x20 = 0

instance (p : Poll) : Decidable p.FromKeyboard :=
  inferInstanceAs (Decidable (_ ∧ _))

/-- The bytes that come from the keyboard. -/
def keyboardBytes (polls : List Poll) : List UInt8 :=
  (polls.filter fun p =>
    p.status &&& 0x01 != 0 && p.status &&& 0x20 == 0).map Poll.data

/-- The line typed by these polls. -/
def editLine (room : ℕ) (shift : Bool) (polls : List Poll) : Editor :=
  (keyboardBytes polls).foldl (Editor.step room) ⟨[], shift, false⟩

/-- The cells from `offset` on show the line; the cells behind it that were
typed over and erased are blank, and those that were not are as in `v₀`. -/
structure ShowsLine (args : ScanfArgs) (text : List UInt8)
    (v₀ v : Memory) : Prop where
  shown : ∀ j (hj : j < text.length),
    v (args.offset + j * 2) = text[j] ∧
      v (args.offset + j * 2 + 1) = args.color
  behind : ∃ typed, text.length ≤ typed ∧
    (∀ j, text.length ≤ j → j < typed →
      v (args.offset + j * 2) = 32 ∧
        v (args.offset + j * 2 + 1) = args.color) ∧
    ∀ x, args.offset + typed * 2 ≤ x → v x = v₀ x

variable {args : ScanfArgs} {s : Scanf} {e : Editor} {buffer v₀ v : Memory}
  {text : List UInt8} {room : ℕ}

/-! ## The screen -/

/-- The prompt is drawn in front of the line. -/
theorem Scanf.append_videoMemory {x : ℕ} (c : UInt8) (hrow : args.row ≤ 24)
    (hcol : 2 ≤ args.col) (hx : args.offset ≤ x) :
    (s.append args c).vga.videoMemory x =
      putCell s.vga.videoMemory (args.offset + s.i * 2) c args.color x := by
  simp only [Scanf.append]
  rw [Vga.updateCursor_videoMemory _ hrow, Vga.print_outside hrow]
  right
  simp only [ScanfArgs.offset, chars, List.length_map, List.length_cons,
    List.length_nil] at hx ⊢
  omega

theorem ShowsLine.append {v' : Memory} (c : UInt8)
    (h : ShowsLine args text v₀ v)
    (hv : ∀ x, args.offset ≤ x →
      v' x = putCell v (args.offset + text.length * 2) c args.color x) :
    ShowsLine args (text ++ [c]) v₀ v' := by
  obtain ⟨typed, hle, hblank, hsame⟩ := h.behind
  constructor
  · intro j hj
    rw [hv _ (by omega), hv _ (by omega)]
    by_cases hlast : j = text.length
    · subst hlast
      rw [putCell_char, putCell_color, List.getElem_concat_length rfl]
      exact ⟨rfl, rfl⟩
    · rw [List.length_append, List.length_singleton] at hj
      rw [putCell_outside (by omega), putCell_outside (by omega),
        List.getElem_append_left (by omega)]
      exact h.shown j (by omega)
  · rw [List.length_append, List.length_singleton]
    refine ⟨max typed (text.length + 1), Nat.le_max_right _ _, ?_, ?_⟩
    · intro j hlow hhigh
      rw [hv _ (by omega), hv _ (by omega), putCell_outside (by omega),
        putCell_outside (by omega)]
      exact hblank j (by omega) (by omega)
    · intro x hx
      rw [hv _ (by omega), putCell_outside (by omega)]
      exact hsame x (by omega)

theorem ShowsLine.erase {v' : Memory} (h : ShowsLine args text v₀ v)
    (hne : 0 < text.length)
    (hv : ∀ x, args.offset ≤ x → v' x =
      putCell v (args.offset + (text.length - 1) * 2) 32 args.color x) :
    ShowsLine args text.dropLast v₀ v' := by
  obtain ⟨typed, hle, hblank, hsame⟩ := h.behind
  constructor
  · intro j hj
    rw [List.length_dropLast] at hj
    rw [hv _ (by omega), hv _ (by omega), putCell_outside (by omega),
      putCell_outside (by omega), List.getElem_dropLast]
    exact h.shown j (by omega)
  · refine ⟨typed, by rw [List.length_dropLast]; omega, ?_, ?_⟩
    · intro j hlow hhigh
      rw [List.length_dropLast] at hlow
      rw [hv _ (by omega), hv _ (by omega)]
      by_cases hfirst : j = text.length - 1
      · subst hfirst
        exact ⟨putCell_char, putCell_color⟩
      · rw [putCell_outside (by omega), putCell_outside (by omega)]
        exact hblank j (by omega) hhigh
    · intro x hx
      rw [hv _ (by omega), putCell_outside (by omega)]
      exact hsame x hx

/-! ## One key -/

/-- The step back over the last character. -/
def Scanf.erase (args : ScanfArgs) (s : Scanf) : Scanf :=
  if 0 < s.i then
    let v := { s.vga with
      videoMemory := putCell s.vga.videoMemory
        (args.offset + (s.i - 1) * 2) 32 args.color }
    { s with
      i := s.i - 1
      vga := v.updateCursor (args.col + (s.i - 1)) args.row }
  else s

theorem Scanf.key_eq (args : ScanfArgs) (s : Scanf) (code : UInt8) :
    s.key args code =
      match keyEvent s.shiftPressed code with
      | .shift pressed => { s with shiftPressed := pressed }
      | .enter =>
          { s with
            buffer := s.buffer.set s.i 0
            vga := s.vga.updateCursor args.col (args.row + 2)
            returned := true }
      | .erase => s.erase args
      | .letter c => s.append args c
      | .nothing => s := by
  unfold Scanf.key keyEvent
  by_cases hdown : code = 0x2A ∨ code = 0x36
  · simp only [if_pos hdown]
  · by_cases hup : code = 0xAA ∨ code = 0xB6
    · simp only [if_neg hdown, if_pos hup]
    · simp only [if_neg hdown, if_neg hup]
      by_cases henter : code = 0x1C
      · simp [henter]
      · by_cases herase : code = 0x0E
        · simp [herase, Scanf.erase]
        · simp only [if_neg henter, if_neg herase]
          by_cases hmake : code < 0x80
          · simp only [if_pos hmake]
            generalize (if s.shiftPressed then kbdUsShift else kbdUs).getD
              code.toNat 0 = c
            by_cases hempty : c = 0 ∨ c = 10
            · rw [if_pos hempty, if_neg (by tauto)]
            · rw [if_neg hempty, if_pos (by tauto)]
          · simp only [if_neg hmake]

theorem keyEvent_letter {shift : Bool} {code c : UInt8}
    (h : keyEvent shift code = .letter c) : c ≠ 0 ∧ c ≠ 10 := by
  unfold keyEvent at h
  generalize (if shift then kbdUsShift else kbdUs).getD code.toNat 0 = c' at h
  by_cases hempty : c' = 0 ∨ c' = 10
  · simp only [if_pos hempty] at h
    split_ifs at h
  · simp only [if_neg hempty] at h
    split_ifs at h
    cases h
    exact not_or.mp hempty

/-- The locals of `scanf` hold the line of the editor, and the screen shows
it. -/
structure HoldsLine (args : ScanfArgs) (buffer v₀ : Memory) (s : Scanf)
    (e : Editor) : Prop where
  length : s.i = e.line.length
  room : e.line.length ≤ args.maxLen - 1
  shift : s.shiftPressed = e.shift
  bytes : ∀ j (hj : j < e.line.length), s.buffer j = e.line[j]
  noNul : 0 ∉ e.line
  beyond : ∀ x, args.maxLen ≤ x → s.buffer x = buffer x
  ended : s.returned = true → s.buffer s.i = 0
  screen : s.returned = false → args.row ≤ 24 → 2 ≤ args.col →
    ShowsLine args e.line v₀ s.vga.videoMemory

/-- Before the first poll the line is empty. -/
theorem HoldsLine.start (args : ScanfArgs) (buffer : Memory) (shift : Bool)
    (vga : Vga) :
    HoldsLine args buffer vga.videoMemory ⟨0, buffer, shift, vga, false⟩
      ⟨[], shift, false⟩ := by
  refine ⟨rfl, Nat.zero_le _, rfl, ?_, by simp, fun _ _ => rfl, ?_, ?_⟩
  · intro j hj
    exact absurd hj (Nat.not_lt_zero j)
  · intro hreturned
    cases hreturned
  · intro _ _ _
    refine ⟨?_, 0, Nat.le_refl 0, ?_, fun _ _ => rfl⟩
    · intro j hj
      exact absurd hj (Nat.not_lt_zero j)
    · intro j _ hj
      exact absurd hj (Nat.not_lt_zero j)

theorem HoldsLine.append {c : UInt8} (h : HoldsLine args buffer v₀ s e)
    (hopen : e.line.length < args.maxLen - 1) (hwaits : s.returned = false)
    (hc : c ≠ 0) :
    HoldsLine args buffer v₀ (s.append args c)
      { e with line := e.line ++ [c] } := by
  constructor
  case length =>
    simp only [Scanf.append, h.length, List.length_append,
      List.length_singleton]
  case room =>
    rw [List.length_append, List.length_singleton]
    omega
  case shift => exact h.shift
  case bytes =>
    intro j hj
    simp only [Scanf.append, h.length]
    by_cases hlast : j = e.line.length
    · subst hlast
      rw [Memory.set_same, List.getElem_concat_length rfl]
    · rw [List.length_append, List.length_singleton] at hj
      rw [Memory.set_other _ _ hlast, List.getElem_append_left (by omega)]
      exact h.bytes j (by omega)
  case noNul =>
    rw [List.mem_append, List.mem_singleton, not_or]
    exact ⟨h.noNul, hc.symm⟩
  case beyond =>
    intro x hx
    simp only [Scanf.append, h.length]
    rw [Memory.set_other _ _ (by omega)]
    exact h.beyond x hx
  case ended =>
    intro hreturned
    rw [show (s.append args c).returned = s.returned from rfl, hwaits]
      at hreturned
    cases hreturned
  case screen =>
    intro _ hrow hcol
    refine (h.screen hwaits hrow hcol).append c ?_
    intro x hx
    rw [Scanf.append_videoMemory c hrow hcol hx, h.length]

theorem HoldsLine.erase (h : HoldsLine args buffer v₀ s e)
    (hwaits : s.returned = false) :
    HoldsLine args buffer v₀ (s.erase args)
      { e with line := e.line.dropLast } := by
  unfold Scanf.erase
  by_cases hpos : 0 < s.i
  · rw [if_pos hpos]
    constructor
    case length => simp only [h.length, List.length_dropLast]
    case room =>
      rw [List.length_dropLast]
      have := h.room
      omega
    case shift => exact h.shift
    case bytes =>
      intro j hj
      rw [List.length_dropLast] at hj
      rw [List.getElem_dropLast]
      exact h.bytes j (by omega)
    case noNul => exact fun hmem => h.noNul (List.dropLast_subset _ hmem)
    case beyond => exact h.beyond
    case ended =>
      intro hreturned
      rw [hwaits] at hreturned
      cases hreturned
    case screen =>
      intro _ hrow hcol
      rw [h.length] at hpos
      refine (h.screen hwaits hrow hcol).erase hpos ?_
      intro x _
      rw [Vga.updateCursor_videoMemory _ hrow, h.length]
  · have hnil : e.line = [] := by
      rw [← List.length_eq_zero_iff, ← h.length]
      omega
    rw [if_neg hpos, hnil, List.dropLast_nil, ← hnil]
    exact h

theorem HoldsLine.enter {v' : Vga} {entered : Bool}
    (h : HoldsLine args buffer v₀ s e) (hmax : 1 ≤ args.maxLen) :
    HoldsLine args buffer v₀
      { s with
        buffer := s.buffer.set s.i 0
        vga := v'
        returned := true } { e with entered := entered } := by
  have hroom := h.room
  refine ⟨h.length, hroom, h.shift, ?_, h.noNul, ?_, ?_, ?_⟩
  · intro j hj
    refine (Memory.set_other _ _ ?_).trans (h.bytes j hj)
    rw [h.length]
    exact Nat.ne_of_lt hj
  · intro x hx
    refine (Memory.set_other _ _ ?_).trans (h.beyond x hx)
    rw [h.length]
    omega
  · exact fun _ => Memory.set_same _ _ _
  · intro hreturned
    cases hreturned

theorem HoldsLine.key (h : HoldsLine args buffer v₀ s e)
    (hreturned : s.returned = e.entered)
    (hopen : ¬ e.Closed (args.maxLen - 1)) (hmax : 1 ≤ args.maxLen)
    (code : UInt8) :
    HoldsLine args buffer v₀ (s.key args code)
        (e.apply (keyEvent e.shift code)) ∧
      (s.key args code).returned =
        (e.apply (keyEvent e.shift code)).entered := by
  obtain ⟨hwaits, hlt⟩ := not_or.mp hopen
  rw [Bool.not_eq_true, ← hreturned] at hwaits
  rw [s.key_eq, ← h.shift]
  cases hevent : keyEvent s.shiftPressed code with
  | shift pressed =>
      exact ⟨⟨h.length, h.room, rfl, h.bytes, h.noNul, h.beyond, h.ended,
        h.screen⟩, hreturned⟩
  | enter => exact ⟨h.enter hmax, rfl⟩
  | erase =>
      refine ⟨h.erase hwaits, ?_⟩
      dsimp only
      unfold Scanf.erase
      split
      · exact hreturned
      · exact hreturned
  | letter c =>
      refine ⟨h.append (by omega) hwaits ?_, hreturned⟩
      exact (keyEvent_letter hevent).1
  | nothing => exact ⟨h, hreturned⟩

/-! ## The loop -/

theorem HoldsLine.test (h : HoldsLine args buffer v₀ s e)
    (hreturned : s.returned = e.entered) (hmax : 1 ≤ args.maxLen) :
    HoldsLine args buffer v₀ (s.test args) e ∧
      ((s.test args).returned = true ↔ e.Closed (args.maxLen - 1)) := by
  have hlength := h.length
  unfold Scanf.test
  by_cases hdone : s.returned = true
  · rw [if_pos hdone]
    exact ⟨h, iff_of_true hdone (Or.inl (hreturned ▸ hdone))⟩
  · rw [if_neg hdone]
    by_cases hroom : s.i + 1 < args.maxLen
    · rw [if_pos hroom]
      refine ⟨h, iff_of_false hdone ?_⟩
      rintro (hentered | hfull)
      · exact hdone (hreturned.trans hentered)
      · omega
    · rw [if_neg hroom]
      exact ⟨h.enter hmax, iff_of_true rfl (Or.inr (by omega))⟩

theorem Scanf.test_open (hopen : ¬ (s.test args).returned = true) :
    s.test args = s := by
  unfold Scanf.test at hopen ⊢
  split
  · rfl
  · split
    · rfl
    · simp_all

theorem foldl_step_closed (hclosed : e.Closed room) (codes : List UInt8) :
    codes.foldl (Editor.step room) e = e := by
  induction codes with
  | nil => rfl
  | cons code codes ih =>
      rw [List.foldl_cons, Editor.step, if_pos hclosed]
      exact ih

/-- What holds of each prefix of the polls. -/
theorem forall_take_cons {P : List Poll → Prop} {p : Poll} {ps : List Poll} :
    (∀ n, P ((p :: ps).take n)) ↔ P [] ∧ ∀ n, P (p :: ps.take n) := by
  constructor
  · exact fun h => ⟨h 0, fun n => h (n + 1)⟩
  · rintro ⟨hnil, hcons⟩ n
    cases n with
    | zero => exact hnil
    | succ n => exact hcons n

theorem keyboardBytes_cons (p : Poll) (ps : List Poll) :
    keyboardBytes (p :: ps) =
      if p.FromKeyboard then p.data :: keyboardBytes ps
      else keyboardBytes ps := by
  unfold keyboardBytes
  by_cases hkey : p.FromKeyboard
  · rw [if_pos hkey, List.filter_cons_of_pos
      (by simpa [Poll.FromKeyboard] using hkey), List.map_cons]
  · rw [if_neg hkey, List.filter_cons_of_neg
      (by simpa [Poll.FromKeyboard] using hkey)]

theorem Scanf.pass_key {p : Poll} (hkey : p.FromKeyboard) :
    s.pass args p = s.key args p.data := by
  rw [Scanf.pass, if_pos hkey.1, if_neg (not_not.mpr hkey.2)]

theorem Scanf.pass_idle {p : Poll} (hkey : ¬ p.FromKeyboard) :
    s.pass args p = s := by
  unfold Scanf.pass
  by_cases hready : p.status &&& 0x01 ≠ 0
  · rw [if_pos hready, if_pos fun hmouse => hkey ⟨hready, hmouse⟩]
  · rw [if_neg hready]

theorem HoldsLine.loop (h : HoldsLine args buffer v₀ s e)
    (hreturned : s.returned = e.entered) (hmax : 1 ≤ args.maxLen)
    (polls : List Poll) :
    HoldsLine args buffer v₀ (scanfLoop args s polls)
        ((keyboardBytes polls).foldl (Editor.step (args.maxLen - 1)) e) ∧
      ((scanfLoop args s polls).returned = true ↔
        ((keyboardBytes polls).foldl (Editor.step (args.maxLen - 1)) e).Closed
          (args.maxLen - 1)) := by
  induction polls generalizing s e with
  | nil => exact h.test hreturned hmax
  | cons p ps ih =>
      obtain ⟨htest, hclosed⟩ := h.test hreturned hmax
      rw [scanfLoop]
      by_cases hdone : (s.test args).returned = true
      · rw [foldl_step_closed (hclosed.mp hdone), if_pos hdone]
        exact ⟨htest, hclosed⟩
      · have hopen := mt hclosed.mpr hdone
        have hsame := Scanf.test_open hdone
        rw [if_neg hdone, hsame, keyboardBytes_cons]
        by_cases hkey : p.FromKeyboard
        · obtain ⟨hnext, hreturned'⟩ := h.key hreturned hopen hmax p.data
          rw [if_pos hkey, Scanf.pass_key hkey, List.foldl_cons, Editor.step,
            if_neg hopen]
          exact ih hnext hreturned'
        · rw [if_neg hkey, Scanf.pass_idle hkey]
          exact ih h hreturned

/-! ## The law -/

/-- At any time the locals of `scanf` hold the line of the editor, the index
has not left the buffer, and the screen shows the line; and `scanf` has
returned, with the line as a string in the buffer, exactly when the editor is
closed. -/
theorem scanf_line_editor (args : ScanfArgs) (hmax : 1 ≤ args.maxLen)
    (buffer : Memory) (shiftPressed : Bool) (vga : Vga) (polls : List Poll) :
    let s := scanf args buffer shiftPressed vga polls
    let e := editLine (args.maxLen - 1) shiftPressed polls
    s.i = e.line.length ∧ s.i ≤ args.maxLen - 1 ∧ s.shiftPressed = e.shift ∧
      (∀ j (hj : j < e.line.length), s.buffer j = e.line[j]) ∧
      (∀ x, args.maxLen ≤ x → s.buffer x = buffer x) ∧
      (s.returned = true ↔ e.Closed (args.maxLen - 1)) ∧
      (s.returned = true → 0 ∉ e.line ∧ strcmpEq s.buffer 0 e.line = true) ∧
      (s.returned = false → args.row ≤ 24 → 2 ≤ args.col →
        ShowsLine args e.line vga.videoMemory s.vga.videoMemory) := by
  intro s e
  obtain ⟨h, hclosed⟩ :=
    (HoldsLine.start args buffer shiftPressed vga).loop rfl hmax polls
  have hlength : s.i = e.line.length := h.length
  refine ⟨hlength, hlength ▸ h.room, h.shift, h.bytes, h.beyond, hclosed, ?_,
    h.screen⟩
  intro hreturned
  refine ⟨h.noNul, strcmpEq_iff.mpr ⟨?_, ?_⟩⟩
  · intro j hj
    rw [Nat.zero_add]
    exact h.bytes j hj
  · rw [Nat.zero_add, ← hlength]
    exact h.ended hreturned

/-- The keys `a`, a byte of the mouse, `b`, backspace and Enter. -/
theorem scanf_line_editor_typed :
    let s := scanf ⟨2048, 5, 2, 0x0F⟩ (fun _ => 0) false ⟨fun _ => 0, 0, 0⟩
      [⟨0x01, 0x1E⟩, ⟨0x21, 0x1C⟩, ⟨0x01, 0x30⟩, ⟨0x01, 0x0E⟩, ⟨0x01, 0x1C⟩]
    s.returned = true ∧ strcmpEq s.buffer 0 (chars ['a']) = true := by
  obtain ⟨-, -, -, -, -, hclosed, hstring, -⟩ :=
    scanf_line_editor ⟨2048, 5, 2, 0x0F⟩ (by decide) (fun _ => 0) false
      ⟨fun _ => 0, 0, 0⟩
      [⟨0x01, 0x1E⟩, ⟨0x21, 0x1C⟩, ⟨0x01, 0x30⟩, ⟨0x01, 0x0E⟩, ⟨0x01, 0x1C⟩]
  have hreturned := hclosed.mpr (by decide)
  exact ⟨hreturned, (hstring hreturned).2⟩

end Otsos
