import Mathlib.Data.List.Basic
import Mathlib.Data.Set.Basic
import Otsos.Drivers.LineEditor
import Otsos.Drivers.Mouse

/-!
# The highlighted cell

The mouse handler inverts the cell that the pointer leaves and the cell that it
enters.  The cell in which the pointer starts is left without ever having been
entered, so it is inverted for as long as the pointer is somewhere else.
-/

namespace Otsos

open Lib

/-- `mouse_handler` with what it finds at the two ports. -/
def mouseHandler (s : Mouse × Vga) (p : Poll) : Mouse × Vga :=
  if p.status &&& 1 = 0 ∨ p.status &&& 0x20 = 0 then s
  else s.1.take s.2 p.data

/-- The statics of `mouse.c`. -/
def Mouse.initial : Mouse where
  state := ⟨40, 12, 0⟩
  cycle := 0
  byte := fun _ => 0

/-- The cells of the page whose attribute is not the original one. -/
def changedCells (v₀ v : Memory) : Set ℕ :=
  {cell | cell < 80 * 25 ∧ v (cell * 2 + 1) ≠ v₀ (cell * 2 + 1)}

def MouseState.cell (s : MouseState) : ℕ := (s.y * 80 + s.x).toNat

/-- No cell is highlighted, or the one at the mouse is and no other. -/
def Highlighted (v₀ v : Memory) (s : MouseState) : Prop :=
  changedCells v₀ v = ∅ ∨
    (changedCells v₀ v = {s.cell} ∧
      v (s.cell * 2 + 1) = v₀ (s.cell * 2 + 1) ^^^ 0x77)

/-- The bytes that come from the mouse. -/
def mouseBytes (polls : List Poll) : List UInt8 :=
  (polls.filter fun p =>
    p.status &&& 1 != 0 && p.status &&& 0x20 != 0).map Poll.data

/-- The packets that are complete.  A byte without bit 3 does not begin one. -/
def packets : List UInt8 → List (UInt8 × UInt8 × UInt8)
  | a :: b :: c :: bytes =>
      if a &&& 0x08 = 0 then packets (b :: c :: bytes)
      else (a, b, c) :: packets bytes
  | _ => []

/-- A packet that moves the pointer by less than one cell. -/
def Still (p : UInt8 × UInt8 × UInt8) : Prop :=
  eighth p.2.1 = 0 ∧ eighth p.2.2 = 0

variable {v₀ : Memory} {s : Mouse × Vga} {m : Mouse} {v : Vga}
  {held : List UInt8} {data : UInt8}

/-! ## The screen -/

/-- The position is on the page. -/
structure MouseState.OnPage (s : MouseState) : Prop where
  x : 0 ≤ s.x ∧ s.x < 80
  y : 0 ≤ s.y ∧ s.y < 25

theorem clamp_mem (z : ℤ) {bound : ℤ} (hbound : 0 < bound) :
    0 ≤ clamp z bound ∧ clamp z bound < bound := by
  simp only [clamp]
  split <;> split <;> omega

theorem MouseState.OnPage.cell_lt {s : MouseState} (h : s.OnPage) :
    s.cell < 80 * 25 := by
  have hx := h.x
  have hy := h.y
  rw [MouseState.cell]
  omega

theorem MouseState.OnPage.cell_eq {s s' : MouseState} (h : s.OnPage)
    (h' : s'.OnPage) : s.cell = s'.cell ↔ s.x = s'.x ∧ s.y = s'.y := by
  have hx := h.x
  have hy := h.y
  have hx' := h'.x
  have hy' := h'.y
  rw [MouseState.cell, MouseState.cell]
  omega

theorem MouseState.OnPage.invertCell {s : MouseState} (h : s.OnPage)
    (v : Memory) :
    Otsos.invertCell v s =
      v.set (s.cell * 2 + 1) (v (s.cell * 2 + 1) ^^^ 0x77) := by
  have hx := h.x
  have hy := h.y
  have hoffset : ((s.y * 80 + s.x) * 2 + 1).toNat = s.cell * 2 + 1 := by
    rw [MouseState.cell]
    omega
  rw [Otsos.invertCell, hoffset]

theorem invertCell_invertCell (v : Memory) (s : MouseState) :
    invertCell (invertCell v s) s = v := by
  funext x
  simp only [invertCell]
  by_cases hx : x = ((s.y * 80 + s.x) * 2 + 1).toNat
  · subst hx
    rw [Memory.set_same, Memory.set_same, UInt8.xor_assoc, UInt8.xor_self,
      UInt8.xor_zero]
  · rw [Memory.set_other _ _ hx, Memory.set_other _ _ hx]

theorem xor_ne_self (c : UInt8) : c ^^^ 0x77 ≠ c := by
  intro h
  have hzero := congrArg (c ^^^ ·) h
  rw [← UInt8.xor_assoc, UInt8.xor_self, UInt8.zero_xor] at hzero
  exact absurd hzero (by decide)

/-- The page carries two marks, where the pointer started and where it is. -/
theorem highlighted_iff {start s : MouseState} (hstart : start.OnPage)
    (hs : s.OnPage) :
    Highlighted v₀ (invertCell (invertCell v₀ start) s) s ↔
      s.x = start.x ∧ s.y = start.y := by
  rw [← hs.cell_eq hstart]
  constructor
  · intro h
    by_contra hne
    have hmem : start.cell ∈
        changedCells v₀ (invertCell (invertCell v₀ start) s) := by
      refine ⟨hstart.cell_lt, ?_⟩
      rw [hs.invertCell, hstart.invertCell, Memory.set_other _ _ (by omega),
        Memory.set_same]
      exact xor_ne_self _
    rcases h with hempty | hsingle
    · rw [hempty] at hmem
      exact hmem
    · rw [hsingle.1] at hmem
      exact hne hmem.symm
  · intro heq
    have hback : invertCell (invertCell v₀ start) s = v₀ := by
      rw [hs.invertCell, heq, ← hstart.invertCell, invertCell_invertCell]
    left
    rw [hback, Set.eq_empty_iff_forall_notMem]
    intro cell hmem
    exact hmem.2 rfl

/-! ## The bytes -/

/-- The driver holds the first bytes of a packet. -/
structure HoldsBytes (m : Mouse) (held : List UInt8) : Prop where
  cycle : m.cycle = held.length
  short : held.length < 3
  bytes : ∀ i (hi : i < held.length), m.byte i = held[i]
  first : ∀ a ∈ held.head?, a &&& 0x08 ≠ 0

theorem HoldsBytes.initial : HoldsBytes Mouse.initial [] :=
  ⟨rfl, by simp, by simp, by simp⟩

theorem take_skip (h : HoldsBytes m []) (hdata : data &&& 0x08 = 0) :
    m.take v data = (m, v) := by
  rw [Mouse.take, if_pos ⟨h.cycle, hdata⟩]

/-- A byte that does not complete a packet. -/
theorem take_hold (h : HoldsBytes m held) (hshort : held.length < 2)
    (hdata : held = [] → data &&& 0x08 ≠ 0) :
    ∃ m', m.take v data = (m', v) ∧ m'.state = m.state ∧
      HoldsBytes m' (held ++ [data]) := by
  have hcycle := h.cycle
  refine ⟨{ m with
    byte := Function.update m.byte m.cycle data
    cycle := m.cycle + 1 }, ?_, rfl, ?_⟩
  · rw [Mouse.take, if_neg]
    · simp only
      rw [if_neg (by omega)]
    · rintro ⟨hzero, hbit⟩
      exact hdata (List.eq_nil_of_length_eq_zero (by omega)) hbit
  · constructor
    case cycle => simp [hcycle]
    case short =>
      rw [List.length_append, List.length_singleton]
      omega
    case bytes =>
      intro i hi
      by_cases hlast : i = held.length
      · subst hlast
        simp [hcycle]
      · rw [List.length_append, List.length_singleton] at hi
        rw [List.getElem_append_left (by omega)]
        exact (Function.update_of_ne (by omega) _ _).trans
          (h.bytes i (by omega))
    case first =>
      cases held with
      | nil => simpa using hdata rfl
      | cons a held => exact h.first

/-- The state that a packet leads to. -/
def MouseState.follow (s : MouseState) (p : UInt8 × UInt8 × UInt8) :
    MouseState where
  x := clamp (s.x + eighth p.2.1) 80
  y := clamp (s.y - eighth p.2.2) 25
  buttons := p.1 &&& 0x07

theorem MouseState.follow_onPage (s : MouseState)
    (p : UInt8 × UInt8 × UInt8) : (s.follow p).OnPage :=
  ⟨clamp_mem _ (by omega), clamp_mem _ (by omega)⟩

/-- The third byte of a packet.  A pointer that stays where it is inverts the
same cell twice. -/
theorem take_packet {a b : UInt8} (h : HoldsBytes m [a, b]) :
    ∃ m' v', m.take v data = (m', v') ∧ m'.state = m.state.follow (a, b, data) ∧
      HoldsBytes m' [] ∧
      v'.videoMemory =
        invertCell (invertCell v.videoMemory m.state) m'.state := by
  have hcycle : m.cycle = 2 := h.cycle
  have ha : m.byte 0 = a := h.bytes 0 (by simp)
  have hb : m.byte 1 = b := h.bytes 1 (by simp)
  have hmoved : m.state.moved (Function.update m.byte m.cycle data) =
      m.state.follow (a, b, data) := by
    simp [MouseState.moved, MouseState.follow, hcycle, ha, hb]
  unfold Mouse.take
  rw [if_neg (by omega)]
  simp only [hcycle, if_true]
  rw [hcycle] at hmoved
  rw [hmoved]
  by_cases hmove : m.state.x ≠ (m.state.follow (a, b, data)).x ∨
      m.state.y ≠ (m.state.follow (a, b, data)).y
  · rw [if_pos hmove]
    exact ⟨_, _, rfl, rfl, ⟨rfl, by simp, by simp, by simp⟩, rfl⟩
  · rw [if_neg hmove]
    refine ⟨_, _, rfl, rfl, ⟨rfl, by simp, by simp, by simp⟩, ?_⟩
    rw [not_or, not_not, not_not] at hmove
    have hsame : invertCell (invertCell v.videoMemory m.state)
        (m.state.follow (a, b, data)) =
        invertCell (invertCell v.videoMemory m.state) m.state := by
      rw [invertCell, ← hmove.1, ← hmove.2]
      rfl
    exact (hsame.trans (invertCell_invertCell _ _)).symm

theorem packets_skip {a : UInt8} {bytes : List UInt8}
    (ha : a &&& 0x08 = 0) : packets (a :: bytes) = packets bytes := by
  match bytes with
  | [] => rfl
  | [_] => rfl
  | b :: c :: bytes => rw [packets, if_pos ha]

theorem packets_packet {a b c : UInt8} {bytes : List UInt8}
    (ha : a &&& 0x08 ≠ 0) :
    packets (a :: b :: c :: bytes) = (a, b, c) :: packets bytes := by
  rw [packets, if_neg ha]

theorem mouseBytes_cons (p : Poll) (ps : List Poll) :
    mouseBytes (p :: ps) =
      if p.status &&& 1 = 0 ∨ p.status &&& 0x20 = 0 then mouseBytes ps
      else p.data :: mouseBytes ps := by
  unfold mouseBytes
  by_cases hother : p.status &&& 1 = 0 ∨ p.status &&& 0x20 = 0
  · rw [if_pos hother, List.filter_cons_of_neg]
    simp only [Bool.and_eq_true, bne_iff_ne]
    tauto
  · rw [if_neg hother, List.filter_cons_of_pos, List.map_cons]
    simpa [not_or] using hother

/-! ## The run -/

/-- What holds between two calls, for a pointer that started at `start`. -/
structure Marked (v₀ : Memory) (start : MouseState) (s : Mouse × Vga)
    (held : List UInt8) : Prop where
  holds : HoldsBytes s.1 held
  onPage : s.1.state.OnPage
  marks : s.2.videoMemory = invertCell (invertCell v₀ start) s.1.state

def AtHome (s : MouseState) : Prop := s.x = 40 ∧ s.y = 12

theorem eighth_bound (b : UInt8) : -16 ≤ eighth b ∧ eighth b ≤ 16 := by
  have hlow := b.toInt8.le_toInt
  have hhigh := b.toInt8.toInt_lt
  have habs : (b.toInt8.toInt.tdiv 8).natAbs = b.toInt8.toInt.natAbs / 8 :=
    Int.natAbs_tdiv b.toInt8.toInt 8
  rw [eighth]
  omega

/-- From the middle of the page no border is within reach of a packet. -/
theorem AtHome.follow_iff {s : MouseState} (h : AtHome s)
    (p : UInt8 × UInt8 × UInt8) : AtHome (s.follow p) ↔ Still p := by
  have hx := eighth_bound p.2.1
  have hy := eighth_bound p.2.2
  obtain ⟨hsx, hsy⟩ := h
  simp only [AtHome, Still, MouseState.follow, clamp, hsx, hsy]
  split <;> split <;> split <;> split <;> omega

theorem Marked.highlighted_iff {start : MouseState}
    (h : Marked v₀ start s held) (hstart : start.OnPage)
    (hhome : AtHome start) :
    Highlighted v₀ s.2.videoMemory s.1.state ↔ AtHome s.1.state := by
  rw [h.marks, Otsos.highlighted_iff hstart h.onPage, hhome.1, hhome.2]
  exact Iff.rfl

/-- One call: the pointer stays where it is while a packet is incomplete, and
follows a packet that is complete. -/
theorem Marked.call {start : MouseState} (h : Marked v₀ start s held)
    (p : Poll) :
    ∃ held', Marked v₀ start (mouseHandler s p) held' ∧
      (((mouseHandler s p).1.state = s.1.state ∧
        ∀ polls, packets (held ++ mouseBytes (p :: polls)) =
          packets (held' ++ mouseBytes polls)) ∨
      ∃ q, (mouseHandler s p).1.state = s.1.state.follow q ∧
        ∀ polls, packets (held ++ mouseBytes (p :: polls)) =
          q :: packets (held' ++ mouseBytes polls)) := by
  simp only [mouseBytes_cons]
  by_cases hother : p.status &&& 1 = 0 ∨ p.status &&& 0x20 = 0
  · simp only [mouseHandler, if_pos hother]
    exact ⟨held, h, Or.inl ⟨trivial, fun _ => rfl⟩⟩
  rw [mouseHandler, if_neg hother]
  simp only [if_neg hother]
  by_cases hskip : held = [] ∧ p.data &&& 0x08 = 0
  · obtain ⟨rfl, hdata⟩ := hskip
    rw [take_skip h.holds hdata]
    exact ⟨[], h, Or.inl ⟨rfl, fun _ => packets_skip hdata⟩⟩
  by_cases hshort : held.length < 2
  · obtain ⟨m', htake, hstate, hholds⟩ :=
      take_hold h.holds hshort fun hnil hdata => hskip ⟨hnil, hdata⟩
    have hmarked : Marked v₀ start (m', s.2) (held ++ [p.data]) :=
      ⟨hholds, hstate ▸ h.onPage, hstate ▸ h.marks⟩
    rw [htake]
    refine ⟨_, hmarked, Or.inl ⟨hstate, fun polls => ?_⟩⟩
    rw [List.append_cons]
  · have hlength := h.holds.short
    obtain ⟨a, b, rfl⟩ := List.length_eq_two.mp (show held.length = 2 by omega)
    obtain ⟨m', v', htake, hstate, hholds, hmarks⟩ := take_packet h.holds
    have hmarked : Marked v₀ start (m', v') [] := by
      refine ⟨hholds, hstate ▸ MouseState.follow_onPage _ _, ?_⟩
      rw [hmarks, h.marks, invertCell_invertCell]
    rw [htake]
    exact ⟨[], hmarked, Or.inr ⟨(a, b, p.data), hstate,
      fun _ => packets_packet (h.holds.first a rfl)⟩⟩

theorem HoldsBytes.packets_nil (h : HoldsBytes m held) : packets held = [] := by
  have hshort := h.short
  match held with
  | [] => rfl
  | [_] => rfl
  | [_, _] => rfl

theorem Marked.still_iff {start : MouseState} (hstart : start.OnPage)
    (hhome : AtHome start) (polls : List Poll) (h : Marked v₀ start s held)
    (hs : AtHome s.1.state) :
    (∀ n, Highlighted v₀ ((polls.take n).foldl mouseHandler s).2.videoMemory
        ((polls.take n).foldl mouseHandler s).1.state) ↔
      ∀ p ∈ packets (held ++ mouseBytes polls), Still p := by
  have hnow := (h.highlighted_iff hstart hhome).mpr hs
  induction polls generalizing s held with
  | nil =>
      rw [show mouseBytes [] = [] from rfl, List.append_nil,
        h.holds.packets_nil]
      simp only [List.take_nil, List.foldl_nil]
      exact iff_of_true (fun _ => hnow) (by simp)
  | cons p polls ih =>
      rw [forall_take_cons (P := fun polls => Highlighted v₀
        (polls.foldl mouseHandler s).2.videoMemory
        (polls.foldl mouseHandler s).1.state)]
      simp only [List.foldl_nil, List.foldl_cons]
      rw [and_iff_right hnow]
      obtain ⟨held', hnext, ⟨hstate, hpackets⟩ | ⟨q, hstate, hpackets⟩⟩ :=
        h.call p
      · have hs' : AtHome (mouseHandler s p).1.state := hstate ▸ hs
        rw [hpackets]
        exact ih hnext hs' ((hnext.highlighted_iff hstart hhome).mpr hs')
      · rw [hpackets, List.forall_mem_cons, ← hs.follow_iff q, ← hstate]
        -- a pointer that leaves its cell leaves it marked
        by_cases hs' : AtHome (mouseHandler s p).1.state
        · rw [and_iff_right hs']
          exact ih hnext hs' ((hnext.highlighted_iff hstart hhome).mpr hs')
        · apply iff_of_false
          · intro hall
            exact hs' ((hnext.highlighted_iff hstart hhome).mp (hall 0))
          · exact fun hall => hs' hall.1

theorem initial_onPage : Mouse.initial.state.OnPage :=
  ⟨by decide, by decide⟩

theorem initial_atHome : AtHome Mouse.initial.state := ⟨rfl, rfl⟩

theorem Marked.initial (v : Vga) :
    Marked v.videoMemory Mouse.initial.state (Mouse.initial, v) [] :=
  ⟨HoldsBytes.initial, initial_onPage, (invertCell_invertCell _ _).symm⟩

/-- Exactly the streams in which every packet moves the pointer by less than a
cell keep the page as it should be. -/
theorem mouse_highlight_iff (v : Vga) (polls : List Poll) :
    (∀ n, Highlighted v.videoMemory
      ((polls.take n).foldl mouseHandler (Mouse.initial, v)).2.videoMemory
      ((polls.take n).foldl mouseHandler (Mouse.initial, v)).1.state) ↔
    ∀ p ∈ packets (mouseBytes polls), Still p :=
  Marked.still_iff initial_onPage initial_atHome polls (Marked.initial v)
    initial_atHome

/-- The packet `08 08 00` moves the pointer by one cell to the right. -/
theorem mouse_ghost :
    ¬ ∀ n, Highlighted (fun _ => 0x07)
      ((List.take n [⟨0x21, 0x08⟩, ⟨0x21, 0x08⟩, ⟨0x21, 0x00⟩]).foldl
        mouseHandler (Mouse.initial, ⟨fun _ => 0x07, 0, 0⟩)).2.videoMemory
      ((List.take n [⟨0x21, 0x08⟩, ⟨0x21, 0x08⟩, ⟨0x21, 0x00⟩]).foldl
        mouseHandler (Mouse.initial, ⟨fun _ => 0x07, 0, 0⟩)).1.state := by
  intro hall
  have h := (Marked.still_iff initial_onPage initial_atHome _
    (Marked.initial ⟨fun _ => 0x07, 0, 0⟩) initial_atHome).mp hall
  exact absurd (h (0x08, 0x08, 0x00) (by decide)).1 (by decide)

end Otsos
