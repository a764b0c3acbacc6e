import Otsos.Drivers.MouseHighlight
import Otsos.Lib.PrefixRuns

/-!
# The movement that a packet reports

A movement has nine bits: the first byte of a packet holds the signs of the
other two.  The handler takes the signs from bit 7 of the other bytes instead,
so it follows a fast movement the wrong way, unless the pointer is at the
border that the movement goes to and the byte counts for less than a cell.
-/

namespace Otsos

open Lib

/-- A packet with bit 3 of its first byte set and the overflow bits clear. -/
structure MousePacket where
  first : UInt8
  second : UInt8
  third : UInt8
  framed : first &&& 0x08 ≠ 0
  inRange : first &&& 0xC0 = 0

namespace MousePacket

def bytes (p : MousePacket) : List UInt8 := [p.first, p.second, p.third]

/-- A byte that the sign bit `sign` extends to nine bits. -/
def delta (sign b : UInt8) : ℤ := b.toNat - if sign = 0 then 0 else 256

def dx (p : MousePacket) : ℤ := delta (p.first &&& 0x10) p.second
def dy (p : MousePacket) : ℤ := delta (p.first &&& 0x20) p.third

end MousePacket

def MouseState.advance (s : MouseState) (p : MousePacket) : MouseState where
  x := max 0 (min (s.x + p.dx.tdiv 8) 79)
  y := max 0 (min (s.y - p.dy.tdiv 8) 24)
  buttons := p.first &&& 0x07

/-- Whenever the mouse sends the packets, whatever else arrives in between,
the pointer is where they lead from its first position. -/
def PointerFollows (ps : List MousePacket) : Prop :=
  ∀ v polls, mouseBytes polls = ps.flatMap MousePacket.bytes →
    (polls.foldl mouseHandler (Mouse.initial, v)).1.state =
      ps.foldl MouseState.advance Mouse.initial.state

/-- Bit 7 of the byte is the sign, or the byte counts for less than a cell
and the coordinate `z` is at the border `low` or `high` that a negative or a
positive movement goes to. -/
def AxisFollows (sign b : UInt8) (z low high : ℤ) : Prop :=
  (sign ≠ 0 ↔ 128 ≤ b.toNat) ∨
    (eighth b = 0 ∧ z = if sign = 0 then high else low)

def MousePacket.Followed (s : MouseState) (p : MousePacket) : Prop :=
  AxisFollows (p.first &&& 0x10) p.second s.x 0 79 ∧
    AxisFollows (p.first &&& 0x20) p.third s.y 24 0

variable {v₀ : Memory} {s : Mouse × Vga} {held : List UInt8} {b sign : UInt8}

/-! ## The handler as a fold over packets -/

theorem Marked.foldl {start : MouseState} (polls : List Poll)
    (h : Marked v₀ start s held) :
    (polls.foldl mouseHandler s).1.state =
      (packets (held ++ mouseBytes polls)).foldl MouseState.follow
        s.1.state := by
  induction polls generalizing s held with
  | nil =>
      rw [show mouseBytes [] = [] from rfl, List.append_nil,
        h.holds.packets_nil]
      rfl
  | cons p polls ih =>
      obtain ⟨held', hnext, ⟨hstate, hpackets⟩ | ⟨q, hstate, hpackets⟩⟩ :=
        h.call p
      · rw [hpackets, List.foldl_cons, ih hnext, hstate]
      · rw [hpackets, List.foldl_cons, List.foldl_cons, ih hnext, hstate]

def MousePacket.triple (p : MousePacket) : UInt8 × UInt8 × UInt8 :=
  (p.first, p.second, p.third)

theorem packets_bytes (ps : List MousePacket) :
    packets (ps.flatMap MousePacket.bytes) = ps.map MousePacket.triple := by
  induction ps with
  | nil => rfl
  | cons p ps ih =>
      have hsplit : (p :: ps).flatMap MousePacket.bytes =
          p.first :: p.second :: p.third ::
            ps.flatMap MousePacket.bytes := rfl
      rw [hsplit, packets_packet p.framed, ih]
      rfl

theorem mouseBytes_ready (bytes : List UInt8) :
    mouseBytes (bytes.map fun b => ⟨0x21, b⟩) = bytes := by
  induction bytes with
  | nil => rfl
  | cons b bytes ih =>
      have hready : ¬ ((0x21 : UInt8) &&& 1 = 0 ∨
          (0x21 : UInt8) &&& 0x20 = 0) := by
        decide
      rw [List.map_cons, mouseBytes_cons, if_neg hready, ih]

theorem pointerFollows_iff (ps : List MousePacket) :
    PointerFollows ps ↔
      ps.foldl (fun s p => s.follow p.triple) Mouse.initial.state =
        ps.foldl MouseState.advance Mouse.initial.state := by
  have hrun : ∀ v polls, mouseBytes polls = ps.flatMap MousePacket.bytes →
      (polls.foldl mouseHandler (Mouse.initial, v)).1.state =
        ps.foldl (fun s p => s.follow p.triple) Mouse.initial.state := by
    intro v polls hbytes
    rw [(Marked.initial v).foldl polls, List.nil_append, hbytes,
      packets_bytes, List.foldl_map]
  constructor
  · intro hall
    rw [← hall ⟨fun _ => 0, 0, 0⟩ _ (mouseBytes_ready _), hrun]
    exact mouseBytes_ready _
  · intro heq v polls hbytes
    rw [hrun v polls hbytes, heq]

/-! ## One packet -/

theorem eighth_eq (b : UInt8) :
    eighth b = (if b.toNat < 128 then (b.toNat : ℤ)
      else b.toNat - 256).tdiv 8 := by
  have hbyte : b.toInt8.toInt =
      if b.toNat < 128 then (b.toNat : ℤ) else b.toNat - 256 := by
    have hcond := BitVec.toInt_eq_toNat_cond b.toBitVec
    have hvalue : b.toInt8.toInt = b.toBitVec.toInt := rfl
    have hnat : b.toBitVec.toNat = b.toNat := rfl
    rw [hvalue, hcond, hnat]
    split <;> split <;> omega
  rw [eighth, hbyte]

theorem delta_of_agree (h : sign ≠ 0 ↔ 128 ≤ b.toNat) :
    (MousePacket.delta sign b).tdiv 8 = eighth b := by
  rw [eighth_eq, MousePacket.delta]
  by_cases hsign : sign = 0
  · have hlow : b.toNat < 128 := by
      by_contra hhigh
      exact h.mpr (Nat.not_lt.mp hhigh) hsign
    rw [if_pos hsign, if_pos hlow, Int.sub_zero]
  · have hhigh : ¬ b.toNat < 128 := Nat.not_lt.mpr (h.mp hsign)
    rw [if_neg hsign, if_neg hhigh]

theorem tdiv_of_nonpos {z k : ℤ} (hz : z ≤ 0) : z.tdiv k = -(-z / k) := by
  rw [← Int.tdiv_eq_ediv_of_nonneg (Int.neg_nonneg.mpr hz), Int.neg_tdiv,
    Int.neg_neg]

/-- Where the signs disagree the packet and its byte move in opposite
directions. -/
theorem delta_of_disagree (h : ¬ (sign ≠ 0 ↔ 128 ≤ b.toNat)) :
    if sign = 0 then 0 < (MousePacket.delta sign b).tdiv 8 ∧ eighth b ≤ 0
    else (MousePacket.delta sign b).tdiv 8 < 0 ∧ 0 ≤ eighth b := by
  have hbyte := b.toNat_lt
  rw [eighth_eq, MousePacket.delta]
  by_cases hsign : sign = 0
  · have hhigh : ¬ b.toNat < 128 := by
      intro hlow
      exact h (iff_of_false (not_not.mpr hsign) (Nat.not_le.mpr hlow))
    rw [if_pos hsign, if_pos hsign, if_neg hhigh,
      Int.tdiv_eq_ediv_of_nonneg (by omega), tdiv_of_nonpos (by omega)]
    omega
  · have hlow : b.toNat < 128 := by
      by_contra hhigh
      exact h (iff_of_true hsign (Nat.not_lt.mp hhigh))
    rw [if_neg hsign, if_neg hsign, if_pos hlow,
      tdiv_of_nonpos (by omega), Int.tdiv_eq_ediv_of_nonneg (by omega)]
    omega

variable {z u w top : ℤ}

theorem clamp_eq (htop : 0 ≤ top) :
    clamp z (top + 1) = max 0 (min z top) := by
  simp only [clamp]
  split <;> split <;> omega

theorem clamp_up (hz : 0 ≤ z ∧ z ≤ top) (htop : 0 < top) (hu : 0 < u)
    (hw : w ≤ 0) :
    max 0 (min (z + w) top) = max 0 (min (z + u) top) ↔
      w = 0 ∧ z = top := by
  omega

theorem clamp_down (hz : 0 ≤ z ∧ z ≤ top) (htop : 0 < top) (hu : u < 0)
    (hw : 0 ≤ w) :
    max 0 (min (z + w) top) = max 0 (min (z + u) top) ↔
      w = 0 ∧ z = 0 := by
  omega

/-- A coordinate that the movement is added to. -/
theorem axisFollows_add (sign b : UInt8) (hz : 0 ≤ z ∧ z ≤ top)
    (htop : 0 < top) :
    clamp (z + eighth b) (top + 1) =
        max 0 (min (z + (MousePacket.delta sign b).tdiv 8) top) ↔
      AxisFollows sign b z 0 top := by
  rw [clamp_eq htop.le, AxisFollows]
  by_cases hagree : sign ≠ 0 ↔ 128 ≤ b.toNat
  · rw [delta_of_agree hagree]
    exact iff_of_true rfl (Or.inl hagree)
  · have hsigns := delta_of_disagree hagree
    rw [or_iff_right hagree]
    by_cases hsign : sign = 0
    · rw [if_pos hsign] at hsigns ⊢
      exact clamp_up hz htop hsigns.1 hsigns.2
    · rw [if_neg hsign] at hsigns ⊢
      exact clamp_down hz htop hsigns.1 hsigns.2

/-- A coordinate that the movement is subtracted from: counted from the other
border, it is one that the movement is added to. -/
theorem axisFollows_sub (sign b : UInt8) (hz : 0 ≤ z ∧ z ≤ top)
    (htop : 0 < top) :
    clamp (z - eighth b) (top + 1) =
        max 0 (min (z - (MousePacket.delta sign b).tdiv 8) top) ↔
      AxisFollows sign b z top 0 := by
  have hadd := axisFollows_add sign b
    (show 0 ≤ top - z ∧ top - z ≤ top by omega) htop
  have hmirror : AxisFollows sign b (top - z) 0 top ↔
      AxisFollows sign b z top 0 := by
    unfold AxisFollows
    refine or_congr_right (and_congr_right fun _ => ?_)
    by_cases hsign : sign = 0
    · rw [if_pos hsign, if_pos hsign]
      omega
    · rw [if_neg hsign, if_neg hsign]
      omega
  rw [← hmirror, ← hadd, clamp_eq htop.le, clamp_eq htop.le]
  omega

theorem MousePacket.followed_iff {s : MouseState} (hs : s.OnPage)
    (p : MousePacket) : s.follow p.triple = s.advance p ↔ p.Followed s := by
  have hx := hs.x
  have hy := hs.y
  have hfollowX := axisFollows_add (p.first &&& 0x10) p.second
    (show 0 ≤ s.x ∧ s.x ≤ 79 by omega) (by decide)
  have hfollowY := axisFollows_sub (p.first &&& 0x20) p.third
    (show 0 ≤ s.y ∧ s.y ≤ 24 by omega) (by decide)
  rw [MousePacket.Followed, ← hfollowX, ← hfollowY]
  simp only [MouseState.follow, MouseState.advance, MousePacket.triple,
    MousePacket.dx, MousePacket.dy, MouseState.mk.injEq]
  simp

theorem MouseState.OnPage.advance {s : MouseState} (p : MousePacket) :
    (s.advance p).OnPage := by
  constructor
  · simp only [MouseState.advance]
    omega
  · simp only [MouseState.advance]
    omega

/-- The pointer follows the packets, after each of them, exactly if each of
them is followed from where the packets before it lead. -/
theorem pointer_follows_iff (ps : List MousePacket) :
    (∀ qs, qs <+: ps → PointerFollows qs) ↔
      ∀ qs p, qs ++ [p] <+: ps →
        p.Followed (qs.foldl MouseState.advance Mouse.initial.state) := by
  have honPage : ∀ qs : List MousePacket,
      (qs.foldl MouseState.advance Mouse.initial.state).OnPage :=
    foldl_keeps (fun _ p _ => MouseState.OnPage.advance p) initial_onPage
  simp only [pointerFollows_iff, ← MousePacket.followed_iff (honPage _)]
  exact foldl_prefixes_iff

/-- The packet `08 80 00` moves the pointer sixteen cells to the left. -/
theorem pointer_goes_back :
    ¬ ∀ ps : List MousePacket, PointerFollows ps := by
  intro hall
  have h := (pointerFollows_iff _).mp
    (hall [⟨0x08, 0x80, 0x00, by decide, by decide⟩])
  exact absurd (congrArg MouseState.x h) (by decide)

end Otsos
