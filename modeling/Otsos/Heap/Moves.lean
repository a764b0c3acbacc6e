import Otsos.Heap.BlockList
import Otsos.Heap.Edits

/-!
# Memory follows the block list

The functions of `memory.c`, run on a memory that represents a well-formed
block list, leave a memory that represents the list after the corresponding
move, and write only inside headers.
-/

namespace Otsos

open Lib

variable {m : Memory} {lo hi n : ℕ} {xs ys bs : List Block} {b : Block}

theorem InHeader.mono {cs : List Block} {x : ℕ}
    (hsub : ∀ b ∈ bs, ∃ c ∈ cs, c.addr = b.addr) (h : InHeader bs x) :
    InHeader cs x := by
  obtain ⟨b, hb, hx⟩ := h
  obtain ⟨c, hc, haddr⟩ := hsub b hb
  exact ⟨c, hc, by rw [haddr]; exact hx⟩

theorem InHeader.of_subset {cs : List Block} {x : ℕ}
    (hsub : ∀ b ∈ bs, b ∈ cs) (h : InHeader bs x) : InHeader cs x :=
  h.mono fun b hb => ⟨b, hsub b hb, rfl⟩

/-- The bytes of the headers of `bs` behind the magic number and the flag. -/
def InLinks (bs : List Block) (x : ℕ) : Prop :=
  ∃ b ∈ bs, b.addr + 8 ≤ x ∧ x < b.addr + sizeofHeader

theorem InLinks.inHeader {x : ℕ} (h : InLinks bs x) : InHeader bs x := by
  obtain ⟨b, hb, hlow, hhigh⟩ := h
  exact ⟨b, hb, by omega, hhigh⟩

theorem InLinks.mono {cs : List Block} {x : ℕ}
    (hsub : ∀ b ∈ bs, ∃ c ∈ cs, c.addr = b.addr) (h : InLinks bs x) :
    InLinks cs x := by
  obtain ⟨b, hb, hx⟩ := h
  obtain ⟨c, hc, haddr⟩ := hsub b hb
  exact ⟨c, hc, by rw [haddr]; exact hx⟩

theorem InLinks.of_subset {cs : List Block} {x : ℕ}
    (hsub : ∀ b ∈ bs, b ∈ cs) (h : InLinks bs x) : InLinks cs x :=
  h.mono fun b hb => ⟨b, hsub b hb, rfl⟩

theorem backLink_inLinks {x : ℕ} (h : BackLink ys x) : InLinks ys x := by
  obtain ⟨q, hq, hlow, hhigh⟩ := h
  exact ⟨q, List.mem_of_mem_head? hq, by omega, hhigh⟩

theorem follow_bounds (htiles : Tiles 32 lo hi (xs ++ b :: ys))
    (hhi : hi < 2 ^ 62) :
    followAddr ys < 2 ^ 63 ∧
      (followAddr ys ≠ 0 → b.addr + 32 + b.size ≤ followAddr ys) := by
  cases ys with
  | nil => simp [followAddr]
  | cons y ys =>
      have hy := htiles.after y (by simp)
      have hbound := (htiles.bounds (b := y) (by simp)).2
      simp only [followAddr, List.map_cons, List.headD_cons]
      omega

/-! ## Splitting -/

theorem splitBlock_represents (hlo : 0 < lo) (hhi : hi < 2 ^ 62)
    (htiles : Tiles 32 lo hi (xs ++ b :: ys))
    (hrep : Represents m (xs ++ b :: ys)) (hn : n < 2 ^ 62) :
    Represents (splitBlock m b.addr n) (xs ++ (cut b n ++ ys)) ∧
      Memory.FrameOutside (InHeader (cut b n ++ ys)) m
        (splitBlock m b.addr n) := by
  have hheld := hrep.holds_at
  have hbound := (htiles.bounds (b := b) (by simp)).2
  by_cases hsplit : n + 48 ≤ b.size
  · obtain ⟨hfollow, hafter⟩ := follow_bounds htiles hhi
    have hcut : CutWrites m (splitBlock m b.addr n) b.addr n
        (b.size - n - 32) (followAddr ys) := by
      apply splitBlock_cutWrites (by omega) (by omega) hfollow
        (hheld.size.trans (by omega)) hrep.links_at.2
      intro hne
      have := hafter hne
      omega
    have hpieces : cut b n = [⟨b.addr, n, b.free⟩,
        ⟨b.addr + 32 + n, b.size - n - 32, true⟩] := by
      simp only [cut, cutSize, cutRest, hsplit, if_true]
    rw [hpieces]
    exact hcut.represents hlo htiles hrep (by omega)
  · have hsame : splitBlock m b.addr n = m :=
      splitBlock_of_small (by omega) (by rw [hheld.size]; omega)
    have hpieces : cut b n = [b] := by
      simp only [cut, cutSize, cutRest, hsplit, if_false]
    rw [hsame, hpieces]
    exact ⟨hrep, Memory.FrameOutside.refl _ m⟩

/-- The writes by which `kmalloc` and `kmalloc_aligned` hand out a block. -/
def place (m : Memory) (a n : ℕ) : Memory :=
  setIsFree (splitBlock m a n) a 0

theorem place_represents (hlo : 0 < lo) (hhi : hi < 2 ^ 62)
    (htiles : Tiles 32 lo hi (xs ++ b :: ys))
    (hrep : Represents m (xs ++ b :: ys)) (hn : n < 2 ^ 62) :
    Represents (place m b.addr n) (xs ++ (carve b n ++ ys)) ∧
      Memory.FrameOutside (InHeader (carve b n ++ ys)) m
        (place m b.addr n) := by
  obtain ⟨hsplit, hframe⟩ := splitBlock_represents hlo hhi htiles hrep hn
  obtain ⟨hset, hset'⟩ := setIsFree_represents (f := false) (v := 0)
    (tiles_cut htiles) hsplit rfl
  refine ⟨hset, (hframe.mono ?_).trans (hset'.mono ?_)⟩
  · intro x hx
    refine hx.mono ?_
    intro c hc
    rcases List.mem_cons.mp hc with rfl | hc
    · exact ⟨⟨b.addr, cutSize b n, false⟩, by simp [carve], rfl⟩
    · exact ⟨c, List.mem_cons_of_mem _ hc, rfl⟩
  · intro x hx
    refine hx.mono ?_
    intro c hc
    rw [List.mem_singleton.mp hc]
    exact ⟨⟨b.addr, cutSize b n, false⟩, by simp [carve], rfl⟩

/-! ## Joining -/

theorem absorb_represents {c : Block} {via : ℕ} (hlo : 0 < lo)
    (hhi : hi < 2 ^ 62) (htiles : Tiles 32 lo hi (xs ++ b :: c :: ys))
    (hrep : Represents m (xs ++ b :: c :: ys))
    (hvia : via = b.addr ∨ via = c.addr) :
    Represents (absorb m b.addr c.addr via)
        (xs ++ ⟨b.addr, b.size + 32 + c.size, b.free⟩ :: ys) ∧
      Memory.FrameOutside (InLinks (b :: ys)) m
        (absorb m b.addr c.addr via) := by
  have hrep' : Represents m ((xs ++ [b]) ++ c :: ys) := by simpa using hrep
  have htiles' : Tiles 32 lo hi ((xs ++ [b]) ++ c :: ys) := by
    simpa using htiles
  have hbound := (htiles'.bounds (b := c) (by simp)).2
  obtain ⟨hfollow, hafter⟩ := follow_bounds htiles' hhi
  have hjoin : JoinWrites m (absorb m b.addr c.addr via) b.addr
      (b.size + 32 + c.size) (followAddr ys) :=
    absorb_joinWrites htiles.next_addr (by omega) hfollow hrep.holds_at.size
      hrep'.holds_at.size hrep'.links_at.2 hafter hvia
  refine ⟨hjoin.represents hlo htiles hrep, (absorb_frame htiles.next_addr
    (by omega) hfollow hrep.holds_at.size hrep'.holds_at.size
    hrep'.links_at.2 hvia).mono ?_⟩
  rintro x (hx | hx)
  · exact ⟨b, List.mem_cons_self, hx⟩
  · exact (backLink_inLinks (backLink_of_follow hx)).of_subset
      fun d hd => List.mem_cons_of_mem b hd

/-- The first half of `coalesce`. -/
def coalesceNext (m : Memory) (block : ℕ) : Memory :=
  if nextField m block ≠ 0 ∧ isFreeField m (nextField m block) ≠ 0 ∧
      magicField m (nextField m block) = heapMagic then
    absorb m block (nextField m block) block
  else m

/-- The second half of `coalesce`. -/
def coalescePrev (m : Memory) (block : ℕ) : Memory × ℕ :=
  if prevField m block ≠ 0 ∧ isFreeField m (prevField m block) ≠ 0 ∧
      magicField m (prevField m block) = heapMagic then
    (absorb m (prevField m block) block block, prevField m block)
  else (m, block)

theorem coalesce_eq {block : ℕ} (hne : block ≠ 0)
    (hfree : isFreeField m block ≠ 0) :
    coalesce m block = coalescePrev (coalesceNext m block) block := by
  unfold coalesce
  rw [if_neg (not_or.mpr ⟨hne, hfree⟩)]
  rfl

theorem HoldsBlock.isFree_ne_zero_iff (h : HoldsBlock m b) :
    isFreeField m b.addr ≠ 0 ↔ b.free = true := by
  rw [h.flag]
  cases b.free <;> simp

theorem coalesceNext_represents (hlo : 0 < lo) (hhi : hi < 2 ^ 62)
    (htiles : Tiles 32 lo hi (xs ++ b :: ys))
    (hrep : Represents m (xs ++ b :: ys)) (hfree : b.free = true) :
    Represents (coalesceNext m b.addr)
        (xs ++ (joinNext b ys).1 :: (joinNext b ys).2) ∧
      Memory.FrameOutside (InLinks (b :: ys)) m
        (coalesceNext m b.addr) := by
  have hb : (⟨b.addr, b.size, true⟩ : Block) = b := by
    rw [← hfree]
  have hnext := hrep.links_at.2
  cases ys with
  | nil =>
      have hsame : coalesceNext m b.addr = m := by
        unfold coalesceNext
        rw [if_neg]
        simp [hnext]
      rw [hsame]
      simp only [joinNext, hb]
      exact ⟨hrep, Memory.FrameOutside.refl _ m⟩
  | cons c ys =>
      have hrep' : Represents m ((xs ++ [b]) ++ c :: ys) := by
        simpa using hrep
      have hnext' : nextField m b.addr = c.addr := by simpa using hnext
      have hheld := hrep'.holds_at
      have hlow := (htiles.bounds (b := c) (by simp)).1
      by_cases hc : c.free = true
      · have hjoin : coalesceNext m b.addr =
            absorb m b.addr c.addr b.addr := by
          unfold coalesceNext
          rw [hnext', if_pos]
          exact ⟨by omega, hheld.isFree_ne_zero_iff.mpr hc, hheld.magic⟩
        rw [hjoin]
        simp only [joinNext, hc, if_true]
        rw [← hfree]
        obtain ⟨habsorb, hframe⟩ :=
          absorb_represents hlo hhi htiles hrep (Or.inl rfl)
        refine ⟨habsorb, hframe.mono fun x hx => hx.of_subset ?_⟩
        intro d hd
        rcases List.mem_cons.mp hd with rfl | hd
        · exact List.mem_cons_self
        · exact List.mem_cons_of_mem b (List.mem_cons_of_mem c hd)
      · have hsame : coalesceNext m b.addr = m := by
          unfold coalesceNext
          rw [hnext', if_neg]
          rintro ⟨-, hfield, -⟩
          exact hc (hheld.isFree_ne_zero_iff.mp hfield)
        rw [hsame]
        simp only [joinNext, hc, hb, Bool.false_eq_true, if_false]
        exact ⟨hrep, Memory.FrameOutside.refl _ m⟩

theorem coalescePrev_represents (hlo : 0 < lo) (hhi : hi < 2 ^ 62)
    (htiles : Tiles 32 lo hi (xs ++ b :: ys))
    (hrep : Represents m (xs ++ b :: ys)) :
    Represents (coalescePrev m b.addr).1
        ((joinPrev xs b).1 ++ (joinPrev xs b).2 :: ys) ∧
      Memory.FrameOutside (InLinks (xs ++ b :: ys)) m
        (coalescePrev m b.addr).1 := by
  have hprev := hrep.links_at.1
  rcases List.eq_nil_or_concat xs with rfl | ⟨ws, p, rfl⟩
  · have hsame : coalescePrev m b.addr = (m, b.addr) := by
      unfold coalescePrev
      rw [if_neg]
      simp [hprev]
    rw [hsame, joinPrev_nil]
    exact ⟨hrep, Memory.FrameOutside.refl _ m⟩
  · simp only [List.concat_eq_append] at hprev htiles hrep ⊢
    have hprev' : prevField m b.addr = p.addr := by simpa using hprev
    have hrep' : Represents m (ws ++ p :: b :: ys) := by simpa using hrep
    have htiles' : Tiles 32 lo hi (ws ++ p :: b :: ys) := by
      simpa using htiles
    have hheld := hrep'.holds_at
    have hlow := (htiles'.bounds (b := p) (by simp)).1
    rw [joinPrev_concat]
    by_cases hp : p.free = true
    · have hjoin : coalescePrev m b.addr =
          (absorb m p.addr b.addr b.addr, p.addr) := by
        unfold coalescePrev
        rw [hprev', if_pos]
        exact ⟨by omega, hheld.isFree_ne_zero_iff.mpr hp, hheld.magic⟩
      rw [hjoin]
      simp only [hp, if_true]
      obtain ⟨habsorb, hframe⟩ :=
        absorb_represents hlo hhi htiles' hrep' (Or.inr rfl)
      rw [hp] at habsorb
      refine ⟨habsorb, hframe.mono fun x hx => hx.of_subset ?_⟩
      intro d hd
      rcases List.mem_cons.mp hd with rfl | hd
      · exact List.mem_append_left _ (by simp)
      · exact List.mem_append_right _ (List.mem_cons_of_mem b hd)
    · have hsame : coalescePrev m b.addr = (m, b.addr) := by
        unfold coalescePrev
        rw [hprev', if_neg]
        rintro ⟨-, hfield, -⟩
        exact hp (hheld.isFree_ne_zero_iff.mp hfield)
      rw [hsame]
      simp only [hp, Bool.false_eq_true, if_false]
      exact ⟨hrep, Memory.FrameOutside.refl _ m⟩

end Otsos
