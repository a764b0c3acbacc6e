import Otsos.Lib.LinkedSegment
import Otsos.Lib.Tiling
import Otsos.Heap.Allocator

/-!
# Block lists in memory

The headers in memory represent a list of blocks.  Every edit the allocator
makes exchanges one or two consecutive blocks for others that start at the
same address, writing only inside headers of the old or the new list.
-/

namespace Otsos

open Lib

/-- The header of `b`, apart from its links. -/
structure HoldsBlock (m : Memory) (b : Block) : Prop where
  magic : magicField m b.addr = heapMagic
  flag : isFreeField m b.addr = if b.free then 1 else 0
  size : sizeField m b.addr = b.size

/-- The headers of `m` represent the blocks `bs`: following `next` from the
first one visits them in order, and `prev` is its inverse. -/
structure Represents (m : Memory) (bs : List Block) : Prop where
  links : Linked (nextField m) (prevField m) 0 (bs.map Block.addr) 0
  holds : ∀ b ∈ bs, HoldsBlock m b

/-- The bytes of the headers of `bs`. -/
def InHeader (bs : List Block) (x : ℕ) : Prop :=
  ∃ b ∈ bs, b.addr ≤ x ∧ x < b.addr + sizeofHeader

/-- All five fields of the header at `a` agree. -/
structure SameHeader (m m' : Memory) (a : ℕ) : Prop where
  magic : magicField m' a = magicField m a
  flag : isFreeField m' a = isFreeField m a
  size : sizeField m' a = sizeField m a
  next : nextField m' a = nextField m a
  prev : prevField m' a = prevField m a

theorem SameHeader.of_bytes {m m' : Memory} {a : ℕ}
    (hbytes : ∀ x, a ≤ x → x < a + sizeofHeader → m' x = m x) :
    SameHeader m m' a := by
  have hfield : ∀ off k, off + k ≤ 32 →
      m'.load (a + off) k = m.load (a + off) k := by
    intro off k hoff
    apply Memory.load_congr
    intro i hi
    exact hbytes _ (by omega) (by simp only [sizeofHeader]; omega)
  exact ⟨hfield 0 4 (by omega), hfield 4 4 (by omega),
    hfield 8 8 (by omega), hfield 16 8 (by omega), hfield 24 8 (by omega)⟩

theorem HoldsBlock.of_same {m m' : Memory} {b : Block}
    (h : HoldsBlock m b) (hsame : SameHeader m m' b.addr) :
    HoldsBlock m' b :=
  ⟨hsame.magic.trans h.magic, hsame.flag.trans h.flag,
    hsame.size.trans h.size⟩

/-- Exchange `b :: mid` for `c :: mid'` in the represented list. -/
theorem Represents.exchange {m m' : Memory} {xs mid mid' ys : List Block}
    {b c : Block}
    (h : Represents m (xs ++ (b :: mid) ++ ys))
    (haddr : c.addr = b.addr)
    (hleft : ∀ x ∈ xs, SameHeader m m' x.addr)
    (hlinks : Linked (nextField m') (prevField m')
      (lastFrom 0 (xs.map Block.addr)) ((c :: mid').map Block.addr)
      ((ys.map Block.addr).headD 0))
    (hmid : ∀ d ∈ c :: mid', HoldsBlock m' d)
    (hhead : ∀ y ∈ ys.head?, HoldsBlock m' y ∧
      nextField m' y.addr = nextField m y.addr ∧
      prevField m' y.addr = lastFrom c.addr (mid'.map Block.addr))
    (htail : ∀ y ∈ ys.tail, SameHeader m m' y.addr) :
    Represents m' (xs ++ (c :: mid') ++ ys) := by
  refine ⟨?_, ?_⟩
  · have hold := h.links
    simp only [List.map_append, List.map_cons] at hold hlinks ⊢
    rw [haddr] at hlinks ⊢
    refine hold.exchange ?_ hlinks ?_ ?_
    · intro x hx
      obtain ⟨y, hy, rfl⟩ := List.mem_map.mp hx
      exact ⟨(hleft y hy).next, (hleft y hy).prev⟩
    · intro x hx
      cases ys with
      | nil => simp at hx
      | cons y ys =>
          have hxy : y.addr = x := by simpa using hx
          obtain ⟨-, hnext, hprev⟩ := hhead y (by simp)
          rw [← hxy, ← haddr]
          exact ⟨hnext, hprev⟩
    · intro x hx
      rw [← List.map_tail] at hx
      obtain ⟨y, hy, rfl⟩ := List.mem_map.mp hx
      exact ⟨(htail y hy).next, (htail y hy).prev⟩
  · intro d hd
    simp only [List.append_assoc, List.mem_append] at hd
    rcases hd with hd | hd | hd
    · exact (h.holds d (by simp [hd])).of_same (hleft d hd)
    · exact hmid d hd
    · cases ys with
      | nil => simp at hd
      | cons y ys =>
          rcases List.mem_cons.mp hd with rfl | hd
          · exact (hhead d (by simp)).1
          · exact (h.holds d (by simp [hd])).of_same (htail d hd)

/-! ## The surroundings of a block -/

section Surroundings

variable {m : Memory} {xs ys : List Block} {b : Block}

theorem Represents.links_at (h : Represents m (xs ++ b :: ys)) :
    prevField m b.addr = lastFrom 0 (xs.map Block.addr) ∧
      nextField m b.addr = (ys.map Block.addr).headD 0 := by
  have hlinks := h.links
  rw [List.map_append, List.map_cons, linked_append] at hlinks
  exact ⟨hlinks.2.1, hlinks.2.2.1⟩

theorem Represents.holds_at (h : Represents m (xs ++ b :: ys)) :
    HoldsBlock m b :=
  h.holds b (by simp)

/-- The back link of the first block of `ys`. -/
def BackLink (ys : List Block) (x : ℕ) : Prop :=
  ∃ q ∈ ys.head?, q.addr + 24 ≤ x ∧ x < q.addr + 32

theorem BackLink.inHeader {x : ℕ} (h : BackLink ys x) : InHeader ys x := by
  obtain ⟨q, hq, hlow, hhigh⟩ := h
  refine ⟨q, List.mem_of_mem_head? hq, by omega, ?_⟩
  simp only [sizeofHeader]
  omega

end Surroundings

/-- Exchange `b :: mid` for `c :: mid'` by writes between the start of `b` and
the start of the following block, and to the back link of that block. -/
theorem Represents.edit {m m' : Memory} {lo hi : ℕ}
    {xs ys : List Block} {b c : Block} {P : ℕ → Prop}
    (mid mid' : List Block) (h : Represents m (xs ++ (b :: mid) ++ ys))
    (htiles : Tiles 32 lo hi (xs ++ (b :: mid) ++ ys))
    (hframe : Memory.FrameOutside P m m')
    (hfoot : ∀ x, P x →
      (b.addr ≤ x ∧ ∀ y ∈ ys, x < y.addr) ∨ BackLink ys x)
    (haddr : c.addr = b.addr)
    (hlinks : Linked (nextField m') (prevField m')
      (lastFrom 0 (xs.map Block.addr)) ((c :: mid').map Block.addr)
      ((ys.map Block.addr).headD 0))
    (hmid : ∀ d ∈ c :: mid', HoldsBlock m' d)
    (hback : ∀ q ∈ ys.head?,
      prevField m' q.addr = lastFrom c.addr (mid'.map Block.addr)) :
    Represents m' (xs ++ (c :: mid') ++ ys) := by
  have htiles' : Tiles 32 lo hi (xs ++ b :: (mid ++ ys)) := by
    simpa using htiles
  -- bytes outside the footprint, by position in the list
  have hbytes : ∀ x, (∃ y ∈ ys, y.addr ≤ x) ∨ x < b.addr →
      ¬ BackLink ys x → m' x = m x := by
    intro x hx hnoback
    apply hframe
    intro hP
    rcases hfoot x hP with ⟨hlow, hhigh⟩ | hback
    · rcases hx with ⟨y, hy, hyx⟩ | hx
      · have := hhigh y hy
        omega
      · omega
    · exact hnoback hback
  refine h.exchange haddr ?_ hlinks hmid ?_ ?_
  · intro x hx
    apply SameHeader.of_bytes
    intro z hlow hhigh
    have hbefore := htiles'.before x hx
    simp only [sizeofHeader] at hhigh
    refine hbytes z (Or.inr (by omega)) ?_
    rintro ⟨q, hq, hqlow, -⟩
    have := htiles'.after q
      (List.mem_append_right mid (List.mem_of_mem_head? hq))
    omega
  · intro q hq
    have hmem := List.mem_of_mem_head? hq
    cases ys with
    | nil => simp at hmem
    | cons y ys =>
        have hyq : y = q := by simpa using hq
        subst hyq
        have hfield : ∀ off k, off + k ≤ 24 →
            m'.load (y.addr + off) k = m.load (y.addr + off) k := by
          intro off k hoff
          apply Memory.load_congr
          intro i hi
          refine hbytes _ (Or.inl ⟨y, by simp, by omega⟩) ?_
          rintro ⟨q, hq, hqlow, -⟩
          have hyq : y = q := by simpa using hq
          subst hyq
          omega
        have hheld := h.holds y (by simp)
        refine ⟨⟨?_, ?_, ?_⟩, hfield 16 8 (by omega), hback y (by simp)⟩
        · exact (hfield 0 4 (by omega)).trans hheld.magic
        · exact (hfield 4 4 (by omega)).trans hheld.flag
        · exact (hfield 8 8 (by omega)).trans hheld.size
  · intro y hy
    cases ys with
    | nil => simp at hy
    | cons q ys =>
        apply SameHeader.of_bytes
        intro z hlow hhigh
        refine hbytes z (Or.inl ⟨y, List.mem_of_mem_tail hy, hlow⟩) ?_
        rintro ⟨q', hq', -, hqhigh⟩
        have hqq : q = q' := by simpa using hq'
        subst hqq
        have htail : Tiles 32 lo hi ((xs ++ (b :: mid)) ++ q :: ys) := by
          simpa using htiles
        have := htail.after y (by simpa using hy)
        omega

end Otsos
