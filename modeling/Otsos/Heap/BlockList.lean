import Otsos.Lib.Tiling

/-!
# The allocator on block lists

What the allocator does to the list of blocks, apart from how the list is held
in memory.  A request carves the used part off the front of a block; a release
turns a block free and joins it with free neighbours.  Both keep a list
well-formed, and both are described by their effect on the used blocks, which
determine the whole list.
-/

namespace Otsos

open Lib

/-- Headers of 32 bytes, sizes in multiples of 16, no two free neighbours. -/
structure WellFormedBlocks (lo hi : ℕ) (bs : List Block) : Prop where
  tiles : Tiles 32 lo hi bs
  sizes : ∀ b ∈ bs, 16 ∣ b.size ∧ 16 ≤ b.size
  coalesced : Coalesced bs

variable {lo hi n : ℕ} {xs ys : List Block} {b : Block}

/-! ## Carving -/

/-- The size left to `b` when it is cut after `n` bytes: a rest too small for a
header and 16 bytes is not split off. -/
def cutSize (b : Block) (n : ℕ) : ℕ :=
  if n + 48 ≤ b.size then n else b.size

/-- The free block split off, if any. -/
def cutRest (b : Block) (n : ℕ) : List Block :=
  if n + 48 ≤ b.size then
    [⟨b.addr + 32 + n, b.size - n - 32, true⟩]
  else []

/-- Cut `b` after `n` bytes. -/
def cut (b : Block) (n : ℕ) : List Block :=
  ⟨b.addr, cutSize b n, b.free⟩ :: cutRest b n

/-- Put the first `n` bytes of `b` to use. -/
def carve (b : Block) (n : ℕ) : List Block :=
  ⟨b.addr, cutSize b n, false⟩ :: cutRest b n

theorem cutSize_ge (hn : n ≤ b.size) : n ≤ cutSize b n := by
  unfold cutSize
  split <;> omega

theorem cutRest_free : ∀ d ∈ cutRest b n, d.free = true := by
  intro d hd
  unfold cutRest at hd
  split at hd
  · rw [List.mem_singleton.mp hd]
  · simp at hd

theorem mem_carve_of_used {d : Block} (hd : d.free = false) :
    d ∈ carve b n ↔ d = ⟨b.addr, cutSize b n, false⟩ := by
  have hrest : d ∉ cutRest b n := by
    intro hmem
    simp [cutRest_free d hmem] at hd
  simp [carve, hrest]

theorem tiles_cut (h : Tiles 32 lo hi (xs ++ b :: ys)) :
    Tiles 32 lo hi (xs ++ (cut b n ++ ys)) := by
  unfold cut cutSize cutRest
  split
  next hsplit =>
    have hb : b = ⟨b.addr, n + 32 + (b.size - n - 32), b.free⟩ := by
      cases b
      simp only [Block.mk.injEq, and_true, true_and]
      simp only at hsplit
      omega
    rw [hb] at h
    exact tiles_cut_iff.mpr h
  next => exact h

theorem tiles_carve (h : Tiles 32 lo hi (xs ++ b :: ys)) :
    Tiles 32 lo hi (xs ++ (carve b n ++ ys)) :=
  tiles_flag_iff.mpr (tiles_cut h)

theorem carve_sizes (hb : 16 ∣ b.size ∧ 16 ≤ b.size)
    (hn : 16 ∣ n ∧ 16 ≤ n) :
    ∀ d ∈ carve b n, 16 ∣ d.size ∧ 16 ≤ d.size := by
  intro d hd
  rcases List.mem_cons.mp hd with rfl | hd
  · unfold cutSize
    split
    · exact hn
    · exact hb
  · unfold cutRest at hd
    split at hd
    next hsplit =>
      rw [List.mem_singleton.mp hd]
      simp only
      omega
    next => simp at hd

/-- Carving restores a list in which the block after the carved one is used. -/
theorem WellFormedBlocks.carve_of_parts
    (htiles : Tiles 32 lo hi (xs ++ b :: ys))
    (hsizes : ∀ d ∈ xs ++ b :: ys, 16 ∣ d.size ∧ 16 ≤ d.size)
    (hxs : Coalesced xs) (hys : Coalesced ys)
    (hafter : ∀ y ∈ ys.head?, y.free = false)
    (hn : 16 ∣ n ∧ 16 ≤ n) :
    WellFormedBlocks lo hi (xs ++ (carve b n ++ ys)) := by
  refine ⟨tiles_carve htiles, ?_, ?_⟩
  · intro d hd
    rw [List.mem_append, List.mem_append] at hd
    rcases hd with hd | hd | hd
    · exact hsizes d (by simp [hd])
    · exact carve_sizes (hsizes b (by simp)) hn d hd
    · exact hsizes d (by simp [hd])
  · rw [coalesced_append]
    refine ⟨hxs, ?_, ?_⟩
    · refine coalesced_cons.mpr ⟨by simp, ?_⟩
      unfold cutRest
      split
      · refine coalesced_cons.mpr ⟨?_, hys⟩
        intro y hy
        simp [hafter y hy]
      · exact hys
    · intro x _ y hy
      have hy : ⟨b.addr, cutSize b n, false⟩ = y := by
        simpa [Otsos.carve] using hy
      simp [← hy]

theorem WellFormedBlocks.split_at
    (h : WellFormedBlocks lo hi (xs ++ b :: ys)) :
    Coalesced xs ∧ Coalesced ys ∧
      (b.free = true → (∀ y ∈ ys.head?, y.free = false) ∧
        ∀ x ∈ xs.getLast?, x.free = false) := by
  obtain ⟨hxs, htail, hseam⟩ := coalesced_append.mp h.coalesced
  obtain ⟨hhead, hys⟩ := coalesced_cons.mp htail
  refine ⟨hxs, hys, fun hfree => ⟨?_, ?_⟩⟩
  · intro y hy
    simpa [hfree] using hhead y hy
  · intro x hx
    simpa [hfree] using hseam x hx b (by simp)

theorem WellFormedBlocks.carve
    (h : WellFormedBlocks lo hi (xs ++ b :: ys)) (hfree : b.free = true)
    (hn : 16 ∣ n ∧ 16 ≤ n) :
    WellFormedBlocks lo hi (xs ++ (carve b n ++ ys)) := by
  obtain ⟨hxs, hys, hnear⟩ := h.split_at
  exact WellFormedBlocks.carve_of_parts h.tiles h.sizes hxs hys
    (hnear hfree).1 hn

theorem mem_carved_iff {d : Block} (hd : d.free = false)
    (hfree : b.free = true) :
    d ∈ xs ++ (carve b n ++ ys) ↔
      d ∈ xs ++ b :: ys ∨ d = ⟨b.addr, cutSize b n, false⟩ := by
  have hdb : d ≠ b := by
    rintro rfl
    simp [hd] at hfree
  simp only [List.mem_append, List.mem_cons, mem_carve_of_used hd, hdb,
    false_or]
  tauto

/-! ## Releasing -/

/-- The block `b`, now free, together with a free successor. -/
def joinNext (b : Block) : List Block → Block × List Block
  | [] => (⟨b.addr, b.size, true⟩, [])
  | c :: ys =>
      if c.free then (⟨b.addr, b.size + 32 + c.size, true⟩, ys)
      else (⟨b.addr, b.size, true⟩, c :: ys)

/-- A free predecessor together with the free block `b`. -/
def joinPrev (xs : List Block) (b : Block) : List Block × Block :=
  match xs.getLast? with
  | none => (xs, b)
  | some p =>
      if p.free then (xs.dropLast, ⟨p.addr, p.size + 32 + b.size, true⟩)
      else (xs, b)

def release (xs : List Block) (b : Block) (ys : List Block) : List Block :=
  let joined := joinNext b ys
  let merged := joinPrev xs joined.1
  merged.1 ++ merged.2 :: joined.2

theorem joinPrev_nil : joinPrev [] b = ([], b) := rfl

theorem joinPrev_concat (ws : List Block) (p b : Block) :
    joinPrev (ws ++ [p]) b =
      if p.free then (ws, ⟨p.addr, p.size + 32 + b.size, true⟩)
      else (ws ++ [p], b) := by
  simp [joinPrev]

/-- What a partly merged list still needs: everything but the neighbours of
the free block `b` is in order. -/
structure AlmostWellFormed (lo hi : ℕ) (xs : List Block) (b : Block)
    (ys : List Block) : Prop where
  tiles : Tiles 32 lo hi (xs ++ b :: ys)
  sizes : ∀ d ∈ xs ++ b :: ys, 16 ∣ d.size ∧ 16 ≤ d.size
  before : Coalesced xs
  after : Coalesced ys

theorem joined_size {k l : ℕ} (hk : 16 ∣ k ∧ 16 ≤ k) (hl : 16 ∣ l ∧ 16 ≤ l) :
    16 ∣ k + 32 + l ∧ 16 ≤ k + 32 + l := by
  omega

theorem AlmostWellFormed.joinNext (h : AlmostWellFormed lo hi xs b ys) :
    AlmostWellFormed lo hi xs (joinNext b ys).1 (joinNext b ys).2 ∧
      ∀ y ∈ (joinNext b ys).2.head?, y.free = false := by
  cases ys with
  | nil =>
      refine ⟨⟨tiles_flag_iff.mpr h.tiles, ?_, h.before, h.after⟩, ?_⟩
      · intro d hd
        simp only [Otsos.joinNext, List.mem_append, List.mem_singleton] at hd
        rcases hd with hd | rfl
        · exact h.sizes d (by simp [hd])
        · exact h.sizes b (by simp)
      · simp [Otsos.joinNext]
  | cons c ys =>
      by_cases hc : c.free = true
      · simp only [Otsos.joinNext, hc, if_true]
        obtain ⟨hseam, hys⟩ := coalesced_cons.mp h.after
        refine ⟨⟨?_, ?_, h.before, hys⟩, ?_⟩
        · have hnext := h.tiles.next_addr
          have ht := h.tiles
          rw [show c = ⟨b.addr + 32 + b.size, c.size, c.free⟩ by
            rw [← hnext]] at ht
          exact tiles_cut_iff.mp ht
        · intro d hd
          simp only [List.mem_append, List.mem_cons] at hd
          rcases hd with hd | rfl | hd
          · exact h.sizes d (by simp [hd])
          · exact joined_size (h.sizes b (by simp)) (h.sizes c (by simp))
          · exact h.sizes d (by simp [hd])
        · intro y hy
          simpa [hc] using hseam y hy
      · simp only [Otsos.joinNext, hc, Bool.false_eq_true, if_false]
        refine ⟨⟨tiles_flag_iff.mpr h.tiles, ?_, h.before, h.after⟩, ?_⟩
        · intro d hd
          simp only [List.mem_append, List.mem_cons] at hd
          rcases hd with hd | rfl | hd
          · exact h.sizes d (by simp [hd])
          · exact h.sizes b (by simp)
          · exact h.sizes d (by simp [hd])
        · simpa using hc

theorem AlmostWellFormed.joinPrev (h : AlmostWellFormed lo hi xs b ys)
    (hafter : ∀ y ∈ ys.head?, y.free = false) :
    WellFormedBlocks lo hi ((joinPrev xs b).1 ++ (joinPrev xs b).2 :: ys) := by
  rcases List.eq_nil_or_concat xs with rfl | ⟨ws, p, rfl⟩
  · refine ⟨h.tiles, h.sizes, ?_⟩
    rw [joinPrev_nil]
    refine coalesced_cons.mpr ⟨?_, h.after⟩
    intro y hy
    simp [hafter y hy]
  · simp only [List.concat_eq_append, joinPrev_concat] at h ⊢
    obtain ⟨hws, -, hseam⟩ := coalesced_append.mp h.before
    by_cases hp : p.free = true
    · simp only [hp, if_true]
      have ht : Tiles 32 lo hi (ws ++ p :: b :: ys) := by
        simpa using h.tiles
      refine ⟨?_, ?_, ?_⟩
      · have hnext := ht.next_addr
        rw [show b = ⟨p.addr + 32 + p.size, b.size, b.free⟩ by
          rw [← hnext]] at ht
        exact tiles_cut_iff.mp ht
      · intro d hd
        simp only [List.mem_append, List.mem_cons] at hd
        rcases hd with hd | rfl | hd
        · exact h.sizes d (by simp [hd])
        · exact joined_size (h.sizes p (by simp)) (h.sizes b (by simp))
        · exact h.sizes d (by simp [hd])
      · rw [coalesced_append, coalesced_cons]
        refine ⟨hws, ⟨?_, h.after⟩, ?_⟩
        · intro y hy
          simp [hafter y hy]
        · intro x hx y hy
          have hused := hseam x hx p (by simp)
          simp_all
    · simp only [hp, Bool.false_eq_true, if_false]
      refine ⟨h.tiles, h.sizes, ?_⟩
      rw [coalesced_append, coalesced_cons]
      refine ⟨h.before, ⟨?_, h.after⟩, ?_⟩
      · intro y hy
        simp [hafter y hy]
      · intro x hx y hy
        have hxp : p = x := by simpa using hx
        simp [← hxp, hp]

theorem WellFormedBlocks.release
    (h : WellFormedBlocks lo hi (xs ++ b :: ys)) :
    WellFormedBlocks lo hi (release xs b ys) := by
  obtain ⟨hxs, hys, -⟩ := h.split_at
  obtain ⟨halmost, hafter⟩ :=
    AlmostWellFormed.joinNext ⟨h.tiles, h.sizes, hxs, hys⟩
  exact halmost.joinPrev hafter

theorem mem_joinNext_iff {d : Block} (hd : d.free = false) :
    d ∈ (joinNext b ys).2 ↔ d ∈ ys := by
  cases ys with
  | nil => simp [joinNext]
  | cons c ys =>
      by_cases hc : c.free = true
      · have hdc : d ≠ c := by
          rintro rfl
          simp [hd] at hc
        simp [joinNext, hc, hdc]
      · simp [joinNext, hc]

theorem joinNext_free : (joinNext b ys).1.free = true := by
  cases ys with
  | nil => rfl
  | cons c ys =>
      by_cases hc : c.free = true <;> simp [joinNext, hc]

theorem joinNext_flag (f : Bool) :
    joinNext ⟨b.addr, b.size, f⟩ ys = joinNext b ys := by
  cases ys with
  | nil => rfl
  | cons c ys => rfl

@[simp] theorem joinNext_addr : (joinNext b ys).1.addr = b.addr := by
  cases ys with
  | nil => rfl
  | cons c ys => by_cases hc : c.free = true <;> simp [joinNext, hc]

theorem joinNext_subset {d : Block} (hd : d ∈ (joinNext b ys).2) :
    d ∈ ys := by
  cases ys with
  | nil => simp [joinNext] at hd
  | cons c ys =>
      by_cases hc : c.free = true
      · simp only [joinNext, hc, if_true] at hd
        exact List.mem_cons_of_mem c hd
      · simpa [joinNext, hc] using hd

theorem mem_joinPrev_iff {d : Block} (hd : d.free = false)
    (hb : b.free = true) :
    d ∈ (joinPrev xs b).1 ∨ d = (joinPrev xs b).2 ↔ d ∈ xs := by
  have hne : ∀ c : Block, c.free = true → d ≠ c := by
    rintro c hc rfl
    simp [hd] at hc
  rcases List.eq_nil_or_concat xs with rfl | ⟨ws, p, rfl⟩
  · simp [joinPrev_nil, hne b hb]
  · simp only [List.concat_eq_append, joinPrev_concat]
    by_cases hp : p.free = true
    · simp [hp, hne p hp, hne ⟨p.addr, p.size + 32 + b.size, true⟩ rfl]
    · simp [hp, hne b hb]

theorem mem_release_iff {d : Block} (hd : d.free = false)
    (h : WellFormedBlocks lo hi (xs ++ b :: ys)) :
    d ∈ release xs b ys ↔ d ∈ xs ++ b :: ys ∧ d ≠ b := by
  have hbefore : d ∈ xs → d ≠ b := by
    rintro hmem rfl
    have := h.tiles.before d hmem
    omega
  have hafter : d ∈ ys → d ≠ b := by
    rintro hmem rfl
    have := h.tiles.after d hmem
    omega
  have hprev : d ∈ (joinPrev xs (joinNext b ys).1).1 ∨
      d = (joinPrev xs (joinNext b ys).1).2 ↔ d ∈ xs :=
    mem_joinPrev_iff hd joinNext_free
  have hnext : d ∈ (joinNext b ys).2 ↔ d ∈ ys := mem_joinNext_iff hd
  simp only [Otsos.release, List.mem_append, List.mem_cons, hnext,
    ← or_assoc, hprev]
  tauto

theorem release_addr {d : Block} (hd : d ∈ release xs b ys) :
    ∃ e ∈ xs ++ b :: ys, e.addr = d.addr := by
  simp only [Otsos.release, List.mem_append, List.mem_cons] at hd
  rcases List.eq_nil_or_concat xs with rfl | ⟨ws, p, rfl⟩
  · rw [joinPrev_nil] at hd
    rcases hd with hd | rfl | hd
    · exact absurd hd List.not_mem_nil
    · exact ⟨b, by simp, joinNext_addr.symm⟩
    · exact ⟨d, by simp [joinNext_subset hd], rfl⟩
  · simp only [List.concat_eq_append, joinPrev_concat] at hd ⊢
    by_cases hp : p.free = true
    · simp only [hp, if_true] at hd
      rcases hd with hd | rfl | hd
      · exact ⟨d, by simp [hd], rfl⟩
      · exact ⟨p, by simp, rfl⟩
      · exact ⟨d, by simp [joinNext_subset hd], rfl⟩
    · simp only [hp, Bool.false_eq_true, if_false] at hd
      rcases hd with hd | rfl | hd
      · exact ⟨d, List.mem_append_left _ hd, rfl⟩
      · exact ⟨b, by simp, joinNext_addr.symm⟩
      · exact ⟨d, by simp [joinNext_subset hd], rfl⟩

end Otsos
