import Mathlib.Data.List.Find
import Otsos.Heap.Calls

/-!
# `kmalloc_aligned`

A free block is usable when the padding in front of its first aligned payload
address is empty or has room for a block of its own.  The padding is always a
multiple of 16, for every `align`, since addresses are.
-/

namespace Otsos

open Lib

variable {h h' : Heap} {bs bs' : List Block} {n align : ℕ}

/-- The gap between the payload of `b` and the first address to be handed
out. -/
def alignPadding (align : ℕ) (b : Block) : ℕ :=
  clearBits (b.addr + 32 + (align - 1)) (align - 1) - (b.addr + 32)

/-- The blocks `kmalloc_aligned` accepts. -/
def fitsAligned (n align : ℕ) (b : Block) : Bool :=
  b.free && decide (n + alignPadding align b ≤ b.size) &&
    (decide (48 ≤ alignPadding align b) || decide (alignPadding align b = 0))

theorem fitsAligned_iff {b : Block} :
    fitsAligned n align b = true ↔
      b.free = true ∧ n + alignPadding align b ≤ b.size ∧
        (48 ≤ alignPadding align b ∨ alignPadding align b = 0) := by
  simp [fitsAligned, and_assoc]

theorem alignPadding_spec {b : Block} (hb : b.addr < 2 ^ 62)
    (hdvd : 16 ∣ b.addr) (halign : align ≤ 2 ^ 32) :
    clearBits (b.addr + 32 + (align - 1)) (align - 1) =
        b.addr + 32 + alignPadding align b ∧
      alignPadding align b < 2 ^ 32 ∧ 16 ∣ alignPadding align b := by
  have hle := clearBits_le (b.addr + 32 + (align - 1)) (align - 1)
  have hge := le_clearBits_add (x := b.addr + 32 + (align - 1))
    (m := align - 1) (by omega) (by omega)
  have hmod := clearBits_mod_sixteen (x := b.addr + 32 + (align - 1))
    (m := align - 1) (by omega) (by omega)
  unfold alignPadding
  omega

/-- For a power of two the address handed out is a multiple of it. -/
theorem alignPadding_dvd {b : Block} {k : ℕ} (hb : b.addr < 2 ^ 62)
    (hdvd : 16 ∣ b.addr) (hpow : align = 2 ^ k) (halign : align ≤ 2 ^ 32) :
    align ∣ b.addr + alignPadding align b + 32 := by
  have hspec := (alignPadding_spec hb hdvd halign).1
  rw [show b.addr + alignPadding align b + 32 =
    b.addr + 32 + alignPadding align b by omega, ← hspec, hpow]
  apply Nat.dvd_of_mod_eq_zero
  apply clearBits_two_pow_sub_one_mod
  · omega
  · omega

/-- What the two splits of `kmalloc_aligned` do to an accepted block. -/
def placeAligned (m : Memory) (a padding n : ℕ) : Memory :=
  if 48 ≤ padding then
    place (splitBlock m a (padding - 32)) (a + padding) n
  else place m a n

/-! ## The loop, for words of any size -/

/-- The padding as the loop computes it, modulo `2 ^ 64`. -/
def paddingWord (align : ℕ) (b : Block) : ℕ :=
  sub64 (clearBits (wrap64 (b.addr + 32 + (align - 1))) (align - 1))
    (b.addr + 32)

/-- The tests of the loop, modulo `2 ^ 64`. -/
def acceptsAligned (n align : ℕ) (b : Block) : Bool :=
  b.free && decide (wrap64 (n + paddingWord align b) ≤ b.size) &&
    (decide (48 ≤ paddingWord align b) || decide (paddingWord align b = 0))

theorem acceptsAligned_iff {b : Block} :
    acceptsAligned n align b = true ↔
      b.free = true ∧ wrap64 (n + paddingWord align b) ≤ b.size ∧
        (48 ≤ paddingWord align b ∨ paddingWord align b = 0) := by
  simp [acceptsAligned, and_assoc]

/-- The block at `a` after the tests passed, and the pointer returned. -/
def takeAligned (m : Memory) (a padding n : ℕ) : Memory × ℕ :=
  if 48 ≤ padding then
    (place (splitPadding m a padding).1 (splitPadding m a padding).2 n,
      wrap64 ((splitPadding m a padding).2 + sizeofHeader))
  else (place m a n, wrap64 (a + sizeofHeader))

theorem kmallocAlignedWalk_step {m : Memory} {lo hi fuel : ℕ}
    {xs ys : List Block} {b : Block} (hlo : 0 < lo) (hhi : hi < 2 ^ 62)
    (htiles : Tiles 32 lo hi (xs ++ b :: ys))
    (hrep : Represents m (xs ++ b :: ys)) :
    kmallocAlignedWalk m n align (fuel + 1) b.addr =
      if acceptsAligned n align b = true then
        some (takeAligned m b.addr (paddingWord align b) n)
      else kmallocAlignedWalk m n align fuel (followAddr ys) := by
  have hheld := hrep.holds_at
  have hbound := htiles.bounds (b := b) (by simp)
  have hdata : wrap64 (b.addr + sizeofHeader) = b.addr + 32 :=
    wrap64_of_lt (by simp only [sizeofHeader]; omega)
  have hpadding : sub64 (clearBits (wrap64 (b.addr + 32 + (align - 1)))
      (align - 1)) (b.addr + 32) = paddingWord align b := rfl
  rw [kmallocAlignedWalk, if_neg (show b.addr ≠ 0 by omega)]
  simp only [hdata, hpadding, hheld.size, hrep.links_at.2,
    acceptsAligned_iff]
  by_cases hfree : b.free = true
  · rw [if_pos (hheld.isFree_ne_zero_iff.mpr hfree)]
    by_cases hfit : wrap64 (n + paddingWord align b) ≤ b.size
    · rw [if_pos hfit]
      by_cases hbig : 48 ≤ paddingWord align b
      · rw [if_pos (by simpa [sizeofHeader] using hbig),
          if_pos ⟨hfree, hfit, Or.inl hbig⟩, takeAligned, if_pos hbig]
        rfl
      · rw [if_neg (by simpa [sizeofHeader] using hbig)]
        by_cases hzero : paddingWord align b = 0
        · rw [if_pos hzero, if_pos ⟨hfree, hfit, Or.inr hzero⟩,
            takeAligned, if_neg hbig, hdata]
          rfl
        · rw [if_neg hzero, if_neg]
          rintro ⟨-, -, h | h⟩
          · exact hbig h
          · exact hzero h
    · rw [if_neg hfit, if_neg fun h => hfit h.2.1]
  · rw [if_neg fun h => hfree (hheld.isFree_ne_zero_iff.mp h),
      if_neg fun h => hfree h.1]

theorem kmallocAlignedWalk_eq {m : Memory} {lo hi fuel : ℕ}
    {ys : List Block} (xs : List Block) (hlo : 0 < lo) (hhi : hi < 2 ^ 62)
    (htiles : Tiles 32 lo hi (xs ++ ys))
    (hrep : Represents m (xs ++ ys)) (hfuel : ys.length < fuel) :
    kmallocAlignedWalk m n align fuel (followAddr ys) =
      match ys.find? (acceptsAligned n align) with
      | none => some (m, 0)
      | some b => some (takeAligned m b.addr (paddingWord align b) n) := by
  induction ys generalizing xs fuel with
  | nil =>
      cases fuel with
      | zero => omega
      | succ fuel => simp [kmallocAlignedWalk]
  | cons y ys ih =>
      cases fuel with
      | zero => omega
      | succ fuel =>
          have hcurrent : followAddr (y :: ys) = y.addr := rfl
          rw [hcurrent, kmallocAlignedWalk_step hlo hhi htiles hrep]
          by_cases hfit : acceptsAligned n align y = true
          · rw [if_pos hfit, List.find?_cons_of_pos hfit]
          · rw [if_neg hfit, List.find?_cons_of_neg hfit]
            exact ih (xs ++ [y]) (by simpa using htiles)
              (by simpa using hrep) (by simpa using hfuel)

theorem takeAligned_eq {m : Memory} {lo hi p : ℕ} {xs ys : List Block}
    {b : Block} (hhi : hi < 2 ^ 62)
    (htiles : Tiles 32 lo hi (xs ++ b :: ys))
    (hrep : Represents m (xs ++ b :: ys)) (hn : 16 ≤ n)
    (hfit : n + p ≤ b.size) (hpad : 48 ≤ p ∨ p = 0) :
    takeAligned m b.addr p n =
      (placeAligned m b.addr p n, b.addr + p + 32) := by
  have hheld := hrep.holds_at
  have hbound := htiles.bounds (b := b) (by simp)
  have hfollow := (follow_bounds htiles hhi).1
  unfold takeAligned placeAligned
  by_cases hbig : 48 ≤ p
  · have hsplit := splitPadding_eq_splitBlock (m := m) (a := b.addr)
      (n := p - 32) (k := b.size - p) (q := followAddr ys) (by omega)
      (by omega) (hheld.size.trans (by omega)) hrep.links_at.2 hfollow
    rw [show p - 32 + 32 = p by omega] at hsplit
    rw [if_pos hbig, if_pos hbig, hsplit,
      show b.addr + 32 + (p - 32) = b.addr + p by omega]
    rw [wrap64_of_lt (by simp only [sizeofHeader]; omega)]
    rfl
  · have hzero : p = 0 := hpad.resolve_left hbig
    rw [if_neg hbig, if_neg hbig, hzero,
      wrap64_of_lt (by simp only [sizeofHeader]; omega)]
    rfl

theorem HeapInvariant.kmallocAlignedWalk_eq (hinv : HeapInvariant h bs) :
    kmallocAlignedWalk h.mem n align walkFuel h.heapHead =
      match bs.find? (acceptsAligned n align) with
      | none => some (h.mem, 0)
      | some b => some (takeAligned h.mem b.addr (paddingWord align b) n) := by
  have hbounds := hinv.bounds
  rw [hinv.head_eq]
  exact Otsos.kmallocAlignedWalk_eq [] (by omega) (by omega)
    hinv.blocks.tiles hinv.repr hinv.length_lt

/-! ## Requests up to `2 ^ 32` -/

theorem paddingWord_eq {b : Block} (hb : b.addr < 2 ^ 62)
    (hdvd : 16 ∣ b.addr) (halign : align ≤ 2 ^ 32) :
    paddingWord align b = alignPadding align b := by
  obtain ⟨hclear, hpad, -⟩ := alignPadding_spec hb hdvd halign
  unfold paddingWord
  rw [wrap64_of_lt (by omega), hclear, sub64_of_le (by omega) (by omega)]
  omega

theorem acceptsAligned_eq_fitsAligned {b : Block} (hb : b.addr < 2 ^ 62)
    (hdvd : 16 ∣ b.addr) (halign : align ≤ 2 ^ 32) (hn : n < 2 ^ 62) :
    acceptsAligned n align b = fitsAligned n align b := by
  have hpad := (alignPadding_spec hb hdvd halign).2.1
  unfold acceptsAligned fitsAligned
  rw [paddingWord_eq hb hdvd halign, wrap64_of_lt (by omega)]

theorem HeapInvariant.find_acceptsAligned (hinv : HeapInvariant h bs)
    (halign : align ≤ 2 ^ 32) (hn : n < 2 ^ 62) :
    bs.find? (acceptsAligned n align) = bs.find? (fitsAligned n align) := by
  have hbounds := hinv.bounds
  refine List.find?_congr fun b hb => ?_
  have hbound := (hinv.blocks.tiles.bounds hb).2
  exact acceptsAligned_eq_fitsAligned (by omega) (hinv.dvd_addr hb) halign hn

/-- Handing out an aligned part of a free block, leaving a free block of at
least 16 bytes in front of it. -/
theorem HeapInvariant.grantPadded {xs ys : List Block} {b : Block} {p : ℕ}
    (hinv : HeapInvariant h (xs ++ b :: ys)) (hfree : b.free = true)
    (hn : 16 ∣ n ∧ 16 ≤ n) (hp : 16 ∣ p) (hbig : 48 ≤ p)
    (hfit : n + p ≤ b.size) (hsmall : n < 2 ^ 62) :
    ∃ bs' c, c.addr = b.addr + p ∧
      Granted h (xs ++ b :: ys) n
        { h with
          mem := place (splitBlock h.mem b.addr (p - 32)) (b.addr + p) n }
        bs' c := by
  have hbounds := hinv.bounds
  have hbound := (hinv.blocks.tiles.bounds (b := b) (by simp)).2
  let pad : Block := ⟨b.addr, p - 32, true⟩
  let rest : Block := ⟨b.addr + p, b.size - p, true⟩
  have hcut : cut b (p - 32) = [pad, rest] := by
    unfold cut cutSize cutRest
    rw [if_pos (by omega), if_pos (by omega), hfree]
    simp only [pad, rest, List.cons.injEq, Block.mk.injEq, and_true, true_and]
    omega
  obtain ⟨hsplit, hsplitFrame⟩ := splitBlock_represents (n := p - 32)
    (by omega) (by omega) hinv.blocks.tiles hinv.repr (by omega)
  have htiles := tiles_cut (n := p - 32) hinv.blocks.tiles
  rw [hcut] at hsplit hsplitFrame htiles
  have hsplit' : Represents (splitBlock h.mem b.addr (p - 32))
      ((xs ++ [pad]) ++ rest :: ys) := by
    simpa using hsplit
  have htiles' : Tiles 32 h.heapStart h.heapEnd
      ((xs ++ [pad]) ++ rest :: ys) := by
    simpa using htiles
  obtain ⟨hplace, hplaceFrame⟩ := place_represents (n := n) (by omega)
    (by omega) htiles' hsplit' hsmall
  have hsizes : ∀ d ∈ (xs ++ [pad]) ++ rest :: ys,
      16 ∣ d.size ∧ 16 ≤ d.size := by
    have hb := hinv.blocks.sizes b (by simp)
    intro d hd
    simp only [List.append_assoc, List.cons_append, List.nil_append,
      List.mem_append, List.mem_cons] at hd
    rcases hd with hd | rfl | rfl | hd
    · exact hinv.blocks.sizes d (by simp [hd])
    · simp only [pad]
      omega
    · simp only [rest]
      omega
    · exact hinv.blocks.sizes d (by simp [hd])
  obtain ⟨hxs, hys, hnear⟩ := hinv.blocks.split_at
  obtain ⟨hafter, hbefore⟩ := hnear hfree
  have hpadded : Coalesced (xs ++ [pad]) := by
    refine coalesced_append.mpr ⟨hxs, by simp [coalesced_cons], ?_⟩
    intro x hx y _
    simp [hbefore x hx]
  have hblocks := WellFormedBlocks.carve_of_parts htiles' hsizes hpadded hys
    hafter hn
  refine ⟨_, ⟨b.addr + p, cutSize rest n, false⟩, rfl, rfl,
    hinv.withMem hplace hblocks, rfl,
    cutSize_ge (b := rest) (by simp only [rest]; omega), ?_, ?_, ?_⟩
  · intro hmem
    have hdisjoint := hinv.blocks.tiles.disjoint hmem
      (show b ∈ xs ++ b :: ys by simp) (by
        intro heq
        have := congrArg Block.addr heq
        simp only at this
        omega)
    simp only at hdisjoint
    omega
  · intro d hd
    have hdb : d ≠ b := by
      rintro rfl
      simp [hd] at hfree
    have hdpad : d ≠ pad := by
      rintro rfl
      simp [pad] at hd
    have hcarve := mem_carve_of_used (b := rest) (n := n) hd
    simp only [List.append_assoc, List.cons_append, List.nil_append,
      List.mem_append, List.mem_cons, hcarve, hdpad, hdb, false_or]
    simp only [rest]
    tauto
  · refine (hsplitFrame.mono ?_).trans (hplaceFrame.mono ?_)
    · intro x hx
      refine hx.mono ?_
      intro d hd
      simp only [List.cons_append, List.nil_append, List.mem_cons] at hd
      rcases hd with rfl | rfl | hd
      · exact ⟨pad, by simp, rfl⟩
      · exact ⟨⟨rest.addr, cutSize rest n, false⟩, by simp [carve], rfl⟩
      · exact ⟨d, by simp [hd], rfl⟩
    · intro x hx
      exact hx.of_subset fun d hd => List.mem_append_right (xs ++ [pad]) hd

theorem HeapInvariant.grantAligned {xs ys : List Block} {b : Block} {p : ℕ}
    (hinv : HeapInvariant h (xs ++ b :: ys)) (hfree : b.free = true)
    (hn : 16 ∣ n ∧ 16 ≤ n) (hp : 16 ∣ p) (hpad : 48 ≤ p ∨ p = 0)
    (hfit : n + p ≤ b.size) :
    ∃ bs' c, c.addr = b.addr + p ∧
      Granted h (xs ++ b :: ys) n
        { h with mem := placeAligned h.mem b.addr p n } bs' c := by
  have hbounds := hinv.bounds
  have hbound := (hinv.blocks.tiles.bounds (b := b) (by simp)).2
  unfold placeAligned
  by_cases hbig : 48 ≤ p
  · rw [if_pos hbig]
    exact hinv.grantPadded hfree hn hp hbig hfit (by omega)
  · have hzero : p = 0 := hpad.resolve_left hbig
    rw [if_neg hbig, hzero]
    exact ⟨_, ⟨b.addr, cutSize b n, false⟩, rfl,
      hinv.grant hfree hn (by omega) (by omega)⟩

theorem kmallocAligned_cases (hinv : HeapInvariant h bs) (hn : n ≤ 2 ^ 32)
    (halign : align ≤ 2 ^ 32) :
    kmallocAligned h n align = some (h, 0) ∨
    ∃ h' bs' c, kmallocAligned h n align = some (h', c.addr + 32) ∧ n ≠ 0 ∧
      Granted h bs n h' bs' c ∧
      ∀ k, align = 2 ^ k → align ∣ c.addr + 32 := by
  unfold kmallocAligned
  simp only [hinv.ensureHeap_eq]
  by_cases hzero : n = 0
  · exact Or.inl (by simp [hzero])
  rw [if_neg hzero]
  have hbounds := hinv.bounds
  by_cases hsmallAlign : align ≤ 16
  · rw [if_pos hsmallAlign]
    rcases kmalloc_cases hinv (hn.trans (by decide)) with
      ⟨hfail, -⟩ | ⟨h', bs', c, hok, -, hg⟩
    · exact Or.inl hfail
    · refine Or.inr ⟨h', bs', c, hok, hzero, hg, ?_⟩
      rintro k rfl
      have hc := hg.inv.dvd_addr hg.mem
      have hk : k ≤ 4 := by
        by_contra hlt
        have := Nat.pow_lt_pow_right (a := 2) (by omega)
          (show 4 < k by omega)
        omega
      have hdvd : 2 ^ k ∣ 16 := Nat.pow_dvd_pow 2 hk
      exact Nat.dvd_trans hdvd (Nat.dvd_add hc (by omega))
  · rw [if_neg hsmallAlign]
    have hround := align16_bounds (n := n) (by omega)
    have hpos := align16_pos (n := n) (by omega) hzero
    rw [hinv.kmallocAlignedWalk_eq,
      hinv.find_acceptsAligned halign (by omega)]
    cases hfind : bs.find? (fitsAligned (align16 n) align) with
    | none => exact Or.inl rfl
    | some b =>
        right
        obtain ⟨hfits, xs, ys, rfl, -⟩ :=
          List.find?_eq_some_iff_append.mp hfind
        obtain ⟨hfree, hfit, hpad⟩ := fitsAligned_iff.mp hfits
        have hmem : b ∈ xs ++ b :: ys := by simp
        have hdvd := hinv.dvd_addr hmem
        have hbound := (hinv.blocks.tiles.bounds hmem).2
        have hspec := alignPadding_spec (by omega) hdvd halign
        obtain ⟨bs', c, haddr, hg⟩ := hinv.grantAligned hfree
          ⟨hround.2.2, hpos⟩ hspec.2.2 hpad hfit
        refine ⟨_, bs', c, ?_, hzero,
          { hg with fits := hround.1.trans hg.fits }, ?_⟩
        · dsimp only
          rw [paddingWord_eq (by omega) hdvd halign,
            takeAligned_eq (by omega) hinv.blocks.tiles hinv.repr hpos hfit
              hpad, haddr]
          rfl
        · rw [haddr]
          exact fun k hk => alignPadding_dvd (by omega) hdvd hk halign

end Otsos
