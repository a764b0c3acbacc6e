import Otsos.Heap.Guarantees

/-!
# Which aligned addresses are found

A free block offers every multiple of `align` that lies at its payload or
leaves room for a block in front.  `kmalloc_aligned` only ever looks at the
first multiple behind the payload.  When that one lies 16 or 32 bytes behind
it, too close for a block in front, the loop goes on to the next block, and
the later multiples inside this one are lost.
-/

namespace Otsos

open Lib

variable {h : Heap} {bs : List Block} {b : Block} {n align a k : ℕ}

/-- `a` is a place for `n` bytes, rounded up, inside the payload of `b`. -/
structure AlignedSpot (b : Block) (n align a : ℕ) : Prop where
  multiple : align ∣ a
  start : b.addr + 32 ≤ a
  gap : a - (b.addr + 32) = 0 ∨ 48 ≤ a - (b.addr + 32)
  room : a + align16 n ≤ b.addr + 32 + b.size

/-- How far behind the payload of `b` the first multiple of `align` lies. -/
def firstGap (align : ℕ) (b : Block) : ℕ :=
  (align - (b.addr + 32) % align) % align

/-! ## The first multiple -/

theorem firstGap_lt (hpos : 0 < align) : firstGap align b < align :=
  Nat.mod_lt _ hpos

theorem dvd_add_firstGap (hpos : 0 < align) :
    align ∣ b.addr + 32 + firstGap align b := by
  have hrem := Nat.mod_lt (b.addr + 32) hpos
  have hsum : (b.addr + 32) % align + (align - (b.addr + 32) % align) =
      align := by omega
  apply Nat.dvd_of_mod_eq_zero
  unfold firstGap
  rw [Nat.add_mod_mod, ← Nat.mod_add_mod (b.addr + 32), hsum, Nat.mod_self]

/-- Every multiple from the payload on is the first one, or at least `align`
behind it. -/
theorem firstGap_cases (hpos : 0 < align) (hdvd : align ∣ a)
    (hstart : b.addr + 32 ≤ a) :
    a = b.addr + 32 + firstGap align b ∨
      b.addr + 32 + firstGap align b + align ≤ a := by
  obtain ⟨q, hq⟩ := dvd_add_firstGap (b := b) hpos
  obtain ⟨r, rfl⟩ := hdvd
  have hlt := firstGap_lt (b := b) hpos
  rw [hq]
  rcases Nat.lt_trichotomy q r with hqr | rfl | hrq
  · right
    have hmul := Nat.mul_le_mul_left align (Nat.succ_le_of_lt hqr)
    rwa [Nat.mul_succ] at hmul
  · exact Or.inl rfl
  · have hmul := Nat.mul_le_mul_left align (Nat.succ_le_of_lt hrq)
    rw [Nat.mul_succ] at hmul
    omega

theorem alignPadding_eq_firstGap (hb : b.addr < 2 ^ 62)
    (hdvd : 16 ∣ b.addr) (hpow : align = 2 ^ k) (halign : align ≤ 2 ^ 32) :
    alignPadding align b = firstGap align b := by
  have hpos : 0 < align := hpow ▸ Nat.two_pow_pos k
  have hmultiple := alignPadding_dvd hb hdvd hpow halign
  have hle := clearBits_le (b.addr + 32 + (align - 1)) (align - 1)
  rcases firstGap_cases (b := b) hpos hmultiple (by omega) with heq | hge
  · omega
  · have hspec := (alignPadding_spec hb hdvd halign).1
    omega

theorem dvd_firstGap (hdvd : 16 ∣ b.addr) (halign : 16 ∣ align)
    (hpos : 0 < align) : 16 ∣ firstGap align b := by
  have hsum := Nat.dvd_trans halign (dvd_add_firstGap (b := b) hpos)
  omega

/-! ## When a spot is found -/

theorem fitsAligned_iff_firstSpot (hb : b.addr < 2 ^ 62)
    (hdvd : 16 ∣ b.addr) (hpow : align = 2 ^ k) (halign : align ≤ 2 ^ 32) :
    fitsAligned (align16 n) align b = true ↔
      b.free = true ∧
        AlignedSpot b n align (b.addr + 32 + firstGap align b) := by
  have hpos : 0 < align := hpow ▸ Nat.two_pow_pos k
  rw [fitsAligned_iff, alignPadding_eq_firstGap hb hdvd hpow halign]
  constructor
  · rintro ⟨hfree, hfit, hgap⟩
    exact ⟨hfree, dvd_add_firstGap hpos, by omega, by omega, by omega⟩
  · rintro ⟨hfree, hspot⟩
    have hgap := hspot.gap
    have hroom := hspot.room
    exact ⟨hfree, by omega, by omega⟩

theorem kmallocAligned_ne_null_iff (hinv : HeapInvariant h bs)
    (hzero : n ≠ 0) (hn : n ≤ 2 ^ 32) (hlow : 16 < align)
    (halign : align ≤ 2 ^ 32) :
    (∃ h' p, kmallocAligned h n align = some (h', p) ∧ p ≠ 0) ↔
      ∃ b ∈ bs, fitsAligned (align16 n) align b = true := by
  have hround := align16_bounds (n := n) (by omega)
  have hpos := align16_pos (n := n) (by omega) hzero
  have hbounds := hinv.bounds
  unfold kmallocAligned
  simp only [hinv.ensureHeap_eq]
  rw [if_neg hzero, if_neg (by omega), hinv.kmallocAlignedWalk_eq,
    hinv.find_acceptsAligned halign (by omega)]
  cases hfind : bs.find? (fitsAligned (align16 n) align) with
  | none =>
      have hmiss := List.find?_eq_none.mp hfind
      constructor
      · rintro ⟨h', p, hcall, hne⟩
        cases hcall
        exact absurd rfl hne
      · rintro ⟨b, hb, hfits⟩
        exact absurd hfits (hmiss b hb)
  | some b =>
      obtain ⟨hfits, xs, ys, rfl, -⟩ :=
        List.find?_eq_some_iff_append.mp hfind
      have hmem : b ∈ xs ++ b :: ys := by simp
      have hbound := (hinv.blocks.tiles.bounds hmem).2
      obtain ⟨-, hfit, hpad⟩ := fitsAligned_iff.mp hfits
      dsimp only
      rw [paddingWord_eq (by omega) (hinv.dvd_addr hmem) halign,
        takeAligned_eq (by omega) hinv.blocks.tiles hinv.repr hpos hfit hpad]
      constructor
      · exact fun _ => ⟨b, hmem, hfits⟩
      · exact fun _ => ⟨_, _, rfl, by simp⟩

/-- A usable spot is found exactly when some free block has one at its first
multiple, or no free block whose first multiple is too close has one at its
second. -/
theorem kmallocAligned_finds_spot_iff (hinv : HeapInvariant h bs)
    (hpos : 1 ≤ n) (hn : n ≤ 2 ^ 32) (hpow : align = 2 ^ k)
    (hlow : 16 < align) (halign : align ≤ 2 ^ 32) :
    ((∃ b ∈ bs, b.free = true ∧ ∃ a, AlignedSpot b n align a) →
      ∃ h' p, kmallocAligned h n align = some (h', p) ∧ p ≠ 0) ↔
    (∃ b ∈ bs, b.free = true ∧
        AlignedSpot b n align (b.addr + 32 + firstGap align b)) ∨
      ∀ b ∈ bs, b.free = true →
        firstGap align b = 16 ∨ firstGap align b = 32 →
          b.size < firstGap align b + align + align16 n := by
  have hbounds := hinv.bounds
  have halignPos : 0 < align := by omega
  have hsixteen : 16 ∣ align := by
    have hk : 4 ≤ k := by
      by_contra hlt
      have := Nat.pow_le_pow_right (n := 2) (by omega)
        (show k ≤ 4 by omega)
      omega
    rw [hpow]
    exact Nat.pow_dvd_pow 2 hk
  have hfirst : (∃ b ∈ bs, fitsAligned (align16 n) align b = true) ↔
      ∃ b ∈ bs, b.free = true ∧
        AlignedSpot b n align (b.addr + 32 + firstGap align b) := by
    refine exists_congr fun b => and_congr_right fun hb => ?_
    have hbound := (hinv.blocks.tiles.bounds hb).2
    exact fitsAligned_iff_firstSpot (by omega) (hinv.dvd_addr hb) hpow halign
  rw [kmallocAligned_ne_null_iff hinv (by omega) hn hlow halign, hfirst]
  by_cases hfound : ∃ b ∈ bs, b.free = true ∧
      AlignedSpot b n align (b.addr + 32 + firstGap align b)
  · exact iff_of_true (fun _ => hfound) (Or.inl hfound)
  · constructor
    · intro hspots
      right
      intro b hb hfree hclose
      -- otherwise the second multiple of `b` is a spot
      by_contra hroom
      refine hfound (hspots ⟨b, hb, hfree,
        b.addr + 32 + firstGap align b + align, ?_, by omega, by omega,
        by omega⟩)
      exact Nat.dvd_add (dvd_add_firstGap halignPos) (Nat.dvd_refl align)
    · rintro (hspot | hclose) ⟨b, hb, hfree, a, hspot'⟩
      · exact hspot
      · have hgap := dvd_firstGap (hinv.dvd_addr hb) hsixteen halignPos
        have hroom := hspot'.room
        have hstart := hspot'.start
        refine absurd ⟨b, hb, hfree, dvd_add_firstGap halignPos, by omega,
          ?_, ?_⟩ hfound
        · rcases firstGap_cases halignPos hspot'.multiple hstart with
            rfl | hlater
          · exact hspot'.gap
          · by_contra hsmall
            have := hclose b hb hfree (by omega)
            omega
        · rcases firstGap_cases halignPos hspot'.multiple hstart with
            rfl | hlater <;> omega

theorem kmallocAligned_finds_spot_unbootedHeap :
    ∃ h' p, kmallocAligned (initHeap unbootedHeap) 64 4096 = some (h', p) ∧
      p ≠ 0 := by
  have hspot : AlignedSpot ⟨0x120000, 131040, true⟩ 64 4096 0x121000 :=
    ⟨by decide, by decide, by decide, by decide⟩
  exact (kmallocAligned_finds_spot_iff (k := 12)
    (initHeap_invariant unbootedHeap) (by decide) (by decide) rfl (by decide)
    (by decide)).mpr
      (Or.inl ⟨⟨0x120000, 131040, true⟩, by decide, rfl, hspot⟩)
      ⟨⟨0x120000, 131040, true⟩, by decide, rfl, 0x121000, hspot⟩

/-- The fresh heap of 128 KiB, with the payload 32 bytes in front of a
multiple of 64. -/
theorem kmallocAligned_misses_spot :
    Client.Reachable unbootedHeap (Client.boot unbootedHeap) ∧
    ∃ bs, HeapInvariant (Client.boot unbootedHeap).heap bs ∧
      (∃ b ∈ bs, b.free = true ∧ ∃ a, AlignedSpot b 1 64 a) ∧
      ¬ ∃ h' p, kmallocAligned (Client.boot unbootedHeap).heap 1 64 =
        some (h', p) ∧ p ≠ 0 := by
  have hinv := initHeap_invariant unbootedHeap
  refine ⟨Relation.ReflTransGen.refl, _, hinv, ⟨⟨0x120000, 131040, true⟩,
    by decide, rfl, 0x120080, by decide, by decide, by decide, by decide⟩, ?_⟩
  rw [Client.boot, kmallocAligned_ne_null_iff hinv (by decide) (by decide)
    (by decide) (by decide)]
  decide

end Otsos
