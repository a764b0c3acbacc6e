import Otsos.Heap.AlignedSpots

/-!
# First fit, and requests that fail

`kmalloc` takes the first free block that is large enough.  Blocks stand in the
order of their addresses, so that block has the lowest one.  A request that
fails has written nothing: a loop writes only on its way out.
-/

namespace Otsos

open Lib

variable {h h' : Heap} {bs : List Block} {b c : Block} {n align : ℕ}

/-- The free block of at least `n` bytes with the lowest address. -/
structure LowestFit (bs : List Block) (n : ℕ) (b : Block) : Prop where
  mem : b ∈ bs
  free : b.free = true
  fits : n ≤ b.size
  lowest : ∀ c ∈ bs, c.free = true → n ≤ c.size → b.addr ≤ c.addr

/-- The block behind `c` is free, and the two and its header hold `n`
bytes. -/
def NextAbsorbs (bs : List Block) (c : Block) (n : ℕ) : Prop :=
  ∃ d ∈ bs, d.addr = c.addr + sizeofHeader + c.size ∧ d.free = true ∧
    n ≤ c.size + sizeofHeader + d.size

def ReturnsNull (r : Option (Heap × ℕ)) : Prop := ∃ h', r = some (h', 0)

/-- If the call returns `NULL`, the heap and all of the memory are as
before. -/
def FailsClean (h : Heap) (r : Option (Heap × ℕ)) : Prop :=
  ∀ h', r = some (h', 0) → h' = h

/-! ## `kmalloc` -/

theorem lowestFit_of_find {lo hi : ℕ} (htiles : Tiles 32 lo hi bs)
    (hfind : bs.find? (fitsRequest n) = some b) : LowestFit bs n b := by
  obtain ⟨hfits, xs, ys, rfl, hskipped⟩ :=
    List.find?_eq_some_iff_append.mp hfind
  obtain ⟨hfree, hsize⟩ := fitsRequest_iff.mp hfits
  refine ⟨by simp, hfree, hsize, ?_⟩
  intro c hc hcfree hcsize
  rcases List.mem_append.mp hc with hbefore | hrest
  · have hmiss := hskipped c hbefore
    rw [fitsRequest_iff.mpr ⟨hcfree, hcsize⟩] at hmiss
    cases hmiss
  · rcases List.mem_cons.mp hrest with rfl | hafter
    · exact le_rfl
    · have hgap := htiles.after c hafter
      omega

theorem HeapInvariant.kmalloc_eq (hinv : HeapInvariant h bs) (hpos : 1 ≤ n) :
    kmalloc h n =
      match bs.find? (fitsRequest (align16 n)) with
      | none => some (h, 0)
      | some b =>
          some ({ h with mem := place h.mem b.addr (align16 n) },
            b.addr + 32) := by
  have hbounds := hinv.bounds
  have hwalk := kmallocWalk_eq (n := align16 n) [] (by omega)
    hinv.blocks.tiles hinv.repr hinv.length_lt
  rw [← hinv.head_eq] at hwalk
  unfold kmalloc
  simp only [hinv.ensureHeap_eq, if_neg (show n ≠ 0 by omega), hwalk]
  cases hfind : bs.find? (fitsRequest (align16 n)) with
  | none => rfl
  | some b =>
      have hmem := List.mem_of_find?_eq_some hfind
      rw [Option.map_some, (hinv.header_ptr hmem).1]

theorem HeapInvariant.kmalloc_null_iff (hinv : HeapInvariant h bs)
    (hpos : 1 ≤ n) :
    ReturnsNull (kmalloc h n) ↔
      ∀ b ∈ bs, b.free = true → b.size < align16 n := by
  unfold ReturnsNull
  rw [hinv.kmalloc_eq hpos]
  cases hfind : bs.find? (fitsRequest (align16 n)) with
  | none =>
      refine iff_of_true ⟨h, rfl⟩ ?_
      intro b hb hfree
      have hmiss := List.find?_eq_none.mp hfind b hb
      rw [fitsRequest_iff] at hmiss
      exact Nat.lt_of_not_le fun hle => hmiss ⟨hfree, hle⟩
  | some b =>
      have hfit := lowestFit_of_find hinv.blocks.tiles hfind
      refine iff_of_false ?_ ?_
      · rintro ⟨h', heq⟩
        simp only [Option.some.injEq, Prod.mk.injEq] at heq
        omega
      · intro hsmall
        have := hsmall b hfit.mem hfit.free
        have := hfit.fits
        omega

theorem HeapInvariant.kmalloc_firstFit (hinv : HeapInvariant h bs)
    (hpos : 1 ≤ n) (hfits : ¬ ReturnsNull (kmalloc h n)) :
    ∃ b h', LowestFit bs (align16 n) b ∧
      kmalloc h n = some (h', b.addr + 32) := by
  have heq := hinv.kmalloc_eq hpos
  cases hfind : bs.find? (fitsRequest (align16 n)) with
  | none =>
      rw [hfind] at heq
      exact absurd ⟨h, heq⟩ hfits
  | some b =>
      rw [hfind] at heq
      exact ⟨b, _, lowestFit_of_find hinv.blocks.tiles hfind, heq⟩

theorem HeapInvariant.kmalloc_failsClean (hinv : HeapInvariant h bs)
    (hn : n ≤ 2 ^ 64 - 16) : FailsClean h (kmalloc h n) := by
  intro h' hnull
  rcases kmalloc_cases hinv hn with ⟨hfail, -⟩ | ⟨h₁, bs₁, c, hok, -, -⟩
  · rw [hfail] at hnull
    cases hnull
    rfl
  · rw [hok] at hnull
    cases hnull

/-! ## `kcalloc` and `krealloc` -/

theorem HeapInvariant.kcalloc_failsClean {nmemb size : ℕ}
    (hinv : HeapInvariant h bs) (hn : nmemb * size ≤ 2 ^ 64 - 16) :
    FailsClean h (kcalloc h nmemb size) := by
  intro h' hnull
  rcases kcalloc_cases hinv hn with hfail | ⟨h₁, bs₁, c, hok, -⟩
  · rw [hfail] at hnull
    cases hnull
    rfl
  · rw [hok] at hnull
    cases hnull

theorem HeapInvariant.krealloc_failsClean {ptr : ℕ}
    (hinv : HeapInvariant h bs) (hpos : 1 ≤ n) (hn : n ≤ 2 ^ 64 - 16) :
    FailsClean h (krealloc h ptr n) := by
  intro h' hnull
  unfold krealloc at hnull
  dsimp only at hnull
  split_ifs at hnull with hptr hzero hmagic hkeep htest
  · exact hinv.kmalloc_failsClean hn h' hnull
  · omega
  · cases hnull
    rfl
  · cases hnull
    exact absurd rfl hptr
  · cases hnull
    exact absurd rfl hptr
  · rcases kmalloc_cases hinv hn with ⟨hfail, -⟩ | ⟨h₁, bs₁, c, hok, -, -⟩
    · rw [hfail] at hnull
      cases hnull
      rfl
    · rw [hok] at hnull
      dsimp only at hnull
      rw [if_neg (by omega)] at hnull
      cases hnull

theorem HeapInvariant.next_block (hinv : HeapInvariant h bs) (hc : c ∈ bs) :
    (nextField h.mem c.addr = 0 ∧
      ∀ d ∈ bs, d.addr ≠ c.addr + sizeofHeader + c.size) ∨
    ∃ d ∈ bs, nextField h.mem c.addr = d.addr ∧
      d.addr = c.addr + sizeofHeader + c.size := by
  obtain ⟨xs, ys, rfl⟩ := List.append_of_mem hc
  have hnext := hinv.repr.links_at.2
  have htiles := hinv.blocks.tiles
  rw [hnext]
  cases ys with
  | nil =>
      left
      refine ⟨rfl, ?_⟩
      intro d hd haddr
      simp only [sizeofHeader] at haddr
      rcases List.mem_append.mp hd with hd | hd
      · have hbefore := htiles.before d hd
        omega
      · rw [List.mem_singleton] at hd
        subst hd
        omega
  | cons d ys =>
      exact Or.inr ⟨d, by simp, rfl, htiles.next_addr⟩

theorem HeapInvariant.nextAbsorbs_iff (hinv : HeapInvariant h bs)
    (hc : c ∈ bs) :
    (nextField h.mem c.addr ≠ 0 ∧
      isFreeField h.mem (nextField h.mem c.addr) ≠ 0 ∧
      n ≤ wrap64 (wrap64 (c.size + sizeofHeader) +
        sizeField h.mem (nextField h.mem c.addr))) ↔ NextAbsorbs bs c n := by
  rcases hinv.next_block hc with ⟨hzero, hnone⟩ | ⟨d, hd, hnext, haddr⟩
  · refine iff_of_false (fun htest => htest.1 hzero) ?_
    rintro ⟨d, hd, haddr, -⟩
    exact hnone d hd haddr
  · have hheld := hinv.repr.holds d hd
    have hbounds := hinv.bounds
    have hdbound := (hinv.blocks.tiles.bounds hd).2
    have hcbound := (hinv.blocks.tiles.bounds hc).2
    have hsum : wrap64 (wrap64 (c.size + sizeofHeader) + d.size) =
        c.size + sizeofHeader + d.size := by
      simp only [wrap64, sizeofHeader]
      omega
    rw [hnext, hheld.isFree_ne_zero_iff, hheld.size, hsum]
    constructor
    · rintro ⟨-, hfree, hfits⟩
      exact ⟨d, hd, haddr, hfree, hfits⟩
    · rintro ⟨e, he, headdr, hfree, hfits⟩
      obtain rfl : e = d := hinv.blocks.tiles.eq_of_addr (by omega) he hd
        (headdr.trans haddr.symm)
      simp only [sizeofHeader] at haddr
      exact ⟨by omega, hfree, hfits⟩

theorem HeapInvariant.krealloc_null_iff (hinv : HeapInvariant h bs)
    (hc : c ∈ bs) (hused : c.free = false) (hpos : 1 ≤ n)
    (hn : n ≤ 2 ^ 64 - 16) :
    ReturnsNull (krealloc h (c.addr + 32) n) ↔
      c.size < n ∧ ¬ NextAbsorbs bs c n ∧ ReturnsNull (kmalloc h n) := by
  obtain ⟨hptr, -, -, hmagic, hsize⟩ := hinv.header_tests hc
  have hheader := (hinv.header_ptr hc).2
  by_cases hkeep : n ≤ c.size
  · refine iff_of_false ?_ (fun hall => absurd hall.1 (by omega))
    rintro ⟨h', hnull⟩
    simp only [krealloc, hptr, hheader, hmagic, hsize, hkeep, if_false,
      if_true, ne_eq, not_true_eq_false, show n ≠ 0 by omega,
      Option.some.injEq, Prod.mk.injEq] at hnull
    exact hnull.2
  · have hlarger : c.size < n := by omega
    by_cases habsorbs : NextAbsorbs bs c n
    · obtain ⟨h', bs', c', hok, -⟩ := krealloc_grow_eq hinv hc hused hlarger
        hn (hinv.nextAbsorbs_iff hc |>.mpr habsorbs)
      refine iff_of_false ?_ (fun hall => hall.2.1 habsorbs)
      rintro ⟨h'', hnull⟩
      rw [hok] at hnull
      cases hnull
    · have hmove := krealloc_move_eq hinv hc hlarger
        (mt (hinv.nextAbsorbs_iff hc).mp habsorbs)
      rw [hmove, and_iff_right hlarger, and_iff_right habsorbs]
      rcases kmalloc_cases hinv hn with
        ⟨hfail, -⟩ | ⟨h₁, bs₁, c', hok, -⟩
      · rw [hfail]
        exact iff_of_true ⟨h, rfl⟩ ⟨h, rfl⟩
      · rw [hok]
        refine iff_of_false ?_ ?_
        · rintro ⟨h', hnull⟩
          dsimp only at hnull
          rw [if_neg (by omega)] at hnull
          cases hnull
        · rintro ⟨h', hnull⟩
          cases hnull

/-! ## `kmalloc_aligned` -/

theorem HeapInvariant.kmallocAligned_failsClean (hinv : HeapInvariant h bs)
    (hn : n ≤ 2 ^ 32) (halign : align ≤ 2 ^ 32) :
    FailsClean h (kmallocAligned h n align) := by
  intro h' hnull
  rcases kmallocAligned_cases hinv hn halign with
    hfail | ⟨h₁, bs₁, c, hok, -⟩
  · rw [hfail] at hnull
    cases hnull
    rfl
  · rw [hok] at hnull
    cases hnull

/-! ## The law -/

/-- Allocation is first fit, `krealloc` fails only after its three strategies
have, and a call that fails has changed nothing. -/
theorem allocation_exact (hinv : HeapInvariant h bs) :
    (∀ n, 1 ≤ n → n ≤ 2 ^ 32 →
      (ReturnsNull (kmalloc h n) ↔
        ∀ b ∈ bs, b.free = true → b.size < align16 n) ∧
      (¬ ReturnsNull (kmalloc h n) →
        ∃ b h', LowestFit bs (align16 n) b ∧
          kmalloc h n = some (h', b.addr + 32)) ∧
      FailsClean h (kmalloc h n)) ∧
    (∀ nmemb size, 1 ≤ nmemb * size → nmemb * size ≤ 2 ^ 32 →
      FailsClean h (kcalloc h nmemb size)) ∧
    (∀ c ∈ bs, c.free = false → ∀ n, 1 ≤ n → n ≤ 2 ^ 32 →
      (ReturnsNull (krealloc h (c.addr + 32) n) ↔
        c.size < n ∧ ¬ NextAbsorbs bs c n ∧ ReturnsNull (kmalloc h n))) ∧
    (∀ ptr n, 1 ≤ n → n ≤ 2 ^ 32 → FailsClean h (krealloc h ptr n)) ∧
    ∀ n align, 1 ≤ n → n ≤ 2 ^ 32 → 1 ≤ align → align ≤ 2 ^ 32 →
      FailsClean h (kmallocAligned h n align) := by
  refine ⟨?_, ?_, ?_, ?_, ?_⟩
  · intro n hpos hn
    exact ⟨hinv.kmalloc_null_iff hpos, hinv.kmalloc_firstFit hpos,
      hinv.kmalloc_failsClean (by omega)⟩
  · intro nmemb size _ hn
    exact hinv.kcalloc_failsClean (by omega)
  · intro c hc hused n hpos hn
    exact hinv.krealloc_null_iff hc hused hpos (by omega)
  · intro ptr n hpos hn
    exact hinv.krealloc_failsClean hpos (by omega)
  · intro n align _ hn _ halign
    exact hinv.kmallocAligned_failsClean hn halign

/-- Between the two live blocks 3888 bytes are free, and 126880 behind
them. -/
theorem allocation_exact_unbootedHeap : ∃ s : Client, ∃ bs,
    s.live = [⟨0x121000, 64, 4096⟩, ⟨0x120020, 100, 1⟩] ∧
    HeapInvariant s.heap bs ∧
    (∃ b h', LowestFit bs 208 b ∧ b.addr = 0x120090 ∧
      kmalloc s.heap 200 = some (h', 0x1200b0)) ∧
    (∃ b h', LowestFit bs 3904 b ∧ b.addr = 0x121040 ∧
      kmalloc s.heap 3889 = some (h', 0x121060)) ∧
    ∀ b ∈ bs, b.free = true → b.size < 126896 := by
  obtain ⟨s, hreach, hlive, hbetween, hbehind, hnull⟩ :=
    unbootedHeap_two (P := fun s =>
      s.live = [⟨0x121000, 64, 4096⟩, ⟨0x120020, 100, 1⟩] ∧
      (kmalloc s.heap 200).map Prod.snd = some 0x1200b0 ∧
      (kmalloc s.heap 3889).map Prod.snd = some 0x121060 ∧
      (kmalloc s.heap 126881).map Prod.snd = some 0) (by decide +kernel)
  obtain ⟨bs, hinv, -⟩ := hreach.invariant
  have hgrant : ∀ n p, 1 ≤ n → n ≤ 2 ^ 32 → p ≠ 0 →
      (kmalloc s.heap n).map Prod.snd = some p →
      ∃ b h', LowestFit bs (align16 n) b ∧ b.addr + 32 = p ∧
        kmalloc s.heap n = some (h', p) := by
    intro n p hpos hn hp hmap
    obtain ⟨⟨h', q⟩, hok, rfl⟩ := Option.map_eq_some_iff.mp hmap
    obtain ⟨b, h'', hlowest, heq⟩ :=
      ((allocation_exact hinv.heap).1 n hpos hn).2.1 (by
        rintro ⟨h₀, hnull⟩
        rw [hok] at hnull
        exact hp (congrArg (fun r => r.2) (Option.some.inj hnull)))
    rw [hok] at heq
    cases heq
    exact ⟨b, h', hlowest, rfl, hok⟩
  obtain ⟨b, h₁, hlow, hb, hkb⟩ := hgrant 200 _ (by decide) (by decide)
    (by decide) hbetween
  obtain ⟨c, h₂, hlow', hc, hkc⟩ := hgrant 3889 _ (by decide) (by decide)
    (by decide) hbehind
  obtain ⟨⟨h₃, q⟩, hok, rfl⟩ := Option.map_eq_some_iff.mp hnull
  exact ⟨s, bs, hlive, hinv.heap, ⟨b, h₁, hlow, by omega, hkb⟩,
    ⟨c, h₂, hlow', by omega, hkc⟩,
    ((allocation_exact hinv.heap).1 126881 (by decide) (by decide)).1.mp
      ⟨h₃, hok⟩⟩

end Otsos
