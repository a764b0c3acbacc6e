import Mathlib.Algebra.GroupWithZero.Nat
import Otsos.Heap.Moves

/-!
# What each call does

One theorem for each entry point of the allocator.  On a heap that satisfies
the invariant every call returns, keeps the invariant, and changes the used
blocks in the way its name says.  Together with the fact that used blocks
determine the list, this is all the later results need to know about the code.
-/

namespace Otsos

open Lib

/-- The heap holds the well-formed block list `bs`. -/
structure HeapInvariant (h : Heap) (bs : List Block) : Prop where
  start : h.heapStart = align16 h.image.kernelEnd
  stop : h.heapEnd = h.heapStart + heapSize
  head : h.heapHead = h.heapStart
  repr : Represents h.mem bs
  blocks : WellFormedBlocks h.heapStart h.heapEnd bs

variable {h h' : Heap} {bs bs' : List Block} {n : ℕ}

/-! ## Rounding -/

theorem align16_eq (hn : n ≤ 2 ^ 64 - 16) : align16 n = n + 15 - (n + 15) % 16 := by
  unfold align16
  rw [wrap64_of_lt (by omega)]
  exact clearBits_two_pow_sub_one (k := 4) (by omega) (by omega)

theorem align16_bounds (hn : n ≤ 2 ^ 64 - 16) :
    n ≤ align16 n ∧ align16 n < n + 16 ∧ 16 ∣ align16 n := by
  rw [align16_eq hn]
  omega

theorem align16_pos (hn : n ≤ 2 ^ 64 - 16) (hpos : n ≠ 0) : 16 ≤ align16 n := by
  have := align16_bounds hn
  omega

theorem KernelImage.start_bounds (image : KernelImage) :
    0x100000 ≤ align16 image.kernelEnd ∧
      align16 image.kernelEnd < 2 ^ 48 ∧ 16 ∣ align16 image.kernelEnd := by
  have hlinked := image.linked
  have hlow := image.lowHalf
  have := align16_bounds (n := image.kernelEnd) (by omega)
  omega

theorem HeapInvariant.bounds (hinv : HeapInvariant h bs) :
    0x100000 ≤ h.heapStart ∧ h.heapEnd < 2 ^ 49 ∧ 16 ∣ h.heapStart := by
  have himage := h.image.start_bounds
  have hstop := hinv.stop
  rw [← hinv.start] at himage
  simp only [heapSize] at hstop
  omega

theorem HeapInvariant.head_eq (hinv : HeapInvariant h bs) :
    h.heapHead = followAddr bs := by
  have hstop := hinv.stop
  simp only [heapSize] at hstop
  cases bs with
  | nil =>
      have hnil : h.heapStart = h.heapEnd := hinv.blocks.tiles
      omega
  | cons b bs =>
      rw [hinv.head]
      exact hinv.blocks.tiles.1.symm

theorem HeapInvariant.head_ne (hinv : HeapInvariant h bs) :
    h.heapHead ≠ 0 := by
  have hhead := hinv.head
  have hbounds := hinv.bounds
  omega

theorem HeapInvariant.ensureHeap_eq (hinv : HeapInvariant h bs) :
    ensureHeap h = h := by
  unfold ensureHeap
  rw [if_neg hinv.head_ne]

/-- A walk over the list needs fewer steps than there are addresses. -/
theorem HeapInvariant.length_lt (hinv : HeapInvariant h bs) :
    bs.length < walkFuel := by
  have hlen := hinv.blocks.tiles.length_mul_le
    fun b hb => (hinv.blocks.sizes b hb).2
  have hbounds := hinv.bounds
  simp only [walkFuel]
  omega

theorem HeapInvariant.dvd_addr {b : Block} (hinv : HeapInvariant h bs)
    (hb : b ∈ bs) : 16 ∣ b.addr :=
  hinv.blocks.tiles.dvd_addr hinv.bounds.2.2 (by omega)
    (fun c hc => (hinv.blocks.sizes c hc).1) hb

theorem HeapInvariant.payload_not_header {b : Block} {x : ℕ}
    (hinv : HeapInvariant h bs) (hb : b ∈ bs) (hlow : b.addr + 32 ≤ x)
    (hhigh : x < b.addr + 32 + b.size) : ¬ InHeader bs x := by
  rintro ⟨c, hc, hx⟩
  exact hinv.blocks.tiles.payload_not_header hb hc hlow hhigh hx

theorem HeapInvariant.withMem {m : Memory} (hinv : HeapInvariant h bs)
    (hrep : Represents m bs')
    (hblocks : WellFormedBlocks h.heapStart h.heapEnd bs') :
    HeapInvariant { h with mem := m } bs' :=
  ⟨hinv.start, hinv.stop, hinv.head, hrep, hblocks⟩

theorem HeapInvariant.write {m : Memory} (hinv : HeapInvariant h bs)
    (hsame : ∀ x, InHeader bs x → m x = h.mem x) :
    HeapInvariant { h with mem := m } bs := by
  refine hinv.withMem ?_ hinv.blocks
  have hheader : ∀ b ∈ bs, SameHeader h.mem m b.addr := by
    intro b hb
    apply SameHeader.of_bytes
    intro x hlow hhigh
    exact hsame x ⟨b, hb, hlow, hhigh⟩
  refine ⟨hinv.repr.links.congr ?_, ?_⟩
  · intro a ha
    obtain ⟨b, hb, rfl⟩ := List.mem_map.mp ha
    exact ⟨(hheader b hb).next, (hheader b hb).prev⟩
  · intro b hb
    exact (hinv.repr.holds b hb).of_same (hheader b hb)

theorem initHeap_image (h : Heap) : (initHeap h).image = h.image := rfl

theorem initHeap_start (h : Heap) :
    (initHeap h).heapStart = align16 h.image.kernelEnd := rfl

theorem initHeap_head (h : Heap) :
    (initHeap h).heapHead = align16 h.image.kernelEnd := rfl

theorem initHeap_stop (h : Heap) :
    (initHeap h).heapEnd = align16 h.image.kernelEnd + heapSize := by
  have hbounds := h.image.start_bounds
  exact wrap64_of_lt (by simp only [heapSize]; omega)

theorem initHeap_represents (h : Heap) :
    Represents (initHeap h).mem
      [⟨align16 h.image.kernelEnd, heapSize - sizeofHeader, true⟩] := by
  have hmod : (heapSize - sizeofHeader) % 256 ^ 8 =
      heapSize - sizeofHeader :=
    word_mod (by simp only [heapSize, sizeofHeader]; omega)
  simp only [initHeap]
  refine ⟨⟨?_, ?_, trivial⟩, ?_⟩
  · simp (disch := omega) only [prevField, setIsFree, setPrev,
      Memory.load_store_disjoint, Memory.load_store_same, Nat.zero_mod]
  · simp (disch := omega) only [nextField, setIsFree, setPrev, setNext,
      Memory.load_store_disjoint, Memory.load_store_same, Nat.zero_mod,
      List.map_nil, List.headD_nil]
  · intro b hb
    rw [List.mem_singleton] at hb
    subst hb
    constructor
    · simp (disch := omega) only [magicField, setIsFree, setPrev, setNext,
        setSize, setMagic, Memory.load_store_disjoint,
        Memory.load_store_same]
      rfl
    · simp only [isFreeField, setIsFree, Memory.load_store_same]
      rfl
    · simp (disch := omega) only [sizeField, setIsFree, setPrev, setNext,
        setSize, Memory.load_store_disjoint, Memory.load_store_same, hmod]

theorem initHeap_invariant (h : Heap) :
    HeapInvariant (initHeap h)
      [⟨align16 h.image.kernelEnd, heapSize - sizeofHeader, true⟩] := by
  constructor
  · rw [initHeap_start, initHeap_image]
  · rw [initHeap_stop, initHeap_start]
  · rw [initHeap_head, initHeap_start]
  · exact initHeap_represents h
  · rw [initHeap_start, initHeap_stop]
    refine ⟨⟨rfl, ?_⟩, ?_, ?_⟩
    · show align16 h.image.kernelEnd + 32 + (heapSize - sizeofHeader) =
        align16 h.image.kernelEnd + heapSize
      unfold heapSize sizeofHeader
      omega
    · intro b hb
      rw [List.mem_singleton] at hb
      subst hb
      simp only [heapSize, sizeofHeader]
      omega
    · simp [coalesced_cons]

/-! ## Allocation -/

/-- A call handed out the block `c` of at least `n` bytes. -/
structure Granted (h : Heap) (bs : List Block) (n : ℕ) (h' : Heap)
    (bs' : List Block) (c : Block) : Prop where
  image : h'.image = h.image
  inv : HeapInvariant h' bs'
  used : c.free = false
  fits : n ≤ c.size
  fresh : c ∉ bs
  used_iff : ∀ d : Block, d.free = false → (d ∈ bs' ↔ d ∈ bs ∨ d = c)
  frame : Memory.FrameOutside (InHeader bs') h.mem h'.mem

theorem Granted.mem {c : Block} (hg : Granted h bs n h' bs' c) : c ∈ bs' :=
  (hg.used_iff c hg.used).mpr (Or.inr rfl)

/-- The blocks `kmalloc` accepts. -/
def fitsRequest (n : ℕ) (b : Block) : Bool :=
  b.free && decide (n ≤ b.size)

theorem fitsRequest_iff {b : Block} :
    fitsRequest n b = true ↔ b.free = true ∧ n ≤ b.size := by
  simp [fitsRequest]

theorem kmallocWalk_eq {m : Memory} {lo hi fuel : ℕ} {ys : List Block}
    (xs : List Block) (hlo : 0 < lo) (htiles : Tiles 32 lo hi (xs ++ ys))
    (hrep : Represents m (xs ++ ys)) (hfuel : ys.length < fuel) :
    kmallocWalk m n fuel (followAddr ys) =
      match ys.find? (fitsRequest n) with
      | none => some (m, 0)
      | some b => some (place m b.addr n, wrap64 (b.addr + sizeofHeader)) := by
  induction ys generalizing xs fuel with
  | nil =>
      cases fuel with
      | zero => omega
      | succ fuel => simp [kmallocWalk]
  | cons y ys ih =>
      cases fuel with
      | zero => omega
      | succ fuel =>
          have hheld := hrep.holds_at
          have hlow := (htiles.bounds (b := y) (by simp)).1
          have hnext := hrep.links_at.2
          have hne : y.addr ≠ 0 := by omega
          have htest : (isFreeField m y.addr ≠ 0 ∧ n ≤ sizeField m y.addr) ↔
              fitsRequest n y = true := by
            rw [hheld.isFree_ne_zero_iff, hheld.size, fitsRequest_iff]
          have hcurrent : followAddr (y :: ys) = y.addr := rfl
          rw [hcurrent, kmallocWalk, if_neg hne,
            if_neg (not_not.mpr hheld.magic)]
          by_cases hfit : fitsRequest n y = true
          · rw [if_pos (htest.mpr hfit), List.find?_cons_of_pos hfit]
            rfl
          · rw [if_neg (fun h => hfit (htest.mp h)),
              List.find?_cons_of_neg hfit, hnext]
            exact ih (xs ++ [y]) (by simpa using htiles)
              (by simpa using hrep) (by simpa using hfuel)

theorem HeapInvariant.grant {xs ys : List Block} {b : Block}
    (hinv : HeapInvariant h (xs ++ b :: ys)) (hfree : b.free = true)
    (hn : 16 ∣ n ∧ 16 ≤ n) (hfit : n ≤ b.size) (hsmall : n < 2 ^ 62) :
    Granted h (xs ++ b :: ys) n { h with mem := place h.mem b.addr n }
      (xs ++ (carve b n ++ ys)) ⟨b.addr, cutSize b n, false⟩ := by
  have hbounds := hinv.bounds
  obtain ⟨hrep, hframe⟩ := place_represents (n := n) (by omega) (by omega)
    hinv.blocks.tiles hinv.repr hsmall
  refine ⟨rfl, hinv.withMem hrep (hinv.blocks.carve hfree hn), rfl,
    cutSize_ge hfit, ?_, ?_, ?_⟩
  · intro hmem
    have hsame := hinv.blocks.tiles.eq_of_addr (by omega) hmem
      (show b ∈ xs ++ b :: ys by simp) rfl
    rw [← hsame] at hfree
    simp at hfree
  · intro d hd
    exact mem_carved_iff hd hfree
  · exact hframe.mono fun x hx =>
      hx.of_subset fun d hd => List.mem_append_right xs hd

theorem HeapInvariant.header_ptr {b : Block} (hinv : HeapInvariant h bs)
    (hb : b ∈ bs) : wrap64 (b.addr + sizeofHeader) = b.addr + 32 ∧
      sub64 (b.addr + 32) sizeofHeader = b.addr := by
  have hbound := (hinv.blocks.tiles.bounds hb).2
  have hbounds := hinv.bounds
  simp only [wrap64, sub64, sizeofHeader]
  omega

theorem kmalloc_cases (hinv : HeapInvariant h bs) (hn : n ≤ 2 ^ 64 - 16) :
    (kmalloc h n = some (h, 0) ∧
      (n = 0 ∨ ∀ b ∈ bs, b.free = true → b.size < align16 n)) ∨
    ∃ h' bs' c, kmalloc h n = some (h', c.addr + 32) ∧ n ≠ 0 ∧
      Granted h bs n h' bs' c := by
  unfold kmalloc
  simp only [hinv.ensureHeap_eq]
  by_cases hzero : n = 0
  · exact Or.inl ⟨by simp [hzero], Or.inl hzero⟩
  · have hround := align16_bounds (n := n) (by omega)
    have hpos := align16_pos (n := n) (by omega) hzero
    have hbounds := hinv.bounds
    have hwalk := kmallocWalk_eq (n := align16 n) [] (by omega)
      hinv.blocks.tiles hinv.repr hinv.length_lt
    rw [← hinv.head_eq] at hwalk
    simp only [hzero, if_false, hwalk]
    cases hfind : bs.find? (fitsRequest (align16 n)) with
    | none =>
        refine Or.inl ⟨rfl, Or.inr ?_⟩
        intro b hb hfree
        have hmiss := List.find?_eq_none.mp hfind b hb
        rw [fitsRequest_iff] at hmiss
        exact Nat.lt_of_not_le fun hle => hmiss ⟨hfree, hle⟩
    | some b =>
        obtain ⟨hfit, xs, ys, rfl, -⟩ :=
          List.find?_eq_some_iff_append.mp hfind
        obtain ⟨hfree, hsize⟩ := fitsRequest_iff.mp hfit
        have hbound := (hinv.blocks.tiles.bounds (b := b) (by simp)).2
        have hgrant := hinv.grant hfree ⟨hround.2.2, hpos⟩ hsize (by omega)
        refine Or.inr ⟨_, _, _, ?_, hzero,
          { hgrant with fits := hround.1.trans hgrant.fits }⟩
        rw [Option.map_some, (hinv.header_ptr (b := b) (by simp)).1]

/-- The heap of `kcalloc` after clearing `k` bytes at `p`. -/
def clearPayload (h : Heap) (p k : ℕ) : Heap :=
  { h with mem := memset h.mem p 0 k }

theorem HeapInvariant.clearPayload {c : Block} {k : ℕ}
    (hinv : HeapInvariant h bs) (hc : c ∈ bs) (hk : k ≤ c.size) :
    HeapInvariant (clearPayload h (c.addr + 32) k) bs := by
  refine hinv.write fun x hx => memset_outside _ _ ?_
  by_contra hin
  exact hinv.payload_not_header (x := x) hc (by omega) (by omega) hx

/-- Where the product does not wrap `kcalloc` is a cleared `kmalloc`. -/
theorem kcalloc_eq {nmemb size : ℕ} (hlt : nmemb * size < 2 ^ 64) :
    kcalloc h nmemb size =
      match kmalloc h (nmemb * size) with
      | none => none
      | some (h, ptr) =>
          if ptr ≠ 0 then
            some ({ h with mem := memset h.mem ptr 0 (nmemb * size) }, ptr)
          else some (h, ptr) := by
  have htotal : wrap64 (nmemb * size) = nmemb * size := wrap64_of_lt hlt
  have htest : ¬ (nmemb ≠ 0 ∧ nmemb * size / nmemb ≠ size) := by
    rintro ⟨hpos, hdiv⟩
    exact hdiv (Nat.mul_div_cancel_left size (Nat.pos_of_ne_zero hpos))
  unfold kcalloc
  simp only [htotal]
  exact if_neg htest

theorem kcalloc_cases {nmemb size : ℕ} (hinv : HeapInvariant h bs)
    (hn : nmemb * size ≤ 2 ^ 64 - 16) :
    kcalloc h nmemb size = some (h, 0) ∨
    ∃ h' bs' c, kcalloc h nmemb size =
        some (clearPayload h' (c.addr + 32) (nmemb * size), c.addr + 32) ∧
      Granted h bs (nmemb * size) h' bs' c := by
  rw [kcalloc_eq (by omega)]
  rcases kmalloc_cases hinv hn with ⟨hfail, -⟩ | ⟨h', bs', c, hok, -, hg⟩
  · left
    rw [hfail]
    rfl
  · right
    refine ⟨h', bs', c, ?_, hg⟩
    rw [hok]
    simp only
    rw [if_pos (by omega)]
    rfl

/-! ## Release -/

/-- A call took back the used block `c`. -/
structure Released (h : Heap) (bs : List Block) (h' : Heap)
    (bs' : List Block) (c : Block) : Prop where
  image : h'.image = h.image
  inv : HeapInvariant h' bs'
  used_iff : ∀ d : Block, d.free = false → (d ∈ bs' ↔ d ∈ bs ∧ d ≠ c)
  frame : Memory.FrameOutside (InHeader bs) h.mem h'.mem

theorem HeapInvariant.header_tests {c : Block} (hinv : HeapInvariant h bs)
    (hc : c ∈ bs) : c.addr + 32 ≠ 0 ∧
      ¬ (h.heapStart = 0 ∨ h.heapEnd = 0) ∧
      ¬ (c.addr < h.heapStart ∨ h.heapEnd ≤ c.addr) ∧
      magicField h.mem c.addr = heapMagic ∧
      sizeField h.mem c.addr = c.size := by
  have hbound := hinv.blocks.tiles.bounds hc
  have hbounds := hinv.bounds
  have hheld := hinv.repr.holds c hc
  exact ⟨by omega, by omega, by omega, hheld.magic, hheld.size⟩

/-- How the release goes through the memory: after the flag of `c` is set, no
magic number and no flag is written again, and no block starts at a new
address. -/
structure ReleaseSteps (h : Heap) (bs : List Block) (h' : Heap)
    (bs' : List Block) (c : Block) : Prop where
  released : Released h bs h' bs' c
  links : Memory.FrameOutside (InLinks bs) (setIsFree h.mem c.addr 1) h'.mem
  addrs : ∀ d ∈ bs', ∃ e ∈ bs, e.addr = d.addr

theorem kfree_steps {c : Block} (hinv : HeapInvariant h bs)
    (hc : c ∈ bs) (hused : c.free = false) :
    ∃ bs', ReleaseSteps h bs (kfree h (c.addr + 32)) bs' c := by
  obtain ⟨hptr, hstatics, hrange, hmagic, -⟩ := hinv.header_tests hc
  have hheader := (hinv.header_ptr hc).2
  have hflag : isFreeField h.mem c.addr = 0 := by
    rw [(hinv.repr.holds c hc).flag, hused]
    rfl
  have hcall : kfree h (c.addr + 32) =
      { h with mem :=
        (coalesce (setIsFree h.mem c.addr 1) c.addr).1 } := by
    simp only [kfree, hptr, hstatics, hheader, hrange, hmagic, hflag,
      if_false, ne_eq, not_true_eq_false]
  rw [hcall]
  obtain ⟨xs, ys, rfl⟩ := List.append_of_mem hc
  have hbounds := hinv.bounds
  have hlow := (hinv.blocks.tiles.bounds hc).1
  have htiles := hinv.blocks.tiles
  -- the released block, then its successor, then its predecessor
  obtain ⟨hset, hsetFrame⟩ := setIsFree_represents (f := true) (v := 1)
    htiles hinv.repr rfl
  have htilesSet : Tiles 32 h.heapStart h.heapEnd
      (xs ++ { c with free := true } :: ys) := tiles_flag_iff.mpr htiles
  have hflag' : isFreeField (setIsFree h.mem c.addr 1) c.addr ≠ 0 := by
    have hheld := hset.holds_at
    rw [show c.addr = ({ c with free := true } : Block).addr by rfl,
      hheld.isFree_ne_zero_iff]
  rw [coalesce_eq (by omega) hflag']
  obtain ⟨hnext, hnextFrame⟩ := coalesceNext_represents (by omega)
    (by omega) htilesSet hset rfl
  rw [joinNext_flag] at hnext
  simp only at hnext hnextFrame
  obtain ⟨hxs, hys, -⟩ := hinv.blocks.split_at
  have hjoined := AlmostWellFormed.joinNext
    ⟨htiles, hinv.blocks.sizes, hxs, hys⟩
  have haddr : (joinNext c ys).1.addr = c.addr := joinNext_addr
  obtain ⟨hprev, hprevFrame⟩ := coalescePrev_represents (by omega)
    (by omega) hjoined.1.tiles hnext
  rw [haddr] at hprev hprevFrame
  have hlinks : Memory.FrameOutside (InLinks (xs ++ c :: ys))
      (setIsFree h.mem c.addr 1)
      (coalescePrev (coalesceNext (setIsFree h.mem c.addr 1) c.addr)
        c.addr).1 := by
    refine (hnextFrame.mono ?_).trans (hprevFrame.mono ?_)
    · intro x hx
      refine hx.mono ?_
      intro d hd
      rcases List.mem_cons.mp hd with rfl | hd
      · exact ⟨c, hc, rfl⟩
      · exact ⟨d, by simp [hd], rfl⟩
    · intro x hx
      refine hx.mono ?_
      intro d hd
      simp only [List.mem_append, List.mem_cons] at hd
      rcases hd with hd | rfl | hd
      · exact ⟨d, by simp [hd], rfl⟩
      · exact ⟨c, hc, haddr.symm⟩
      · exact ⟨d, by simp [joinNext_subset hd], rfl⟩
  refine ⟨release xs c ys, ⟨rfl, hinv.withMem hprev hinv.blocks.release, ?_,
    ?_⟩, hlinks, fun d hd => release_addr hd⟩
  · intro d hd
    exact mem_release_iff hd hinv.blocks
  · refine (hsetFrame.mono ?_).trans (hlinks.mono fun x hx => hx.inHeader)
    intro x hx
    exact hx.of_subset fun d hd => by
      rw [List.mem_singleton.mp hd]
      exact hc

theorem kfree_released {c : Block} (hinv : HeapInvariant h bs)
    (hc : c ∈ bs) (hused : c.free = false) :
    ∃ bs', Released h bs (kfree h (c.addr + 32)) bs' c := by
  obtain ⟨bs', hsteps⟩ := kfree_steps hinv hc hused
  exact ⟨bs', hsteps.released⟩

/-! ## Resizing in place -/

/-- A call left the used block `c` where it is, with room for `n` bytes. -/
structure Resized (h : Heap) (bs : List Block) (n : ℕ) (h' : Heap)
    (bs' : List Block) (c c' : Block) : Prop where
  image : h'.image = h.image
  inv : HeapInvariant h' bs'
  addr : c'.addr = c.addr
  used : c'.free = false
  fits : n ≤ c'.size
  larger : c.size ≤ c'.size
  used_iff : ∀ d : Block, d.free = false →
    (d ∈ bs' ↔ (d ∈ bs ∧ d ≠ c) ∨ d = c')
  frame : Memory.FrameOutside (InHeader bs') h.mem h'.mem

theorem Resized.refl {c : Block} (hinv : HeapInvariant h bs) (hc : c ∈ bs)
    (hused : c.free = false) (hfit : n ≤ c.size) :
    Resized h bs n h bs c c := by
  refine ⟨rfl, hinv, rfl, hused, hfit, le_rfl, ?_,
    Memory.FrameOutside.refl _ _⟩
  intro d hd
  by_cases hdc : d = c
  · simp [hdc, hc]
  · simp [hdc]

/-- A used block takes over its free successor and gives back what it does not
need. -/
theorem HeapInvariant.grow {xs ys : List Block} {b c : Block}
    (hinv : HeapInvariant h (xs ++ b :: c :: ys)) (hb : b.free = false)
    (hc : c.free = true) (hn : 16 ∣ n ∧ 16 ≤ n) (hlarger : b.size ≤ n)
    (hfit : n ≤ b.size + 32 + c.size) (hsmall : n < 2 ^ 62) :
    ∃ bs' c', Resized h (xs ++ b :: c :: ys) n
      { h with
        mem := splitBlock (absorb h.mem b.addr c.addr b.addr) b.addr n }
      bs' b c' := by
  have hbounds := hinv.bounds
  have htiles := hinv.blocks.tiles
  let joined : Block := ⟨b.addr, b.size + 32 + c.size, false⟩
  obtain ⟨habsorb, habsorbFrame⟩ := absorb_represents (by omega) (by omega)
    htiles hinv.repr (Or.inl rfl)
  rw [hb] at habsorb
  have htiles' : Tiles 32 h.heapStart h.heapEnd (xs ++ joined :: ys) := by
    rw [show c = ⟨b.addr + 32 + b.size, c.size, c.free⟩ by
      rw [← htiles.next_addr]] at htiles
    exact tiles_cut_iff.mp htiles
  obtain ⟨hsplit, hsplitFrame⟩ := splitBlock_represents (b := joined)
    (by omega) (by omega) htiles' habsorb hsmall
  have hblocks : WellFormedBlocks h.heapStart h.heapEnd
      (xs ++ (carve joined n ++ ys)) := by
    obtain ⟨hxs, hrest, -⟩ := hinv.blocks.split_at
    obtain ⟨hseam, hys⟩ := coalesced_cons.mp hrest
    refine WellFormedBlocks.carve_of_parts htiles' ?_ hxs hys ?_ hn
    · intro d hd
      simp only [List.mem_append, List.mem_cons] at hd
      rcases hd with hd | rfl | hd
      · exact hinv.blocks.sizes d (by simp [hd])
      · exact joined_size (hinv.blocks.sizes b (by simp))
          (hinv.blocks.sizes c (by simp))
      · exact hinv.blocks.sizes d (by simp [hd])
    · intro y hy
      simpa [hc] using hseam y hy
  refine ⟨_, ⟨b.addr, cutSize joined n, false⟩, rfl,
    hinv.withMem hsplit hblocks, rfl, rfl, cutSize_ge hfit, ?_, ?_, ?_⟩
  · exact hlarger.trans (cutSize_ge hfit)
  · intro d hd
    have hdc : d ≠ c := by
      rintro rfl
      simp [hd] at hc
    have hbefore : d ∈ xs → d ≠ b := by
      rintro hmem rfl
      have := htiles.before d hmem
      omega
    have hafter : d ∈ ys → d ≠ b := by
      rintro hmem rfl
      have := htiles.after d (by simp [hmem])
      omega
    have hcarve := mem_carve_of_used (b := joined) (n := n) hd
    change d ∈ xs ++ (carve joined n ++ ys) ↔ _
    simp only [List.mem_append, List.mem_cons, hcarve, hdc, false_or]
    constructor
    · rintro (hx | rfl | hy)
      · exact Or.inl ⟨Or.inl hx, hbefore hx⟩
      · exact Or.inr rfl
      · exact Or.inl ⟨Or.inr (Or.inr hy), hafter hy⟩
    · rintro (⟨hx | rfl | hy, hne⟩ | rfl)
      · exact Or.inl hx
      · exact absurd rfl hne
      · exact Or.inr (Or.inr hy)
      · exact Or.inr (Or.inl rfl)
  · refine (habsorbFrame.mono ?_).trans (hsplitFrame.mono ?_)
    · intro x hx
      refine hx.inHeader.mono ?_
      intro d hd
      rcases List.mem_cons.mp hd with rfl | hd
      · exact ⟨⟨d.addr, cutSize joined n, false⟩, by simp [cut, joined], rfl⟩
      · exact ⟨d, by simp [hd], rfl⟩
    · intro x hx
      exact hx.of_subset fun d hd => List.mem_append_right xs hd

/-! ## `krealloc` -/

/-- The heap of the move path after copying `k` bytes to `q`. -/
def copyPayload (h : Heap) (q p k : ℕ) : Heap :=
  { h with mem := memcpy h.mem q p k }

theorem HeapInvariant.copyPayload {c : Block} {p k : ℕ}
    (hinv : HeapInvariant h bs) (hc : c ∈ bs) (hk : k ≤ c.size) :
    HeapInvariant (copyPayload h (c.addr + 32) p k) bs := by
  refine hinv.write fun x hx => memcpy_outside _ ?_
  by_contra hin
  exact hinv.payload_not_header (x := x) hc (by omega) (by omega) hx

theorem krealloc_move_eq {c : Block} (hinv : HeapInvariant h bs)
    (hc : c ∈ bs) (hlarger : c.size < n)
    (htest : ¬ (nextField h.mem c.addr ≠ 0 ∧
      isFreeField h.mem (nextField h.mem c.addr) ≠ 0 ∧
      n ≤ wrap64 (wrap64 (c.size + sizeofHeader) +
        sizeField h.mem (nextField h.mem c.addr)))) :
    krealloc h (c.addr + 32) n =
      match kmalloc h n with
      | none => none
      | some (h, newPtr) =>
          if newPtr = 0 then some (h, 0)
          else some (kfree (copyPayload h newPtr (c.addr + 32)
            (sizeField h.mem c.addr)) (c.addr + 32), newPtr) := by
  obtain ⟨hptr, -, -, hmagic, hsize⟩ := hinv.header_tests hc
  have hheader := (hinv.header_ptr hc).2
  have hpos : n ≠ 0 := by omega
  have hkeep : ¬ n ≤ c.size := by omega
  simp only [krealloc, hptr, hpos, hheader, hmagic, hsize, hkeep, if_false,
    ne_eq, not_true_eq_false]
  rw [if_neg htest]
  rfl

/-- The next block is free and takes in what is missing. -/
theorem krealloc_grow_eq {c : Block} (hinv : HeapInvariant h bs)
    (hc : c ∈ bs) (hused : c.free = false) (hkeep : c.size < n)
    (hn : n ≤ 2 ^ 64 - 16)
    (htest : nextField h.mem c.addr ≠ 0 ∧
      isFreeField h.mem (nextField h.mem c.addr) ≠ 0 ∧
      n ≤ wrap64 (wrap64 (c.size + sizeofHeader) +
        sizeField h.mem (nextField h.mem c.addr))) :
    ∃ h' bs' c', krealloc h (c.addr + 32) n = some (h', c.addr + 32) ∧
      Resized h bs n h' bs' c c' := by
  obtain ⟨hptr, -, -, hmagic, hsize⟩ := hinv.header_tests hc
  have hheader := (hinv.header_ptr hc).2
  have hround := align16_bounds (n := n) (by omega)
  have halign := align16_pos (n := n) (by omega) (by omega)
  obtain ⟨xs, ys, rfl⟩ := List.append_of_mem hc
  have hnext := hinv.repr.links_at.2
  cases ys with
  | nil =>
      rw [hnext] at htest
      simp at htest
  | cons d ys =>
      have hd : d ∈ xs ++ c :: d :: ys := by simp
      have hnext' : nextField h.mem c.addr = d.addr := by
        simpa using hnext
      have hheld := hinv.repr.holds d hd
      have htest' := htest
      rw [hnext', hheld.isFree_ne_zero_iff, hheld.size] at htest
      obtain ⟨-, hfree, hfit⟩ := htest
      have hbounds := hinv.bounds
      have hdbound := (hinv.blocks.tiles.bounds hd).2
      have hnextAddr := hinv.blocks.tiles.next_addr
      have hfit' : n ≤ c.size + 32 + d.size := by
        simp only [wrap64, sizeofHeader] at hfit
        omega
      have hdvd := (joined_size (hinv.blocks.sizes c hc)
        (hinv.blocks.sizes d hd)).1
      obtain ⟨bs', c', hgrow⟩ := hinv.grow (n := align16 n) hused
        hfree ⟨hround.2.2, halign⟩ (by omega) (by omega) (by omega)
      refine ⟨_, bs', c', ?_,
        { hgrow with fits := hround.1.trans hgrow.fits }⟩
      rw [← hnext']
      simp only [krealloc, hptr, hheader, hmagic, hsize,
        Nat.not_le_of_lt hkeep, show n ≠ 0 by omega, if_false, ne_eq,
        not_true_eq_false]
      rw [if_pos htest']

theorem krealloc_cases {c : Block} (hinv : HeapInvariant h bs) (hc : c ∈ bs)
    (hused : c.free = false) (hpos : n ≠ 0) (hn : n ≤ 2 ^ 64 - 16) :
    (∃ h' bs' c', krealloc h (c.addr + 32) n = some (h', c.addr + 32) ∧
      Resized h bs n h' bs' c c') ∨
    krealloc h (c.addr + 32) n = some (h, 0) ∨
    ∃ h₁ bs₁ c' h' bs',
      krealloc h (c.addr + 32) n = some (h', c'.addr + 32) ∧ c.size < n ∧
      Granted h bs n h₁ bs₁ c' ∧
      Released (copyPayload h₁ (c'.addr + 32) (c.addr + 32) c.size) bs₁
        h' bs' c := by
  obtain ⟨hptr, -, -, hmagic, hsize⟩ := hinv.header_tests hc
  have hheader := (hinv.header_ptr hc).2
  by_cases hkeep : n ≤ c.size
  · refine Or.inl ⟨h, bs, c, ?_, Resized.refl hinv hc hused hkeep⟩
    simp only [krealloc, hptr, hpos, hheader, hmagic, hsize, hkeep, if_false,
      if_true, ne_eq, not_true_eq_false]
  · by_cases htest : nextField h.mem c.addr ≠ 0 ∧
        isFreeField h.mem (nextField h.mem c.addr) ≠ 0 ∧
        n ≤ wrap64 (wrap64 (c.size + sizeofHeader) +
          sizeField h.mem (nextField h.mem c.addr))
    · exact Or.inl (krealloc_grow_eq hinv hc hused (by omega) hn htest)
    · right
      have hmove := krealloc_move_eq hinv hc (by omega) htest
      rcases kmalloc_cases hinv hn with ⟨hfail, -⟩ | ⟨h₁, bs₁, c', hok, -, hg⟩
      · left
        rw [hmove, hfail]
        rfl
      · right
        have hmem : c ∈ bs₁ := (hg.used_iff c hused).mpr (Or.inl hc)
        have hsize₁ := (hg.inv.repr.holds c hmem).size
        have hcopy := hg.inv.copyPayload (p := c.addr + 32) hg.mem
          (show c.size ≤ c'.size by have := hg.fits; omega)
        obtain ⟨bs', hrel⟩ := kfree_released hcopy hmem hused
        refine ⟨h₁, bs₁, c', _, bs', ?_, by omega, hg, hrel⟩
        rw [hmove, hok]
        simp only [hsize₁]
        rw [if_neg (by omega)]

/-! ## Reading the list -/

theorem kheapDumpWalk_eq {m : Memory} {lo hi fuel : ℕ} {ys : List Block}
    (xs : List Block) (hlo : 0 < lo) (htiles : Tiles 32 lo hi (xs ++ ys))
    (hrep : Represents m (xs ++ ys)) (hfuel : ys.length < fuel) :
    kheapDumpWalk m fuel (followAddr ys) = some ys := by
  induction ys generalizing xs fuel with
  | nil =>
      cases fuel with
      | zero => omega
      | succ fuel => simp [kheapDumpWalk]
  | cons y ys ih =>
      cases fuel with
      | zero => omega
      | succ fuel =>
          have hheld := hrep.holds_at
          have hlow := (htiles.bounds (b := y) (by simp)).1
          have hnext := hrep.links_at.2
          have hflag : decide (isFreeField m y.addr ≠ 0) = y.free := by
            rw [Bool.eq_iff_iff, decide_eq_true_iff,
              hheld.isFree_ne_zero_iff]
          have hcurrent : followAddr (y :: ys) = y.addr := rfl
          rw [hcurrent, kheapDumpWalk, if_neg (by omega), hnext,
            ih (xs ++ [y]) (by simpa using htiles)
              (by simpa using hrep) (by simpa using hfuel),
            hheld.size, hflag]
          rfl

/-- The dump is the represented list, so there is only one. -/
theorem HeapInvariant.kheapDump_eq (hinv : HeapInvariant h bs) :
    kheapDump h = some bs := by
  have hbounds := hinv.bounds
  unfold kheapDump
  rw [hinv.head_eq]
  exact kheapDumpWalk_eq [] (by omega) hinv.blocks.tiles hinv.repr
    hinv.length_lt

/-- The sizes of the free blocks. -/
def freeBytes (bs : List Block) : ℕ :=
  ((bs.filter Block.free).map Block.size).sum

theorem freeMemoryWalk_eq {m : Memory} {fuel lo hi acc : ℕ}
    {ys : List Block} (xs : List Block) (hlo : 0 < lo)
    (htiles : Tiles 32 lo hi (xs ++ ys)) (hrep : Represents m (xs ++ ys))
    (hfuel : ys.length < fuel) (hsum : acc + freeBytes ys < 2 ^ 64) :
    freeMemoryWalk m fuel (followAddr ys) acc = some (acc + freeBytes ys) := by
  induction ys generalizing xs fuel acc with
  | nil =>
      cases fuel with
      | zero => omega
      | succ fuel => simp [freeMemoryWalk, freeBytes]
  | cons y ys ih =>
      cases fuel with
      | zero => omega
      | succ fuel =>
          have hheld := hrep.holds_at
          have hlow := (htiles.bounds (b := y) (by simp)).1
          have hnext := hrep.links_at.2
          have hcurrent : followAddr (y :: ys) = y.addr := rfl
          have hrest : ∀ acc', acc' + freeBytes ys < 2 ^ 64 →
              freeMemoryWalk m fuel (followAddr ys) acc' =
                some (acc' + freeBytes ys) := fun acc' hacc' =>
            ih (xs ++ [y]) (by simpa using htiles)
              (by simpa using hrep) (by simpa using hfuel) hacc'
          rw [hcurrent, freeMemoryWalk, if_neg (by omega), hnext]
          simp only [hheld.isFree_ne_zero_iff, hheld.size]
          by_cases hfree : y.free = true
          · have hbytes : freeBytes (y :: ys) = y.size + freeBytes ys := by
              simp [freeBytes, hfree]
            rw [if_pos hfree, wrap64_of_lt (by omega),
              hrest _ (by omega), hbytes, Nat.add_assoc]
          · have hbytes : freeBytes (y :: ys) = freeBytes ys := by
              simp [freeBytes, hfree]
            rw [if_neg hfree, hrest _ (by omega), hbytes]

theorem freeBytes_le {lo hi : ℕ} {bs : List Block}
    (h : Tiles 32 lo hi bs) : lo + freeBytes bs ≤ hi := by
  induction bs generalizing lo with
  | nil =>
      have : lo = hi := h
      simp [freeBytes, this]
  | cons b bs ih =>
      have hrest := ih h.2
      cases hfree : b.free <;> simp [freeBytes, hfree] at hrest ⊢ <;> omega

theorem HeapInvariant.kgetFreeMemory_eq (hinv : HeapInvariant h bs) :
    kgetFreeMemory h = some (freeBytes bs) := by
  have hbounds := hinv.bounds
  have hfree := freeBytes_le hinv.blocks.tiles
  unfold kgetFreeMemory
  rw [hinv.head_eq, freeMemoryWalk_eq [] (by omega)
    hinv.blocks.tiles hinv.repr hinv.length_lt (by omega), Nat.zero_add]

end Otsos
