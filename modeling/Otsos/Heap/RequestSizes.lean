import Otsos.Heap.Guarantees

/-!
# Sizes at the top of the range

`align16` wraps around to 0 for the last fifteen sizes, and the sum of
`kmalloc_aligned` can wrap around for many more.  A call whose sums wrap takes
any free block for large enough.  Elsewhere a returned block has room for what
was asked, and the call writes only where it may.
-/

namespace Otsos

open Lib

variable {h h' : Heap} {bs bs' : List Block} {b c : Block}
  {n align p ptr x : ℕ}

/-- The bytes a call about `ptr` may write: headers, free blocks, and the
payload at `ptr`. -/
def Writable (bs : List Block) (ptr x : ℕ) : Prop :=
  ∃ b ∈ bs, b.addr ≤ x ∧ x < b.addr + 32 + b.size ∧
    (x < b.addr + 32 ∨ b.free = true ∨ b.addr + 32 = ptr)

/-- The call returns, a pointer it returns has room for `bytes` bytes, and no
other byte changes. -/
def Served (h : Heap) (bs : List Block) (ptr bytes : ℕ)
    (result : Option (Heap × ℕ)) : Prop :=
  ∃ h' p, result = some (h', p) ∧
    (p ≠ 0 → bytes ≤ kmallocUsableSize h' p) ∧
    ∀ x, ¬ Writable bs ptr x → h'.mem x = h.mem x

/-- The same, whatever the payloads and the memory around the heap hold: a
byte that never changes is not written. -/
def Serves (h : Heap) (bs : List Block) (ptr bytes : ℕ)
    (call : Heap → Option (Heap × ℕ)) : Prop :=
  ∀ m : Memory, (∀ x, InHeader bs x → m x = h.mem x) →
    Served { h with mem := m } bs ptr bytes (call { h with mem := m })

theorem Serves.here {bytes : ℕ} {call : Heap → Option (Heap × ℕ)}
    (hserves : Serves h bs ptr bytes call) : Served h bs ptr bytes (call h) :=
  hserves h.mem fun _ _ => rfl

/-! ## What may be written -/

/-- Inside the heap only the payloads of other used blocks are protected. -/
theorem HeapInvariant.writable (hinv : HeapInvariant h bs)
    (hlow : h.heapStart ≤ x) (hhigh : x < h.heapEnd)
    (hout : ∀ e ∈ bs, e.free = false → e.addr + 32 ≠ ptr →
      ¬ (e.addr + 32 ≤ x ∧ x < e.addr + 32 + e.size)) :
    Writable bs ptr x := by
  obtain ⟨e, he, hex, hxe⟩ := hinv.blocks.tiles.exists_mem hlow hhigh
  refine ⟨e, he, hex, hxe, ?_⟩
  by_contra hnot
  simp only [not_or, Bool.not_eq_true] at hnot
  exact hout e he hnot.2.1 hnot.2.2 ⟨by omega, hxe⟩

theorem HeapInvariant.extent_eq (hinv : HeapInvariant h bs)
    (hinv' : HeapInvariant h' bs') (himage : h'.image = h.image) :
    h'.heapStart = h.heapStart ∧ h'.heapEnd = h.heapEnd := by
  have hstart : h'.heapStart = h.heapStart := by
    rw [hinv.start, hinv'.start, himage]
  exact ⟨hstart, by rw [hinv.stop, hinv'.stop, hstart]⟩

theorem HeapInvariant.header_bounds (hinv : HeapInvariant h bs)
    (hx : InHeader bs x) : h.heapStart ≤ x ∧ x < h.heapEnd := by
  obtain ⟨b, hb, hlow, hhigh⟩ := hx
  have hbound := hinv.blocks.tiles.bounds hb
  simp only [sizeofHeader] at hhigh
  omega

theorem Granted.header_writable (hinv : HeapInvariant h bs)
    (hg : Granted h bs n h' bs' c) (hx : InHeader bs' x) :
    Writable bs ptr x := by
  obtain ⟨hstart, hstop⟩ := hinv.extent_eq hg.inv hg.image
  have hbounds := hg.inv.header_bounds hx
  refine hinv.writable (by omega) (by omega) fun e he hused _ hin => ?_
  exact hg.inv.payload_not_header
    ((hg.used_iff e hused).mpr (Or.inl he)) hin.1 hin.2 hx

theorem Granted.payload_writable (hinv : HeapInvariant h bs)
    (hg : Granted h bs n h' bs' c)
    (hx : c.addr + 32 ≤ x ∧ x < c.addr + 32 + c.size) :
    Writable bs ptr x := by
  obtain ⟨hstart, hstop⟩ := hinv.extent_eq hg.inv hg.image
  have hbounds := hg.inv.blocks.tiles.bounds hg.mem
  refine hinv.writable (by omega) (by omega) fun e he hused _ hin => ?_
  have := hg.apart he hused
  omega

theorem Granted.writes (hinv : HeapInvariant h bs)
    (hg : Granted h bs n h' bs' c) (hx : ¬ Writable bs ptr x) :
    h'.mem x = h.mem x :=
  hg.frame x fun hin => hx (hg.header_writable hinv hin)

theorem Resized.writes (hinv : HeapInvariant h bs)
    (hres : Resized h bs n h' bs' b c)
    (hx : ¬ Writable bs (b.addr + 32) x) : h'.mem x = h.mem x := by
  refine hres.frame x fun hin => hx ?_
  obtain ⟨hstart, hstop⟩ := hinv.extent_eq hres.inv hres.image
  have hbounds := hres.inv.header_bounds hin
  refine hinv.writable (by omega) (by omega) fun e he hused hne hpay => ?_
  have heb : e ≠ b := by
    rintro rfl
    exact hne rfl
  exact hres.inv.payload_not_header
    ((hres.used_iff e hused).mpr (Or.inl ⟨he, heb⟩)) hpay.1 hpay.2 hin

theorem Released.writes (hrel : Released h bs h' bs' c)
    (hx : ¬ Writable bs ptr x) : h'.mem x = h.mem x := by
  refine hrel.frame x fun hin => hx ?_
  obtain ⟨b, hb, hlow, hhigh⟩ := hin
  simp only [sizeofHeader] at hhigh
  exact ⟨b, hb, hlow, by omega, Or.inl hhigh⟩

/-! ## Requests that do not wrap -/

theorem HeapInvariant.serves {call : Heap → Option (Heap × ℕ)} {bytes : ℕ}
    (hinv : HeapInvariant h bs)
    (hall : ∀ h, HeapInvariant h bs → Served h bs ptr bytes (call h)) :
    Serves h bs ptr bytes call :=
  fun _ hsame => hall _ (hinv.write hsame)

theorem served_null {bytes : ℕ} : Served h bs ptr bytes (some (h, 0)) :=
  ⟨h, 0, rfl, fun hne => absurd rfl hne, fun _ _ => rfl⟩

theorem HeapInvariant.usable (hinv : HeapInvariant h bs) (hb : b ∈ bs) :
    kmallocUsableSize h (b.addr + 32) = b.size := by
  obtain ⟨hptr, -, -, hmagic, hsize⟩ := hinv.header_tests hb
  simp only [kmallocUsableSize, hptr, (hinv.header_ptr hb).2, hmagic,
    hsize, if_false, ne_eq, not_true_eq_false]

theorem Granted.served (hinv : HeapInvariant h bs)
    (hg : Granted h bs n h' bs' c) :
    Served h bs ptr n (some (h', c.addr + 32)) := by
  refine ⟨h', _, rfl, fun _ => ?_, fun x hx => hg.writes hinv hx⟩
  rw [hg.inv.usable hg.mem]
  exact hg.fits

theorem HeapInvariant.kmalloc_serves (hinv : HeapInvariant h bs)
    (hn : n ≤ 2 ^ 64 - 16) : Serves h bs ptr n (kmalloc · n) := by
  apply hinv.serves
  intro h hinv
  rcases kmalloc_cases hinv hn with ⟨hfail, -⟩ | ⟨h', bs', c, hok, -, hg⟩
  · rw [hfail]
    exact served_null
  · rw [hok]
    exact hg.served hinv

theorem HeapInvariant.kcalloc_serves {nmemb size : ℕ}
    (hinv : HeapInvariant h bs) (hn : nmemb * size ≤ 2 ^ 64 - 16) :
    Serves h bs ptr (nmemb * size) (kcalloc · nmemb size) := by
  apply hinv.serves
  intro h hinv
  rcases kcalloc_cases hinv hn with hfail | ⟨h', bs', c, hok, hg⟩
  · rw [hfail]
    exact served_null
  · refine ⟨_, _, hok, fun _ => ?_, ?_⟩
    · rw [(hg.inv.clearPayload hg.mem hg.fits).usable hg.mem]
      exact hg.fits
    · intro x hx
      rw [← hg.writes hinv hx]
      apply memset_outside
      by_contra hin
      have hfits := hg.fits
      exact hx (hg.payload_writable hinv (by omega))

/-- The product is checked before it is used. -/
theorem kcalloc_overflow {nmemb size : ℕ} (hover : 2 ^ 64 ≤ nmemb * size) :
    kcalloc h nmemb size = some (h, 0) := by
  unfold kcalloc
  rw [if_pos]
  refine ⟨?_, ?_⟩
  · rintro rfl
    omega
  · intro hdiv
    have hmul := Nat.div_mul_le_self (wrap64 (nmemb * size)) nmemb
    have hlt : wrap64 (nmemb * size) < 2 ^ 64 := Nat.mod_lt _ (by omega)
    rw [hdiv, Nat.mul_comm] at hmul
    omega

theorem HeapInvariant.krealloc_serves (hinv : HeapInvariant h bs)
    (hb : b ∈ bs) (hused : b.free = false) (hn : n ≤ 2 ^ 64 - 16) :
    Serves h bs (b.addr + 32) n (krealloc · (b.addr + 32) n) := by
  apply hinv.serves
  intro h hinv
  by_cases hzero : n = 0
  · subst hzero
    obtain ⟨bs', hrel⟩ := kfree_released hinv hb hused
    refine ⟨kfree h (b.addr + 32), 0, ?_, fun hne => absurd rfl hne,
      fun x hx => hrel.writes hx⟩
    simp [krealloc]
  · rcases krealloc_cases hinv hb hused hzero hn with
      ⟨h', bs', c, hok, hres⟩ | hfail |
      ⟨h₁, bs₁, c, h', bs', hok, hlarger, hg, hrel⟩
    · refine ⟨h', _, hok, fun _ => ?_, fun x hx => hres.writes hinv hx⟩
      have hc : c ∈ bs' := (hres.used_iff c hres.used).mpr (Or.inr rfl)
      rw [← hres.addr, hres.inv.usable hc]
      exact hres.fits
    · rw [hfail]
      exact served_null
    · -- the new block is granted, filled from the old one, which is released
      have hfits := hg.fits
      have hcopied := hg.inv.copyPayload (p := b.addr + 32) (k := b.size)
        hg.mem (by omega)
      have hc : c ∈ bs' := by
        refine (hrel.used_iff c hg.used).mpr ⟨hg.mem, ?_⟩
        rintro rfl
        exact hg.fresh hb
      refine ⟨h', _, hok, fun _ => ?_, fun x hx => ?_⟩
      · rw [hrel.inv.usable hc]
        exact hfits
      · have hheader : ¬ InHeader bs₁ x :=
          fun hin => hx (hg.header_writable hinv hin)
        rw [hrel.frame x hheader, ← hg.writes hinv hx]
        apply memcpy_outside
        by_contra hin
        exact hx (hg.payload_writable hinv (by omega))

/-! ## Padding -/

theorem paddingWord_dvd (hdvd : 16 ∣ b.addr) (hb : b.addr + 32 < 2 ^ 64)
    (hlow : 16 < align) (halign : align < 2 ^ 64) :
    16 ∣ paddingWord align b := by
  have hmod := clearBits_mod_sixteen
    (x := wrap64 (b.addr + 32 + (align - 1))) (m := align - 1) (by omega)
    (by simp only [wrap64]; omega)
  unfold paddingWord
  simp only [sub64]
  omega

/-- A request that fits the heap is refused where its sum would wrap. -/
theorem HeapInvariant.padding_fits (hinv : HeapInvariant h bs) (hb : b ∈ bs)
    (hlow : 16 < align) (halign : align < 2 ^ 64) (hn : n ≤ 131040)
    (haccept : wrap64 (n + paddingWord align b) ≤ b.size) :
    n + paddingWord align b ≤ b.size := by
  have hbounds := hinv.bounds
  have hbound := hinv.blocks.tiles.bounds hb
  have hlt : b.addr + 32 + (align - 1) < 2 ^ 64 ∨
      2 ^ 64 ≤ b.addr + 32 + (align - 1) := Nat.lt_or_ge _ _
  rcases hlt with hlt | hge
  · have hle := clearBits_le (b.addr + 32 + (align - 1)) (align - 1)
    have hsum := le_clearBits_add (x := b.addr + 32 + (align - 1))
      (m := align - 1) hlt (by omega)
    have hpad : paddingWord align b =
        clearBits (b.addr + 32 + (align - 1)) (align - 1) -
          (b.addr + 32) := by
      unfold paddingWord
      rw [wrap64_of_lt hlt, sub64_of_le (by omega) (by omega)]
    rwa [wrap64_of_lt (by omega)] at haccept
  · -- the aligned address wrapped around, far below the heap
    have hsum : wrap64 (b.addr + 32 + (align - 1)) =
        b.addr + 32 + (align - 1) - 2 ^ 64 := by
      simp only [wrap64]
      omega
    have hle := clearBits_le (b.addr + 32 + (align - 1) - 2 ^ 64) (align - 1)
    have hle' : clearBits (b.addr + 32 + (align - 1) - 2 ^ 64) (align - 1) ≤
        2 ^ 64 - 1 - (align - 1) := Nat.and_le_right
    have hpad : paddingWord align b =
        clearBits (b.addr + 32 + (align - 1) - 2 ^ 64) (align - 1) +
          (2 ^ 64 - (b.addr + 32)) := by
      unfold paddingWord
      rw [hsum]
      exact Nat.mod_eq_of_lt (by omega)
    rw [wrap64_of_lt (by omega)] at haccept
    omega

theorem HeapInvariant.kmallocAligned_serves (hinv : HeapInvariant h bs)
    (hlow : 16 < align) (halign : align < 2 ^ 64)
    (hholds : n ≤ 131040 ∨
      ∀ b ∈ bs, acceptsAligned (align16 n) align b = false) :
    Serves h bs ptr n (kmallocAligned · n align) := by
  apply hinv.serves
  intro h hinv
  by_cases hzero : n = 0
  · subst hzero
    rw [kmallocAligned, hinv.ensureHeap_eq, if_pos rfl]
    exact served_null
  · unfold kmallocAligned
    simp only [hinv.ensureHeap_eq]
    rw [if_neg hzero, if_neg (by omega), hinv.kmallocAlignedWalk_eq]
    cases hfind : bs.find? (acceptsAligned (align16 n) align) with
    | none => exact served_null
    | some b =>
        obtain ⟨haccept, xs, ys, rfl, -⟩ :=
          List.find?_eq_some_iff_append.mp hfind
        have hmem : b ∈ xs ++ b :: ys := by simp
        have hsmall : n ≤ 131040 := by
          rcases hholds with hsmall | hnone
          · exact hsmall
          · rw [hnone b hmem] at haccept
            exact absurd haccept (by simp)
        have hround := align16_bounds (n := n) (by omega)
        have hpos := align16_pos (n := n) (by omega) hzero
        have hbounds := hinv.bounds
        have hbound := (hinv.blocks.tiles.bounds hmem).2
        obtain ⟨hfree, hword, hpad⟩ := acceptsAligned_iff.mp haccept
        have hfit := hinv.padding_fits hmem hlow halign (by omega) hword
        obtain ⟨bs', c, haddr, hg⟩ := hinv.grantAligned hfree
          ⟨hround.2.2, hpos⟩ (paddingWord_dvd (hinv.dvd_addr hmem)
            (by omega) hlow halign) hpad hfit
        dsimp only
        rw [takeAligned_eq (by omega) hinv.blocks.tiles hinv.repr hpos hfit
          hpad, ← haddr]
        exact Granted.served hinv
          { hg with fits := hround.1.trans hg.fits }

/-! ## Requests that wrap around to nothing -/

theorem align16_wrapped (hn : 2 ^ 64 - 16 < n) (hlt : n < 2 ^ 64) :
    align16 n = 0 := by
  have hsum : wrap64 (n + 15) = n + 15 - 2 ^ 64 := by
    simp only [wrap64]
    omega
  have hclear : clearBits (n + 15 - 2 ^ 64) 15 =
      n + 15 - 2 ^ 64 - (n + 15 - 2 ^ 64) % 2 ^ 4 :=
    clearBits_two_pow_sub_one (k := 4) (by omega) (by omega)
  unfold align16
  rw [hsum, hclear]
  omega

theorem sizeField_splitBlock (m : Memory) (a n : ℕ) :
    sizeField (splitBlock m a n) a =
      if wrap64 (n + sizeofHeader + 16) ≤ sizeField m a then n % 256 ^ 8
      else sizeField m a := by
  unfold splitBlock
  by_cases hcond : wrap64 (n + sizeofHeader + 16) ≤ sizeField m a
  · rw [if_pos hcond, if_pos hcond]
    simp (disch := omega) only [sizeField, setNext, setSize,
      Memory.load_store_disjoint, Memory.load_store_same]
  · rw [if_neg hcond, if_neg hcond]

theorem sizeField_splitPadding {m : Memory} {a s q : ℕ} (hp : 48 ≤ p)
    (hfit : p ≤ s) (hsize : sizeField m a = s) (hnext : nextField m a = q)
    (hq : q < 2 ^ 63) (hfollow : q ≠ 0 → a + 32 + s ≤ q)
    (hbound : a + 32 + s < 2 ^ 63) :
    (splitPadding m a p).2 = a + p ∧
      sizeField (splitPadding m a p).1 (a + p) = s - p := by
  have hnew : wrap64 (a + p) = a + p := wrap64_of_lt (by omega)
  have hrest : sub64 s p = s - p := sub64_of_le (by omega) hfit
  have hmod : (s - p) % 256 ^ 8 = s - p := word_mod (by omega)
  have hs : m.load (a + 8) 8 = s := hsize
  have hn : m.load (a + 16) 8 = q := hnext
  have hqmod : q % 256 ^ 8 = q := word_mod hq
  unfold splitPadding
  simp (disch := omega) only [hnew, relinkNext, setMagic, setSize, setIsFree,
    setNext, setPrev, sizeField, nextField, Memory.load_store_disjoint,
    Memory.load_store_same, hs, hn, hrest, hqmod]
  refine ⟨trivial, ?_⟩
  by_cases hq0 : q = 0
  · simp (disch := omega) only [hq0, ne_eq, not_true_eq_false, if_false,
      Memory.load_store_disjoint, Memory.load_store_same, hmod]
  · have hfar := hfollow hq0
    simp (disch := omega) only [hq0, ne_eq, not_false_eq_true, if_true,
      Memory.load_store_disjoint, Memory.load_store_same, hmod]

theorem sizeField_place_zero_le (m : Memory) (a : ℕ) :
    sizeField (place m a 0) a ≤ sizeField m a := by
  have hflag : sizeField (place m a 0) a =
      sizeField (splitBlock m a 0) a :=
    Memory.load_store_disjoint _ _ (by omega)
  rw [hflag, sizeField_splitBlock]
  split
  · simp
  · exact le_rfl

theorem kmallocUsableSize_le {a : ℕ} (ha : a + 32 < 2 ^ 64) :
    kmallocUsableSize h (a + 32) ≤ sizeField h.mem a := by
  have hheader : sub64 (a + 32) sizeofHeader = a := by
    rw [sub64_of_le ha (by simp only [sizeofHeader]; omega)]
    rfl
  unfold kmallocUsableSize
  rw [if_neg (by omega), hheader]
  simp only
  split <;> omega

theorem not_served {a bytes : ℕ} (ha : a + 32 < 2 ^ 64)
    (hshort : sizeField h'.mem a < bytes) :
    ¬ Served h bs ptr bytes (some (h', a + 32)) := by
  rintro ⟨h'', p, hcall, husable, -⟩
  cases hcall
  have hle := kmallocUsableSize_le (h := h') ha
  have := husable (by omega)
  omega

theorem HeapInvariant.kmalloc_wrapped (hinv : HeapInvariant h bs)
    (hn : 2 ^ 64 - 16 < n) (hlt : n < 2 ^ 64)
    (hfree : ∃ b ∈ bs, b.free = true) :
    ∃ xs b ys, bs = xs ++ b :: ys ∧ (∀ d ∈ xs, d.free = false) ∧
      b.free = true ∧ kmalloc h n =
        some ({ h with mem := place h.mem b.addr 0 }, b.addr + 32) := by
  have hbounds := hinv.bounds
  have hwalk := kmallocWalk_eq (n := 0) [] (by omega)
    hinv.blocks.tiles hinv.repr hinv.length_lt
  rw [← hinv.head_eq] at hwalk
  obtain ⟨d, hd, hdfree⟩ := hfree
  cases hfind : bs.find? (fitsRequest 0) with
  | none =>
      have hmiss := List.find?_eq_none.mp hfind d hd
      exact absurd (fitsRequest_iff.mpr ⟨hdfree, Nat.zero_le _⟩) hmiss
  | some b =>
      obtain ⟨hfit, xs, ys, rfl, hbefore⟩ :=
        List.find?_eq_some_iff_append.mp hfind
      refine ⟨xs, b, ys, rfl, ?_, (fitsRequest_iff.mp hfit).1, ?_⟩
      · intro d hd
        simpa [fitsRequest] using hbefore d hd
      · unfold kmalloc
        simp only [hinv.ensureHeap_eq, align16_wrapped hn hlt, hwalk, hfind]
        rw [if_neg (by omega), Option.map_some,
          (hinv.header_ptr (b := b) (by simp)).1]

theorem HeapInvariant.kmalloc_none (hinv : HeapInvariant h bs)
    (hnone : ∀ b ∈ bs, b.free = false) : kmalloc h n = some (h, 0) := by
  have hbounds := hinv.bounds
  have hwalk := kmallocWalk_eq (n := align16 n) [] (by omega)
    hinv.blocks.tiles hinv.repr hinv.length_lt
  have hfind : bs.find? (fitsRequest (align16 n)) = none := by
    refine List.find?_eq_none.mpr fun b hb => ?_
    simp [fitsRequest, hnone b hb]
  rw [← hinv.head_eq, hfind] at hwalk
  unfold kmalloc
  simp only [hinv.ensureHeap_eq, hwalk]
  split <;> rfl

theorem HeapInvariant.block_size_le (hinv : HeapInvariant h bs)
    (hb : b ∈ bs) : b.size ≤ 131040 := by
  have hbound := hinv.blocks.tiles.bounds hb
  have hstop := hinv.stop
  simp only [heapSize] at hstop
  omega

theorem HeapInvariant.payload_lt (hinv : HeapInvariant h bs) (hb : b ∈ bs) :
    b.addr + 32 < 2 ^ 64 := by
  have hbounds := hinv.bounds
  have hbound := hinv.blocks.tiles.bounds hb
  omega

theorem HeapInvariant.placed_size_lt (hinv : HeapInvariant h bs)
    (hb : b ∈ bs) : sizeField (place h.mem b.addr 0) b.addr < 2 ^ 17 := by
  have hle := sizeField_place_zero_le h.mem b.addr
  have hsize := (hinv.repr.holds b hb).size
  have := hinv.block_size_le hb
  omega

theorem HeapInvariant.kmalloc_serves_iff (hinv : HeapInvariant h bs)
    (hlt : n < 2 ^ 64) : Serves h bs ptr n (kmalloc · n) ↔
      n ≤ 2 ^ 64 - 16 ∨ ∀ b ∈ bs, b.free = false := by
  constructor
  · intro hserves
    by_contra hnot
    simp only [not_or, not_forall, Bool.not_eq_false] at hnot
    obtain ⟨hn, d, hd, hfree⟩ := hnot
    obtain ⟨xs, b, ys, rfl, -, -, hcall⟩ :=
      hinv.kmalloc_wrapped (by omega) hlt ⟨d, hd, hfree⟩
    have hserved := hserves.here
    simp only [hcall] at hserved
    have hmem : b ∈ xs ++ b :: ys := by simp
    refine not_served (hinv.payload_lt hmem) ?_ hserved
    have := hinv.placed_size_lt hmem
    simp only
    omega
  · rintro (hn | hnone)
    · exact hinv.kmalloc_serves hn
    · apply hinv.serves
      intro h hinv
      rw [hinv.kmalloc_none hnone]
      exact served_null

theorem HeapInvariant.kcalloc_serves_iff {nmemb size : ℕ}
    (hinv : HeapInvariant h bs) :
    Serves h bs ptr (nmemb * size) (kcalloc · nmemb size) ↔
      nmemb * size ≤ 2 ^ 64 - 16 ∨ 2 ^ 64 ≤ nmemb * size ∨
        ∀ b ∈ bs, b.free = false := by
  constructor
  · intro hserves
    by_contra hnot
    simp only [not_or, not_forall, Bool.not_eq_false] at hnot
    obtain ⟨hn, hlt, d, hd, hfree⟩ := hnot
    obtain ⟨xs, b, ys, rfl, -, -, hcall⟩ :=
      hinv.kmalloc_wrapped (n := nmemb * size) (by omega) (by omega)
        ⟨d, hd, hfree⟩
    have hmem : b ∈ xs ++ b :: ys := by simp
    have hserved := hserves.here
    rw [kcalloc_eq (by omega), hcall] at hserved
    simp only at hserved
    rw [if_pos (by omega)] at hserved
    refine not_served (hinv.payload_lt hmem) ?_ hserved
    -- the header lies in front of the cleared bytes
    have hkept : sizeField (memset (place h.mem b.addr 0) (b.addr + 32) 0
        (nmemb * size)) b.addr = sizeField (place h.mem b.addr 0) b.addr := by
      apply Memory.load_congr
      intro i hi
      exact memset_outside _ _ (by omega)
    have := hinv.placed_size_lt hmem
    simp only [hkept]
    omega
  · rintro (hn | hover | hnone)
    · exact hinv.kcalloc_serves hn
    · apply hinv.serves
      intro h hinv
      rw [kcalloc_overflow hover]
      exact served_null
    · by_cases hover : 2 ^ 64 ≤ nmemb * size
      · apply hinv.serves
        intro h hinv
        rw [kcalloc_overflow hover]
        exact served_null
      · apply hinv.serves
        intro h hinv
        rw [kcalloc_eq (by omega), hinv.kmalloc_none hnone]
        exact served_null

theorem HeapInvariant.kmallocAligned_wrapped (hinv : HeapInvariant h bs)
    (hlow : 16 < align) (hn : 2 ^ 64 - 16 < n) (hlt : n < 2 ^ 64)
    (hserves : Serves h bs ptr n (kmallocAligned · n align)) :
    ∀ b ∈ bs, acceptsAligned (align16 n) align b = false := by
  by_contra hnot
  simp only [not_forall, Bool.not_eq_false] at hnot
  obtain ⟨d, hd, haccepts⟩ := hnot
  have hserved := hserves.here
  unfold kmallocAligned at hserved
  simp only [hinv.ensureHeap_eq] at hserved
  rw [if_neg (by omega), if_neg (by omega), hinv.kmallocAlignedWalk_eq,
    align16_wrapped hn hlt] at hserved
  rw [align16_wrapped hn hlt] at haccepts
  cases hfind : bs.find? (acceptsAligned 0 align) with
  | none => exact List.find?_eq_none.mp hfind d hd haccepts
  | some b =>
      obtain ⟨haccept, xs, ys, rfl, -⟩ :=
        List.find?_eq_some_iff_append.mp hfind
      rw [hfind] at hserved
      have hmem : b ∈ xs ++ b :: ys := by simp
      have hheld := hinv.repr.holds_at
      have hbounds := hinv.bounds
      have hbound := (hinv.blocks.tiles.bounds hmem).2
      have hlarge := hinv.block_size_le hmem
      obtain ⟨-, hword, hpad⟩ := acceptsAligned_iff.mp haccept
      have hpadLt : paddingWord align b < 2 ^ 64 := Nat.mod_lt _ (by omega)
      rw [Nat.zero_add, wrap64_of_lt hpadLt] at hword
      simp only [Option.map_some, takeAligned] at hserved
      by_cases hbig : 48 ≤ paddingWord align b
      · obtain ⟨hfollow, hafter⟩ := follow_bounds hinv.blocks.tiles (by omega)
        obtain ⟨hnew, hsize⟩ := sizeField_splitPadding hbig hword
          hheld.size hinv.repr.links_at.2 hfollow hafter (by omega)
        rw [if_pos hbig, hnew,
          wrap64_of_lt (by simp only [sizeofHeader]; omega)] at hserved
        refine not_served (by omega) ?_ hserved
        have := sizeField_place_zero_le
          (splitPadding h.mem b.addr (paddingWord align b)).1
          (b.addr + paddingWord align b)
        simp only
        omega
      · rw [if_neg hbig,
          wrap64_of_lt (by simp only [sizeofHeader]; omega)] at hserved
        refine not_served (by omega) ?_ hserved
        have := hinv.placed_size_lt hmem
        simp only
        omega

end Otsos
