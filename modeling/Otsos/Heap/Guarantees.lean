import Otsos.Heap.Client

/-!
# What every client can rely on

Three consequences of the client invariant for the states of any run: the heap
is well formed, its list depends on the live blocks alone, and no call touches
the payloads it is not about.
-/

namespace Otsos

open Lib

/-! ## Well-formedness -/

/-- The list `bs` read off the heap, and the live pointers in it. -/
structure Client.WellFormed (s : Client) (bs : List Block) : Prop where
  dump : kheapDump s.heap = some bs
  extent : s.heap.heapEnd = s.heap.heapStart + 131072
  tiles : Tiles 32 s.heap.heapStart s.heap.heapEnd bs
  head : s.heap.heapHead = (bs.map Block.addr).headD 0
  links : Linked (nextField s.heap.mem) (prevField s.heap.mem) 0
    (bs.map Block.addr) 0
  magic : ∀ b ∈ bs, magicField s.heap.mem b.addr = heapMagic
  sizes : ∀ b ∈ bs, 16 ∣ b.size ∧ 16 ≤ b.size
  payload : ∀ a ∈ s.live, ∃ b ∈ bs, b.free = false ∧
    a.ptr = b.addr + 32 ∧ a.requested ≤ b.size ∧
    kmallocUsableSize s.heap a.ptr = b.size ∧
    ∀ c ∈ bs, a.ptr = c.addr + 32 → c = b
  inside : ∀ a ∈ s.live, s.heap.heapStart ≤ a.ptr ∧
    a.ptr + kmallocUsableSize s.heap a.ptr ≤ s.heap.heapEnd
  disjoint : s.live.Pairwise fun a b =>
    a.ptr + kmallocUsableSize s.heap a.ptr ≤ b.ptr ∨
      b.ptr + kmallocUsableSize s.heap b.ptr ≤ a.ptr
  aligned : ∀ a ∈ s.live, 16 ∣ a.ptr
  alignedTo : ∀ a ∈ s.live, ∀ k, a.align = 2 ^ k → a.align ∣ a.ptr

variable {s s' : Client} {bs bs' : List Block} {n : ℕ}

theorem ClientInvariant.disjoint (hinv : ClientInvariant s bs) :
    s.live.Pairwise fun a b =>
      a.ptr + kmallocUsableSize s.heap a.ptr ≤ b.ptr ∨
        b.ptr + kmallocUsableSize s.heap b.ptr ≤ a.ptr := by
  have hdistinct := List.pairwise_map.mp hinv.distinct
  refine hdistinct.imp_of_mem ?_
  intro a b ha hb hne
  obtain ⟨c, hc, -, hcptr, -⟩ := hinv.owned a ha
  obtain ⟨d, hd, -, hdptr, -⟩ := hinv.owned b hb
  rw [← hcptr, ← hdptr, hinv.usable hc, hinv.usable hd]
  rcases hinv.heap.blocks.tiles.disjoint hc hd (by
    rintro rfl
    exact hne (hcptr.symm.trans hdptr)) with hlt | hlt
  · left
    omega
  · right
    omega

theorem ClientInvariant.wellFormed (hinv : ClientInvariant s bs) :
    s.WellFormed bs := by
  have hheap := hinv.heap
  constructor
  · exact hheap.kheapDump_eq
  · exact hheap.stop
  · exact hheap.blocks.tiles
  · exact hheap.head_eq
  · exact hheap.repr.links
  · exact fun b hb => (hheap.repr.holds b hb).magic
  · exact hheap.blocks.sizes
  · intro a ha
    obtain ⟨b, hb, hused, hptr, hsize⟩ := hinv.owned a ha
    refine ⟨b, hb, hused, hptr.symm, hsize, ?_, ?_⟩
    · rw [← hptr, hinv.usable hb]
    · intro c hc hcptr
      exact hheap.blocks.tiles.eq_of_addr (by omega) hc hb (by omega)
  · intro a ha
    obtain ⟨b, hb, -, hptr, -⟩ := hinv.owned a ha
    have hbounds := hheap.blocks.tiles.bounds hb
    rw [← hptr, hinv.usable hb]
    omega
  · exact hinv.disjoint
  · intro a ha
    obtain ⟨b, hb, -, hptr, -⟩ := hinv.owned a ha
    have hdvd := hheap.dvd_addr hb
    omega
  · exact hinv.aligned

/-- In every run the heap is well formed after every call, and every call
returns. -/
theorem heap_wellFormed {h : Heap} (hreach : Client.Reachable h s) :
    (∃ bs, s.WellFormed bs) ∧
      ∀ call : HeapCall, call.Allowed s → ∃ s', s.exec call = some s' := by
  obtain ⟨bs, hinv, -⟩ := hreach.invariant
  refine ⟨⟨bs, hinv.wellFormed⟩, ?_⟩
  intro call hallowed
  obtain ⟨s', -, hexec, -⟩ := hinv.step hallowed
  exact ⟨s', hexec⟩

/-- A heap before `init_heap`, under an image that ends at `0x120000`. -/
def unbootedHeap : Heap :=
  ⟨⟨0x120000, by decide, by decide⟩, fun _ => 0, 0, 0, 0⟩

/-- What holds after `kmalloc(100)` and `kmalloc_aligned(64, 4096)`. -/
theorem unbootedHeap_two {P : Client → Prop} [DecidablePred P]
    (h : (((Client.boot unbootedHeap).exec (.kmalloc 100)).bind
      fun s => s.exec (.kmallocAligned 64 4096)).any (fun s => P s) = true) :
    ∃ s, Client.Reachable unbootedHeap s ∧ P s := by
  obtain ⟨s₂, hrun, hP⟩ := (Option.any_eq_true _ _).mp h
  obtain ⟨s₁, hfirst, hsecond⟩ := Option.bind_eq_some_iff.mp hrun
  refine ⟨s₂, ?_, of_decide_eq_true hP⟩
  refine (Relation.ReflTransGen.single ⟨_, ?_, hfirst⟩).tail
    ⟨_, ?_, hsecond⟩
  · show 64 ≤ requestLimit ∧ 4096 ≤ requestLimit
    decide
  · show 100 ≤ requestLimit
    decide

theorem unbootedHeap_run : ∃ s, Client.Reachable unbootedHeap s ∧
    s.live = [⟨0x121000, 64, 4096⟩, ⟨0x120020, 100, 1⟩] :=
  unbootedHeap_two (by decide +kernel)

theorem heap_wellFormed_unbootedHeap : ∃ s : Client,
    s.live = [⟨0x121000, 64, 4096⟩, ⟨0x120020, 100, 1⟩] ∧
      ∃ bs, s.WellFormed bs := by
  obtain ⟨s, hreach, hlive⟩ := unbootedHeap_run
  exact ⟨s, hlive, (heap_wellFormed hreach).1⟩

/-! ## The list depends on the live blocks alone -/

/-- The (address, block size) pairs of the live pointers. -/
def Client.liveBlocks (s : Client) : Set (ℕ × ℕ) :=
  { p | ∃ a ∈ s.live, p = (a.ptr, kmallocUsableSize s.heap a.ptr) }

theorem ClientInvariant.mem_liveBlocks (hinv : ClientInvariant s bs)
    {d : Block} (hd : d.free = false) :
    d ∈ bs ↔ (d.addr + 32, d.size) ∈ s.liveBlocks := by
  constructor
  · intro hmem
    obtain ⟨a, ha, hptr⟩ := hinv.complete d hmem hd
    refine ⟨a, ha, ?_⟩
    rw [hptr, hinv.usable hmem]
  · rintro ⟨a, ha, hpair⟩
    obtain ⟨b, hb, hused, hptr, -⟩ := hinv.owned a ha
    rw [← hptr, hinv.usable hb, Prod.mk.injEq] at hpair
    have hsame : d = b :=
      Block.ext (by omega) hpair.2 (hd.trans hused.symm)
    exact hsame ▸ hb

theorem HeapInvariant.unique {h h' : Heap} (hinv : HeapInvariant h bs)
    (hinv' : HeapInvariant h' bs') (himage : h.image = h'.image)
    (hused : ∀ d : Block, d.free = false → (d ∈ bs ↔ d ∈ bs')) :
    bs = bs' := by
  have hstart : h'.heapStart = h.heapStart := by
    rw [hinv.start, hinv'.start, himage]
  have hstop : h'.heapEnd = h.heapEnd := by
    rw [hinv.stop, hinv'.stop, hstart]
  have htiles := hinv'.blocks.tiles
  rw [hstart, hstop] at htiles
  exact hinv.blocks.tiles.eq_of_used_eq (by omega) htiles
    hinv.blocks.coalesced hinv'.blocks.coalesced hused

theorem Granted.undo {h h' : Heap} {c : Block}
    (hinv : HeapInvariant h bs) (hg : Granted h bs n h' bs' c) :
    kheapDump (kfree h' (c.addr + 32)) = some bs := by
  obtain ⟨bs'', hrel⟩ := kfree_released hg.inv hg.mem hg.used
  have hsame : bs'' = bs := by
    refine hrel.inv.unique hinv (hrel.image.trans hg.image) ?_
    intro d hd
    rw [hrel.used_iff d hd, hg.used_iff d hd]
    constructor
    · rintro ⟨hmem | rfl, hne⟩
      · exact hmem
      · exact absurd rfl hne
    · intro hmem
      refine ⟨Or.inl hmem, ?_⟩
      rintro rfl
      exact hg.fresh hmem
  rw [hrel.inv.kheapDump_eq, hsame]

theorem ClientInvariant.all_free (hinv : ClientInvariant s bs)
    (hnone : s.live = []) :
    bs = [⟨s.heap.heapStart, 131040, true⟩] := by
  have hstop := hinv.heap.stop
  simp only [heapSize] at hstop
  have hfree : ∀ b ∈ bs, b.free = true := by
    intro b hb
    by_contra hused
    obtain ⟨a, ha, -⟩ := hinv.complete b hb (by simpa using hused)
    simp [hnone] at ha
  have hsingle := hinv.heap.blocks.tiles.eq_single_of_no_used
    hinv.heap.blocks.coalesced (by omega) hfree
  rw [hsingle, hstop]
  congr 2
  omega

theorem ClientInvariant.kfree_all {order : List ℕ}
    (hinv : ClientInvariant s bs)
    (horder : order.Perm (s.live.map Allocation.ptr)) :
    ∃ s' bs', s'.heap = order.foldl kfree s.heap ∧ s'.live = [] ∧
      s'.heap.image = s.heap.image ∧ ClientInvariant s' bs' := by
  induction order generalizing s bs with
  | nil =>
      have hnone := List.map_eq_nil_iff.mp horder.symm.eq_nil
      exact ⟨s, bs, rfl, hnone, rfl, hinv⟩
  | cons ptr order ih =>
      have hlive : s.Holds ptr := by
        have hmem := horder.subset List.mem_cons_self
        exact List.mem_map.mp hmem
      obtain ⟨s₁, bs₁, hexec, himage, hinv₁⟩ := hinv.kfree_keeps
        (Or.inr hlive)
      simp only [Client.exec, Option.some.injEq] at hexec
      subst hexec
      have hrest : order.Perm
          ((forget ptr s.live).map Allocation.ptr) := by
        have herase := horder.erase ptr
        rw [List.erase_cons_head] at herase
        refine herase.trans ?_
        have hforget : (s.live.map Allocation.ptr).erase ptr =
            (forget ptr s.live).map Allocation.ptr := by
          rw [hinv.distinct.erase_eq_filter, forget, List.filter_map]
          congr 2
          funext a
          rw [Bool.eq_iff_iff]
          simp
        exact List.Perm.of_eq hforget
      obtain ⟨s', bs', hheap, hnone, himage', hinv'⟩ := ih hinv₁ hrest
      exact ⟨s', bs', hheap, hnone, himage'.trans himage, hinv'⟩

/-- No two neighbours are free; the live blocks determine the list; a free
right after an allocation restores it; freeing everything leaves one block. -/
theorem heap_history_independent {h : Heap}
    (hreach : Client.Reachable h s) :
    (∃ bs, kheapDump s.heap = some bs ∧ Coalesced bs) ∧
    (∀ h₂ s₂, h₂.image = h.image → Client.Reachable h₂ s₂ →
      s₂.liveBlocks = s.liveBlocks →
      kheapDump s₂.heap = kheapDump s.heap) ∧
    (∀ size h' p, size ≤ requestLimit →
      kmalloc s.heap size = some (h', p) → p ≠ 0 →
      kheapDump (kfree h' p) = kheapDump s.heap) ∧
    (∀ size align h' p, size ≤ requestLimit → align ≤ requestLimit →
      kmallocAligned s.heap size align = some (h', p) → p ≠ 0 →
      kheapDump (kfree h' p) = kheapDump s.heap) ∧
    ∀ order : List ℕ, order.Perm (s.live.map Allocation.ptr) →
      kheapDump (order.foldl kfree s.heap) =
        some [⟨s.heap.heapStart, 131040, true⟩] ∧
      kgetFreeMemory (order.foldl kfree s.heap) = some 131040 := by
  obtain ⟨bs, hinv, himage⟩ := hreach.invariant
  have hdump := hinv.heap.kheapDump_eq
  refine ⟨⟨bs, hdump, hinv.heap.blocks.coalesced⟩, ?_, ?_, ?_, ?_⟩
  · intro h₂ s₂ himage₂ hreach₂ hlive
    obtain ⟨bs₂, hinv₂, himage₂'⟩ := hreach₂.invariant
    rw [hdump, hinv₂.heap.kheapDump_eq]
    congr 1
    refine hinv₂.heap.unique hinv.heap
      (himage₂'.trans (himage₂.trans himage.symm)) ?_
    intro d hd
    rw [hinv₂.mem_liveBlocks hd, hinv.mem_liveBlocks hd, hlive]
  · intro size h' p hsize hcall hp
    rcases kmalloc_cases hinv.heap (hsize.trans (by decide)) with
      ⟨hfail, -⟩ | ⟨h'', bs', c, hok, -, hg⟩
    · rw [hfail] at hcall
      cases hcall
      exact absurd rfl hp
    · rw [hok] at hcall
      cases hcall
      rw [hg.undo hinv.heap, hdump]
  · intro size align h' p hsize halign hcall hp
    rcases kmallocAligned_cases hinv.heap hsize halign with
      hfail | ⟨h'', bs', c, hok, -, hg, -⟩
    · rw [hfail] at hcall
      cases hcall
      exact absurd rfl hp
    · rw [hok] at hcall
      cases hcall
      rw [hg.undo hinv.heap, hdump]
  · intro order horder
    obtain ⟨s', bs', hheap, hnone, himage', hinv'⟩ := hinv.kfree_all horder
    have hsingle := hinv'.all_free hnone
    have hstart : s'.heap.heapStart = s.heap.heapStart := by
      rw [hinv'.heap.start, hinv.heap.start, himage']
    rw [hstart] at hsingle
    rw [← hheap, hinv'.heap.kheapDump_eq, hinv'.heap.kgetFreeMemory_eq,
      hsingle]
    exact ⟨rfl, rfl⟩

theorem heap_history_independent_unbootedHeap : ∃ s : Client,
    s.live = [⟨0x121000, 64, 4096⟩, ⟨0x120020, 100, 1⟩] ∧
      kgetFreeMemory ([0x121000, 0x120020].foldl kfree s.heap) =
        some 131040 := by
  obtain ⟨s, hreach, hlive⟩ := unbootedHeap_run
  refine ⟨s, hlive, ?_⟩
  have hall := (heap_history_independent hreach).2.2.2.2
  exact (hall _ (by rw [hlive]; exact List.Perm.refl _)).2

/-! ## Payload bytes -/

section Payloads

variable {h h' : Heap} {b c c' : Block} {i : ℕ}

theorem Granted.payload (hg : Granted h bs n h' bs' c) (hb : b ∈ bs)
    (hused : b.free = false) (hi : i < b.size) :
    h'.mem (b.addr + 32 + i) = h.mem (b.addr + 32 + i) :=
  hg.frame _ (hg.inv.payload_not_header
    ((hg.used_iff b hused).mpr (Or.inl hb)) (by omega) (by omega))

theorem Released.payload (hinv : HeapInvariant h bs)
    (hrel : Released h bs h' bs' c) (hb : b ∈ bs) (hi : i < b.size) :
    h'.mem (b.addr + 32 + i) = h.mem (b.addr + 32 + i) :=
  hrel.frame _ (hinv.payload_not_header hb (by omega) (by omega))

theorem Resized.payload (hres : Resized h bs n h' bs' c c') (hb : b ∈ bs)
    (hused : b.free = false) (hi : i < b.size) :
    h'.mem (b.addr + 32 + i) = h.mem (b.addr + 32 + i) := by
  by_cases hbc : b = c
  · subst hbc
    have hc' : c' ∈ bs' := (hres.used_iff c' hres.used).mpr (Or.inr rfl)
    have haddr := hres.addr
    have hlarger := hres.larger
    exact hres.frame _ (hres.inv.payload_not_header hc' (by omega)
      (by omega))
  · have hb' : b ∈ bs' := (hres.used_iff b hused).mpr (Or.inl ⟨hb, hbc⟩)
    exact hres.frame _ (hres.inv.payload_not_header hb' (by omega)
      (by omega))

theorem Granted.apart (hg : Granted h bs n h' bs' c) (hb : b ∈ bs)
    (hused : b.free = false) :
    b.addr + 32 + b.size ≤ c.addr ∨ c.addr + 32 + c.size ≤ b.addr := by
  have hb' := (hg.used_iff b hused).mpr (Or.inl hb)
  refine hg.inv.blocks.tiles.disjoint hb' hg.mem ?_
  rintro rfl
  exact hg.fresh hb

theorem Granted.clear_payload {k : ℕ} (hg : Granted h bs n h' bs' c)
    (hk : k ≤ c.size) (hb : b ∈ bs) (hused : b.free = false)
    (hi : i < b.size) :
    (clearPayload h' (c.addr + 32) k).mem (b.addr + 32 + i) =
      h.mem (b.addr + 32 + i) := by
  have hapart := hg.apart hb hused
  rw [← hg.payload hb hused hi]
  exact memset_outside _ _ (by omega)

/-- The move path keeps every old payload, and the new one starts with the
bytes of the old block. -/
theorem Granted.moved_payload {h₁ : Heap} {bs₁ : List Block}
    (hg : Granted h bs n h₁ bs₁ c') (hc : c ∈ bs) (husedc : c.free = false)
    (hlarger : c.size < n)
    (hrel : Released (copyPayload h₁ (c'.addr + 32) (c.addr + 32) c.size)
      bs₁ h' bs' c) :
    (∀ b ∈ bs, b.free = false → ∀ i < b.size,
      h'.mem (b.addr + 32 + i) = h.mem (b.addr + 32 + i)) ∧
    ∀ i < c.size, h'.mem (c'.addr + 32 + i) = h.mem (c.addr + 32 + i) := by
  have hfits := hg.fits
  have hcopied := hg.inv.copyPayload (p := c.addr + 32) (k := c.size) hg.mem
    (by omega)
  constructor
  · intro b hb hused i hi
    have hapart := hg.apart hb hused
    have hb₁ := (hg.used_iff b hused).mpr (Or.inl hb)
    rw [hrel.payload hcopied hb₁ hi, ← hg.payload hb hused hi]
    exact memcpy_outside _ (by omega)
  · intro i hi
    have hapart := hg.apart hc husedc
    rw [hrel.payload hcopied hg.mem (by omega), ← hg.payload hc husedc hi]
    exact memcpy_inside _ hi (by omega)

/-- Every live payload except the one at `ptr` keeps its bytes. -/
def Client.Undisturbed (s : Client) (ptr : ℕ) (h' : Heap) : Prop :=
  ∀ a ∈ s.live, a.ptr ≠ ptr → ∀ i < kmallocUsableSize s.heap a.ptr,
    h'.mem (a.ptr + i) = s.heap.mem (a.ptr + i)

theorem ClientInvariant.undisturbed {ptr : ℕ}
    (hinv : ClientInvariant s bs)
    (hbytes : ∀ b ∈ bs, b.free = false → ∀ i < b.size,
      h'.mem (b.addr + 32 + i) = s.heap.mem (b.addr + 32 + i)) :
    s.Undisturbed ptr h' := by
  intro a ha _ i hi
  obtain ⟨b, hb, hused, hptr, -⟩ := hinv.owned a ha
  rw [← hptr, hinv.usable hb] at hi
  rw [← hptr]
  exact hbytes b hb hused i hi

end Payloads

/-- What `krealloc` leaves at the pointer it returns. -/
def Client.Resizes (s : Client) (a : Allocation) (size : ℕ) : Prop :=
  ∃ h' q, krealloc s.heap a.ptr size = some (h', q) ∧
    s.Undisturbed a.ptr h' ∧
    (size ≠ 0 → q ≠ 0 →
      ∀ i < min (kmallocUsableSize s.heap a.ptr) size,
        h'.mem (q + i) = s.heap.mem (a.ptr + i)) ∧
    (size ≠ 0 → q = 0 → s.exec (.krealloc a.ptr size) = some s)

theorem ClientInvariant.kfree_undisturbed (hinv : ClientInvariant s bs)
    {a : Allocation} (ha : a ∈ s.live) :
    s.Undisturbed a.ptr (kfree s.heap a.ptr) := by
  obtain ⟨b, hb, hused, hptr⟩ := hinv.block_of ⟨a, ha, rfl⟩
  obtain ⟨bs', hrel⟩ := kfree_released hinv.heap hb hused
  rw [← hptr]
  exact hinv.undisturbed fun c hc _ i hi => hrel.payload hinv.heap hc hi

theorem ClientInvariant.resizes (hinv : ClientInvariant s bs)
    {a : Allocation} (ha : a ∈ s.live) (hn : n ≤ requestLimit) :
    s.Resizes a n := by
  have hne := hinv.ptr_ne ha
  by_cases hzero : n = 0
  · subst hzero
    refine ⟨kfree s.heap a.ptr, 0, ?_, hinv.kfree_undisturbed ha, ?_, ?_⟩
    · simp [krealloc, hne]
    · intro hpos
      exact absurd rfl hpos
    · intro hpos
      exact absurd rfl hpos
  · obtain ⟨b, hb, hused, hptr⟩ := hinv.block_of ⟨a, ha, rfl⟩
    have husable : kmallocUsableSize s.heap a.ptr = b.size := by
      rw [← hptr, hinv.usable hb]
    unfold Client.Resizes
    rw [husable, ← hptr]
    rcases krealloc_cases hinv.heap hb hused hzero
      (hn.trans (by decide)) with
      ⟨h', bs', c, hok, hres⟩ | hfail |
      ⟨h₁, bs₁, c, h', bs', hok, hlarger, hg, hrel⟩
    · refine ⟨h', _, hok, ?_, ?_, ?_⟩
      · exact hinv.undisturbed fun d hd hd' i hi => hres.payload hd hd' hi
      · intro _ _ i hi
        exact hres.payload hb hused (by omega)
      · intro _ hnull
        omega
    · refine ⟨s.heap, 0, hfail, fun _ _ _ _ _ => rfl, ?_, ?_⟩
      · intro _ hnull
        exact absurd rfl hnull
      · intro _ _
        simp [Client.exec, hfail, hzero]
    · obtain ⟨hkept, hcopied⟩ := hg.moved_payload hb hused hlarger hrel
      refine ⟨h', _, hok, hinv.undisturbed hkept, ?_, ?_⟩
      · intro _ _ i hi
        exact hcopied i (by omega)
      · intro _ hnull
        omega

/-- No call disturbs a live payload it is not about; `kcalloc` clears what it
returns; `krealloc` carries the old bytes over. -/
theorem heap_payloads_preserved {h : Heap}
    (hreach : Client.Reachable h s) :
    (∀ size ≤ requestLimit, ∃ h' p,
      kmalloc s.heap size = some (h', p) ∧ s.Undisturbed 0 h') ∧
    (∀ nmemb size, nmemb * size ≤ requestLimit → ∃ h' p,
      kcalloc s.heap nmemb size = some (h', p) ∧ s.Undisturbed 0 h' ∧
        (p ≠ 0 → ∀ i < nmemb * size, h'.mem (p + i) = 0)) ∧
    (∀ size ≤ requestLimit, ∀ align ≤ requestLimit, ∃ h' p,
      kmallocAligned s.heap size align = some (h', p) ∧
        s.Undisturbed 0 h') ∧
    (∀ a ∈ s.live, s.Undisturbed a.ptr (kfree s.heap a.ptr)) ∧
    ∀ a ∈ s.live, ∀ size ≤ requestLimit, s.Resizes a size := by
  obtain ⟨bs, hinv, -⟩ := hreach.invariant
  refine ⟨?_, ?_, ?_, fun a ha => hinv.kfree_undisturbed ha,
    fun a ha size hsize => hinv.resizes ha hsize⟩
  · intro size hsize
    rcases kmalloc_cases hinv.heap (hsize.trans (by decide)) with
      ⟨hfail, -⟩ | ⟨h', bs', c, hok, -, hg⟩
    · exact ⟨_, _, hfail, fun _ _ _ _ _ => rfl⟩
    · exact ⟨_, _, hok, hinv.undisturbed fun b hb hused i hi =>
        hg.payload hb hused hi⟩
  · intro nmemb size hsize
    rcases kcalloc_cases hinv.heap (hsize.trans (by decide)) with
      hfail | ⟨h', bs', c, hok, hg⟩
    · refine ⟨_, _, hfail, fun _ _ _ _ _ => rfl, ?_⟩
      intro hnull
      exact absurd rfl hnull
    · refine ⟨_, _, hok, hinv.undisturbed fun b hb hused i hi =>
        hg.clear_payload hg.fits hb hused hi, ?_⟩
      intro _ i hi
      exact memset_inside _ _ hi
  · intro size hsize align halign
    rcases kmallocAligned_cases hinv.heap hsize halign with
      hfail | ⟨h', bs', c, hok, -, hg, -⟩
    · exact ⟨_, _, hfail, fun _ _ _ _ _ => rfl⟩
    · exact ⟨_, _, hok, hinv.undisturbed fun b hb hused i hi =>
        hg.payload hb hused hi⟩

theorem heap_payloads_preserved_unbootedHeap : ∃ s : Client,
    s.live = [⟨0x121000, 64, 4096⟩, ⟨0x120020, 100, 1⟩] ∧
      s.Resizes ⟨0x120020, 100, 1⟩ 5000 := by
  obtain ⟨s, hreach, hlive⟩ := unbootedHeap_run
  have hall := (heap_payloads_preserved hreach).2.2.2.2
  exact ⟨s, hlive, hall _ (by simp [hlive]) 5000 (by decide)⟩

end Otsos
