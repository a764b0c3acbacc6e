import Otsos.Heap.Guarantees

/-!
# Freeing in any order

A free reads the header in front of the pointer, even where that header was
merged into a larger free block.  No free writes into the magic number or the
flag of an old header again, so a pointer freed before still looks free and
freeing it again changes nothing.  The used blocks left over do not depend on
the order, and they determine the list.
-/

namespace Otsos

open Lib

variable {h h' h₀ : Heap} {bs bs' bs₀ : List Block} {c d : Block}
  {args : List ℕ} {freed : ℕ → Prop} {ptr : ℕ}

/-- The header of the pointer would lie outside the heap. -/
def OutsideHeap (h : Heap) (ptr : ℕ) : Prop :=
  sub64 ptr sizeofHeader < h.heapStart ∨ h.heapEnd ≤ sub64 ptr sizeofHeader

/-- The pointer is the payload of a used block. -/
def LivePointer (bs : List Block) (ptr : ℕ) : Prop :=
  ∃ b ∈ bs, b.free = false ∧ b.addr + 32 = ptr

theorem kfree_null : kfree h 0 = h := if_pos rfl

/-- `kfree` returns at one of its tests, or the pointer has passed them. -/
theorem kfree_tests (h : Heap) (ptr : ℕ) :
    kfree h ptr = h ∨ ¬ OutsideHeap h ptr ∧
      isFreeField h.mem (sub64 ptr sizeofHeader) = 0 := by
  unfold kfree
  by_cases hnull : ptr = 0
  · left
    rw [if_pos hnull]
  rw [if_neg hnull]
  by_cases hstatics : h.heapStart = 0 ∨ h.heapEnd = 0
  · left
    rw [if_pos hstatics]
  rw [if_neg hstatics]
  dsimp only
  by_cases hrange : sub64 ptr sizeofHeader < h.heapStart ∨
      h.heapEnd ≤ sub64 ptr sizeofHeader
  · left
    rw [if_pos hrange]
  rw [if_neg hrange]
  by_cases hmagic : magicField h.mem (sub64 ptr sizeofHeader) ≠ heapMagic
  · left
    rw [if_pos hmagic]
  rw [if_neg hmagic]
  by_cases hmarked : isFreeField h.mem (sub64 ptr sizeofHeader) ≠ 0
  · left
    rw [if_pos hmarked]
  · right
    exact ⟨hrange, not_not.mp hmarked⟩

theorem kfree_outside (hout : OutsideHeap h ptr) : kfree h ptr = h :=
  (kfree_tests h ptr).resolve_right fun htests => htests.1 hout

/-- A header that looks free is left alone, valid or not. -/
theorem kfree_marked
    (hmarked : isFreeField h.mem (sub64 ptr sizeofHeader) ≠ 0) :
    kfree h ptr = h :=
  (kfree_tests h ptr).resolve_right fun htests => hmarked htests.2

/-- The heap after some of the used blocks of `bs₀` were freed, each perhaps
several times. -/
structure Freed (h₀ : Heap) (bs₀ : List Block) (freed : ℕ → Prop) (h : Heap)
    (bs : List Block) : Prop where
  image : h.image = h₀.image
  inv : HeapInvariant h bs
  used_iff : ∀ d : Block, d.free = false →
    (d ∈ bs ↔ d ∈ bs₀ ∧ ¬ freed (d.addr + 32))
  addrs : ∀ d ∈ bs, ∃ e ∈ bs₀, e.addr = d.addr
  marked : ∀ d ∈ bs₀, freed (d.addr + 32) → isFreeField h.mem d.addr ≠ 0

theorem Freed.start (hinv : HeapInvariant h bs) :
    Freed h bs (fun _ => False) h bs :=
  ⟨rfl, hinv, by simp, fun d hd => ⟨d, hd, rfl⟩, fun _ _ => False.elim⟩

theorem Freed.congr {freed' : ℕ → Prop} (hs : Freed h₀ bs₀ freed h bs)
    (hsame : ∀ p, freed p ↔ freed' p) : Freed h₀ bs₀ freed' h bs := by
  have heq : freed = freed' := funext fun p => propext (hsame p)
  rwa [← heq]

/-- The flag of an old header is out of the way of all links. -/
theorem Freed.flag_not_link (hs : Freed h₀ bs₀ freed h bs)
    (hinv : HeapInvariant h₀ bs₀) (hd : d ∈ bs₀) {x : ℕ}
    (hlow : d.addr + 4 ≤ x) (hhigh : x < d.addr + 8) : ¬ InLinks bs x := by
  rintro ⟨b, hb, hblow, hbhigh⟩
  obtain ⟨e, he, haddr⟩ := hs.addrs b hb
  simp only [sizeofHeader] at hbhigh
  by_cases hde : d = e
  · rw [hde] at hhigh
    omega
  · have hsize := (hinv.blocks.sizes e he).2
    rcases hinv.blocks.tiles.disjoint hd he hde with hlt | hlt <;> omega

theorem Freed.flag_eq (hs : Freed h₀ bs₀ freed h bs)
    (hinv : HeapInvariant h₀ bs₀) (hsteps : ReleaseSteps h bs h' bs' c)
    (hd : d ∈ bs₀) :
    isFreeField h'.mem d.addr =
      isFreeField (setIsFree h.mem c.addr 1) d.addr := by
  apply Memory.load_congr
  intro i hi
  exact hsteps.links _ (hs.flag_not_link hinv hd (by omega) (by omega))

theorem Freed.release (hs : Freed h₀ bs₀ freed h bs)
    (hinv : HeapInvariant h₀ bs₀) (hc : c ∈ bs₀) (hused : c.free = false)
    (hfresh : ¬ freed (c.addr + 32)) :
    ∃ bs', Freed h₀ bs₀ (fun p => p = c.addr + 32 ∨ freed p)
      (kfree h (c.addr + 32)) bs' := by
  have hmem : c ∈ bs := (hs.used_iff c hused).mpr ⟨hc, hfresh⟩
  obtain ⟨bs', hsteps⟩ := kfree_steps hs.inv hmem hused
  have hrel := hsteps.released
  refine ⟨bs', hrel.image.trans hs.image, hrel.inv, ?_, ?_, ?_⟩
  · intro d hd
    rw [hrel.used_iff d hd, hs.used_iff d hd, not_or, and_assoc]
    refine and_congr_right fun hmem₀ => ?_
    rw [and_comm]
    refine and_congr_left fun _ => not_congr ⟨?_, ?_⟩
    · rintro rfl
      rfl
    · intro haddr
      exact hinv.blocks.tiles.eq_of_addr (by omega) hmem₀ hc (by omega)
  · intro d hd
    obtain ⟨e, he, heq⟩ := hsteps.addrs d hd
    obtain ⟨e₀, he₀, heq₀⟩ := hs.addrs e he
    exact ⟨e₀, he₀, heq₀.trans heq⟩
  · intro d hd hfreed
    rw [hs.flag_eq hinv hsteps hd]
    by_cases hdc : d = c
    · rw [hdc, isFreeField, setIsFree, Memory.load_store_same]
      decide
    · have hsize := (hinv.blocks.sizes d hd).2
      have hapart := hinv.blocks.tiles.disjoint hd hc hdc
      have hold : freed (d.addr + 32) := by
        refine hfreed.resolve_left ?_
        intro haddr
        exact hdc (hinv.blocks.tiles.eq_of_addr (by omega) hd hc (by omega))
      rw [isFreeField, setIsFree, Memory.load_store_disjoint _ _ (by omega)]
      exact hs.marked d hd hold

/-- What may be freed: `NULL`, a pointer outside, or one that was live. -/
def Freeable (h : Heap) (bs : List Block) (ptr : ℕ) : Prop :=
  ptr = 0 ∨ OutsideHeap h ptr ∨ LivePointer bs ptr

theorem Freed.outside_iff (hs : Freed h₀ bs₀ freed h bs)
    (hinv : HeapInvariant h₀ bs₀) :
    OutsideHeap h ptr ↔ OutsideHeap h₀ ptr := by
  have hstart : h.heapStart = h₀.heapStart := by
    rw [hs.inv.start, hinv.start, hs.image]
  have hstop : h.heapEnd = h₀.heapEnd := by
    rw [hs.inv.stop, hinv.stop, hstart]
  rw [OutsideHeap, OutsideHeap, hstart, hstop]

theorem Freed.step (hs : Freed h₀ bs₀ freed h bs)
    (hinv : HeapInvariant h₀ bs₀) (hptr : Freeable h₀ bs₀ ptr) :
    ∃ bs', Freed h₀ bs₀
      (fun p => (p = ptr ∧ LivePointer bs₀ p) ∨ freed p) (kfree h ptr) bs' := by
  by_cases hlive : LivePointer bs₀ ptr
  · obtain ⟨c, hc, hused, rfl⟩ := hlive
    have hpointer : LivePointer bs₀ (c.addr + 32) := ⟨c, hc, hused, rfl⟩
    by_cases hfreed : freed (c.addr + 32)
    · have hheader := (hinv.header_ptr hc).2
      have hmarked := hs.marked c hc hfreed
      rw [kfree_marked (by rwa [hheader])]
      refine ⟨bs, hs.congr fun p => (or_iff_right_of_imp ?_).symm⟩
      rintro ⟨rfl, -⟩
      exact hfreed
    · obtain ⟨bs', hs'⟩ := hs.release hinv hc hused hfreed
      refine ⟨bs', hs'.congr fun p => or_congr_left ?_⟩
      exact ⟨fun heq => ⟨heq, by rwa [heq]⟩, fun hboth => hboth.1⟩
  · have hsame : kfree h ptr = h := by
      rcases hptr with rfl | hout | hpointer
      · exact kfree_null
      · exact kfree_outside ((hs.outside_iff hinv).mpr hout)
      · exact absurd hpointer hlive
    rw [hsame]
    refine ⟨bs, hs.congr fun p => (or_iff_right_of_imp ?_).symm⟩
    rintro ⟨rfl, hpointer⟩
    exact absurd hpointer hlive

theorem Freed.steps (hs : Freed h₀ bs₀ freed h bs)
    (hinv : HeapInvariant h₀ bs₀) (hargs : ∀ p ∈ args, Freeable h₀ bs₀ p) :
    ∃ bs', Freed h₀ bs₀ (fun p => (p ∈ args ∧ LivePointer bs₀ p) ∨ freed p)
      (args.foldl kfree h) bs' := by
  induction args generalizing h bs freed with
  | nil => exact ⟨bs, by simpa using hs⟩
  | cons ptr args ih =>
      obtain ⟨bs₁, hs₁⟩ := hs.step hinv (hargs ptr List.mem_cons_self)
      obtain ⟨bs', hs'⟩ :=
        ih hs₁ fun p hp => hargs p (List.mem_cons_of_mem ptr hp)
      refine ⟨bs', hs'.congr fun p => ?_⟩
      rw [List.mem_cons]
      tauto

theorem Freed.unique {freed' : ℕ → Prop} (hs : Freed h₀ bs₀ freed h bs)
    (hs' : Freed h₀ bs₀ freed' h' bs') (hsame : ∀ p, freed p ↔ freed' p) :
    bs = bs' := by
  refine hs.inv.unique hs'.inv (hs.image.trans hs'.image.symm) ?_
  intro d hd
  rw [hs.used_iff d hd, hs'.used_iff d hd, hsame]

/-- On any well-formed heap, freeing pointers in any order and any number of
times, among `NULL`s and pointers outside, leaves the list that freeing the
live ones once leaves, in whatever order. -/
theorem kfree_commutes (hinv : HeapInvariant h bs) {order : List ℕ}
    (hargs : ∀ p ∈ args, Freeable h bs p)
    (horder : ∀ p, p ∈ order ↔ p ∈ args ∧ LivePointer bs p) :
    ∃ bs', kheapDump (args.foldl kfree h) = some bs' ∧
      kheapDump (order.foldl kfree h) = some bs' := by
  obtain ⟨bs₁, hs₁⟩ := (Freed.start hinv).steps hinv hargs
  have hlive : ∀ p ∈ order, Freeable h bs p :=
    fun p hp => Or.inr (Or.inr ((horder p).mp hp).2)
  obtain ⟨bs₂, hs₂⟩ := (Freed.start hinv).steps hinv hlive
  have hsame : bs₁ = bs₂ := by
    refine hs₁.unique hs₂ fun p => or_congr_left ?_
    rw [horder]
    tauto
  rw [← hsame] at hs₂
  exact ⟨bs₁, hs₁.inv.kheapDump_eq, hs₂.inv.kheapDump_eq⟩

theorem ClientInvariant.livePointer_iff {s : Client}
    (hinv : ClientInvariant s bs) : LivePointer bs ptr ↔ s.Holds ptr := by
  constructor
  · rintro ⟨b, hb, hused, rfl⟩
    exact hinv.complete b hb hused
  · intro hholds
    exact hinv.block_of hholds

/-- Two live pointers, freed in both orders, one of them twice, with `NULL` and
a pointer outside in between. -/
theorem kfree_commutes_unbootedHeap : ∃ s : Client,
    Client.Reachable unbootedHeap s ∧ ∃ bs,
      kheapDump ([0x120020, 0, 0x120020, 0x121000, 0x1000].foldl kfree
        s.heap) = some bs ∧
      kheapDump ([0x121000, 0x120020].foldl kfree s.heap) = some bs := by
  obtain ⟨s, hreach, hlive⟩ := unbootedHeap_run
  obtain ⟨bs, hinv, himage⟩ := hreach.invariant
  have hpointer : ∀ p, LivePointer bs p ↔ p = 0x121000 ∨ p = 0x120020 := by
    intro p
    rw [hinv.livePointer_iff, Client.Holds, hlive]
    simp [eq_comm]
  have hstart : s.heap.heapStart = 0x120000 := by
    rw [hinv.heap.start, himage]
    decide
  refine ⟨s, hreach, kfree_commutes hinv.heap ?_ ?_⟩
  · intro p hp
    simp only [List.mem_cons, List.not_mem_nil, or_false] at hp
    rcases hp with rfl | rfl | rfl | rfl | rfl
    · exact Or.inr (Or.inr ((hpointer _).mpr (Or.inr rfl)))
    · exact Or.inl rfl
    · exact Or.inr (Or.inr ((hpointer _).mpr (Or.inr rfl)))
    · exact Or.inr (Or.inr ((hpointer _).mpr (Or.inl rfl)))
    · refine Or.inr (Or.inl (Or.inl ?_))
      rw [hstart]
      decide
  · intro p
    rw [hpointer]
    simp only [List.mem_cons, List.not_mem_nil, or_false]
    omega

end Otsos
