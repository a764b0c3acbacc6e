import Mathlib.Logic.Relation
import Otsos.Heap.Aligned

/-!
# Runs of heap calls

A client calls the allocator in any order, on pointers it holds, and writes
inside the payloads it owns.  The list of live pointers is a ghost: it records
what was handed out and not taken back.  One lemma for each way a call can
change the blocks keeps the client invariant, and an induction over the run
carries it to every reachable state.
-/

namespace Otsos

open Lib

/-- A pointer held by the client, with the size last requested for it and the
alignment asked of `kmalloc_aligned` (1 for the other calls). -/
structure Allocation where
  ptr : ℕ
  requested : ℕ
  align : ℕ
deriving DecidableEq, Repr

structure Client where
  heap : Heap
  live : List Allocation

inductive HeapCall where
  | kmalloc (size : ℕ)
  | kcalloc (nmemb size : ℕ)
  | krealloc (ptr size : ℕ)
  | kmallocAligned (size align : ℕ)
  | kfree (ptr : ℕ)
  | store (addr : ℕ) (value : UInt8)

def Client.Holds (s : Client) (ptr : ℕ) : Prop :=
  ∃ a ∈ s.live, a.ptr = ptr

/-- The largest size, product or alignment of the calls considered. -/
def requestLimit : ℕ := 2 ^ 32

/-- What the client promises: bounded requests, `NULL` or live pointers, and
stores inside live payloads. -/
def HeapCall.Allowed (s : Client) : HeapCall → Prop
  | .kmalloc size => size ≤ requestLimit
  | .kcalloc nmemb size =>
      nmemb < 2 ^ 64 ∧ size < 2 ^ 64 ∧ nmemb * size ≤ requestLimit
  | .krealloc ptr size => (ptr = 0 ∨ s.Holds ptr) ∧ size ≤ requestLimit
  | .kmallocAligned size align =>
      size ≤ requestLimit ∧ align ≤ requestLimit
  | .kfree ptr => ptr = 0 ∨ s.Holds ptr
  | .store addr _ => ∃ a ∈ s.live, a.ptr ≤ addr ∧
      addr < a.ptr + kmallocUsableSize s.heap a.ptr

/-- A returned pointer becomes live unless it is `NULL`. -/
def record (ptr size align : ℕ) (live : List Allocation) :
    List Allocation :=
  if ptr = 0 then live else ⟨ptr, size, align⟩ :: live

def forget (ptr : ℕ) (live : List Allocation) : List Allocation :=
  live.filter fun a => a.ptr ≠ ptr

/-- One call together with its effect on the live pointers. -/
def Client.exec (s : Client) : HeapCall → Option Client
  | .kmalloc size =>
      (kmalloc s.heap size).map fun r => ⟨r.1, record r.2 size 1 s.live⟩
  | .kcalloc nmemb size =>
      (kcalloc s.heap nmemb size).map fun r =>
        ⟨r.1, record r.2 (nmemb * size) 1 s.live⟩
  | .krealloc ptr size =>
      (krealloc s.heap ptr size).map fun r =>
        ⟨r.1,
          if ptr = 0 then record r.2 size 1 s.live
          else if size = 0 then forget ptr s.live
          else if r.2 = 0 then s.live
          else record r.2 size 1 (forget ptr s.live)⟩
  | .kmallocAligned size align =>
      (kmallocAligned s.heap size align).map fun r =>
        ⟨r.1, record r.2 size align s.live⟩
  | .kfree ptr => some ⟨kfree s.heap ptr, forget ptr s.live⟩
  | .store addr value =>
      some ⟨{ s.heap with mem := s.heap.mem.set addr value }, s.live⟩

/-- After `init_heap` no pointer is live. -/
def Client.boot (h : Heap) : Client := ⟨initHeap h, []⟩

def Client.Step (s s' : Client) : Prop :=
  ∃ call, call.Allowed s ∧ s.exec call = some s'

/-- The states of a run that starts with `init_heap`. -/
def Client.Reachable (h : Heap) (s : Client) : Prop :=
  Relation.ReflTransGen Client.Step (Client.boot h) s

/-! ## The client invariant -/

/-- The live pointers are the payloads of the used blocks. -/
structure ClientInvariant (s : Client) (bs : List Block) : Prop where
  heap : HeapInvariant s.heap bs
  owned : ∀ a ∈ s.live, ∃ b ∈ bs, b.free = false ∧
    b.addr + 32 = a.ptr ∧ a.requested ≤ b.size
  complete : ∀ b ∈ bs, b.free = false → s.Holds (b.addr + 32)
  distinct : (s.live.map Allocation.ptr).Nodup
  aligned : ∀ a ∈ s.live, ∀ k, a.align = 2 ^ k → a.align ∣ a.ptr

variable {s : Client} {bs bs' : List Block} {h' : Heap} {n : ℕ}

theorem ClientInvariant.block_of (hinv : ClientInvariant s bs) {ptr : ℕ}
    (hlive : s.Holds ptr) :
    ∃ b ∈ bs, b.free = false ∧ b.addr + 32 = ptr := by
  obtain ⟨a, ha, rfl⟩ := hlive
  obtain ⟨b, hb, hused, hptr, -⟩ := hinv.owned a ha
  exact ⟨b, hb, hused, hptr⟩

theorem ClientInvariant.boot (h : Heap) :
    ClientInvariant (Client.boot h)
      [⟨align16 h.image.kernelEnd, heapSize - sizeofHeader, true⟩] := by
  refine ⟨initHeap_invariant h, ?_, ?_, List.nodup_nil, ?_⟩
  · simp [Client.boot]
  · intro b hb hused
    rw [List.mem_singleton] at hb
    subst hb
    simp at hused
  · simp [Client.boot]

theorem ClientInvariant.write {m : Memory} (hinv : ClientInvariant s bs)
    (hsame : ∀ x, InHeader bs x → m x = s.heap.mem x) :
    ClientInvariant ⟨{ s.heap with mem := m }, s.live⟩ bs :=
  ⟨hinv.heap.write hsame, hinv.owned, hinv.complete, hinv.distinct,
    hinv.aligned⟩

theorem ClientInvariant.granted {c : Block} {align : ℕ}
    (hinv : ClientInvariant s bs) (hg : Granted s.heap bs n h' bs' c)
    (halign : ∀ k, align = 2 ^ k → align ∣ c.addr + 32) :
    ClientInvariant ⟨h', ⟨c.addr + 32, n, align⟩ :: s.live⟩ bs' := by
  refine ⟨hg.inv, ?_, ?_, ?_, ?_⟩
  · intro a ha
    rcases List.mem_cons.mp ha with rfl | ha
    · exact ⟨c, hg.mem, hg.used, rfl, hg.fits⟩
    · obtain ⟨b, hb, hused, hptr, hsize⟩ := hinv.owned a ha
      exact ⟨b, (hg.used_iff b hused).mpr (Or.inl hb), hused, hptr, hsize⟩
  · intro b hb hused
    rcases (hg.used_iff b hused).mp hb with hb | rfl
    · obtain ⟨a, ha, hptr⟩ := hinv.complete b hb hused
      exact ⟨a, List.mem_cons_of_mem _ ha, hptr⟩
    · exact ⟨_, List.mem_cons_self, rfl⟩
  · rw [List.map_cons, List.nodup_cons]
    refine ⟨?_, hinv.distinct⟩
    intro hmem
    obtain ⟨a, ha, hptr⟩ := List.mem_map.mp hmem
    obtain ⟨b, hb, hused, hptr', -⟩ := hinv.owned a ha
    have hb' := (hg.used_iff b hused).mpr (Or.inl hb)
    have hsame := hg.inv.blocks.tiles.eq_of_addr (by omega) hb' hg.mem
      (by simp only at hptr; omega)
    exact hg.fresh (hsame ▸ hb)
  · intro a ha
    rcases List.mem_cons.mp ha with rfl | ha
    · exact halign
    · exact hinv.aligned a ha

theorem mem_forget {ptr : ℕ} {live : List Allocation} {a : Allocation} :
    a ∈ forget ptr live ↔ a ∈ live ∧ a.ptr ≠ ptr := by
  simp [forget]

theorem forget_distinct {ptr : ℕ} {live : List Allocation}
    (h : (live.map Allocation.ptr).Nodup) :
    ((forget ptr live).map Allocation.ptr).Nodup :=
  (List.filter_sublist.map Allocation.ptr).nodup h

theorem ClientInvariant.released {c : Block} (hinv : ClientInvariant s bs)
    (hc : c ∈ bs) (hrel : Released s.heap bs h' bs' c) :
    ClientInvariant ⟨h', forget (c.addr + 32) s.live⟩ bs' := by
  refine ⟨hrel.inv, ?_, ?_, forget_distinct hinv.distinct, ?_⟩
  · intro a ha
    obtain ⟨ha, hne⟩ := mem_forget.mp ha
    obtain ⟨b, hb, hused, hptr, hsize⟩ := hinv.owned a ha
    have hbc : b ≠ c := by
      rintro rfl
      exact hne hptr.symm
    exact ⟨b, (hrel.used_iff b hused).mpr ⟨hb, hbc⟩, hused, hptr, hsize⟩
  · intro b hb hused
    obtain ⟨hb, hbc⟩ := (hrel.used_iff b hused).mp hb
    obtain ⟨a, ha, hptr⟩ := hinv.complete b hb hused
    refine ⟨a, mem_forget.mpr ⟨ha, ?_⟩, hptr⟩
    intro heq
    exact hbc (hinv.heap.blocks.tiles.eq_of_addr (by omega) hb hc
      (by omega))
  · intro a ha
    exact hinv.aligned a (mem_forget.mp ha).1

theorem ClientInvariant.resized {c c' : Block}
    (hinv : ClientInvariant s bs) (hc : c ∈ bs)
    (hres : Resized s.heap bs n h' bs' c c') :
    ClientInvariant
      ⟨h', ⟨c.addr + 32, n, 1⟩ :: forget (c.addr + 32) s.live⟩ bs' := by
  have hc' : c' ∈ bs' := (hres.used_iff c' hres.used).mpr (Or.inr rfl)
  refine ⟨hres.inv, ?_, ?_, ?_, ?_⟩
  · intro a ha
    rcases List.mem_cons.mp ha with rfl | ha
    · exact ⟨c', hc', hres.used, by rw [hres.addr], hres.fits⟩
    · obtain ⟨ha, hne⟩ := mem_forget.mp ha
      obtain ⟨b, hb, hused, hptr, hsize⟩ := hinv.owned a ha
      have hbc : b ≠ c := by
        rintro rfl
        exact hne hptr.symm
      exact ⟨b, (hres.used_iff b hused).mpr (Or.inl ⟨hb, hbc⟩), hused,
        hptr, hsize⟩
  · intro b hb hused
    rcases (hres.used_iff b hused).mp hb with ⟨hb, hbc⟩ | rfl
    · obtain ⟨a, ha, hptr⟩ := hinv.complete b hb hused
      refine ⟨a, List.mem_cons_of_mem _ (mem_forget.mpr ⟨ha, ?_⟩), hptr⟩
      intro heq
      exact hbc (hinv.heap.blocks.tiles.eq_of_addr (by omega) hb hc
        (by omega))
    · exact ⟨_, List.mem_cons_self, by simp only [hres.addr]⟩
  · rw [List.map_cons, List.nodup_cons]
    refine ⟨?_, forget_distinct hinv.distinct⟩
    intro hmem
    obtain ⟨a, ha, hptr⟩ := List.mem_map.mp hmem
    exact (mem_forget.mp ha).2 hptr
  · intro a ha
    rcases List.mem_cons.mp ha with rfl | ha
    · intro k _
      exact Nat.one_dvd _
    · exact hinv.aligned a (mem_forget.mp ha).1

/-! ## Steps and runs -/

theorem ClientInvariant.ptr_ne (hinv : ClientInvariant s bs)
    {a : Allocation} (ha : a ∈ s.live) : a.ptr ≠ 0 := by
  obtain ⟨b, -, -, hptr, -⟩ := hinv.owned a ha
  omega

theorem ClientInvariant.forget_null (hinv : ClientInvariant s bs) :
    forget 0 s.live = s.live :=
  List.filter_eq_self.mpr fun a ha => by simpa using hinv.ptr_ne ha

theorem ClientInvariant.usable {b : Block} (hinv : ClientInvariant s bs)
    (hb : b ∈ bs) : kmallocUsableSize s.heap (b.addr + 32) = b.size := by
  obtain ⟨hptr, -, -, hmagic, hsize⟩ := hinv.heap.header_tests hb
  simp only [kmallocUsableSize, hptr, (hinv.heap.header_ptr hb).2, hmagic,
    hsize, if_false, ne_eq, not_true_eq_false]

@[simp] theorem record_null (size align : ℕ) (live : List Allocation) :
    record 0 size align live = live := rfl

@[simp] theorem record_payload (addr size align : ℕ)
    (live : List Allocation) :
    record (addr + 32) size align live =
      ⟨addr + 32, size, align⟩ :: live := rfl

/-- The next state of an allowed call, with the invariant restored. -/
def Client.Keeps (s : Client) (call : HeapCall) : Prop :=
  ∃ s' bs', s.exec call = some s' ∧ s'.heap.image = s.heap.image ∧
    ClientInvariant s' bs'

theorem ClientInvariant.kmalloc_keeps (hinv : ClientInvariant s bs)
    (hn : n ≤ requestLimit) : s.Keeps (.kmalloc n) := by
  rcases kmalloc_cases hinv.heap (hn.trans (by decide)) with
    ⟨hfail, -⟩ | ⟨h', bs', c, hok, -, hg⟩
  · exact ⟨s, bs, by simp [Client.exec, hfail], rfl, hinv⟩
  · exact ⟨_, bs', by simp only [Client.exec, hok, Option.map_some,
      record_payload], hg.image, hinv.granted hg fun k _ => Nat.one_dvd _⟩

theorem ClientInvariant.kcalloc_keeps {nmemb size : ℕ}
    (hinv : ClientInvariant s bs) (hn : nmemb * size ≤ requestLimit) :
    s.Keeps (.kcalloc nmemb size) := by
  rcases kcalloc_cases hinv.heap (hn.trans (by decide)) with
    hfail | ⟨h', bs', c, hok, hg⟩
  · exact ⟨s, bs, by simp [Client.exec, hfail], rfl, hinv⟩
  · have hgranted := hinv.granted hg fun k (_ : 1 = 2 ^ k) => Nat.one_dvd _
    refine ⟨⟨clearPayload h' (c.addr + 32) (nmemb * size),
      ⟨c.addr + 32, nmemb * size, 1⟩ :: s.live⟩, bs', ?_, hg.image,
      hg.inv.clearPayload hg.mem hg.fits, hgranted.owned,
      hgranted.complete, hgranted.distinct, hgranted.aligned⟩
    simp only [Client.exec, hok, Option.map_some, record_payload]

theorem ClientInvariant.kmallocAligned_keeps {align : ℕ}
    (hinv : ClientInvariant s bs) (hn : n ≤ requestLimit)
    (halign : align ≤ requestLimit) :
    s.Keeps (.kmallocAligned n align) := by
  rcases kmallocAligned_cases hinv.heap hn halign with
    hfail | ⟨h', bs', c, hok, -, hg, hdvd⟩
  · exact ⟨s, bs, by simp [Client.exec, hfail], rfl, hinv⟩
  · exact ⟨_, bs', by simp only [Client.exec, hok, Option.map_some,
      record_payload], hg.image, hinv.granted hg hdvd⟩

theorem ClientInvariant.kfree_keeps {ptr : ℕ}
    (hinv : ClientInvariant s bs) (hptr : ptr = 0 ∨ s.Holds ptr) :
    s.Keeps (.kfree ptr) := by
  rcases hptr with rfl | hlive
  · refine ⟨s, bs, ?_, rfl, hinv⟩
    simp only [Client.exec, hinv.forget_null]
    rfl
  · obtain ⟨b, hb, hused, rfl⟩ := hinv.block_of hlive
    obtain ⟨bs', hrel⟩ := kfree_released hinv.heap hb hused
    exact ⟨_, bs', rfl, hrel.image, hinv.released hb hrel⟩

/-- The move path: the new block is granted and filled, then the old one is
released. -/
theorem ClientInvariant.moved {b c : Block} {h₁ : Heap} {bs₁ : List Block}
    (hinv : ClientInvariant s bs) (hb : b ∈ bs) (hused : b.free = false)
    (hlarger : b.size < n) (hg : Granted s.heap bs n h₁ bs₁ c)
    (hrel : Released (copyPayload h₁ (c.addr + 32) (b.addr + 32) b.size)
      bs₁ h' bs' b) :
    ClientInvariant
      ⟨h', ⟨c.addr + 32, n, 1⟩ :: forget (b.addr + 32) s.live⟩ bs' := by
  have hgranted := hinv.granted hg fun k (_ : 1 = 2 ^ k) => Nat.one_dvd _
  have hcopied : ClientInvariant
      ⟨copyPayload h₁ (c.addr + 32) (b.addr + 32) b.size,
        ⟨c.addr + 32, n, 1⟩ :: s.live⟩ bs₁ :=
    ⟨hg.inv.copyPayload hg.mem (by have := hg.fits; omega),
      hgranted.owned, hgranted.complete, hgranted.distinct,
      hgranted.aligned⟩
  have hmem : b ∈ bs₁ := (hg.used_iff b hused).mpr (Or.inl hb)
  have hne : c.addr + 32 ≠ b.addr + 32 := by
    intro heq
    have hsame := hg.inv.blocks.tiles.eq_of_addr (by omega) hg.mem hmem
      (by omega)
    exact hg.fresh (hsame ▸ hb)
  have hreleased := hcopied.released hmem hrel
  have hforget : forget (b.addr + 32) (⟨c.addr + 32, n, 1⟩ :: s.live) =
      ⟨c.addr + 32, n, 1⟩ :: forget (b.addr + 32) s.live :=
    List.filter_cons_of_pos (by simpa using hne)
  simp only [hforget] at hreleased
  exact hreleased

theorem ClientInvariant.krealloc_keeps {ptr : ℕ}
    (hinv : ClientInvariant s bs) (hptr : ptr = 0 ∨ s.Holds ptr)
    (hn : n ≤ requestLimit) : s.Keeps (.krealloc ptr n) := by
  rcases hptr with rfl | hlive
  · obtain ⟨s', bs', hexec, hkept⟩ := hinv.kmalloc_keeps hn
    refine ⟨s', bs', ?_, hkept⟩
    rw [← hexec]
    simp [Client.exec, krealloc]
  · by_cases hzero : n = 0
    · subst hzero
      obtain ⟨s', bs', hexec, hkept⟩ := hinv.kfree_keeps (Or.inr hlive)
      have hne : ptr ≠ 0 := by
        obtain ⟨a, ha, rfl⟩ := hlive
        exact hinv.ptr_ne ha
      refine ⟨s', bs', ?_, hkept⟩
      rw [← hexec]
      simp [Client.exec, krealloc, hne]
    · obtain ⟨b, hb, hused, rfl⟩ := hinv.block_of hlive
      have hne : b.addr + 32 ≠ 0 := by omega
      rcases krealloc_cases hinv.heap hb hused hzero
        (hn.trans (by decide)) with
        ⟨h', bs', c, hok, hres⟩ | hfail |
        ⟨h₁, bs₁, c, h', bs', hok, hlarger, hg, hrel⟩
      · refine ⟨_, bs', ?_, hres.image, hinv.resized hb hres⟩
        simp only [Client.exec, hok, Option.map_some, hne, hzero, if_false,
          record_payload]
      · refine ⟨s, bs, ?_, rfl, hinv⟩
        simp [Client.exec, hfail, hzero]
      · refine ⟨_, bs', ?_, hrel.image.trans hg.image,
          hinv.moved hb hused hlarger hg hrel⟩
        have hne' : c.addr + 32 ≠ 0 := by omega
        simp only [Client.exec, hok, Option.map_some, hne, hne', hzero,
          if_false, record_payload]

theorem ClientInvariant.store_keeps {addr : ℕ} {value : UInt8}
    (hinv : ClientInvariant s bs)
    (hin : ∃ a ∈ s.live, a.ptr ≤ addr ∧
      addr < a.ptr + kmallocUsableSize s.heap a.ptr) :
    s.Keeps (.store addr value) := by
  obtain ⟨a, ha, hlow, hhigh⟩ := hin
  obtain ⟨b, hb, -, hptr, -⟩ := hinv.owned a ha
  rw [← hptr, hinv.usable hb] at hhigh
  refine ⟨_, bs, rfl, rfl, hinv.write ?_⟩
  intro x hx
  apply s.heap.mem.set_other
  rintro rfl
  exact hinv.heap.payload_not_header hb (by omega) hhigh hx

theorem ClientInvariant.step {call : HeapCall}
    (hinv : ClientInvariant s bs) (hallowed : call.Allowed s) :
    s.Keeps call := by
  cases call with
  | kmalloc size => exact hinv.kmalloc_keeps hallowed
  | kcalloc nmemb size => exact hinv.kcalloc_keeps hallowed.2.2
  | krealloc ptr size => exact hinv.krealloc_keeps hallowed.1 hallowed.2
  | kmallocAligned size align =>
      exact hinv.kmallocAligned_keeps hallowed.1 hallowed.2
  | kfree ptr => exact hinv.kfree_keeps hallowed
  | store addr value => exact hinv.store_keeps hallowed

theorem Client.Reachable.invariant {h : Heap}
    (hreach : Client.Reachable h s) :
    ∃ bs, ClientInvariant s bs ∧ s.heap.image = h.image := by
  induction hreach with
  | refl => exact ⟨_, ClientInvariant.boot h, rfl⟩
  | tail _ hstep ih =>
      obtain ⟨bs, hinv, himage⟩ := ih
      obtain ⟨call, hallowed, hexec⟩ := hstep
      obtain ⟨s', bs', hexec', himage', hinv'⟩ := hinv.step hallowed
      rw [hexec] at hexec'
      cases hexec'
      exact ⟨bs', hinv', himage'.trans himage⟩

end Otsos
