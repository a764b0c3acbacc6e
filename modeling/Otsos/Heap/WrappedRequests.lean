import Otsos.Heap.Frees
import Otsos.Heap.RequestSizes

/-!
# Moving a block for a wrapped request

For a size whose rounding wraps around, `krealloc` takes the first free block,
which need not hold the old payload, and copies that over whatever follows.
With a payload of zeros the headers in the way are erased, and the release
that comes next stays behind the new block, whose size is then still too small.
-/

namespace Otsos

open Lib

variable {h : Heap} {bs : List Block} {m : Memory} {a b d e q t via n : ℕ}

/-! ## Releases behind an address -/

theorem absorb_writes (hd : a + 32 ≤ d) (hvia : via = a ∨ via = d)
    (hnext : nextField m d = q) (hq : q < 2 ^ 63) :
    ∃ v, absorb m a d via =
      if q ≠ 0 then ((m.store (a + 8) 8 v).store (a + 16) 8 q).store
        (q + 24) 8 a
      else (m.store (a + 8) 8 v).store (a + 16) 8 q := by
  have hn : m.load (d + 16) 8 = q := hnext
  have hqmod : q % 256 ^ 8 = q := word_mod hq
  refine ⟨wrap64 (sizeField m a + wrap64 (sizeofHeader + sizeField m d)), ?_⟩
  unfold absorb
  rcases hvia with rfl | rfl <;>
    simp (disch := omega) only [relinkNext, setSize, setNext, setPrev,
      sizeField, nextField, Memory.load_store_disjoint,
      Memory.load_store_same, hn, hqmod]

theorem absorb_below (ha : t ≤ a + 8) (hd : a + 32 ≤ d)
    (hvia : via = a ∨ via = d) (hnext : nextField m d = q)
    (hq : q < 2 ^ 63) (hlink : q = 0 ∨ t ≤ q + 24) :
    ∀ x, x < t → absorb m a d via x = m x := by
  intro x hx
  obtain ⟨v, habsorb⟩ := absorb_writes hd hvia hnext hq
  rw [habsorb]
  by_cases hq0 : q = 0
  · rw [if_neg (not_not.mpr hq0)]
    simp (disch := omega) only [Memory.store_outside]
  · have hfar := hlink.resolve_left hq0
    rw [if_pos hq0]
    simp (disch := omega) only [Memory.store_outside]

theorem absorb_links (hd : a + 32 ≤ d) (hvia : via = a ∨ via = d)
    (hnext : nextField m d = q) (hq : q < 2 ^ 63)
    (hlink : q = 0 ∨ a + 32 ≤ q) :
    prevField (absorb m a d via) a = prevField m a ∧
      nextField (absorb m a d via) a = q := by
  obtain ⟨v, habsorb⟩ := absorb_writes hd hvia hnext hq
  have hqmod : q % 256 ^ 8 = q := word_mod hq
  rw [habsorb]
  by_cases hq0 : q = 0
  · rw [if_neg (not_not.mpr hq0)]
    constructor
    · simp (disch := omega) only [prevField, Memory.load_store_disjoint]
    · simp (disch := omega) only [nextField, Memory.load_store_same, hqmod]
  · have hfar := hlink.resolve_left hq0
    rw [if_pos hq0]
    constructor
    · simp (disch := omega) only [prevField, Memory.load_store_disjoint]
    · simp (disch := omega) only [nextField, Memory.load_store_same,
        Memory.load_store_disjoint, hqmod]

/-- What a release finds at the links of `b`: a successor with its own link
behind it, and a predecessor that is in use or starts past `t`. -/
structure LinksBehind (m : Memory) (b t d q e : ℕ) : Prop where
  next : nextField m b = d
  nextBehind : d = 0 ∨ b + 32 ≤ d ∧ d < 2 ^ 63
  nextNext : d ≠ 0 → nextField m d = q
  nextNextBehind : q = 0 ∨ b + 32 ≤ q ∧ q < 2 ^ 63
  prev : prevField m b = e
  prevBehind : e = 0 ∨ e + 8 ≤ t ∧ isFreeField m e = 0 ∨
    t ≤ e + 8 ∧ e + 32 ≤ b

theorem coalesceNext_below (hlinks : LinksBehind m b t d q e)
    (ht : t ≤ b) :
    (∀ x, x < t → coalesceNext m b x = m x) ∧
      prevField (coalesceNext m b) b = e ∧
      ∃ q', nextField (coalesceNext m b) b = q' ∧
        (q' = 0 ∨ b + 32 ≤ q' ∧ q' < 2 ^ 63) := by
  unfold coalesceNext
  rw [hlinks.next]
  by_cases htest : d ≠ 0 ∧ isFreeField m d ≠ 0 ∧ magicField m d = heapMagic
  · rw [if_pos htest]
    have hbehind := hlinks.nextBehind.resolve_left htest.1
    have hnext := hlinks.nextNext htest.1
    have hq : q < 2 ^ 63 := by
      rcases hlinks.nextNextBehind with rfl | h <;> omega
    obtain ⟨hprev, hlink⟩ := absorb_links hbehind.1 (Or.inl rfl) hnext hq
      (hlinks.nextNextBehind.imp_right And.left)
    refine ⟨absorb_below (by omega) hbehind.1 (Or.inl rfl) hnext hq ?_,
      hprev.trans hlinks.prev, q, hlink, hlinks.nextNextBehind⟩
    rcases hlinks.nextNextBehind with h | h
    · exact Or.inl h
    · exact Or.inr (by omega)
  · rw [if_neg htest]
    exact ⟨fun _ _ => rfl, hlinks.prev, d, hlinks.next, hlinks.nextBehind⟩

theorem coalesce_below (hlinks : LinksBehind m b t d q e) (ht : t ≤ b) :
    ∀ x, x < t → (coalesce m b).1 x = m x := by
  intro x hx
  by_cases hfree : b = 0 ∨ isFreeField m b = 0
  · unfold coalesce
    rw [if_pos hfree]
  · obtain ⟨hne, hflag⟩ := not_or.mp hfree
    rw [coalesce_eq hne hflag]
    obtain ⟨hbelow, hprev, q', hnext, hbehind⟩ :=
      coalesceNext_below hlinks ht
    unfold coalescePrev
    rw [hprev]
    by_cases htest : e ≠ 0 ∧ isFreeField (coalesceNext m b) e ≠ 0 ∧
        magicField (coalesceNext m b) e = heapMagic
    · rw [if_pos htest, ← hbelow x hx]
      have hq : q' < 2 ^ 63 := by
        rcases hbehind with rfl | h <;> omega
      rcases hlinks.prevBehind with h0 | ⟨hfront, hused⟩ | ⟨hfar, hapart⟩
      · exact absurd h0 htest.1
      · -- the flag of a block in front is out of reach
        refine absurd ?_ htest.2.1
        rw [← hused]
        apply Memory.load_congr
        intro i hi
        exact hbelow _ (by omega)
      · refine absorb_below hfar hapart (Or.inr rfl) hnext hq ?_ x hx
        rcases hbehind with h | h
        · exact Or.inl h
        · exact Or.inr (by omega)
    · rw [if_neg htest]
      exact hbelow x hx

theorem coalesce_alone
    (hnext : nextField m b = 0 ∨ isFreeField m (nextField m b) = 0)
    (hprev : prevField m b = 0 ∨ isFreeField m (prevField m b) = 0) :
    (coalesce m b).1 = m := by
  by_cases hfree : b = 0 ∨ isFreeField m b = 0
  · unfold coalesce
    rw [if_pos hfree]
  · obtain ⟨hne, hflag⟩ := not_or.mp hfree
    have hkeep : coalesceNext m b = m := by
      unfold coalesceNext
      rw [if_neg]
      rintro ⟨hne, hflag, -⟩
      rcases hnext with h | h
      · exact hne h
      · exact hflag h
    rw [coalesce_eq hne hflag, hkeep]
    unfold coalescePrev
    rw [if_neg]
    rintro ⟨hne, hflag, -⟩
    rcases hprev with h | h
    · exact hne h
    · exact hflag h

/-! ## The move -/

section Move

variable {xs ys : List Block} {f c : Block} {m₁ m₂ : Memory}

theorem setIsFree_other {v : ℕ} (hx : x < a + 4 ∨ a + 8 ≤ x) :
    setIsFree m a v x = m x :=
  Memory.store_outside m v (by omega)

/-- Releasing `c` in front of the first free block, which took the request. -/
theorem coalesce_in_front {lo hi : ℕ} (htiles : Tiles 32 lo hi (xs ++ f :: ys))
    (hrep : Represents m₁ (xs ++ f :: ys)) (hc : c ∈ xs)
    (hxs : ∀ y ∈ xs, y.free = false) (hf : f.free = false)
    (hfront : ∀ x, x < f.addr + 32 → m₂ x = m₁ x) :
    (coalesce (setIsFree m₂ c.addr 1) c.addr).1 =
      setIsFree m₂ c.addr 1 := by
  have hcf := htiles.before c hc
  have hsame : ∀ x, x < f.addr + 32 → (x < c.addr + 4 ∨ c.addr + 8 ≤ x) →
      setIsFree m₂ c.addr 1 x = m₁ x := by
    intro x hlow hout
    rw [setIsFree_other hout, hfront x hlow]
  have hlinks : nextField (setIsFree m₂ c.addr 1) c.addr =
        nextField m₁ c.addr ∧
      prevField (setIsFree m₂ c.addr 1) c.addr = prevField m₁ c.addr := by
    constructor <;>
      exact Memory.load_congr fun i hi => hsame _ (by omega) (by omega)
  -- the neighbours of `c` are in use, and their flags untouched
  have hflag : ∀ y ∈ xs ++ f :: ys, y.addr ≤ f.addr → y.free = false →
      (y.addr + 32 ≤ c.addr ∨ c.addr + 32 ≤ y.addr) →
      isFreeField (setIsFree m₂ c.addr 1) y.addr = 0 := by
    intro y hy hle hused hapart
    have hheld := (hrep.holds y hy).flag
    rw [hused] at hheld
    exact (Memory.load_congr fun i hi =>
      hsame _ (by omega) (by omega)).trans hheld
  obtain ⟨xs₁, xs₂, rfl⟩ := List.append_of_mem hc
  have htiles' : Tiles 32 lo hi (xs₁ ++ c :: (xs₂ ++ f :: ys)) := by
    simpa using htiles
  have hrep' : Represents m₁ (xs₁ ++ c :: (xs₂ ++ f :: ys)) := by
    simpa using hrep
  obtain ⟨hprev, hnext⟩ := hrep'.links_at
  refine coalesce_alone (Or.inr ?_) ?_
  · rw [hlinks.1, hnext]
    cases xs₂ with
    | nil =>
        have hafter := htiles'.after f (by simp)
        exact hflag f (by simp) le_rfl hf (Or.inr (by omega))
    | cons y xs₂ =>
        have hafter := htiles'.after y (by simp)
        have hbefore := htiles.before y (by simp)
        exact hflag y (by simp) (by omega) (hxs y (by simp))
          (Or.inr (by omega))
  · rw [hlinks.2, hprev]
    rcases List.eq_nil_or_concat xs₁ with rfl | ⟨ws, y, rfl⟩
    · exact Or.inl rfl
    · right
      have hbefore := htiles'.before y (by simp)
      have hlast : lastFrom 0 ((ws.concat y).map Block.addr) = y.addr := by
        simp
      rw [hlast]
      exact hflag y (by simp) (by omega) (hxs y (by simp))
        (Or.inl (by omega))

theorem coalesce_behind {lo hi : ℕ} {zs : List Block}
    (htiles : Tiles 32 lo hi (xs ++ f :: (ys ++ c :: zs)))
    (hrep : Represents m₁ (xs ++ f :: (ys ++ c :: zs))) (hhi : hi < 2 ^ 62)
    (hf : f.free = false)
    (hfront : ∀ x, x < f.addr + 32 → m₂ x = m₁ x)
    (hbehind : ∀ x, c.addr ≤ x → m₂ x = m₁ x) :
    ∀ x, x < f.addr + 16 →
      (coalesce (setIsFree m₂ c.addr 1) c.addr).1 x = m₂ x := by
  have htiles' : Tiles 32 lo hi ((xs ++ f :: ys) ++ c :: zs) := by
    simpa using htiles
  have hrep' : Represents m₁ ((xs ++ f :: ys) ++ c :: zs) := by
    simpa using hrep
  have hfc := htiles.after c (by simp)
  have hsame : ∀ x, c.addr + 8 ≤ x → setIsFree m₂ c.addr 1 x = m₁ x := by
    intro x hx
    rw [setIsFree_other (Or.inr hx), hbehind x (by omega)]
  obtain ⟨hprev, hnext⟩ := hrep'.links_at
  have hlinks : LinksBehind (setIsFree m₂ c.addr 1) c.addr (f.addr + 16)
      (followAddr zs) (followAddr zs.tail)
      (lastFrom 0 ((xs ++ f :: ys).map Block.addr)) := by
    obtain ⟨hfollow, hafter⟩ := follow_bounds htiles' hhi
    have hfields : nextField (setIsFree m₂ c.addr 1) c.addr =
          nextField m₁ c.addr ∧
        prevField (setIsFree m₂ c.addr 1) c.addr = prevField m₁ c.addr := by
      constructor <;>
        exact Memory.load_congr fun i hi => hsame _ (by omega)
    have hsucc : ∀ z zs', zs = z :: zs' →
        nextField (setIsFree m₂ c.addr 1) z.addr = followAddr zs' ∧
          (followAddr zs' = 0 ∨ c.addr + 32 ≤ followAddr zs' ∧
            followAddr zs' < 2 ^ 63) := by
      rintro z zs' rfl
      have hz : Represents m₁ (((xs ++ f :: ys) ++ [c]) ++ z :: zs') := by
        simpa using hrep'
      have htilesZ : Tiles 32 lo hi
          (((xs ++ f :: ys) ++ [c]) ++ z :: zs') := by
        simpa using htiles'
      have hcz := htiles'.after z (by simp)
      obtain ⟨hbound, hfar⟩ := follow_bounds htilesZ hhi
      refine ⟨(Memory.load_congr fun i hi => hsame _ (by omega)).trans
        hz.links_at.2, ?_⟩
      by_cases hq : followAddr zs' = 0
      · exact Or.inl hq
      · have := hfar hq
        exact Or.inr ⟨by omega, hbound⟩
    refine ⟨hfields.1.trans hnext, ?_, ?_, ?_, hfields.2.trans hprev,
      Or.inr ?_⟩
    · by_cases hzs : followAddr zs = 0
      · exact Or.inl hzs
      · have := hafter hzs
        exact Or.inr ⟨by omega, hfollow⟩
    · intro hne
      cases zs with
      | nil => exact absurd rfl hne
      | cons z zs => exact (hsucc z zs rfl).1
    · cases zs with
      | nil => exact Or.inl rfl
      | cons z zs => exact (hsucc z zs rfl).2
    · rcases List.eq_nil_or_concat ys with rfl | ⟨ws, y, rfl⟩
      · -- the block that took the request, still marked as in use
        left
        have hlast : lastFrom 0 ((xs ++ [f]).map Block.addr) = f.addr := by
          simp
        have hheld := (hrep.holds f (by simp)).flag
        rw [hf] at hheld
        rw [hlast]
        refine ⟨by omega, (Memory.load_congr fun i hi => ?_).trans hheld⟩
        rw [setIsFree_other (Or.inl (by omega)), hfront _ (by omega)]
      · right
        have hlast : lastFrom 0 ((xs ++ f :: ws.concat y).map Block.addr) =
            y.addr := by
          simp
        have hfy := htiles.after y (by simp)
        have hyc := htiles'.before y (by simp)
        rw [hlast]
        omega
  intro x hx
  rw [coalesce_below hlinks (by omega) x hx]
  exact setIsFree_other (Or.inl (by omega))

end Move

theorem HeapInvariant.not_grown {c : Block} (hinv : HeapInvariant h bs)
    (hc : c ∈ bs) (hn : 2 ^ 64 - 16 < n) :
    ¬ (nextField h.mem c.addr ≠ 0 ∧
      isFreeField h.mem (nextField h.mem c.addr) ≠ 0 ∧
      n ≤ wrap64 (wrap64 (c.size + sizeofHeader) +
        sizeField h.mem (nextField h.mem c.addr))) := by
  rintro ⟨hne, -, hfit⟩
  have hlarge := hinv.block_size_le hc
  obtain ⟨us, vs, rfl⟩ := List.append_of_mem hc
  have hnext := hinv.repr.links_at.2
  cases vs with
  | nil => exact hne hnext
  | cons d vs =>
      have hd : d ∈ us ++ c :: d :: vs := by simp
      have hnext' : nextField h.mem c.addr = d.addr := hnext
      have hdlarge := hinv.block_size_le hd
      rw [hnext', (hinv.repr.holds d hd).size] at hfit
      simp only [wrap64, sizeofHeader] at hfit
      omega

theorem HeapInvariant.krealloc_refused {c : Block}
    (hinv : HeapInvariant h bs) (hc : c ∈ bs) (hused : c.free = false)
    (hnone : ∀ b ∈ bs, b.free = false) :
    Serves h bs (c.addr + 32) n (krealloc · (c.addr + 32) n) := by
  by_cases hn : n ≤ 2 ^ 64 - 16
  · exact hinv.krealloc_serves hc hused hn
  · apply hinv.serves
    intro h hinv
    have hlarge := hinv.block_size_le hc
    rw [krealloc_move_eq hinv hc (by omega) (hinv.not_grown hc (by omega)),
      hinv.kmalloc_none hnone]
    exact served_null

theorem kfree_cases (h : Heap) (ptr : ℕ) :
    kfree h ptr = h ∨
      magicField h.mem (sub64 ptr sizeofHeader) = heapMagic ∧
        kfree h ptr = { h with
          mem := (coalesce (setIsFree h.mem (sub64 ptr sizeofHeader) 1)
            (sub64 ptr sizeofHeader)).1 } := by
  by_cases hmarked : isFreeField h.mem (sub64 ptr sizeofHeader) ≠ 0
  · rw [kfree_marked hmarked]
    exact Or.inl rfl
  by_cases hout : OutsideHeap h ptr
  · rw [kfree_outside hout]
    exact Or.inl rfl
  unfold OutsideHeap at hout
  unfold kfree
  dsimp only
  rw [if_neg hout, if_neg hmarked]
  by_cases hnull : ptr = 0
  · rw [if_pos hnull]
    exact Or.inl rfl
  rw [if_neg hnull]
  by_cases hstatics : h.heapStart = 0 ∨ h.heapEnd = 0
  · rw [if_pos hstatics]
    exact Or.inl rfl
  rw [if_neg hstatics]
  by_cases hmagic : magicField h.mem (sub64 ptr sizeofHeader) = heapMagic
  · rw [if_neg (not_not.mpr hmagic)]
    exact Or.inr ⟨hmagic, rfl⟩
  · rw [if_pos hmagic]
    exact Or.inl rfl

theorem kfree_after_zeros {xs ys : List Block} {f c : Block}
    (hinv : HeapInvariant h (xs ++ f :: ys)) (hxs : ∀ y ∈ xs, y.free = false)
    (hf : f.free = true) (hc : c ∈ xs ++ f :: ys) (hused : c.free = false)
    (hcopied : ∀ x, m x = if f.addr + 32 ≤ x ∧ x < f.addr + 32 + c.size
      then 0 else place h.mem f.addr 0 x) :
    sizeField (kfree { h with mem := m } (c.addr + 32)).mem f.addr =
      sizeField (place h.mem f.addr 0) f.addr := by
  have hbounds := hinv.bounds
  obtain ⟨hrep, -⟩ := place_represents (n := 0) (by omega) (by omega)
    hinv.blocks.tiles hinv.repr (by omega)
  have htiles := tiles_carve (n := 0) hinv.blocks.tiles
  have hfront : ∀ x, x < f.addr + 32 → m x = place h.mem f.addr 0 x := by
    intro x hx
    rw [hcopied, if_neg (by omega)]
  have hkept : ∀ m' : Memory, (∀ x, f.addr + 8 ≤ x → x < f.addr + 16 →
      m' x = m x) → sizeField m' f.addr =
        sizeField (place h.mem f.addr 0) f.addr := by
    intro m' hsame
    apply Memory.load_congr
    intro i hi
    rw [hsame _ (by omega) (by omega), hfront _ (by omega)]
  rcases kfree_cases { h with mem := m } (c.addr + 32) with
    hfree | ⟨hmagic, hfree⟩
  · rw [hfree]
    exact hkept _ fun _ _ _ => rfl
  · rw [(hinv.header_ptr hc).2] at hmagic hfree
    rw [hfree]
    -- an erased header would not have passed the test
    have hapart : c.addr < f.addr + 32 ∨ f.addr + 32 + c.size ≤ c.addr := by
      by_contra hin
      have hcdvd := hinv.dvd_addr hc
      have hfdvd := hinv.dvd_addr (b := f) (by simp)
      have hsizes := hinv.blocks.sizes c hc
      have hzero : magicField m c.addr = 0 := by
        have hload : m.load c.addr 4 = 0 % 256 ^ 4 := by
          refine Memory.load_of_digits fun i hi => ?_
          rw [hcopied, if_pos (by omega)]
          simp
        exact hload.trans (Nat.zero_mod _)
      simp only [hzero] at hmagic
      exact absurd hmagic (by decide)
    rcases List.mem_append.mp hc with hcx | hcy
    · have hcut : xs ++ (carve f 0 ++ ys) =
          xs ++ (⟨f.addr, cutSize f 0, false⟩ : Block) ::
            (cutRest f 0 ++ ys) := rfl
      rw [hcut] at htiles hrep
      have halone := coalesce_in_front htiles hrep hcx hxs rfl hfront
      have hcf := hinv.blocks.tiles.before c hcx
      rw [halone]
      exact hkept _ fun x hlow _ => setIsFree_other (Or.inr (by omega))
    · rcases List.mem_cons.mp hcy with rfl | hcy
      · simp [hused] at hf
      · obtain ⟨ys₁, zs, rfl⟩ := List.append_of_mem hcy
        have hlist : xs ++ (carve f 0 ++ (ys₁ ++ c :: zs)) =
            xs ++ ⟨f.addr, cutSize f 0, false⟩ ::
              ((cutRest f 0 ++ ys₁) ++ c :: zs) := by
          simp [carve]
        have hfc := hinv.blocks.tiles.after c (by simp)
        rw [hlist] at hrep htiles
        refine hkept _ fun x _ hhigh => coalesce_behind
          (f := ⟨f.addr, cutSize f 0, false⟩) htiles hrep (by omega) rfl
          hfront ?_ x hhigh
        intro x hx
        rw [hcopied, if_neg (by omega)]

/-- With a live payload of zeros no wrapped request is met. -/
theorem HeapInvariant.krealloc_wrapped {c : Block}
    (hinv : HeapInvariant h bs) (hc : c ∈ bs) (hused : c.free = false)
    (hn : 2 ^ 64 - 16 < n) (hlt : n < 2 ^ 64)
    (hserves : Serves h bs (c.addr + 32) n (krealloc · (c.addr + 32) n)) :
    ∀ b ∈ bs, b.free = false := by
  classical
  by_contra hnot
  simp only [not_forall, Bool.not_eq_false] at hnot
  obtain ⟨d, hd, hdfree⟩ := hnot
  let h₀ : Heap :=
    { h with mem := fun x => if InHeader bs x then h.mem x else 0 }
  have hheaders : ∀ x, InHeader bs x → h₀.mem x = h.mem x :=
    fun x hx => if_pos hx
  have hinv₀ : HeapInvariant h₀ bs := hinv.write hheaders
  have hserved : Served h₀ bs (c.addr + 32) n (krealloc h₀ (c.addr + 32) n) :=
    hserves h₀.mem hheaders
  have hlarge := hinv.block_size_le hc
  have htest := hinv₀.not_grown (c := c) hc hn
  obtain ⟨xs, f, ys, rfl, hxs, hf, hcall⟩ :=
    hinv₀.kmalloc_wrapped hn hlt ⟨d, hd, hdfree⟩
  have hmem : f ∈ xs ++ f :: ys := by simp
  have hbounds := hinv₀.bounds
  have hplaced : c ∈ xs ++ (carve f 0 ++ ys) :=
    (mem_carved_iff hused hf).mpr (Or.inl hc)
  obtain ⟨hrep, hframe⟩ := place_represents (n := 0) (by omega) (by omega)
    hinv₀.blocks.tiles hinv₀.repr (by omega)
  have htiles := tiles_carve (n := 0) hinv₀.blocks.tiles
  have hsize : sizeField (place h₀.mem f.addr 0) c.addr = c.size :=
    (hrep.holds c hplaced).size
  have hzeros : ∀ i < c.size,
      place h₀.mem f.addr 0 (c.addr + 32 + i) = 0 := by
    intro i hi
    have hheader := hinv.payload_not_header (x := c.addr + 32 + i) hc
      (by omega) (by omega)
    rw [hframe]
    · exact if_neg hheader
    · rintro ⟨e, he, hlow, hhigh⟩
      exact htiles.payload_not_header (x := c.addr + 32 + i) hplaced
        (List.mem_append_right xs he) (by omega) (by omega) ⟨hlow, hhigh⟩
  rw [krealloc_move_eq hinv₀ hc (by omega) htest, hcall] at hserved
  simp only [hsize] at hserved
  rw [if_neg (by omega)] at hserved
  refine not_served (hinv₀.payload_lt hmem) ?_ hserved
  have hkept := kfree_after_zeros hinv₀ hxs hf hc hused
    (@memcpy_zeros (place h₀.mem f.addr 0) (f.addr + 32) _ _ hzeros)
  have hsmall := hinv₀.placed_size_lt hmem
  rw [← hkept] at hsmall
  exact hsmall.trans (by omega)

/-! ## Every entry point -/

theorem HeapInvariant.kmallocAligned_small (hinv : HeapInvariant h bs)
    {align ptr : ℕ} (hsmall : align ≤ 16) :
    Serves h bs ptr n (kmallocAligned · n align) ↔
      Serves h bs ptr n (kmalloc · n) := by
  have hcall : ∀ m : Memory, (∀ x, InHeader bs x → m x = h.mem x) →
      kmallocAligned { h with mem := m } n align =
        kmalloc { h with mem := m } n := by
    intro m hsame
    have hinv' := hinv.write hsame
    unfold kmallocAligned
    simp only [hinv'.ensureHeap_eq]
    by_cases hzero : n = 0
    · simp only [hzero, if_true, kmalloc, hinv'.ensureHeap_eq]
    · rw [if_neg hzero, if_pos hsmall]
  refine forall_congr' fun m => forall_congr' fun hsame => ?_
  simp only [hcall m hsame]

/-- Which requests are served.  `kmalloc`, `kcalloc` and `krealloc` serve all
but the sizes whose rounding wraps, and those too when no block is free.
`kmalloc_aligned` serves what fits the heap, and whatever it refuses. -/
theorem requests_served_iff (hinv : HeapInvariant h bs) :
    (∀ size < 2 ^ 64, Serves h bs 0 size (kmalloc · size) ↔
      size ≤ 2 ^ 64 - 16 ∨ ∀ b ∈ bs, b.free = false) ∧
    (∀ nmemb < 2 ^ 64, ∀ size < 2 ^ 64,
      Serves h bs 0 (nmemb * size) (kcalloc · nmemb size) ↔
        nmemb * size ≤ 2 ^ 64 - 16 ∨ 2 ^ 64 ≤ nmemb * size ∨
          ∀ b ∈ bs, b.free = false) ∧
    (∀ p ∈ bs, p.free = false → ∀ size < 2 ^ 64,
      Serves h bs (p.addr + 32) size (krealloc · (p.addr + 32) size) ↔
        size ≤ 2 ^ 64 - 16 ∨ ∀ b ∈ bs, b.free = false) ∧
    (∀ size < 2 ^ 64, ∀ align ≤ 16,
      Serves h bs 0 size (kmallocAligned · size align) ↔
        size ≤ 2 ^ 64 - 16 ∨ ∀ b ∈ bs, b.free = false) ∧
    ∀ size < 2 ^ 64, ∀ align < 2 ^ 64, 16 < align →
      ((size ≤ 131040 ∨
          ∀ b ∈ bs, acceptsAligned (align16 size) align b = false) →
        Serves h bs 0 size (kmallocAligned · size align)) ∧
      (2 ^ 64 - 16 < size →
        Serves h bs 0 size (kmallocAligned · size align) →
          ∀ b ∈ bs, acceptsAligned (align16 size) align b = false) := by
  refine ⟨fun size hlt => hinv.kmalloc_serves_iff hlt,
    fun nmemb _ size _ => hinv.kcalloc_serves_iff, ?_, ?_, ?_⟩
  · intro p hp hused size hlt
    constructor
    · intro hserves
      by_cases hn : size ≤ 2 ^ 64 - 16
      · exact Or.inl hn
      · exact Or.inr
          (hinv.krealloc_wrapped hp hused (by omega) hlt hserves)
    · rintro (hn | hnone)
      · exact hinv.krealloc_serves hp hused hn
      · exact hinv.krealloc_refused hp hused hnone
  · intro size hlt align hsmall
    rw [hinv.kmallocAligned_small hsmall]
    exact hinv.kmalloc_serves_iff hlt
  · intro size hlt align halign hlow
    exact ⟨fun hholds => hinv.kmallocAligned_serves hlow halign hholds,
      fun hn hserves => hinv.kmallocAligned_wrapped hlow hn hlt hserves⟩

theorem requests_served_unbootedHeap :
    Serves (initHeap unbootedHeap) [⟨0x120000, 131040, true⟩] 0 64
      (kmallocAligned · 64 4096) :=
  ((requests_served_iff (initHeap_invariant unbootedHeap)).2.2.2.2 64
    (by decide) 4096 (by decide) (by decide)).1 (Or.inl (by decide))

/-- On the fresh heap the largest size is granted, as a block of no bytes. -/
theorem kmalloc_largest_size :
    Client.Reachable unbootedHeap (Client.boot unbootedHeap) ∧
    (kmalloc (Client.boot unbootedHeap).heap (2 ^ 64 - 1)).map
      (fun r => (r.2, kmallocUsableSize r.1 r.2)) = some (0x120020, 0) :=
  ⟨Relation.ReflTransGen.refl, by decide +kernel⟩

end Otsos
