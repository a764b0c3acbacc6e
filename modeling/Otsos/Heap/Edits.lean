import Otsos.Heap.Representation

/-!
# The three edits of a block list

Setting a flag, cutting a free block in two and joining a block with its
successor.  Each is proved once, for the memory writes shared by `split_block`,
`coalesce`, `krealloc` and `kmalloc_aligned`: the represented list changes as
described and only header bytes are written.
-/

namespace Otsos

open Lib

variable {m : Memory} {lo hi : ℕ} {xs ys : List Block} {b c : Block}

/-- Addresses and sizes of a heap below `2 ^ 63` survive a 64-bit store. -/
theorem word_mod {v : ℕ} (hv : v < 2 ^ 63) : v % 256 ^ 8 = v :=
  Nat.mod_eq_of_lt (by omega)

/-- The address of the block after `ys` starts, or `NULL`. -/
abbrev followAddr (ys : List Block) : ℕ := (ys.map Block.addr).headD 0

theorem followAddr_of_head {q : Block} (hq : q ∈ ys.head?) :
    followAddr ys = q.addr := by
  cases ys with
  | nil => simp at hq
  | cons y ys =>
      have hyq : y = q := by simpa using hq
      rw [← hyq]
      rfl

theorem backLink_of_follow {x : ℕ}
    (hx : followAddr ys ≠ 0 ∧ followAddr ys + 24 ≤ x ∧
      x < followAddr ys + 32) : BackLink ys x := by
  cases ys with
  | nil => exact absurd rfl hx.1
  | cons q ys => exact ⟨q, by simp, hx.2.1, hx.2.2⟩

/-! ## Setting the flag -/

theorem setIsFree_represents {f : Bool} {v : ℕ}
    (htiles : Tiles 32 lo hi (xs ++ b :: ys))
    (hrep : Represents m (xs ++ b :: ys)) (hv : v = if f then 1 else 0) :
    Represents (setIsFree m b.addr v) (xs ++ { b with free := f } :: ys) ∧
      Memory.FrameOutside (InHeader [b]) m (setIsFree m b.addr v) := by
  have hframe : Memory.FrameOutside
      (fun x => b.addr ≤ x ∧ x < b.addr + 32) m (setIsFree m b.addr v) := by
    apply Memory.FrameOutside.store
    intro x hlow hhigh
    omega
  have hheld := hrep.holds_at
  obtain ⟨hprev, hnext⟩ := hrep.links_at
  have hmagic : magicField (setIsFree m b.addr v) b.addr = heapMagic := by
    rw [← hheld.magic]
    exact Memory.load_store_disjoint _ _ (by omega)
  have hsize : sizeField (setIsFree m b.addr v) b.addr = b.size := by
    rw [← hheld.size]
    exact Memory.load_store_disjoint _ _ (by omega)
  have hflag : isFreeField (setIsFree m b.addr v) b.addr =
      if f then 1 else 0 := by
    unfold isFreeField setIsFree
    rw [Memory.load_store_same, hv]
    cases f <;> rfl
  have hprev' : prevField (setIsFree m b.addr v) b.addr =
      prevField m b.addr :=
    Memory.load_store_disjoint _ _ (by omega)
  have hnext' : nextField (setIsFree m b.addr v) b.addr =
      nextField m b.addr :=
    Memory.load_store_disjoint _ _ (by omega)
  refine ⟨?_, hframe.mono fun x hx => ⟨b, by simp, hx⟩⟩
  have h := Represents.edit (b := b) (c := { b with free := f }) [] []
    (by simpa using hrep) (by simpa using htiles)
    hframe
    (fun x hx => Or.inl ⟨hx.1, fun y hy => by
      have := htiles.after y hy
      omega⟩)
    rfl ⟨hprev'.trans hprev, hnext'.trans hnext, trivial⟩ ?_ ?_
  · simpa using h
  · intro d hd
    rw [List.mem_singleton] at hd
    subst hd
    exact ⟨hmagic, hflag, hsize⟩
  · intro q hq
    have hq' : Represents m ((xs ++ [b]) ++ q :: ys.tail) := by
      cases ys with
      | nil => simp at hq
      | cons y ys =>
          have hyq : y = q := by simpa using hq
          subst hyq
          simpa using hrep
    have hafter := htiles.after q (List.mem_of_mem_head? hq)
    have hsame : prevField (setIsFree m b.addr v) q.addr =
        prevField m q.addr :=
      Memory.load_store_disjoint _ _ (by omega)
    rw [hsame, hq'.links_at.1]
    simp

/-! ## Cutting a block in two -/

/-- `m'` is `m` after the block at `a` kept `n` bytes and gave the rest to a
new free block of `k` bytes, in front of the block at `q`. -/
structure CutWrites (m m' : Memory) (a n k q : ℕ) : Prop where
  frame : Memory.FrameOutside
    (fun x => (a ≤ x ∧ x < a + 32) ∨
      (a + 32 + n ≤ x ∧ x < a + 32 + n + 32) ∨
      (q ≠ 0 ∧ q + 24 ≤ x ∧ x < q + 32)) m m'
  magic : magicField m' a = magicField m a
  flag : isFreeField m' a = isFreeField m a
  size : sizeField m' a = n
  next : nextField m' a = a + 32 + n
  prev : prevField m' a = prevField m a
  newMagic : magicField m' (a + 32 + n) = heapMagic
  newFlag : isFreeField m' (a + 32 + n) = 1
  newSize : sizeField m' (a + 32 + n) = k
  newNext : nextField m' (a + 32 + n) = q
  newPrev : prevField m' (a + 32 + n) = a
  back : q ≠ 0 → prevField m' q = a + 32 + n

theorem CutWrites.represents {m' : Memory} {n k : ℕ}
    (hcut : CutWrites m m' b.addr n k (followAddr ys)) (hlo : 0 < lo)
    (htiles : Tiles 32 lo hi (xs ++ b :: ys))
    (hrep : Represents m (xs ++ b :: ys)) (hsize : b.size = n + 32 + k) :
    Represents m' (xs ++ ⟨b.addr, n, b.free⟩ ::
        ⟨b.addr + 32 + n, k, true⟩ :: ys) ∧
      Memory.FrameOutside (InHeader (⟨b.addr, n, b.free⟩ ::
        ⟨b.addr + 32 + n, k, true⟩ :: ys)) m m' := by
  have hheld := hrep.holds_at
  obtain ⟨hprev, -⟩ := hrep.links_at
  refine ⟨?_, hcut.frame.mono ?_⟩
  · have h := Represents.edit (b := b) (c := ⟨b.addr, n, b.free⟩)
      [] [⟨b.addr + 32 + n, k, true⟩] (by simpa using hrep)
      (by simpa using htiles) hcut.frame ?_ rfl ?_ ?_ ?_
    · simpa using h
    · rintro x (hx | hx | hx)
      · exact Or.inl ⟨hx.1, fun y hy => by
          have := htiles.after y hy
          omega⟩
      · exact Or.inl ⟨by omega, fun y hy => by
          have := htiles.after y hy
          omega⟩
      · exact Or.inr (backLink_of_follow hx)
    · exact ⟨hcut.prev.trans hprev, hcut.next, hcut.newPrev,
        hcut.newNext, trivial⟩
    · intro d hd
      simp only [List.mem_cons, List.not_mem_nil, or_false] at hd
      rcases hd with rfl | rfl
      · exact ⟨hcut.magic.trans hheld.magic, hcut.flag.trans hheld.flag,
          hcut.size⟩
      · exact ⟨hcut.newMagic, hcut.newFlag, hcut.newSize⟩
    · intro q hq
      have hmem := List.mem_of_mem_head? hq
      have hlow := (htiles.bounds (b := q) (by simp [hmem])).1
      have hfollow := followAddr_of_head hq
      rw [← hfollow]
      exact hcut.back (by omega)
  · rintro x (hx | hx | hx)
    · exact ⟨⟨b.addr, n, b.free⟩, by simp, hx.1, hx.2⟩
    · exact ⟨⟨b.addr + 32 + n, k, true⟩, by simp, hx.1, hx.2⟩
    · obtain ⟨q, hq, hqx⟩ := (backLink_of_follow hx).inHeader
      exact ⟨q, by simp [hq], hqx⟩

theorem splitBlock_of_small {a n : ℕ} (hn : n < 2 ^ 63)
    (hsmall : sizeField m a < n + 48) : splitBlock m a n = m := by
  unfold splitBlock
  rw [if_neg]
  simp only [sizeofHeader, wrap64]
  omega

theorem splitBlock_cutWrites {a n k q : ℕ}
    (hk : 16 ≤ k) (hbound : a + 64 + n + k < 2 ^ 63) (hq : q < 2 ^ 63)
    (hsize : sizeField m a = n + 32 + k) (hnext : nextField m a = q)
    (hfollow : q ≠ 0 → a + 64 + n + k ≤ q) :
    CutWrites m (splitBlock m a n) a n k q := by
  have hnew : wrap64 (a + sizeofHeader + n) = a + 32 + n :=
    wrap64_of_lt (by simp only [sizeofHeader]; omega)
  have hrest : sub64 (sub64 (n + 32 + k) n) sizeofHeader = k := by
    simp only [sub64, sizeofHeader]
    omega
  have hcond : wrap64 (n + sizeofHeader + 16) ≤ sizeField m a := by
    simp only [wrap64, sizeofHeader]
    omega
  have hsize' : m.load (a + 8) 8 = n + 32 + k := hsize
  have hnext' : m.load (a + 16) 8 = q := hnext
  have hqmod : q % 256 ^ 8 = q := word_mod hq
  unfold splitBlock
  rw [if_pos hcond]
  simp (disch := omega) only [hnew, relinkNext, setMagic, setSize, setIsFree,
    setNext, setPrev, sizeField, nextField, Memory.load_store_disjoint,
    Memory.load_store_same, hsize', hnext', hrest, hqmod]
  have hkmod : k % 256 ^ 8 = k := word_mod (by omega)
  have hnmod : n % 256 ^ 8 = n := word_mod (by omega)
  have hamod : a % 256 ^ 8 = a := word_mod (by omega)
  have hnewmod : (a + 32 + n) % 256 ^ 8 = a + 32 + n := word_mod (by omega)
  have hmagic : heapMagic % 256 ^ 4 = heapMagic := rfl
  have hone : 1 % 256 ^ 4 = 1 := rfl
  by_cases hq0 : q = 0
  · simp only [hq0, ne_eq, not_true_eq_false, if_false]
    constructor
    case frame =>
      intro x hx
      simp (disch := omega) only [Memory.store_outside]
    case back => exact fun h => absurd rfl h
    all_goals
      simp (disch := omega) only [magicField, isFreeField, sizeField,
        nextField, prevField, Memory.load_store_disjoint,
        Memory.load_store_same, hkmod, hnmod, hamod, hnewmod, hmagic, hone,
        Nat.zero_mod]
  · have hfollow := hfollow hq0
    simp only [hq0, ne_eq, not_false_eq_true, if_true]
    constructor
    case frame =>
      intro x hx
      simp (disch := omega) only [Memory.store_outside]
    all_goals
      simp (disch := omega) only [magicField, isFreeField, sizeField,
        nextField, prevField, Memory.load_store_disjoint,
        Memory.load_store_same, hkmod, hnmod, hamod, hnewmod, hmagic, hone,
        hqmod]
    exact fun _ => trivial

/-- The padding split writes what `split_block` would write. -/
theorem splitPadding_eq_splitBlock {a n k q : ℕ}
    (hk : 16 ≤ k) (hbound : a + 64 + n + k < 2 ^ 63)
    (hsize : sizeField m a = n + 32 + k) (hnext : nextField m a = q)
    (hq : q < 2 ^ 63) :
    splitPadding m a (n + 32) = (splitBlock m a n, a + 32 + n) := by
  have hnew : wrap64 (a + (n + 32)) = a + 32 + n := by
    rw [wrap64_of_lt (by omega)]
    omega
  have hnew' : wrap64 (a + sizeofHeader + n) = a + 32 + n :=
    wrap64_of_lt (by simp only [sizeofHeader]; omega)
  have hrest : sub64 (n + 32 + k) (n + 32) = k := by
    rw [sub64_of_le (by omega) (by omega)]
    omega
  have hrest' : sub64 (sub64 (n + 32 + k) n) sizeofHeader = k := by
    simp only [sub64, sizeofHeader]
    omega
  have hpad : sub64 (n + 32) sizeofHeader = n := by
    simp only [sizeofHeader]
    rw [sub64_of_le (by omega) (by omega)]
    omega
  have hcond : wrap64 (n + sizeofHeader + 16) ≤ sizeField m a := by
    simp only [wrap64, sizeofHeader]
    omega
  have hs : m.load (a + 8) 8 = n + 32 + k := hsize
  have hn : m.load (a + 16) 8 = q := hnext
  have hqmod : q % 256 ^ 8 = q := word_mod hq
  unfold splitPadding splitBlock
  rw [if_pos hcond]
  simp (disch := omega) only [hnew, hnew', relinkNext, setMagic, setSize,
    setIsFree, setNext, setPrev, sizeField, nextField,
    Memory.load_store_disjoint, Memory.load_store_same, hs, hn, hrest, hrest',
    hpad, hqmod]
  -- the two orders of writing differ in two independent pairs of fields
  rw [Memory.store_comm _ (a := a + 16) (b := a + 8) _ _ (by omega),
    Memory.store_comm _ (a := a + 32 + n + 4) (b := a + 32 + n + 8) _ _
      (by omega)]

/-! ## Joining a block with its successor -/

/-- `m'` is `m` after the block at `a` grew to `n` bytes and took over the
successor `q` of the block it swallowed. -/
structure JoinWrites (m m' : Memory) (a n q : ℕ) : Prop where
  frame : Memory.FrameOutside
    (fun x => (a ≤ x ∧ x < a + 32) ∨
      (q ≠ 0 ∧ q + 24 ≤ x ∧ x < q + 32)) m m'
  magic : magicField m' a = magicField m a
  flag : isFreeField m' a = isFreeField m a
  size : sizeField m' a = n
  next : nextField m' a = q
  prev : prevField m' a = prevField m a
  back : q ≠ 0 → prevField m' q = a

theorem JoinWrites.represents {m' : Memory}
    (hjoin : JoinWrites m m' b.addr (b.size + 32 + c.size) (followAddr ys))
    (hlo : 0 < lo) (htiles : Tiles 32 lo hi (xs ++ b :: c :: ys))
    (hrep : Represents m (xs ++ b :: c :: ys)) :
    Represents m' (xs ++ ⟨b.addr, b.size + 32 + c.size, b.free⟩ :: ys) := by
  have hheld := hrep.holds_at
  obtain ⟨hprev, -⟩ := hrep.links_at
  have h := Represents.edit (b := b)
    (c := ⟨b.addr, b.size + 32 + c.size, b.free⟩) [c] []
    (by simpa using hrep) (by simpa using htiles) hjoin.frame ?_ rfl ?_ ?_ ?_
  · simpa using h
  · rintro x (hx | hx)
    · exact Or.inl ⟨hx.1, fun y hy => by
        have := htiles.after y (by simp [hy])
        omega⟩
    · exact Or.inr (backLink_of_follow hx)
  · exact ⟨hjoin.prev.trans hprev, hjoin.next, trivial⟩
  · intro d hd
    rw [List.mem_singleton] at hd
    subst hd
    exact ⟨hjoin.magic.trans hheld.magic, hjoin.flag.trans hheld.flag,
      hjoin.size⟩
  · intro q hq
    have hmem := List.mem_of_mem_head? hq
    have hlow := (htiles.bounds (b := q) (by simp [hmem])).1
    have hfollow := followAddr_of_head hq
    rw [← hfollow]
    exact hjoin.back (by omega)

theorem absorb_eq {a d s t q via : ℕ}
    (hd : d = a + 32 + s) (hbound : d + 32 + t < 2 ^ 63) (hq : q < 2 ^ 63)
    (hsize : sizeField m a = s) (hsize' : sizeField m d = t)
    (hnext : nextField m d = q) (hvia : via = a ∨ via = d) :
    absorb m a d via =
      if q ≠ 0 then ((m.store (a + 8) 8 (s + 32 + t)).store (a + 16) 8 q).store
        (q + 24) 8 a
      else (m.store (a + 8) 8 (s + 32 + t)).store (a + 16) 8 q := by
  have hsum : wrap64 (s + wrap64 (sizeofHeader + t)) = s + 32 + t := by
    simp only [wrap64, sizeofHeader]
    omega
  have hs : m.load (a + 8) 8 = s := hsize
  have ht : m.load (d + 8) 8 = t := hsize'
  have hn : m.load (d + 16) 8 = q := hnext
  have hqmod : q % 256 ^ 8 = q := word_mod hq
  unfold absorb
  rcases hvia with rfl | rfl <;>
    simp (disch := omega) only [relinkNext, setSize, setNext, setPrev,
      sizeField, nextField, Memory.load_store_disjoint,
      Memory.load_store_same, hs, ht, hn, hsum, hqmod]

theorem absorb_joinWrites {a d s t q via : ℕ}
    (hd : d = a + 32 + s) (hbound : d + 32 + t < 2 ^ 63) (hq : q < 2 ^ 63)
    (hsize : sizeField m a = s) (hsize' : sizeField m d = t)
    (hnext : nextField m d = q) (hfollow : q ≠ 0 → d + 32 + t ≤ q)
    (hvia : via = a ∨ via = d) :
    JoinWrites m (absorb m a d via) a (s + 32 + t) q := by
  have hqmod : q % 256 ^ 8 = q := word_mod hq
  have hamod : a % 256 ^ 8 = a := word_mod (by omega)
  have hsmod : (s + 32 + t) % 256 ^ 8 = s + 32 + t := word_mod (by omega)
  rw [absorb_eq hd hbound hq hsize hsize' hnext hvia]
  by_cases hq0 : q = 0
  · simp only [hq0, ne_eq, not_true_eq_false, if_false]
    constructor
    case frame =>
      intro x hx
      simp (disch := omega) only [Memory.store_outside]
    case back => exact fun h => absurd rfl h
    all_goals
      simp (disch := omega) only [magicField, isFreeField, sizeField,
        nextField, prevField, Memory.load_store_disjoint,
        Memory.load_store_same, hsmod, Nat.zero_mod]
  · have hfollow := hfollow hq0
    simp only [hq0, ne_eq, not_false_eq_true, if_true]
    constructor
    case frame =>
      intro x hx
      simp (disch := omega) only [Memory.store_outside]
    all_goals
      simp (disch := omega) only [magicField, isFreeField, sizeField,
        nextField, prevField, Memory.load_store_disjoint,
        Memory.load_store_same, hsmod, hqmod, hamod]
    exact fun _ => trivial

theorem absorb_frame {a d s t q via : ℕ}
    (hd : d = a + 32 + s) (hbound : d + 32 + t < 2 ^ 63) (hq : q < 2 ^ 63)
    (hsize : sizeField m a = s) (hsize' : sizeField m d = t)
    (hnext : nextField m d = q) (hvia : via = a ∨ via = d) :
    Memory.FrameOutside
      (fun x => (a + 8 ≤ x ∧ x < a + 32) ∨
        (q ≠ 0 ∧ q + 24 ≤ x ∧ x < q + 32)) m (absorb m a d via) := by
  intro x hx
  rw [absorb_eq hd hbound hq hsize hsize' hnext hvia]
  by_cases hq0 : q = 0
  · simp only [hq0, ne_eq, not_true_eq_false, if_false]
    simp (disch := omega) only [Memory.store_outside]
  · simp only [hq0, ne_eq, not_false_eq_true, if_true]
    simp (disch := omega) only [Memory.store_outside]

end Otsos
