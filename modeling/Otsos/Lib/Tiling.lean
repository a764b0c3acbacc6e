import Mathlib.Data.List.Chain
import Mathlib.Tactic.Common

/-!
# Tilings of an interval by blocks

A block is a header of `w` units followed by a payload, and is either free or
in use.  A list of blocks tiles an interval when every block starts where the
previous one stops.  Cutting one block in two and joining two neighbours are
inverse edits of such a list.  A tiling in which no two neighbours are free is
determined by its used blocks.
-/

namespace Lib

@[ext] structure Block where
  addr : ℕ
  size : ℕ
  free : Bool
deriving DecidableEq, Repr

/-- `bs` covers the interval from `lo` to `hi` without gap or overlap. -/
def Tiles (w : ℕ) : ℕ → ℕ → List Block → Prop
  | lo, hi, [] => lo = hi
  | lo, hi, b :: bs => b.addr = lo ∧ Tiles w (lo + w + b.size) hi bs

/-- No two neighbouring blocks are both free. -/
def Coalesced (bs : List Block) : Prop :=
  bs.IsChain fun a b => ¬ (a.free = true ∧ b.free = true)

variable {w lo hi : ℕ}

@[simp] theorem tiles_nil : Tiles w lo hi [] ↔ lo = hi := Iff.rfl

@[simp] theorem tiles_cons {b : Block} {bs : List Block} :
    Tiles w lo hi (b :: bs) ↔
      b.addr = lo ∧ Tiles w (lo + w + b.size) hi bs := Iff.rfl

theorem tiles_append {xs ys : List Block} :
    Tiles w lo hi (xs ++ ys) ↔
      ∃ mid, Tiles w lo mid xs ∧ Tiles w mid hi ys := by
  induction xs generalizing lo with
  | nil => simp
  | cons x xs ih =>
      simp only [List.cons_append, tiles_cons, ih]
      constructor
      · rintro ⟨hx, mid, hxs, hys⟩
        exact ⟨mid, ⟨hx, hxs⟩, hys⟩
      · rintro ⟨mid, ⟨hx, hxs⟩, hys⟩
        exact ⟨hx, mid, hxs, hys⟩

theorem Tiles.le {bs : List Block} (h : Tiles w lo hi bs) : lo ≤ hi := by
  induction bs generalizing lo with
  | nil => exact Nat.le_of_eq h
  | cons b bs ih =>
      have := ih h.2
      omega

theorem Tiles.bounds {bs : List Block} {b : Block}
    (h : Tiles w lo hi bs) (hb : b ∈ bs) :
    lo ≤ b.addr ∧ b.addr + w + b.size ≤ hi := by
  induction bs generalizing lo with
  | nil => simp at hb
  | cons c bs ih =>
      obtain ⟨hc, hrest⟩ := h
      rcases List.mem_cons.mp hb with rfl | hb
      · have := hrest.le
        omega
      · have := ih hrest hb
        omega

/-- The blocks of a tiling stand in address order and do not overlap. -/
theorem Tiles.pairwise {bs : List Block} (h : Tiles w lo hi bs) :
    bs.Pairwise fun a b => a.addr + w + a.size ≤ b.addr := by
  induction bs generalizing lo with
  | nil => exact List.Pairwise.nil
  | cons b bs ih =>
      obtain ⟨hb, hrest⟩ := h
      refine List.Pairwise.cons ?_ (ih hrest)
      intro c hc
      have := (hrest.bounds hc).1
      omega

theorem Tiles.before {xs ys : List Block} {b : Block}
    (h : Tiles w lo hi (xs ++ b :: ys)) :
    ∀ x ∈ xs, x.addr + w + x.size ≤ b.addr := by
  intro x hx
  have hpair := List.pairwise_append.mp h.pairwise
  exact hpair.2.2 x hx b (by simp)

theorem Tiles.after {xs ys : List Block} {b : Block}
    (h : Tiles w lo hi (xs ++ b :: ys)) :
    ∀ y ∈ ys, b.addr + w + b.size ≤ y.addr := by
  intro y hy
  have hpair := List.pairwise_append.mp h.pairwise
  exact (List.pairwise_cons.mp hpair.2.1).1 y hy

theorem Tiles.disjoint {bs : List Block} {b c : Block}
    (h : Tiles w lo hi bs) (hb : b ∈ bs) (hc : c ∈ bs) (hne : b ≠ c) :
    b.addr + w + b.size ≤ c.addr ∨ c.addr + w + c.size ≤ b.addr := by
  induction bs generalizing lo with
  | nil => simp at hb
  | cons d bs ih =>
      obtain ⟨hd, hrest⟩ := h
      rcases List.mem_cons.mp hb with rfl | hb' <;>
        rcases List.mem_cons.mp hc with rfl | hc'
      · exact absurd rfl hne
      · have := (hrest.bounds hc').1
        omega
      · have := (hrest.bounds hb').1
        omega
      · exact ih hrest hb' hc'

theorem Tiles.eq_of_addr {bs : List Block} {b c : Block} (hw : 0 < w)
    (h : Tiles w lo hi bs) (hb : b ∈ bs) (hc : c ∈ bs)
    (haddr : b.addr = c.addr) : b = c := by
  by_contra hne
  have := h.disjoint hb hc hne
  omega

/-- A unit dividing the start, the header and every size divides every
address. -/
theorem Tiles.dvd_addr {bs : List Block} {b : Block} {k : ℕ}
    (h : Tiles w lo hi bs) (hlo : k ∣ lo) (hw : k ∣ w)
    (hsize : ∀ b ∈ bs, k ∣ b.size) (hb : b ∈ bs) : k ∣ b.addr := by
  induction bs generalizing lo with
  | nil => simp at hb
  | cons c bs ih =>
      obtain ⟨hc, hrest⟩ := h
      rcases List.mem_cons.mp hb with rfl | hb
      · rwa [hc]
      · have hstart : k ∣ lo + w + c.size :=
          Nat.dvd_add (Nat.dvd_add hlo hw) (hsize c (by simp))
        exact ih hrest hstart
          (fun d hd => hsize d (List.mem_cons_of_mem c hd)) hb

/-- Blocks of at least `k` units bound the length of the list. -/
theorem Tiles.length_mul_le {bs : List Block} {k : ℕ}
    (h : Tiles w lo hi bs) (hsize : ∀ b ∈ bs, k ≤ b.size) :
    lo + bs.length * (w + k) ≤ hi := by
  induction bs generalizing lo with
  | nil => simpa using Nat.le_of_eq h
  | cons b bs ih =>
      have hb := hsize b (by simp)
      have hrest := ih h.2 fun c hc => hsize c (List.mem_cons_of_mem b hc)
      rw [List.length_cons, Nat.succ_mul]
      omega

theorem Tiles.exists_mem {bs : List Block} {x : ℕ} (h : Tiles w lo hi bs)
    (hlow : lo ≤ x) (hhigh : x < hi) :
    ∃ b ∈ bs, b.addr ≤ x ∧ x < b.addr + w + b.size := by
  induction bs generalizing lo with
  | nil =>
      have : lo = hi := h
      omega
  | cons b bs ih =>
      obtain ⟨haddr, hrest⟩ := h
      by_cases hx : x < lo + w + b.size
      · exact ⟨b, by simp, by omega, by omega⟩
      · obtain ⟨c, hc, hcx⟩ := ih hrest (by omega)
        exact ⟨c, List.mem_cons_of_mem b hc, hcx⟩

theorem Tiles.payload_not_header {bs : List Block} {b c : Block} {x : ℕ}
    (h : Tiles w lo hi bs) (hb : b ∈ bs) (hc : c ∈ bs)
    (hlow : b.addr + w ≤ x) (hhigh : x < b.addr + w + b.size) :
    ¬ (c.addr ≤ x ∧ x < c.addr + w) := by
  rintro ⟨hcx, hxc⟩
  by_cases hbc : b = c
  · subst hbc
    omega
  · have := h.disjoint hb hc hbc
    omega

theorem tiles_cut_iff {xs ys : List Block} {a n k : ℕ} {f g e : Bool} :
    Tiles w lo hi (xs ++ ⟨a, n, f⟩ :: ⟨a + w + n, k, g⟩ :: ys) ↔
      Tiles w lo hi (xs ++ ⟨a, n + w + k, e⟩ :: ys) := by
  simp only [tiles_append, tiles_cons]
  constructor
  · rintro ⟨mid, hxs, ha, -, hys⟩
    refine ⟨mid, hxs, ha, ?_⟩
    rwa [show mid + w + (n + w + k) = mid + w + n + w + k by omega]
  · rintro ⟨mid, hxs, ha, hys⟩
    refine ⟨mid, hxs, ha, by rw [ha], ?_⟩
    rwa [show mid + w + n + w + k = mid + w + (n + w + k) by omega]

theorem tiles_flag_iff {xs ys : List Block} {b : Block} {f : Bool} :
    Tiles w lo hi (xs ++ { b with free := f } :: ys) ↔
      Tiles w lo hi (xs ++ b :: ys) := by
  simp only [tiles_append, tiles_cons]

theorem Tiles.next_addr {xs ys : List Block} {b c : Block}
    (h : Tiles w lo hi (xs ++ b :: c :: ys)) :
    c.addr = b.addr + w + b.size := by
  obtain ⟨mid, -, hb, hc, -⟩ := tiles_append.mp h
  omega

/-! ## Coalesced tilings -/

@[simp] theorem coalesced_nil : Coalesced [] := List.IsChain.nil

theorem coalesced_append {xs ys : List Block} :
    Coalesced (xs ++ ys) ↔ Coalesced xs ∧ Coalesced ys ∧
      ∀ x ∈ xs.getLast?, ∀ y ∈ ys.head?,
        ¬ (x.free = true ∧ y.free = true) :=
  List.isChain_append

theorem coalesced_cons {b : Block} {bs : List Block} :
    Coalesced (b :: bs) ↔
      (∀ y ∈ bs.head?, ¬ (b.free = true ∧ y.free = true)) ∧
        Coalesced bs :=
  List.isChain_cons

/-- Used blocks of a tiling that starts past an address lie past it. -/
theorem Tiles.not_mem_of_addr_lt {bs : List Block} {b : Block}
    (h : Tiles w lo hi bs) (hlt : b.addr < lo) : b ∉ bs := by
  intro hb
  have := (h.bounds hb).1
  omega

/-- The first block is no longer in one coalesced tiling than in another with
the same used blocks. -/
theorem Tiles.head_size_le {b c : Block} {bs cs : List Block}
    (hb : Tiles w lo hi (b :: bs)) (hc : Tiles w lo hi (c :: cs))
    (hbfree : b.free = true) (hcfree : c.free = true)
    (hcoal : Coalesced (b :: bs))
    (hused : ∀ d : Block, d.free = false → d ∈ b :: bs → d ∈ c :: cs) :
    c.size ≤ b.size := by
  by_contra hlt
  cases bs with
  | nil =>
      have hend : lo + w + b.size = hi := hb.2
      have := hc.2.le
      omega
  | cons d ds =>
      -- the block after `b` is used, so it occurs inside `c`
      have hd : d.free = false := by
        have h := (coalesced_cons.mp hcoal).1 d (by simp)
        simpa [hbfree] using h
      have haddr : d.addr = lo + w + b.size := hb.2.1
      rcases List.mem_cons.mp (hused d hd (by simp)) with rfl | hmem
      · simp [hcfree] at hd
      · have := (hc.2.bounds hmem).1
        omega

/-- A coalesced tiling is determined by its used blocks. -/
theorem Tiles.eq_of_used_eq {bs cs : List Block} (hw : 0 < w)
    (hbs : Tiles w lo hi bs) (hcs : Tiles w lo hi cs)
    (hbcoal : Coalesced bs) (hccoal : Coalesced cs)
    (hused : ∀ d : Block, d.free = false → (d ∈ bs ↔ d ∈ cs)) :
    bs = cs := by
  induction bs generalizing lo cs with
  | nil =>
      cases cs with
      | nil => rfl
      | cons c cs =>
          have := hcs.2.le
          have : lo = hi := hbs
          omega
  | cons b bs ih =>
      cases cs with
      | nil =>
          have := hbs.2.le
          have : lo = hi := hcs
          omega
      | cons c cs =>
          have haddr : b.addr = c.addr := hbs.1.trans hcs.1.symm
          have hhead : b = c := by
            cases hbf : b.free with
            | false =>
                have hmem := (hused b hbf).mp (by simp)
                exact hcs.eq_of_addr hw hmem (by simp) haddr
            | true =>
                cases hcf : c.free with
                | false =>
                    have hmem := (hused c hcf).mpr (by simp)
                    exact hbs.eq_of_addr hw (by simp) hmem haddr
                | true =>
                    have hle := hbs.head_size_le hcs hbf hcf hbcoal
                      (fun d hd => (hused d hd).mp)
                    have hge := hcs.head_size_le hbs hcf hbf hccoal
                      (fun d hd => (hused d hd).mpr)
                    have hsize : b.size = c.size := Nat.le_antisymm hge hle
                    cases b; cases c
                    simp_all
          subst hhead
          have htail : bs = cs := by
            apply ih hbs.2 hcs.2 (coalesced_cons.mp hbcoal).2
              (coalesced_cons.mp hccoal).2
            intro d hd
            have hdb : d ∈ bs → d ≠ b := by
              rintro hmem rfl
              exact hbs.2.not_mem_of_addr_lt
                (by have := hbs.1; omega) hmem
            have hdc : d ∈ cs → d ≠ b := by
              rintro hmem rfl
              exact hcs.2.not_mem_of_addr_lt
                (by have := hbs.1; omega) hmem
            have h := hused d hd
            simp only [List.mem_cons] at h
            constructor
            · intro hmem
              exact (h.mp (Or.inr hmem)).resolve_left (hdb hmem)
            · intro hmem
              exact (h.mpr (Or.inr hmem)).resolve_left (hdc hmem)
          rw [htail]

/-- Without used blocks, a coalesced tiling of a nonempty interval is one free
block. -/
theorem Tiles.eq_single_of_no_used {bs : List Block}
    (h : Tiles w lo hi bs) (hcoal : Coalesced bs) (hne : lo < hi)
    (hfree : ∀ b ∈ bs, b.free = true) :
    bs = [⟨lo, hi - lo - w, true⟩] := by
  cases bs with
  | nil =>
      have : lo = hi := h
      omega
  | cons b bs =>
      cases bs with
      | nil =>
          obtain ⟨haddr, hend⟩ := h
          have hend : lo + w + b.size = hi := hend
          have hb : b.free = true := hfree b (by simp)
          obtain ⟨addr, size, free⟩ := b
          simp only at haddr hend hb
          subst haddr hb
          congr 2
          omega
      | cons c cs =>
          exfalso
          have hstep := (coalesced_cons.mp hcoal).1 c (by simp)
          exact hstep ⟨hfree b (by simp), hfree c (by simp)⟩

end Lib
