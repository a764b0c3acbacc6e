import Mathlib.Data.Finset.Card
import Mathlib.Data.Finset.Range
import Mathlib.Data.List.Sort
import Mathlib.Logic.Function.Basic
import Mathlib.Tactic.Common

/-!
# Chains in a map of links

A map gives every block the next one of its chain; one value ends a chain and
zero marks a block as free.  Zero is also the number of a block, so a chain is
told from a run of free blocks only because its blocks increase: zero can start
a chain but never follow another block.  An allocation table assigns chains to
owners so that the blocks in use are exactly those on some chain; releasing the
chain of an owner and assigning it fresh blocks keep the table.
-/

namespace Lib

variable {ι : Type*} {next next' : ℕ → ℕ} {eof limit : ℕ}
  {domain : ℕ → Prop} {chain : ι → List ℕ}

/-- Following `next` from the first block visits the list and ends. -/
def Links (next : ℕ → ℕ) (eof : ℕ) : List ℕ → Prop
  | [] => True
  | b :: bs => next b = bs.headD eof ∧ Links next eof bs

@[simp] theorem links_nil : Links next eof [] := trivial

@[simp] theorem links_cons {b : ℕ} {bs : List ℕ} :
    Links next eof (b :: bs) ↔
      next b = bs.headD eof ∧ Links next eof bs := Iff.rfl

theorem Links.congr {bs : List ℕ} (h : Links next eof bs)
    (hagree : ∀ b ∈ bs, next' b = next b) : Links next' eof bs := by
  induction bs with
  | nil => trivial
  | cons b bs ih =>
      refine ⟨(hagree b List.mem_cons_self).trans h.1, ih h.2 ?_⟩
      exact fun c hc => hagree c (List.mem_cons_of_mem b hc)

theorem Links.unique {bs cs : List ℕ} (hbs : Links next eof bs)
    (hcs : Links next eof cs) (hbeof : eof ∉ bs) (hceof : eof ∉ cs)
    (hhead : bs.headD eof = cs.headD eof) : bs = cs := by
  induction bs generalizing cs with
  | nil =>
      cases cs with
      | nil => rfl
      | cons c cs =>
          simp only [List.headD_nil, List.headD_cons] at hhead
          exact absurd (by simp [hhead]) hceof
  | cons b bs ih =>
      cases cs with
      | nil =>
          simp only [List.headD_nil, List.headD_cons] at hhead
          exact absurd (by simp [← hhead]) hbeof
      | cons c cs =>
          simp only [List.headD_cons] at hhead
          subst hhead
          have hrest := ih hbs.2 hcs.2 (fun h => hbeof (by simp [h]))
            (fun h => hceof (by simp [h])) (hbs.1.symm.trans hcs.1)
          rw [hrest]

/-- Blocks below a limit that do not repeat are no more than the limit. -/
theorem length_le_of_lt {bs : List ℕ} (hnodup : bs.Nodup)
    (hlt : ∀ b ∈ bs, b < limit) : bs.length ≤ limit := by
  have hsub : bs ⊆ List.range limit :=
    fun b hb => List.mem_range.mpr (hlt b hb)
  have hle := (hnodup.subperm hsub).length_le
  rwa [List.length_range] at hle

/-- The map after freeing the blocks of a list. -/
def unlinkAll (next : ℕ → ℕ) (bs : List ℕ) : ℕ → ℕ :=
  fun b => if b ∈ bs then 0 else next b

theorem unlinkAll_mem {bs : List ℕ} {b : ℕ} (hb : b ∈ bs) :
    unlinkAll next bs b = 0 := if_pos hb

theorem unlinkAll_not_mem {bs : List ℕ} {b : ℕ} (hb : b ∉ bs) :
    unlinkAll next bs b = next b := if_neg hb

/-- The map after chaining the blocks of a list, one write after the other. -/
def linkAll (next : ℕ → ℕ) (eof : ℕ) : List ℕ → ℕ → ℕ
  | [] => next
  | b :: bs => linkAll (Function.update next b (bs.headD eof)) eof bs

theorem linkAll_not_mem {bs : List ℕ} {b : ℕ} (hb : b ∉ bs) :
    linkAll next eof bs b = next b := by
  induction bs generalizing next with
  | nil => rfl
  | cons c bs ih =>
      rw [List.mem_cons, not_or] at hb
      rw [linkAll, ih hb.2, Function.update_of_ne hb.1]

theorem linkAll_congr {bs : List ℕ} {b : ℕ} (h : next' b = next b) :
    linkAll next' eof bs b = linkAll next eof bs b := by
  induction bs generalizing next next' with
  | nil => exact h
  | cons c bs ih =>
      apply ih
      by_cases hb : b = c
      · subst hb
        simp
      · rw [Function.update_of_ne hb, Function.update_of_ne hb, h]

/-- What a link is after the writes: old, the end, or a block of the list. -/
theorem linkAll_cases {bs : List ℕ} {b : ℕ} :
    linkAll next eof bs b = next b ∨ linkAll next eof bs b = eof ∨
      linkAll next eof bs b ∈ bs := by
  induction bs generalizing next with
  | nil => exact Or.inl rfl
  | cons c bs ih =>
      rw [linkAll]
      rcases @ih (Function.update next c (bs.headD eof)) with
        hold | heof | hmem
      · rw [hold]
        by_cases hb : b = c
        · rw [hb, Function.update_self]
          cases bs with
          | nil => exact Or.inr (Or.inl rfl)
          | cons d bs => simp
        · exact Or.inl (Function.update_of_ne hb _ _)
      · exact Or.inr (Or.inl heof)
      · exact Or.inr (Or.inr (List.mem_cons_of_mem c hmem))

theorem links_linkAll {bs : List ℕ} (hbs : bs.Nodup) :
    Links (linkAll next eof bs) eof bs := by
  induction bs generalizing next with
  | nil => trivial
  | cons b bs ih =>
      obtain ⟨hb, hbs⟩ := List.nodup_cons.mp hbs
      refine ⟨?_, ih hbs⟩
      rw [linkAll, linkAll_not_mem hb, Function.update_self]

theorem Links.next_ne_zero {bs : List ℕ} {b : ℕ} (h : Links next eof bs)
    (hsorted : bs.Pairwise (· < ·)) (heof : eof ≠ 0) (hb : b ∈ bs) :
    next b ≠ 0 := by
  induction bs with
  | nil => simp at hb
  | cons c bs ih =>
      obtain ⟨hlt, hsorted⟩ := List.pairwise_cons.mp hsorted
      rcases List.mem_cons.mp hb with rfl | hb
      · rw [h.1]
        cases bs with
        | nil => exact heof
        | cons d bs =>
            have hbd := hlt d List.mem_cons_self
            simp only [List.headD_cons]
            omega
      · exact ih h.2 hsorted hb

/-- The first `n` blocks of the chain of `b`.  A block outside the map has no
link and is the last. -/
def chainFrom (eof : ℕ) (inside : ℕ → Bool) (next : ℕ → ℕ) :
    ℕ → ℕ → List ℕ
  | 0, _ => []
  | n + 1, b =>
      if b = eof then []
      else b :: if inside b then chainFrom eof inside next n (next b) else []

variable {inside : ℕ → Bool}

theorem chainFrom_eof (n : ℕ) : chainFrom eof inside next n eof = [] := by
  cases n with
  | zero => rfl
  | succ n => exact if_pos rfl

theorem chainFrom_links {bs : List ℕ} (hlinks : Links next eof bs)
    (hinside : ∀ b ∈ bs, inside b = true) (heof : eof ∉ bs) (n : ℕ) :
    chainFrom eof inside next n (bs.headD eof) = bs.take n := by
  induction bs generalizing n with
  | nil => rw [List.headD_nil, chainFrom_eof, List.take_nil]
  | cons b bs ih =>
      rw [List.mem_cons, not_or] at heof
      cases n with
      | zero => rfl
      | succ n =>
          rw [List.headD_cons, chainFrom, if_neg (Ne.symm heof.1),
            if_pos (hinside b List.mem_cons_self), hlinks.1, ih hlinks.2
              (fun c hc => hinside c (List.mem_cons_of_mem b hc)) heof.2,
            List.take_succ_cons]

/-! ## Walks that free what they visit -/

/-- The blocks freed by a walk from `b`: each is zeroed before the next one is
taken, and the walk ends at `eof` or outside the map.  `none` when the fuel
runs out. -/
def releaseWalk (eof : ℕ) (inside : ℕ → Bool) (next : ℕ → ℕ) :
    ℕ → ℕ → Option (List ℕ)
  | 0, _ => none
  | fuel + 1, b =>
      if b = eof ∨ inside b = false then some []
      else
        (releaseWalk eof inside (Function.update next b 0) fuel
          (next b)).map (b :: ·)

theorem releaseWalk_end {fuel b : ℕ} (h : b = eof ∨ inside b = false) :
    releaseWalk eof inside next (fuel + 1) b = some [] := if_pos h

/-- A walk that does not end at a block visits it, so the block is inside. -/
theorem inside_of_visit {b : ℕ} (h : ¬ (b = eof ∨ inside b = false)) :
    inside b = true := by
  rw [not_or, Bool.not_eq_false] at h
  exact h.2

theorem releaseWalk_visit {fuel b : ℕ}
    (h : ¬ (b = eof ∨ inside b = false)) :
    releaseWalk eof inside next (fuel + 1) b =
      (releaseWalk eof inside (Function.update next b 0) fuel
        (next b)).map (b :: ·) := if_neg h

theorem releaseWalk_congr {fuel b : ℕ}
    (h : ∀ c, inside c = true → next' c = next c) :
    releaseWalk eof inside next' fuel b =
      releaseWalk eof inside next fuel b := by
  induction fuel generalizing next next' b with
  | zero => rfl
  | succ fuel ih =>
      by_cases hend : b = eof ∨ inside b = false
      · rw [releaseWalk_end hend, releaseWalk_end hend]
      · have hin := inside_of_visit hend
        have hupdate : ∀ c, inside c = true →
            Function.update next' b 0 c = Function.update next b 0 c := by
          intro c hc
          by_cases hcb : c = b
          · rw [hcb, Function.update_self, Function.update_self]
          · rw [Function.update_of_ne hcb, Function.update_of_ne hcb, h c hc]
        rw [releaseWalk_visit hend, releaseWalk_visit hend, ih hupdate,
          h b hin]

theorem releaseWalk_inside {fuel b : ℕ} {bs : List ℕ}
    (h : releaseWalk eof inside next fuel b = some bs) :
    ∀ c ∈ bs, inside c = true := by
  induction fuel generalizing next b bs with
  | zero => simp [releaseWalk] at h
  | succ fuel ih =>
      by_cases hend : b = eof ∨ inside b = false
      · rw [releaseWalk_end hend] at h
        cases h
        simp
      · rw [releaseWalk_visit hend] at h
        obtain ⟨cs, hcs, rfl⟩ := Option.map_eq_some_iff.mp h
        intro c hc
        rcases List.mem_cons.mp hc with rfl | hc
        · exact inside_of_visit hend
        · exact ih hcs c hc

theorem unlinkAll_update {b : ℕ} {bs : List ℕ} :
    unlinkAll (Function.update next b 0) bs = unlinkAll next (b :: bs) := by
  funext c
  simp only [unlinkAll, List.mem_cons]
  by_cases hcb : c = b
  · subst hcb
    simp
  · by_cases hc : c ∈ bs
    · simp [hc]
    · simp [hc, hcb]

theorem releaseWalk_links {fuel : ℕ} {bs : List ℕ}
    (hlinks : Links next eof bs) (hnodup : bs.Nodup)
    (hinside : ∀ b ∈ bs, inside b = true) (heof : eof ∉ bs)
    (hfuel : bs.length < fuel) :
    releaseWalk eof inside next fuel (bs.headD eof) = some bs := by
  induction bs generalizing next fuel with
  | nil =>
      cases fuel with
      | zero => omega
      | succ fuel => exact releaseWalk_end (Or.inl rfl)
  | cons b bs ih =>
      cases fuel with
      | zero => omega
      | succ fuel =>
          obtain ⟨hb, hnodup⟩ := List.nodup_cons.mp hnodup
          rw [List.mem_cons, not_or] at heof
          have hin := hinside b List.mem_cons_self
          have hrest : Links (Function.update next b 0) eof bs := by
            refine hlinks.2.congr fun c hc => Function.update_of_ne ?_ _ _
            rintro rfl
            exact hb hc
          rw [List.headD_cons, releaseWalk_visit
            (by simp [hin, Ne.symm heof.1]), hlinks.1,
            ih hrest hnodup
              (fun c hc => hinside c (List.mem_cons_of_mem b hc)) heof.2
              (by simpa using hfuel)]
          rfl

theorem releaseWalk_mono {fuel fuel' b : ℕ} {bs : List ℕ}
    (h : releaseWalk eof inside next fuel b = some bs)
    (hle : fuel ≤ fuel') :
    releaseWalk eof inside next fuel' b = some bs := by
  induction fuel generalizing next fuel' b bs with
  | zero => simp [releaseWalk] at h
  | succ fuel ih =>
      obtain ⟨k, rfl⟩ : ∃ k, fuel' = k + 1 := ⟨fuel' - 1, by omega⟩
      by_cases hend : b = eof ∨ inside b = false
      · rw [releaseWalk_end hend] at h ⊢
        exact h
      · rw [releaseWalk_visit hend] at h ⊢
        obtain ⟨cs, hcs, rfl⟩ := Option.map_eq_some_iff.mp h
        rw [ih hcs (by omega)]
        rfl

theorem update_of_free {b : ℕ} (h : next b = 0) :
    Function.update next b 0 = next := by
  conv_lhs => rw [← h]
  exact Function.update_eq_self b next

/-- A walk that reaches a free block zero stays there. -/
theorem releaseWalk_stuck (h₀ : ¬ (0 = eof ∨ inside 0 = false))
    (hzero : next 0 = 0) (fuel : ℕ) :
    releaseWalk eof inside next fuel 0 = none := by
  induction fuel with
  | zero => rfl
  | succ fuel ih =>
      rw [releaseWalk_visit h₀, hzero, update_of_free hzero, ih]
      rfl

/-- The blocks below `limit` that are in use. -/
def usedCount (inside : ℕ → Bool) (limit : ℕ) (next : ℕ → ℕ) : ℕ :=
  ((Finset.range limit).filter
    fun b => inside b = true ∧ next b ≠ 0).card

theorem usedCount_le (inside : ℕ → Bool) (limit : ℕ) (next : ℕ → ℕ) :
    usedCount inside limit next ≤ limit :=
  (Finset.card_filter_le _ _).trans (Finset.card_range limit).le

theorem usedCount_update {b : ℕ} (hb : b < limit) (hin : inside b = true)
    (hused : next b ≠ 0) :
    usedCount inside limit (Function.update next b 0) <
      usedCount inside limit next := by
  apply Finset.card_lt_card
  rw [Finset.ssubset_iff_of_subset]
  · refine ⟨b, ?_, ?_⟩
    · simp [hb, hin, hused]
    · simp
  · intro c hc
    simp only [Finset.mem_filter, Finset.mem_range] at hc ⊢
    obtain ⟨hlt, hinc, hne⟩ := hc
    refine ⟨hlt, hinc, ?_⟩
    by_cases hcb : c = b
    · rw [hcb]
      exact hused
    · rwa [Function.update_of_ne hcb] at hne

/-- Once block zero is free, a walk ends within the blocks in use or never. -/
theorem releaseWalk_none_of_zero {n b : ℕ}
    (hlimit : ∀ c, inside c = true → c < limit)
    (h₀ : ¬ (0 = eof ∨ inside 0 = false)) (hzero : next 0 = 0)
    (hn : usedCount inside limit next ≤ n)
    (h : releaseWalk eof inside next (n + 1) b = none) (fuel : ℕ) :
    releaseWalk eof inside next fuel b = none := by
  induction n generalizing next b fuel with
  | zero =>
      cases fuel with
      | zero => rfl
      | succ fuel =>
          by_cases hend : b = eof ∨ inside b = false
          · rw [releaseWalk_end hend] at h
            cases h
          · have hin := inside_of_visit hend
            have hfree : next b = 0 := by
              by_contra hused
              have hlt := usedCount_update (hlimit b hin) hin hused
              omega
            rw [releaseWalk_visit hend, hfree, update_of_free hfree,
              releaseWalk_stuck h₀ hzero]
            rfl
  | succ n ih =>
      cases fuel with
      | zero => rfl
      | succ fuel =>
          by_cases hend : b = eof ∨ inside b = false
          · rw [releaseWalk_end hend] at h
            cases h
          · have hin := inside_of_visit hend
            rw [releaseWalk_visit hend, Option.map_eq_none_iff] at h ⊢
            by_cases hfree : next b = 0
            · rw [hfree, update_of_free hfree]
              exact releaseWalk_stuck h₀ hzero fuel
            · have hlt := usedCount_update (hlimit b hin) hin hfree
              refine ih ?_ (by omega) h fuel
              by_cases hb : (0 : ℕ) = b
              · rw [hb, Function.update_self]
              · rw [Function.update_of_ne hb, hzero]

/-- A walk that has not ended after as many steps as there are blocks, and
three, never ends. -/
theorem releaseWalk_none {fuel b : ℕ}
    (hlimit : ∀ c, inside c = true → c < limit)
    (hfuel : limit + 3 ≤ fuel)
    (h : releaseWalk eof inside next fuel b = none) (fuel' : ℕ) :
    releaseWalk eof inside next fuel' b = none := by
  have hn := usedCount_le inside limit next
  generalize hk : usedCount inside limit next = n at hn
  have hshort : releaseWalk eof inside next (n + 3) b = none := by
    cases hw : releaseWalk eof inside next (n + 3) b with
    | none => rfl
    | some bs =>
        rw [releaseWalk_mono hw (by omega)] at h
        cases h
  clear h hfuel hn fuel
  induction n using Nat.strong_induction_on generalizing next b fuel' with
  | _ n ih =>
      cases fuel' with
      | zero => rfl
      | succ fuel' =>
          by_cases hend : b = eof ∨ inside b = false
          · rw [releaseWalk_end hend] at hshort
            cases hshort
          · have hin := inside_of_visit hend
            rw [releaseWalk_visit hend, Option.map_eq_none_iff]
              at hshort ⊢
            by_cases hused : next b ≠ 0
            · have hlt := usedCount_update (hlimit b hin) hin hused
              rw [hk] at hlt
              refine ih _ hlt fuel' rfl ?_
              cases hw : releaseWalk eof inside (Function.update next b 0)
                  (usedCount inside limit (Function.update next b 0) + 3)
                  (next b) with
              | none => rfl
              | some bs =>
                  rw [releaseWalk_mono hw (by omega)] at hshort
                  cases hshort
            · rw [not_not] at hused
              rw [hused, update_of_free hused] at hshort ⊢
              -- the walk goes on from block zero
              by_cases hend₀ : (0 : ℕ) = eof ∨ inside 0 = false
              · rw [releaseWalk_end hend₀] at hshort
                cases hshort
              · by_cases hzero : next 0 = 0
                · exact releaseWalk_stuck hend₀ hzero fuel'
                · have hin₀ := inside_of_visit hend₀
                  have hlt := usedCount_update (hlimit 0 hin₀) hin₀ hzero
                  rw [releaseWalk_visit hend₀, Option.map_eq_none_iff]
                    at hshort
                  cases fuel' with
                  | zero => rfl
                  | succ fuel' =>
                      rw [releaseWalk_visit hend₀, Option.map_eq_none_iff]
                      exact releaseWalk_none_of_zero hlimit hend₀
                        (Function.update_self _ _ _) (by omega) hshort fuel'

/-- The allocation table: `chain i` are the blocks of the owner `i`, the empty
list if it owns none. -/
structure ChainTable (next : ℕ → ℕ) (eof limit : ℕ) (domain : ℕ → Prop)
    (chain : ι → List ℕ) : Prop where
  links : ∀ i, Links next eof (chain i)
  increasing : ∀ i, (chain i).Pairwise (· < ·)
  inside : ∀ i, ∀ b ∈ chain i, domain b ∧ b < limit
  disjoint : ∀ i j b, b ∈ chain i → b ∈ chain j → i = j
  exact : ∀ b, domain b → (next b ≠ 0 ↔ ∃ i, b ∈ chain i)

theorem ChainTable.congr (h : ChainTable next eof limit domain chain)
    (hagree : ∀ b, domain b → next' b = next b) :
    ChainTable next' eof limit domain chain := by
  refine ⟨?_, h.increasing, h.inside, h.disjoint, ?_⟩
  · intro i
    exact (h.links i).congr fun b hb => hagree b (h.inside i b hb).1
  · intro b hb
    rw [hagree b hb]
    exact h.exact b hb

theorem ChainTable.empty (hfree : ∀ b, domain b → next b = 0) :
    ChainTable next eof limit domain fun _ : ι => [] := by
  refine ⟨fun _ => trivial, fun _ => List.Pairwise.nil, ?_, ?_, ?_⟩
  · intro i b hb
    simp at hb
  · intro i j b hb
    simp at hb
  · intro b hb
    simp [hfree b hb]

variable [DecidableEq ι]

theorem ChainTable.release (h : ChainTable next eof limit domain chain)
    (i : ι) :
    ChainTable (unlinkAll next (chain i)) eof limit domain
      (Function.update chain i []) := by
  have hother : ∀ j, j ≠ i → ∀ b ∈ chain j, b ∉ chain i := by
    intro j hj b hb hi
    exact hj (h.disjoint j i b hb hi)
  have hsub : ∀ j b, b ∈ Function.update chain i [] j →
      j ≠ i ∧ b ∈ chain j := by
    intro j b hb
    by_cases hj : j = i
    · subst hj
      simp at hb
    · exact ⟨hj, by simpa [hj] using hb⟩
  refine ⟨?_, ?_, ?_, ?_, ?_⟩
  · intro j
    by_cases hj : j = i
    · subst hj
      simp
    · rw [Function.update_of_ne hj]
      exact (h.links j).congr fun b hb =>
        unlinkAll_not_mem (hother j hj b hb)
  · intro j
    by_cases hj : j = i
    · subst hj
      simp
    · rw [Function.update_of_ne hj]
      exact h.increasing j
  · intro j b hb
    exact h.inside j b (hsub j b hb).2
  · intro j k b hj hk
    exact h.disjoint j k b (hsub j b hj).2 (hsub k b hk).2
  · intro b hb
    by_cases hbi : b ∈ chain i
    · rw [unlinkAll_mem hbi]
      refine ⟨fun hne => absurd rfl hne, ?_⟩
      rintro ⟨j, hj⟩
      obtain ⟨hji, hbj⟩ := hsub j b hj
      exact absurd (h.disjoint j i b hbj hbi) hji
    · rw [unlinkAll_not_mem hbi, h.exact b hb]
      constructor
      · rintro ⟨j, hj⟩
        refine ⟨j, ?_⟩
        have hne : j ≠ i := by
          rintro rfl
          exact hbi hj
        rwa [Function.update_of_ne hne]
      · rintro ⟨j, hj⟩
        exact ⟨j, (hsub j b hj).2⟩

/-- The owner `i`, that has no blocks, gets the free blocks `bs`. -/
theorem ChainTable.assign (h : ChainTable next eof limit domain chain)
    {i : ι} {bs : List ℕ} (heof : eof ≠ 0) (hnone : chain i = [])
    (hsorted : bs.Pairwise (· < ·)) (hfree : ∀ b ∈ bs, next b = 0)
    (hinside : ∀ b ∈ bs, domain b ∧ b < limit) :
    ChainTable (linkAll next eof bs) eof limit domain
      (Function.update chain i bs) := by
  have hnodup : bs.Nodup := hsorted.imp fun hlt => Nat.ne_of_lt hlt
  have hlinks : Links (linkAll next eof bs) eof bs := links_linkAll hnodup
  have hother : ∀ j, ∀ b ∈ chain j, b ∉ bs := by
    intro j b hb hbs
    exact (h.exact b (h.inside j b hb).1).mpr ⟨j, hb⟩ (hfree b hbs)
  have hcases : ∀ j b, b ∈ Function.update chain i bs j →
      (j = i ∧ b ∈ bs) ∨ (j ≠ i ∧ b ∈ chain j) := by
    intro j b hb
    by_cases hj : j = i
    · subst hj
      exact Or.inl ⟨rfl, by simpa using hb⟩
    · exact Or.inr ⟨hj, by simpa [hj] using hb⟩
  refine ⟨?_, ?_, ?_, ?_, ?_⟩
  · intro j
    by_cases hj : j = i
    · subst hj
      simpa using hlinks
    · rw [Function.update_of_ne hj]
      exact (h.links j).congr fun b hb => linkAll_not_mem (hother j b hb)
  · intro j
    by_cases hj : j = i
    · subst hj
      simpa using hsorted
    · rw [Function.update_of_ne hj]
      exact h.increasing j
  · intro j b hb
    rcases hcases j b hb with ⟨-, hb⟩ | ⟨-, hb⟩
    · exact hinside b hb
    · exact h.inside j b hb
  · intro j k b hj hk
    rcases hcases j b hj with ⟨rfl, hbj⟩ | ⟨-, hbj⟩
    · rcases hcases k b hk with ⟨rfl, -⟩ | ⟨-, hbk⟩
      · rfl
      · exact absurd hbj (hother k b hbk)
    · rcases hcases k b hk with ⟨rfl, hbk⟩ | ⟨-, hbk⟩
      · exact absurd hbk (hother j b hbj)
      · exact h.disjoint j k b hbj hbk
  · intro b hb
    by_cases hbs : b ∈ bs
    · have hne := hlinks.next_ne_zero hsorted heof hbs
      exact ⟨fun _ => ⟨i, by simpa using hbs⟩, fun _ => hne⟩
    · rw [linkAll_not_mem hbs, h.exact b hb]
      constructor
      · rintro ⟨j, hj⟩
        refine ⟨j, ?_⟩
        have hne : j ≠ i := by
          rintro rfl
          rw [hnone] at hj
          simp at hj
        rwa [Function.update_of_ne hne]
      · rintro ⟨j, hj⟩
        rcases hcases j b hj with ⟨-, hb⟩ | ⟨-, hb⟩
        · exact absurd hb hbs
        · exact ⟨j, hb⟩

end Lib
