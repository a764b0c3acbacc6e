import Otsos.Lib.ByteMemory

/-!
# Paging on the x86-64

A linear address is looked up in tables of four levels, of which each takes
nine bits of it; an entry that is marked as large ends the walk early.  Of the
reserved bits only those within the address of a large page are checked.
-/

namespace Lib

namespace X64

structure Mapping where
  address : ℕ
  writable : Bool
deriving DecidableEq

/-- The bits from `k` to 51 of an entry. -/
def frame (e k : ℕ) : ℕ := e % 2 ^ 52 / 2 ^ k * 2 ^ k

/-- The lowest bit that an index into the tables of a level takes. -/
def pageShift (level : ℕ) : ℕ := 12 + 9 * level

def pageEntry (m : Memory) (table level a : ℕ) : ℕ :=
  m.load (table + 8 * (a / 2 ^ pageShift level % 512)) 8

/-- The walk from a table of a level on.  Bit 0 marks an entry as present, bit 1
as writable and bit 7 as large, which it may be on the levels 1 and 2. -/
def walk (m : Memory) : ℕ → ℕ → ℕ → Bool → Option Mapping
  | 0, table, a, writable =>
      let e := pageEntry m table 0 a
      if e.testBit 0 then
        some ⟨frame e 12 + a % 2 ^ 12, writable && e.testBit 1⟩
      else none
  | level + 1, table, a, writable =>
      let e := pageEntry m table (level + 1) a
      if e.testBit 0 then
        if e.testBit 7 then
          if level < 2 ∧ e / 2 ^ 13 % 2 ^ (9 * level + 8) = 0 then
            some ⟨frame e (pageShift (level + 1)) +
              a % 2 ^ pageShift (level + 1), writable && e.testBit 1⟩
          else none
        else walk m level (frame e 12) a (writable && e.testBit 1)
      else none

/-- The bits from 47 on are equal. -/
def canonical (a : ℕ) : Bool :=
  a < 2 ^ 47 || (2 ^ 64 - 2 ^ 47 ≤ a && a < 2 ^ 64)

def translate (m : Memory) (cr3 a : ℕ) : Option Mapping :=
  if canonical a then walk m 3 (frame cr3 12) a true else none

/-- The memory that a program sees. -/
def linear (m : Memory) (cr3 : ℕ) : Memory := fun a =>
  match translate m cr3 a with
  | some t => m t.address
  | none => 0

/-- No access to the bytes faults. -/
def mapped (m : Memory) (cr3 a n : ℕ) : Bool :=
  (List.range n).all fun i => (translate m cr3 (a + i)).isSome

/-- A program stores the low `n` bytes of `v` at `a`; `none` if that faults. -/
def storeLinear (m : Memory) (cr3 a n v : ℕ) : Option Memory :=
  if (List.range n).all fun i =>
      ((translate m cr3 (a + i)).map (·.writable)).getD false then
    some fun x =>
      match (List.range n).find? fun i =>
          (translate m cr3 (a + i)).map (·.address) = some x with
      | some i => UInt8.ofNat (v / 256 ^ i)
      | none => m x
  else none

variable {m m' : Memory} {table level a e p₄ p₃ p₂ : ℕ} {writable : Bool}

/-! ## Tables with one entry -/

/-- All entries but the first are zero. -/
structure OneEntry (m : Memory) (table e : ℕ) : Prop where
  first : m.load table 8 = e
  rest : ∀ i, 1 ≤ i → i < 512 → m.load (table + 8 * i) 8 = 0

theorem OneEntry.pageEntry_eq (h : OneEntry m table e) (level a : ℕ) :
    pageEntry m table level a =
      if a / 2 ^ pageShift level % 512 = 0 then e else 0 := by
  unfold pageEntry
  split
  · rename_i hzero
    rw [hzero]
    exact h.first
  · rename_i hne
    exact h.rest _ (by omega) (by omega)

theorem OneEntry.walk_table (h : OneEntry m table e) (hpresent : e.testBit 0)
    (hsmall : ¬ e.testBit 7) :
    walk m (level + 1) table a writable =
      if a / 2 ^ pageShift (level + 1) % 512 = 0 then
        walk m level (frame e 12) a (writable && e.testBit 1)
      else none := by
  rw [walk, h.pageEntry_eq]
  by_cases hzero : a / 2 ^ pageShift (level + 1) % 512 = 0
  · simp only [if_pos hzero, if_pos hpresent, if_neg hsmall]
  · simp only [if_neg hzero, Nat.zero_testBit, Bool.false_eq_true, if_false]

theorem OneEntry.walk_page (h : OneEntry m table e) (hpresent : e.testBit 0)
    (hlarge : e.testBit 7) (hlevel : level < 2)
    (hreserved : e / 2 ^ 13 % 2 ^ (9 * level + 8) = 0) :
    walk m (level + 1) table a writable =
      if a / 2 ^ pageShift (level + 1) % 512 = 0 then
        some ⟨frame e (pageShift (level + 1)) +
          a % 2 ^ pageShift (level + 1), writable && e.testBit 1⟩
      else none := by
  rw [walk, h.pageEntry_eq]
  by_cases hzero : a / 2 ^ pageShift (level + 1) % 512 = 0
  · simp only [if_pos hzero, if_pos hpresent, if_pos hlarge,
      if_pos (And.intro hlevel hreserved)]
  · simp only [if_neg hzero, Nat.zero_testBit, Bool.false_eq_true, if_false]

theorem OneEntry.congr (h : OneEntry m table e)
    (hsame : ∀ x, table ≤ x → x < table + 4096 → m' x = m x) :
    OneEntry m' table e := by
  have hload : ∀ i < 512,
      m'.load (table + 8 * i) 8 = m.load (table + 8 * i) 8 := by
    intro i hi
    refine Memory.load_congr fun j hj => hsame _ ?_ ?_
    · omega
    · omega
  constructor
  · exact (hload 0 (by omega)).trans h.first
  · intro i hone hi
    exact (hload i hi).trans (h.rest i hone hi)

/-- A double word stored at the start of a zero page. -/
theorem OneEntry.of_store
    (hzero : ∀ x, table ≤ x → x < table + 4096 → m x = 0)
    (he : e < 256 ^ 4) : OneEntry (m.store table 4 e) table e := by
  have hhigh : (m.store table 4 e).load (table + 4) 4 = 0 := by
    rw [Memory.load_store_disjoint _ _ (Or.inr (by omega))]
    refine Memory.load_eq_zero fun x hlow hhigh => hzero x ?_ ?_
    · omega
    · omega
  constructor
  · rw [Memory.load_add _ _ 4 4, Memory.load_store_same, hhigh,
      Nat.mod_eq_of_lt he, Nat.mul_zero, Nat.add_zero]
  · intro i hone hi
    rw [Memory.load_store_disjoint _ _ (Or.inr (by omega))]
    refine Memory.load_eq_zero fun x hlow hhigh => hzero x ?_ ?_
    · omega
    · omega

/-! ## The first large page -/

/-- The entry of a table below, present and writable. -/
structure PointsTo (e table : ℕ) : Prop where
  present : e.testBit 0
  writable : e.testBit 1
  small : ¬ e.testBit 7
  frame : frame e 12 = table

/-- An address with the low bits of such an entry. -/
theorem pointsTo_three (haligned : table % 2 ^ 12 = 0)
    (hlow : table < 2 ^ 52) : PointsTo (table ||| 3) table := by
  have hor : table ||| 3 = 2 ^ 12 * (table / 2 ^ 12) + 3 := by
    rw [Nat.two_pow_add_eq_or_of_lt (by decide), Nat.mul_div_cancel']
    exact Nat.dvd_of_mod_eq_zero haligned
  constructor
  · rw [hor, Nat.testBit_eq_decide_div_mod_eq, decide_eq_true_eq]
    omega
  · rw [hor, Nat.testBit_eq_decide_div_mod_eq, decide_eq_true_eq]
    omega
  · rw [hor, Nat.testBit_eq_decide_div_mod_eq, decide_eq_true_eq]
    omega
  · rw [hor, X64.frame]
    omega

/-- Three tables that map the first two megabytes to themselves. -/
structure FirstPage (m : Memory) (p₄ p₃ p₂ : ℕ) : Prop where
  top : ∃ e, OneEntry m p₄ e ∧ PointsTo e p₃
  middle : ∃ e, OneEntry m p₃ e ∧ PointsTo e p₂
  page : OneEntry m p₂ 0x83

theorem canonical_low_iff (hcanonical : canonical a) :
    (a / 2 ^ pageShift 3 % 512 = 0 ∧ a / 2 ^ pageShift 2 % 512 = 0 ∧
      a / 2 ^ pageShift 1 % 512 = 0) ↔ a < 2 ^ 21 := by
  simp only [canonical, Bool.or_eq_true, Bool.and_eq_true,
    decide_eq_true_eq] at hcanonical
  simp only [pageShift]
  omega

/-- Nothing but the first two megabytes is mapped. -/
theorem FirstPage.translate_eq (h : FirstPage m p₄ p₃ p₂) {cr3 : ℕ}
    (hcr3 : frame cr3 12 = p₄) (a : ℕ) :
    translate m cr3 a = if a < 2 ^ 21 then some ⟨a, true⟩ else none := by
  obtain ⟨e₄, hone₄, hto₄⟩ := h.top
  obtain ⟨e₃, hone₃, hto₃⟩ := h.middle
  by_cases hcanonical : canonical a = true
  · have hlow := canonical_low_iff hcanonical
    rw [translate, if_pos hcanonical, hcr3,
      hone₄.walk_table hto₄.present hto₄.small, hto₄.frame,
      hone₃.walk_table hto₃.present hto₃.small, hto₃.frame,
      h.page.walk_page (by decide) (by decide) (by decide) (by decide),
      hto₄.writable, hto₃.writable]
    by_cases hfirst : a < 2 ^ 21
    · obtain ⟨hthree, htwo, hone⟩ := hlow.mpr hfirst
      rw [if_pos hthree, if_pos htwo, if_pos hone, if_pos hfirst]
      have hself : frame 0x83 (pageShift 1) + a % 2 ^ pageShift 1 = a := by
        simp only [frame, pageShift]
        omega
      rw [hself]
      rfl
    · rw [if_neg hfirst]
      split_ifs with hthree htwo hone
      · exact absurd (hlow.mp ⟨hthree, htwo, hone⟩) hfirst
      · rfl
      · rfl
      · rfl
  · rw [translate, if_neg hcanonical, if_neg]
    intro hfirst
    apply hcanonical
    simp only [canonical, Bool.or_eq_true, decide_eq_true_eq]
    omega

theorem FirstPage.congr (h : FirstPage m p₄ p₃ p₂)
    (hsame : ∀ x, (p₄ ≤ x ∧ x < p₄ + 4096) ∨ (p₃ ≤ x ∧ x < p₃ + 4096) ∨
      (p₂ ≤ x ∧ x < p₂ + 4096) → m' x = m x) : FirstPage m' p₄ p₃ p₂ := by
  obtain ⟨e₄, hone₄, hto₄⟩ := h.top
  obtain ⟨e₃, hone₃, hto₃⟩ := h.middle
  refine ⟨⟨e₄, hone₄.congr fun x hx hlt => ?_, hto₄⟩,
    ⟨e₃, hone₃.congr fun x hx hlt => ?_, hto₃⟩,
    h.page.congr fun x hx hlt => ?_⟩
  · exact hsame x (Or.inl ⟨hx, hlt⟩)
  · exact hsame x (Or.inr (Or.inl ⟨hx, hlt⟩))
  · exact hsame x (Or.inr (Or.inr ⟨hx, hlt⟩))

/-- A store to the first page goes where it says. -/
theorem FirstPage.storeLinear_eq (h : FirstPage m p₄ p₃ p₂) {cr3 n v : ℕ}
    (hcr3 : frame cr3 12 = p₄) (hroom : a + n ≤ 2 ^ 21) :
    storeLinear m cr3 a n v = some (m.store a n v) := by
  have hself : ∀ i < n, translate m cr3 (a + i) = some ⟨a + i, true⟩ := by
    intro i hi
    rw [h.translate_eq hcr3, if_pos (by omega)]
  rw [storeLinear, if_pos]
  · congr 1
    funext x
    cases hfind : (List.range n).find? fun i =>
        (translate m cr3 (a + i)).map (·.address) = some x with
    | none =>
        have hother : x < a ∨ a + n ≤ x := by
          by_contra hin
          have hno := List.find?_eq_none.mp hfind (x - a)
            (List.mem_range.mpr (by omega))
          rw [hself _ (by omega)] at hno
          simp only [Option.map_some, Option.some.injEq,
            decide_eq_true_eq] at hno
          omega
        exact (Memory.store_outside m v hother).symm
    | some i =>
        have hi := List.mem_range.mp (List.mem_of_find?_eq_some hfind)
        have hx := List.find?_some hfind
        rw [hself i hi] at hx
        simp only [Option.map_some, Option.some.injEq,
          decide_eq_true_eq] at hx
        rw [← hx]
        exact (Memory.store_inside m v hi).symm
  · simp only [List.all_eq_true, List.mem_range]
    intro i hi
    rw [hself i hi]
    rfl

theorem FirstPage.linear_eq (h : FirstPage m p₄ p₃ p₂) {cr3 : ℕ}
    (hcr3 : frame cr3 12 = p₄) (ha : a < 2 ^ 21) :
    linear m cr3 a = m a := by
  rw [linear, h.translate_eq hcr3, if_pos ha]

theorem FirstPage.linear_load (h : FirstPage m p₄ p₃ p₂) {cr3 n : ℕ}
    (hcr3 : frame cr3 12 = p₄) (hroom : a + n ≤ 2 ^ 21) :
    (linear m cr3).load a n = m.load a n :=
  Memory.load_congr fun i hi => h.linear_eq hcr3 (by omega)

/-- The program sees its store if that has left the tables alone. -/
theorem FirstPage.linear_store (h : FirstPage m p₄ p₃ p₂) {cr3 n v : ℕ}
    (h' : FirstPage (m.store a n v) p₄ p₃ p₂) (hcr3 : frame cr3 12 = p₄)
    (hroom : a + n ≤ 2 ^ 21) :
    linear (m.store a n v) cr3 = (linear m cr3).store a n v := by
  funext x
  by_cases hin : a ≤ x ∧ x < a + n
  · obtain ⟨i, rfl⟩ := Nat.exists_eq_add_of_le hin.1
    rw [h'.linear_eq hcr3 (by omega), Memory.store_inside _ _ (by omega),
      Memory.store_inside _ _ (by omega)]
  · rw [Memory.store_outside _ _ (by omega)]
    by_cases hx : x < 2 ^ 21
    · rw [h'.linear_eq hcr3 hx, h.linear_eq hcr3 hx,
        Memory.store_outside _ _ (by omega)]
    · rw [linear, linear, h.translate_eq hcr3, h'.translate_eq hcr3, if_neg hx]

theorem FirstPage.mapped_iff (h : FirstPage m p₄ p₃ p₂) {cr3 n : ℕ}
    (hcr3 : frame cr3 12 = p₄) :
    mapped m cr3 a n ↔ n = 0 ∨ a + n ≤ 2 ^ 21 := by
  have hsome : ∀ x, (translate m cr3 x).isSome ↔ x < 2 ^ 21 := by
    intro x
    rw [h.translate_eq hcr3]
    by_cases hx : x < 2 ^ 21
    · rw [if_pos hx]
      exact iff_of_true rfl hx
    · rw [if_neg hx]
      exact iff_of_false Bool.false_ne_true hx
  simp only [mapped, List.all_eq_true, List.mem_range, hsome]
  constructor
  · intro hall
    by_cases hn : n = 0
    · exact Or.inl hn
    · have hlast := hall (n - 1) (by omega)
      omega
  · intro hroom i hi
    omega

end X64

end Lib
