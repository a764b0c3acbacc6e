import Mathlib.Data.List.Nodup
import Otsos.Lib.Chains
import Otsos.ChainFS.Layout

/-!
# The block map of any state

The superblock need not describe a disk: the map may wrap around the sector
numbers and overlap anything.  Its entries are still told apart, since their
sectors differ, so reading and writing an entry are lookup and update of a
partial function, and the loops over the map are those of the links.
-/

namespace Otsos

open Lib

variable {s : ChainFS} {b c v count : ℕ} {bs : List ℕ}

theorem blockMapBlockCount_lt (s : ChainFS) :
    s.blockMapBlockCount < 2 ^ 32 :=
  s.superblock.load_lt _ 4

theorem mapSector_inj {j k : ℕ} (hj : j < 2 ^ 32) (hk : k < 2 ^ 32)
    (h : mapSector s j = mapSector s k) : j = k := by
  simp only [mapSector, wrap32] at h
  omega

/-- The block has a map entry. -/
def ChainFS.InMap (s : ChainFS) (b : ℕ) : Prop :=
  b / mapEntriesPerBlock < s.blockMapBlockCount

instance (s : ChainFS) (b : ℕ) : Decidable (s.InMap b) :=
  inferInstanceAs (Decidable (_ < _))

def ChainFS.inMap (s : ChainFS) (b : ℕ) : Bool := decide (s.InMap b)

theorem ChainFS.inMap_iff : s.inMap b = true ↔ s.InMap b :=
  decide_eq_true_iff (p := s.InMap b)

/-- The map entry of a block. -/
def ChainFS.link (s : ChainFS) (b : ℕ) : ℕ :=
  (s.disk (mapSector s (b / mapEntriesPerBlock))).load
    (4 * (b % mapEntriesPerBlock)) 4

/-- The sector holds a part of the map. -/
def ChainFS.MapSector (s : ChainFS) (sector : ℕ) : Prop :=
  ∃ k < s.blockMapBlockCount, sector = mapSector s k

theorem readBlockMapEntry_some (s : ChainFS) (hb : s.InMap b) :
    ∃ m, chainfsReadBlockMapEntry s b =
      ({ s with sectorBuffer := m }, some (s.link b)) := by
  unfold chainfsReadBlockMapEntry
  rw [if_neg (Nat.not_le.mpr hb)]
  exact ⟨_, rfl⟩

theorem readBlockMapEntry_none (s : ChainFS) (hb : ¬ s.InMap b) :
    chainfsReadBlockMapEntry s b = (s, none) := by
  unfold chainfsReadBlockMapEntry
  rw [if_pos (Nat.not_lt.mp hb)]

theorem writeBlockMapEntry_some (s : ChainFS) (hb : s.InMap b)
    (hv : v < 2 ^ 32) :
    ∃ d m, chainfsWriteBlockMapEntry s b v =
        ({ s with
          disk := d
          sectorBuffer := m }, 0) ∧
      (∀ c, s.InMap c → ChainFS.link { s with disk := d } c =
        Function.update s.link b v c) ∧
      ∀ sector, ¬ s.MapSector sector → d sector = s.disk sector := by
  unfold chainfsWriteBlockMapEntry
  rw [if_neg (Nat.not_le.mpr hb)]
  refine ⟨_, _, rfl, ?_, ?_⟩
  · intro c hc
    have hcount := blockMapBlockCount_lt s
    unfold ChainFS.InMap at hb hc
    by_cases hcb : c = b
    · subst hcb
      rw [Function.update_self]
      exact (congrArg (fun m : Memory => m.load _ 4)
        (Function.update_self _ _ _)).trans
        ((Memory.load_store_same _ _ _ _).trans (Nat.mod_eq_of_lt hv))
    · rw [Function.update_of_ne hcb]
      by_cases hsector : mapSector s (c / mapEntriesPerBlock) =
          mapSector s (b / mapEntriesPerBlock)
      · have hdiv := mapSector_inj (hc.trans hcount) (hb.trans hcount) hsector
        have hoff : c % mapEntriesPerBlock ≠ b % mapEntriesPerBlock := by
          unfold mapEntriesPerBlock at *
          omega
        have hnew : Function.update s.disk
            (mapSector s (b / mapEntriesPerBlock))
            ((s.disk (mapSector s (b / mapEntriesPerBlock))).store
              (4 * (b % mapEntriesPerBlock)) 4 v)
            (mapSector s (c / mapEntriesPerBlock)) =
            (s.disk (mapSector s (b / mapEntriesPerBlock))).store
              (4 * (b % mapEntriesPerBlock)) 4 v := by
          rw [hsector]
          exact Function.update_self _ _ _
        refine (congrArg (fun m : Memory =>
          m.load (4 * (c % mapEntriesPerBlock)) 4) hnew).trans ?_
        rw [Memory.load_store_disjoint _ _ (by omega), ← hsector]
        rfl
      · exact congrArg (fun m : Memory => m.load _ 4)
          (Function.update_of_ne hsector _ _)
  · intro sector hsector
    apply Function.update_of_ne
    rintro rfl
    exact hsector ⟨_, hb, rfl⟩

/-! ## Releasing a chain -/

/-- The loop of `chainfs_free_block_chain` frees the blocks of a walk along
the links and changes nothing else. -/
theorem freeChainWalk_eq (s : ChainFS) (fuel b : ℕ) :
    ∃ d m, freeChainWalk s fuel b =
        (releaseWalk chainfsEofMarker s.inMap s.link fuel b).map
          (fun _ => { s with
            disk := d
            sectorBuffer := m }) ∧
      (∀ sector, ¬ s.MapSector sector → d sector = s.disk sector) ∧
      ∀ bs, releaseWalk chainfsEofMarker s.inMap s.link fuel b = some bs →
        ∀ c, s.InMap c → ChainFS.link { s with disk := d } c =
          unlinkAll s.link bs c := by
  induction fuel generalizing s b with
  | zero =>
      refine ⟨s.disk, s.sectorBuffer, rfl, fun _ _ => rfl, ?_⟩
      intro bs hbs
      cases hbs
  | succ fuel ih =>
      have hempty : ∀ bs, some [] = some bs → ∀ c, s.InMap c →
          s.link c = unlinkAll s.link bs c := by
        intro bs hbs c _
        cases hbs
        exact (unlinkAll_not_mem (by simp)).symm
      by_cases heof : b = chainfsEofMarker
      · rw [releaseWalk_end (Or.inl heof), freeChainWalk, if_pos heof]
        exact ⟨s.disk, s.sectorBuffer, rfl, fun _ _ => rfl, hempty⟩
      · by_cases hb : s.InMap b
        · obtain ⟨m₁, hread⟩ := readBlockMapEntry_some s hb
          obtain ⟨d₁, m₂, hwrite, hlink, hframe⟩ := writeBlockMapEntry_some
            { s with sectorBuffer := m₁ } (v := chainfsFreeBlock) hb
            (by decide)
          obtain ⟨d, m, hwalk, hout, hmap⟩ := ih
            { s with
              disk := d₁
              sectorBuffer := m₂ } (s.link b)
          have hvisit : ¬ (b = chainfsEofMarker ∨ s.inMap b = false) := by
            rw [← Bool.not_eq_true, ChainFS.inMap_iff]
            simp [heof, hb]
          have hsame : releaseWalk chainfsEofMarker s.inMap
              (ChainFS.link { s with
                disk := d₁
                sectorBuffer := m₂ }) fuel (s.link b) =
              releaseWalk chainfsEofMarker s.inMap
                (Function.update s.link b 0) fuel (s.link b) := by
            apply releaseWalk_congr
            intro c hc
            exact hlink c (ChainFS.inMap_iff.mp hc)
          rw [releaseWalk_visit hvisit, ← hsame]
          refine ⟨d, m, ?_, fun sector hsector =>
            (hout sector hsector).trans (hframe sector hsector), ?_⟩
          · rw [freeChainWalk, if_neg heof, hread]
            simp only [hwrite]
            rw [Option.map_map]
            exact hwalk
          · intro bs hbs c hc
            obtain ⟨cs, hcs, rfl⟩ := Option.map_eq_some_iff.mp hbs
            refine (hmap cs hcs c hc).trans ?_
            rw [← unlinkAll_update]
            simp only [unlinkAll]
            exact if_congr Iff.rfl rfl (hlink c hc)
        · rw [releaseWalk_end
            (Or.inr (by rwa [← Bool.not_eq_true, ChainFS.inMap_iff]))]
          refine ⟨s.disk, s.sectorBuffer, ?_, fun _ _ => rfl, hempty⟩
          rw [freeChainWalk, if_neg heof, readBlockMapEntry_none s hb]
          rfl

theorem ChainFS.InMap.lt (hb : s.InMap b) :
    b < mapEntriesPerBlock * s.blockMapBlockCount := by
  unfold ChainFS.InMap mapEntriesPerBlock at *
  omega

/-- A chain that leads to the end marker is released: its links are zero
afterwards, and nothing else on the disk has changed. -/
theorem freeBlockChain_links (s : ChainFS)
    (hlinks : Links s.link chainfsEofMarker bs) (hnodup : bs.Nodup)
    (hin : ∀ b ∈ bs, s.InMap b) (heof : chainfsEofMarker ∉ bs) :
    ∃ d m, chainfsFreeBlockChain s (bs.headD chainfsEofMarker) =
        some { s with
          disk := d
          sectorBuffer := m } ∧
      (∀ sector, ¬ s.MapSector sector → d sector = s.disk sector) ∧
      ∀ c, s.InMap c → ChainFS.link { s with disk := d } c =
        unlinkAll s.link bs c := by
  have hlength := length_le_of_lt hnodup fun b hb => (hin b hb).lt
  have hfuel : bs.length < chainFuel s := by
    unfold chainFuel
    omega
  have hvisits := releaseWalk_links hlinks hnodup
    (fun b hb => ChainFS.inMap_iff.mpr (hin b hb)) heof hfuel
  obtain ⟨d, m, hwalk, hframe, hlink⟩ :=
    freeChainWalk_eq s (chainFuel s) (bs.headD chainfsEofMarker)
  rw [hvisits] at hwalk
  exact ⟨d, m, hwalk, hframe, hlink bs hvisits⟩

/-! ## Finding free blocks -/

/-- A block the allocator may take. -/
def ChainFS.freeInMap (s : ChainFS) (b : ℕ) : Bool :=
  decide (s.InMap b ∧ s.link b = chainfsFreeBlock)

theorem ChainFS.freeInMap_iff :
    s.freeInMap b = true ↔ s.InMap b ∧ s.link b = chainfsFreeBlock :=
  decide_eq_true_iff

/-- The loop collects free blocks in increasing order until it has `count`. -/
theorem findFreeBlocksFrom_eq (s : ChainFS) (left i : ℕ)
    (hlen : bs.length ≤ count) :
    ∃ m, findFreeBlocksFrom count s left i bs =
      ({ s with sectorBuffer := m },
        bs ++ ((List.range' i left).filter s.freeInMap).take
          (count - bs.length)) := by
  induction left generalizing s i bs with
  | zero => exact ⟨s.sectorBuffer, by simp [findFreeBlocksFrom]⟩
  | succ left ih =>
      rw [findFreeBlocksFrom, List.range'_succ]
      by_cases hroom : bs.length < count
      · rw [if_pos hroom]
        by_cases hi : s.InMap i
        · obtain ⟨m₁, hread⟩ := readBlockMapEntry_some s hi
          rw [hread]
          by_cases hfree : s.link i = chainfsFreeBlock
          · obtain ⟨m, hrest⟩ := ih { s with sectorBuffer := m₁ } (i + 1)
              (show (bs ++ [i]).length ≤ count by simp; omega)
            refine ⟨m, ?_⟩
            have hpass : s.freeInMap i = true :=
              ChainFS.freeInMap_iff.mpr ⟨hi, hfree⟩
            have hcount : count - bs.length =
                count - (bs ++ [i]).length + 1 := by
              simp only [List.length_append, List.length_singleton]
              omega
            simp only [if_pos hfree]
            rw [hrest, List.filter_cons_of_pos hpass, hcount,
              List.take_succ_cons, List.append_assoc, List.singleton_append]
            rfl
          · obtain ⟨m, hrest⟩ := ih { s with sectorBuffer := m₁ } (i + 1) hlen
            refine ⟨m, ?_⟩
            simp only [if_neg hfree]
            rw [hrest, List.filter_cons_of_neg]
            · rfl
            · intro hpass
              exact hfree (ChainFS.freeInMap_iff.mp hpass).2
        · rw [readBlockMapEntry_none s hi]
          obtain ⟨m, hrest⟩ := ih s (i + 1) hlen
          refine ⟨m, ?_⟩
          simp only [hrest]
          rw [List.filter_cons_of_neg]
          intro hpass
          exact hi (ChainFS.freeInMap_iff.mp hpass).1
      · rw [if_neg hroom]
        refine ⟨s.sectorBuffer, ?_⟩
        rw [show count - bs.length = 0 by omega, List.take_zero,
          List.append_nil]

/-- The free blocks in increasing order. -/
def ChainFS.freeBlocks (s : ChainFS) : List ℕ :=
  (List.range (totalDataBlocks s)).filter s.freeInMap

theorem findFreeBlocks_eq (s : ChainFS) (count : ℕ) :
    ∃ m, chainfsFindFreeBlocks s count =
      ({ s with sectorBuffer := m },
        if count ≤ s.freeBlocks.length then 0 else -1,
        s.freeBlocks.take count) := by
  obtain ⟨m, hfind⟩ := findFreeBlocksFrom_eq s (totalDataBlocks s) 0
    (show ([] : List ℕ).length ≤ count from Nat.zero_le count)
  refine ⟨m, ?_⟩
  rw [← List.range_eq_range', List.nil_append, List.length_nil,
    Nat.sub_zero] at hfind
  unfold chainfsFindFreeBlocks
  rw [hfind]
  simp only [ChainFS.freeBlocks, List.length_take]
  congr 2
  exact if_congr (by omega) rfl rfl

end Otsos
