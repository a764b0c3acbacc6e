import Otsos.ChainFS.MapEntries

/-!
# The block map as a function

The map sectors hold one link for each block.  Reading and writing an entry
are lookup and update of that function; releasing a chain unlinks its blocks,
and the allocator finds the lowest free blocks in increasing order.
-/

namespace Otsos

open Lib

variable {g : Geometry} {s : ChainFS} {d d' : ℕ → Memory}
  {b v count : ℕ} {bs : List ℕ}

/-- The link of a block. -/
def mapLink (g : Geometry) (d : ℕ → Memory) (b : ℕ) : ℕ :=
  (d (1 + g.table + b / 128)).load (4 * (b % 128)) 4

theorem mapLink_congr
    (h : d' (1 + g.table + b / 128) = d (1 + g.table + b / 128)) :
    mapLink g d' b = mapLink g d b := by
  simp only [mapLink, h]

/-- The two disks agree outside the map sectors. -/
def SameOutsideMap (g : Geometry) (d d' : ℕ → Memory) : Prop :=
  ∀ sector, sector < 1 + g.table ∨ g.dataStart ≤ sector →
    d' sector = d sector

theorem SameOutsideMap.refl (g : Geometry) (d : ℕ → Memory) :
    SameOutsideMap g d d := fun _ _ => rfl

/-- The disk after writing the link of a block. -/
def setLink (g : Geometry) (d : ℕ → Memory) (b v : ℕ) : ℕ → Memory :=
  Function.update d (1 + g.table + b / 128)
    ((d (1 + g.table + b / 128)).store (4 * (b % 128)) 4 v)

theorem setLink_outside (hb : g.Mapped b) :
    SameOutsideMap g d (setLink g d b v) := by
  intro sector hsector
  apply Function.update_of_ne
  simp only [Geometry.Mapped, Geometry.dataStart] at hb hsector
  omega

theorem mapLink_setLink (hv : v < 2 ^ 32) :
    mapLink g (setLink g d b v) = Function.update (mapLink g d) b v := by
  funext c
  by_cases hc : c = b
  · subst hc
    rw [Function.update_self]
    simp only [mapLink, setLink, Function.update_self,
      Memory.load_store_same]
    exact Nat.mod_eq_of_lt hv
  · rw [Function.update_of_ne hc]
    by_cases hsector : 1 + g.table + c / 128 = 1 + g.table + b / 128
    · simp only [mapLink, setLink, hsector, Function.update_self]
      exact Memory.load_store_disjoint _ _ (by omega)
    · simp only [mapLink, setLink, Function.update_of_ne hsector]

theorem Mounted.inMap_iff (h : Mounted g s) : s.InMap b ↔ g.Mapped b := by
  simp only [ChainFS.InMap, Geometry.Mapped, h.map, mapEntriesPerBlock]

theorem Mounted.link_eq (h : Mounted g s) (hb : g.Mapped b) :
    s.link b = mapLink g s.disk b := by
  simp only [ChainFS.link, mapLink, mapEntriesPerBlock, h.mapSector_eq hb]

theorem Mounted.readBlockMapEntry_eq (h : Mounted g s)
    (hb : g.Mapped b) :
    ∃ m, chainfsReadBlockMapEntry s b =
      ({ s with sectorBuffer := m }, some (mapLink g s.disk b)) := by
  rw [← h.link_eq hb]
  exact readBlockMapEntry_some s (h.inMap_iff.mpr hb)

theorem Mounted.readBlockMapEntry_none (h : Mounted g s)
    (hb : ¬ g.Mapped b) : chainfsReadBlockMapEntry s b = (s, none) :=
  Otsos.readBlockMapEntry_none s (mt h.inMap_iff.mp hb)

theorem Mounted.writeBlockMapEntry_eq (h : Mounted g s)
    (hb : g.Mapped b) :
    ∃ m, chainfsWriteBlockMapEntry s b v =
      ({ s with
        disk := setLink g s.disk b v
        sectorBuffer := m }, 0) := by
  unfold chainfsWriteBlockMapEntry mapEntriesPerBlock
  rw [h.map, if_neg (Nat.not_le.mpr hb), h.mapSector_eq hb]
  exact ⟨_, rfl⟩

/-! ## Releasing a chain -/

instance (g : Geometry) (b : ℕ) : Decidable (g.Mapped b) :=
  inferInstanceAs (Decidable (b / 128 < g.map))

/-- `Mapped`, decided. -/
def Geometry.mapped (g : Geometry) (b : ℕ) : Bool := decide (g.Mapped b)

theorem Geometry.mapped_iff : g.mapped b = true ↔ g.Mapped b :=
  decide_eq_true_iff (p := g.Mapped b)

theorem Mounted.inMap_eq (h : Mounted g s) : s.inMap = g.mapped := by
  funext b
  exact decide_eq_decide.mpr h.inMap_iff

theorem Mounted.not_mapSector (h : Mounted g s) {sector : ℕ}
    (hsector : sector < 1 + g.table ∨ g.dataStart ≤ sector) :
    ¬ s.MapSector sector := by
  rintro ⟨k, hk, rfl⟩
  rw [h.map] at hk
  rw [h.mapSector_eq hk] at hsector
  simp only [Geometry.dataStart] at hsector
  omega

theorem Mounted.freeChainWalk_eq (h : Mounted g s) (fuel b : ℕ) :
    ∃ d m, freeChainWalk s fuel b =
        (releaseWalk chainfsEofMarker g.mapped (mapLink g s.disk) fuel
          b).map (fun _ => { s with
            disk := d
            sectorBuffer := m }) ∧
      SameOutsideMap g s.disk d ∧
      ∀ bs, releaseWalk chainfsEofMarker g.mapped (mapLink g s.disk) fuel
        b = some bs → mapLink g d = unlinkAll (mapLink g s.disk) bs := by
  obtain ⟨d, m, hwalk, hout, hmap⟩ := Otsos.freeChainWalk_eq s fuel b
  have hsame : releaseWalk chainfsEofMarker s.inMap s.link fuel b =
      releaseWalk chainfsEofMarker g.mapped (mapLink g s.disk) fuel b := by
    rw [h.inMap_eq]
    apply releaseWalk_congr
    intro c hc
    exact h.link_eq (Geometry.mapped_iff.mp hc)
  have hframe : SameOutsideMap g s.disk d :=
    fun sector hsector => hout sector (h.not_mapSector hsector)
  refine ⟨d, m, hsame ▸ hwalk, hframe, ?_⟩
  intro bs hbs
  funext c
  by_cases hc : g.Mapped c
  · have hd : Mounted g { s with disk := d } := h.of_same rfl rfl
    have hlink := hmap bs (hsame.trans hbs) c (h.inMap_iff.mpr hc)
    rw [hd.link_eq hc] at hlink
    rw [hlink]
    simp only [unlinkAll, h.link_eq hc]
  · have hnot : c ∉ bs := fun hmem =>
      hc (Geometry.mapped_iff.mp (releaseWalk_inside hbs c hmem))
    rw [unlinkAll_not_mem hnot]
    apply mapLink_congr
    apply hframe
    simp only [Geometry.Mapped, Geometry.dataStart] at hc ⊢
    omega

/-- The blocks that releasing the chain of `start` frees; `none` if that never
ends. -/
def released (g : Geometry) (d : ℕ → Memory) (start : ℕ) :
    Option (List ℕ) :=
  releaseWalk chainfsEofMarker g.mapped (mapLink g d) (128 * g.map + 3)
    start

theorem Mounted.chainFuel_eq (h : Mounted g s) :
    chainFuel s = 128 * g.map + 3 := by
  simp only [chainFuel, h.map, mapEntriesPerBlock]

theorem Mounted.freeBlockChain_eq (h : Mounted g s) (start : ℕ) :
    ∃ d m, chainfsFreeBlockChain s start =
        (released g s.disk start).map (fun _ => { s with
          disk := d
          sectorBuffer := m }) ∧
      SameOutsideMap g s.disk d ∧
      ∀ bs, released g s.disk start = some bs →
        mapLink g d = unlinkAll (mapLink g s.disk) bs := by
  unfold chainfsFreeBlockChain released
  rw [h.chainFuel_eq]
  exact h.freeChainWalk_eq _ _

/-- `chainfs_free_block_chain` is undefined only where its loop never ends. -/
theorem Mounted.freeBlockChain_none (h : Mounted g s) {start : ℕ}
    (hnone : chainfsFreeBlockChain s start = none) (fuel : ℕ) :
    freeChainWalk s fuel start = none := by
  obtain ⟨d, m, hfree, -, -⟩ := h.freeBlockChain_eq start
  rw [hfree, Option.map_eq_none_iff] at hnone
  obtain ⟨d', m', hwalk, -, -⟩ := h.freeChainWalk_eq fuel start
  have hlimit : ∀ c, g.mapped c = true → c < 128 * g.map := by
    intro c hc
    have hmapped := Geometry.mapped_iff.mp hc
    simp only [Geometry.Mapped] at hmapped
    omega
  rw [hwalk, releaseWalk_none hlimit (Nat.le_refl _) hnone fuel]
  rfl

theorem length_le_of_mapped (hnodup : bs.Nodup)
    (hmapped : ∀ b ∈ bs, g.Mapped b) : bs.length ≤ 128 * g.map := by
  refine length_le_of_lt hnodup fun b hb => ?_
  have hlt := hmapped b hb
  simp only [Geometry.Mapped] at hlt
  omega

theorem released_chain
    (hlinks : Links (mapLink g d) chainfsEofMarker bs) (hnodup : bs.Nodup)
    (hmapped : ∀ b ∈ bs, g.Mapped b) (heof : chainfsEofMarker ∉ bs) :
    released g d (bs.headD chainfsEofMarker) = some bs := by
  have hlen := length_le_of_mapped hnodup hmapped
  exact releaseWalk_links hlinks hnodup
    (fun b hb => Geometry.mapped_iff.mpr (hmapped b hb)) heof (by omega)

/-! ## Finding free blocks -/

/-- A block the allocator may take. -/
def freeMapped (g : Geometry) (d : ℕ → Memory) (b : ℕ) : Bool :=
  decide (b / 128 < g.map ∧ mapLink g d b = 0)

theorem freeMapped_iff :
    freeMapped g d b = true ↔ g.Mapped b ∧ mapLink g d b = 0 := by
  simp [freeMapped, Geometry.Mapped]

/-- The free blocks in increasing order. -/
def freeBlocks (g : Geometry) (d : ℕ → Memory) : List ℕ :=
  (List.range g.dataBlocks).filter (freeMapped g d)

theorem Mounted.freeBlocks_eq (h : Mounted g s) :
    s.freeBlocks = freeBlocks g s.disk := by
  simp only [ChainFS.freeBlocks, freeBlocks, totalDataBlocks, h.blockCount,
    h.start, Geometry.dataBlocks]
  apply List.filter_congr
  intro b _
  apply decide_eq_decide.mpr
  rw [h.inMap_iff]
  exact and_congr_right fun hb => by rw [h.link_eq hb]; rfl

theorem Mounted.findFreeBlocks_eq (h : Mounted g s) (count : ℕ) :
    ∃ m, chainfsFindFreeBlocks s count =
      ({ s with sectorBuffer := m },
        if count ≤ (freeBlocks g s.disk).length then 0 else -1,
        (freeBlocks g s.disk).take count) := by
  rw [← h.freeBlocks_eq]
  exact Otsos.findFreeBlocks_eq s count

theorem freeBlocks_sorted (g : Geometry) (d : ℕ → Memory) (n : ℕ) :
    ((freeBlocks g d).take n).Pairwise (· < ·) :=
  (List.pairwise_lt_range.filter _).sublist (List.take_sublist n _)

theorem freeBlocks_spec {n : ℕ} (hb : b ∈ (freeBlocks g d).take n) :
    b < g.dataBlocks ∧ g.Mapped b ∧ mapLink g d b = 0 := by
  have hmem := List.mem_filter.mp (List.mem_of_mem_take hb)
  exact ⟨List.mem_range.mp hmem.1, freeMapped_iff.mp hmem.2⟩

end Otsos
