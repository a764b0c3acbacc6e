import Mathlib.Data.List.Find
import Otsos.ChainFS.Operations

/-!
# The regions of a formatted disk

A geometry fixes where the file table, the block map and the data area lie.
The table is then an array of entries, numbered across its sectors, and the
map an array of links.  The searches of the code are first matches in the
array of entries, whatever the sector buffer held before.
-/

namespace Otsos

open Lib

/-- The sizes a superblock records. -/
structure Geometry where
  total : ℕ
  table : ℕ
  map : ℕ
  addressable : 8 * table ≤ 2 ^ 32
  small : 1 + table + map < 2 ^ 32

namespace Geometry

def dataStart (g : Geometry) : ℕ := 1 + g.table + g.map

/-- `total_data_blocks`. -/
def dataBlocks (g : Geometry) : ℕ := sub32 g.total g.dataStart

/-- The blocks that have a map entry. -/
def Mapped (g : Geometry) (b : ℕ) : Prop := b / 128 < g.map

/-- No sector number of a data block wraps. -/
def NoWrap (g : Geometry) : Prop :=
  ∀ b < g.dataBlocks, g.Mapped b → g.dataStart + b < 2 ^ 32

/-- The number of table slots. -/
def slots (g : Geometry) : ℕ := 8 * g.table

end Geometry

/-- The in-memory superblock describes the geometry. -/
structure Mounted (g : Geometry) (s : ChainFS) : Prop where
  magic : s.magic = chainfsMagic
  blockCount : s.blockCount = g.total
  table : s.fileTableBlockCount = g.table
  map : s.blockMapBlockCount = g.map
  root : s.rootDirBlock = 0
  start : s.dataAreaStart = g.dataStart

variable {g : Geometry} {s : ChainFS} {d d' : ℕ → Memory}

theorem Mounted.of_same {s' : ChainFS} (h : Mounted g s)
    (hsuper : s'.superblock = s.superblock)
    (hstart : s'.dataAreaStart = s.dataAreaStart) : Mounted g s' := by
  obtain ⟨hmagic, hcount, htable, hmap, hroot, hdata⟩ := h
  constructor
  · simpa only [ChainFS.magic, hsuper] using hmagic
  · simpa only [ChainFS.blockCount, hsuper] using hcount
  · simpa only [ChainFS.fileTableBlockCount, hsuper] using htable
  · simpa only [ChainFS.blockMapBlockCount, hsuper] using hmap
  · simpa only [ChainFS.rootDirBlock, hsuper] using hroot
  · rw [hstart, hdata]

theorem Mounted.tableBlocks_eq (h : Mounted g s) :
    tableBlocks s = g.table := by
  have hsmall := g.small
  simp only [tableBlocks, h.table]
  rw [wrap32_of_lt (by omega)]
  omega

theorem Mounted.mapSector_eq (h : Mounted g s) {k : ℕ} (hk : k < g.map) :
    mapSector s k = 1 + g.table + k := by
  have hsmall := g.small
  simp only [mapSector, h.table]
  exact wrap32_of_lt (by omega)

/-! ## Slots -/

theorem entryAt_size_lt (m : Memory) (i : ℕ) : (entryAt m i).size < 2 ^ 32 :=
  m.load_lt _ 4

/-- The sector and the offset of a slot. -/
def slotOf (idx : ℕ) : ℕ × ℕ := (1 + idx / 8, idx % 8)

/-- The entry in a slot. -/
def entryOf (d : ℕ → Memory) (idx : ℕ) : FileEntry :=
  entryAt (d (1 + idx / 8)) (idx % 8)

/-- A test of the code on a slot. -/
def testSlot (test : Memory → ℕ → Bool) (d : ℕ → Memory) (idx : ℕ) : Bool :=
  test (d (1 + idx / 8)) (idx % 8)

/-- The first of the table's slots that passes the test. -/
def firstSlot (g : Geometry) (test : Memory → ℕ → Bool) (d : ℕ → Memory) :
    Option ℕ :=
  (List.range g.slots).find? (testSlot test d)

theorem slotOf_add {block i : ℕ} (hblock : 0 < block) (hi : i < 8) :
    slotOf (8 * (block - 1) + i) = (block, i) := by
  simp only [slotOf, Prod.mk.injEq]
  omega

theorem testSlot_add {test : Memory → ℕ → Bool} {block i : ℕ}
    (hblock : 0 < block) (hi : i < 8) :
    testSlot test d (8 * (block - 1) + i) = test (d block) i := by
  have hslot := slotOf_add hblock hi
  simp only [slotOf, Prod.mk.injEq] at hslot
  simp only [testSlot, hslot]

theorem find_sector {test : Memory → ℕ → Bool} {block : ℕ}
    (hblock : 0 < block) :
    (List.range' (8 * (block - 1)) 8).find? (testSlot test d) =
      ((List.range entriesPerBlock).find? (test (d block))).map
        fun i => 8 * (block - 1) + i := by
  have hrange : List.range' (8 * (block - 1)) 8 =
      (List.range entriesPerBlock).map fun i => 8 * (block - 1) + i := by
    rw [List.range'_eq_map_range]
    rfl
  rw [hrange, List.find?_map]
  congr 1
  apply List.find?_congr
  intro i hi
  exact testSlot_add hblock (List.mem_range.mp hi)

/-- The slots from a sector on, that sector first. -/
theorem range'_sector (block n : ℕ) :
    List.range' (8 * (block - 1)) (8 * (n + 1)) =
      List.range' (8 * (block - 1)) 8 ++
        List.range' (8 * (block - 1) + 8) (8 * n) := by
  rw [show 8 * (n + 1) = 8 + 8 * n by omega, List.range'_append_1]

theorem scanTable_eq (test : Memory → ℕ → Bool) (s : ChainFS)
    {block n : ℕ} (hblock : 0 < block) :
    ∃ m, scanTable test s block n =
        ({ s with sectorBuffer := m },
          ((List.range' (8 * (block - 1)) (8 * n)).find?
            (testSlot test s.disk)).map slotOf) ∧
      ∀ idx, (List.range' (8 * (block - 1)) (8 * n)).find?
        (testSlot test s.disk) = some idx → m = s.disk (1 + idx / 8) := by
  induction n generalizing s block with
  | zero => exact ⟨s.sectorBuffer, rfl, by simp⟩
  | succ n ih =>
      rw [scanTable, range'_sector, List.find?_append, find_sector hblock,
        show 8 * (block - 1) + 8 = 8 * (block + 1 - 1) by omega]
      simp only [pataReadSector]
      cases hfind : (List.range entriesPerBlock).find?
          (test (s.disk block)) with
      | some i =>
          have hi : i < 8 :=
            List.mem_range.mp (List.mem_of_find?_eq_some hfind)
          refine ⟨s.disk block, ?_, ?_⟩
          · simp only [Option.map_some, Option.some_or,
              slotOf_add hblock hi]
          · intro idx hidx
            simp only [Option.map_some, Option.some_or,
              Option.some.injEq] at hidx
            have hslot := slotOf_add hblock hi
            simp only [slotOf, Prod.mk.injEq] at hslot
            rw [← hidx, hslot.1]
      | none =>
          simp only [Option.map_none, Option.none_or]
          exact ih { s with sectorBuffer := s.disk block } (by omega)

/-- The number of slots that the searches go through. -/
def ChainFS.slots (s : ChainFS) : ℕ := 8 * tableBlocks s

/-- The first of these slots that passes the test. -/
def ChainFS.firstSlot (s : ChainFS) (test : Memory → ℕ → Bool) : Option ℕ :=
  (List.range s.slots).find? (testSlot test s.disk)

theorem scanTable_first (s : ChainFS) (test : Memory → ℕ → Bool) :
    ∃ m, scanTable test s 1 (tableBlocks s) =
        ({ s with sectorBuffer := m }, (s.firstSlot test).map slotOf) ∧
      ∀ idx, s.firstSlot test = some idx → m = s.disk (1 + idx / 8) := by
  have hscan := scanTable_eq test s (n := tableBlocks s) Nat.one_pos
  simpa only [ChainFS.firstSlot, ChainFS.slots, List.range_eq_range']
    using hscan

theorem Mounted.slots_eq (h : Mounted g s) : s.slots = g.slots := by
  rw [ChainFS.slots, h.tableBlocks_eq, Geometry.slots]

theorem Mounted.firstSlot_eq (h : Mounted g s) (test : Memory → ℕ → Bool) :
    s.firstSlot test = Otsos.firstSlot g test s.disk := by
  rw [ChainFS.firstSlot, h.slots_eq, Otsos.firstSlot]

theorem firstSlot_some {test : Memory → ℕ → Bool} {idx : ℕ}
    (h : firstSlot g test d = some idx) :
    idx < g.slots ∧ testSlot test d idx = true ∧
      ∀ j < idx, testSlot test d j = false := by
  have hmem := List.mem_range.mp (List.mem_of_find?_eq_some h)
  refine ⟨hmem, List.find?_some h, ?_⟩
  intro j hj
  have hbefore := (List.find?_range_eq_some.mp h).2.2 j hj
  simpa using hbefore

theorem firstSlot_none {test : Memory → ℕ → Bool} :
    firstSlot g test d = none ↔
      ∀ idx < g.slots, testSlot test d idx = false := by
  simp [firstSlot, List.find?_eq_none]

theorem firstSlot_eq_some {test : Memory → ℕ → Bool} {idx : ℕ}
    (hidx : idx < g.slots) (htest : testSlot test d idx = true)
    (hbefore : ∀ j < idx, testSlot test d j = false) :
    firstSlot g test d = some idx := by
  refine List.find?_range_eq_some.mpr ⟨htest, List.mem_range.mpr hidx, ?_⟩
  intro j hj
  simpa using hbefore j hj

theorem firstSlot_congr {test : Memory → ℕ → Bool}
    (h : ∀ idx < g.slots, testSlot test d' idx = testSlot test d idx) :
    firstSlot g test d' = firstSlot g test d := by
  apply List.find?_congr
  intro idx hidx
  exact h idx (List.mem_range.mp hidx)

/-! ## Lookups -/

/-- What a search of a directory returns, read off the disk. -/
def foundAt (d : ℕ → Memory) (idx : ℕ) : Found :=
  ⟨entryOf d idx, 1 + idx / 8, idx % 8⟩

/-- The slot of a name in a directory. -/
def lookup (g : Geometry) (d : ℕ → Memory) (dir : ℕ)
    (name : List UInt8) : Option ℕ :=
  firstSlot g (slotMatches dir name) d

/-- The first free slot. -/
def freeSlot (g : Geometry) (d : ℕ → Memory) : Option ℕ :=
  firstSlot g slotFree d

theorem findInDirectory_eq (s : ChainFS) (dir : ℕ) (name : List UInt8) :
    ∃ m, chainfsFindInDirectory s dir name =
      ({ s with sectorBuffer := m },
        (s.firstSlot (slotMatches dir name)).map (foundAt s.disk)) := by
  obtain ⟨m, hscan, hbuffer⟩ := scanTable_first s (slotMatches dir name)
  refine ⟨m, ?_⟩
  unfold chainfsFindInDirectory
  rw [hscan]
  cases hfirst : s.firstSlot (slotMatches dir name) with
  | none => rfl
  | some idx =>
      have hm := hbuffer idx hfirst
      subst hm
      rfl

theorem findFreeFileEntry_eq (hmagic : s.magic = chainfsMagic) :
    ∃ m, chainfsFindFreeFileEntry s =
      ({ s with sectorBuffer := m },
        match s.firstSlot slotFree with
        | some idx => .ok (slotOf idx)
        | none => .error (-1)) := by
  obtain ⟨m, hscan, -⟩ := scanTable_first s slotFree
  refine ⟨m, ?_⟩
  unfold chainfsFindFreeFileEntry
  rw [if_neg (not_not.mpr hmagic), hscan]
  cases s.firstSlot slotFree <;> rfl

theorem Mounted.findInDirectory_eq (h : Mounted g s) (dir : ℕ)
    (name : List UInt8) :
    ∃ m, chainfsFindInDirectory s dir name =
      ({ s with sectorBuffer := m },
        (lookup g s.disk dir name).map (foundAt s.disk)) := by
  rw [lookup, ← h.firstSlot_eq]
  exact Otsos.findInDirectory_eq s dir name

theorem Mounted.findFreeFileEntry_eq (h : Mounted g s) :
    ∃ m, chainfsFindFreeFileEntry s =
      ({ s with sectorBuffer := m },
        match freeSlot g s.disk with
        | some idx => .ok (slotOf idx)
        | none => .error (-1)) := by
  rw [freeSlot, ← h.firstSlot_eq]
  exact Otsos.findFreeFileEntry_eq h.magic

theorem entryIndex_lt (block offset : ℕ) :
    entryIndex block offset < 2 ^ 32 :=
  Nat.mod_lt _ (by omega)

theorem entryIndex_slotOf {idx : ℕ} (hidx : idx < 2 ^ 32) :
    entryIndex (1 + idx / 8) (idx % 8) = idx := by
  unfold entryIndex entriesPerBlock
  rw [sub32_of_le (by omega) (by omega), wrap32_of_lt (by omega)]
  omega

/-- The slot that a list of components leads to, read off the disk. -/
def walkTable (g : Geometry) (d : ℕ → Memory) (dir : ℕ) :
    List (List UInt8) → Option ℕ
  | [] => none
  | c :: cs =>
      match lookup g d dir c with
      | none => none
      | some idx =>
          if cs = [] then some idx
          else if (entryOf d idx).type ≠ chainfsTypeDir then none
          else walkTable g d idx cs

/-- The first component of a path, and what is left of the path. -/
theorem walkTable_cons_some {dir idx : ℕ} {c : List UInt8}
    {cs : List (List UInt8)} (h : walkTable g d dir (c :: cs) = some idx) :
    ∃ j, lookup g d dir c = some j ∧
      (idx = j ∨
        (entryOf d j).type = chainfsTypeDir ∧ walkTable g d j cs = some idx) := by
  rw [walkTable] at h
  cases hlookup : lookup g d dir c with
  | none =>
      rw [hlookup] at h
      cases h
  | some j =>
      simp only [hlookup] at h
      refine ⟨j, rfl, ?_⟩
      by_cases hlast : cs = []
      · rw [if_pos hlast, Option.some.injEq] at h
        exact Or.inl h.symm
      · rw [if_neg hlast] at h
        by_cases htype : (entryOf d j).type ≠ chainfsTypeDir
        · rw [if_pos htype] at h
          cases h
        · rw [if_neg htype] at h
          exact Or.inr ⟨not_not.mp htype, h⟩

theorem Mounted.resolveComponents_eq (h : Mounted g s) (dir : ℕ)
    (cs : List (List UInt8)) :
    ∃ m, resolveComponents s dir cs =
      ({ s with sectorBuffer := m },
        (walkTable g s.disk dir cs).map (foundAt s.disk)) := by
  induction cs generalizing s dir with
  | nil => exact ⟨s.sectorBuffer, rfl⟩
  | cons c cs ih =>
      obtain ⟨m, hfind⟩ := h.findInDirectory_eq dir c
      rw [resolveComponents, hfind, walkTable]
      cases hlookup : lookup g s.disk dir c with
      | none => exact ⟨m, rfl⟩
      | some idx =>
          have hidx := (firstSlot_some hlookup).1
          have haddr := g.addressable
          simp only [Geometry.slots] at hidx
          simp only [Option.map_some, foundAt]
          by_cases hlast : cs = []
          · exact ⟨m, by simp [hlast, foundAt]⟩
          · by_cases htype : (entryOf s.disk idx).type ≠ chainfsTypeDir
            · exact ⟨m, by simp [hlast, htype]⟩
            · simp only [hlast, htype, if_false]
              rw [entryIndex_slotOf (by omega)]
              exact ih (s := { s with sectorBuffer := m })
                (h.of_same rfl rfl) idx

/-- What a path resolves to: a slot of the table, or the first entry of the
root block for a path without components. -/
inductive Target where
  | slot (idx : ℕ)
  | rootBlock
deriving DecidableEq

def Target.found (d : ℕ → Memory) : Target → Found
  | .slot idx => foundAt d idx
  | .rootBlock => ⟨entryAt (d 0) 0, 0, 0⟩

def resolveTable (g : Geometry) (d : ℕ → Memory) (cur : ℕ)
    (path : List UInt8) : Option Target :=
  if splitPath path = [] ∧ path.head? = some slash then some .rootBlock
  else
    (walkTable g d (if path.head? = some slash then 0 else cur)
      (splitPath path)).map .slot

theorem Mounted.resolvePath_eq (h : Mounted g s) (path : List UInt8) :
    ∃ m, chainfsResolvePath s path =
      ({ s with sectorBuffer := m },
        (resolveTable g s.disk s.currentDirBlock path).map
          (Target.found s.disk)) := by
  unfold chainfsResolvePath resolveTable
  simp only [h.root]
  by_cases hroot : splitPath path = [] ∧ path.head? = some slash
  · rw [if_pos hroot, if_pos hroot]
    simp only [hroot.2, if_true, pataReadSector]
    exact ⟨_, rfl⟩
  · rw [if_neg hroot, if_neg hroot]
    obtain ⟨m, hwalk⟩ := h.resolveComponents_eq
      (if path.head? = some slash then 0 else s.currentDirBlock)
      (splitPath path)
    refine ⟨m, ?_⟩
    rw [hwalk, Option.map_map]
    rfl

/-- What a file name denotes. -/
def findTable (g : Geometry) (d : ℕ → Memory) (cur : ℕ)
    (filename : List UInt8) : Option Target :=
  if slash ∈ filename then resolveTable g d cur filename
  else (lookup g d cur filename).map .slot

theorem Mounted.findFile_eq (h : Mounted g s) (filename : List UInt8) :
    ∃ m, chainfsFindFile s filename =
      ({ s with sectorBuffer := m },
        (findTable g s.disk s.currentDirBlock filename).map
          (Target.found s.disk)) := by
  unfold chainfsFindFile findTable
  by_cases hslash : slash ∈ filename
  · rw [if_pos hslash, if_pos hslash]
    exact h.resolvePath_eq filename
  · rw [if_neg hslash, if_neg hslash, Option.map_map]
    exact h.findInDirectory_eq s.currentDirBlock filename

end Otsos
