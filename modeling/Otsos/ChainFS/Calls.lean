import Otsos.Heap.Calls
import Otsos.ChainFS.Contents
import Otsos.ChainFS.Entries

/-!
# What each ChainFS call does to the disk

One theorem for each operation, in terms of the table as an array of entries
and the map as a function.  The sector buffer has disappeared from the
statements: no result depends on what it held.
-/

namespace Otsos

open Lib

variable {g : Geometry} {s s' : ChainFS} {data : Memory}
  {size parent : ℕ} {fileName : List UInt8}

/-- A heap on which every call returns. -/
def HeapReady (h : Heap) : Prop := ∃ bs, HeapInvariant h bs

theorem HeapReady.kmalloc_cases {h : Heap} {n : ℕ} (hready : HeapReady h)
    (hn : n ≤ 2 ^ 32) :
    kmalloc h n = some (h, 0) ∨
    ∃ h' p, kmalloc h n = some (h', p) ∧ p ≠ 0 ∧ HeapReady h' ∧
      HeapReady (kfree h' p) := by
  obtain ⟨bs, hinv⟩ := hready
  rcases Otsos.kmalloc_cases hinv (hn.trans (by decide)) with
    ⟨hfail, -⟩ | ⟨h', bs', c, hok, -, hg⟩
  · exact Or.inl hfail
  · obtain ⟨bs'', hrel⟩ := kfree_released hg.inv hg.mem hg.used
    exact Or.inr ⟨h', _, hok, by omega, ⟨bs', hg.inv⟩, ⟨bs'', hrel.inv⟩⟩

/-- The fields of `g_chainfs` that only mounting and `chainfs_chdir` set. -/
structure SameControl (s s' : ChainFS) : Prop where
  superblock : s'.superblock = s.superblock
  start : s'.dataAreaStart = s.dataAreaStart
  current : s'.currentDirBlock = s.currentDirBlock

theorem SameControl.mounted (h : SameControl s s') (hs : Mounted g s) :
    Mounted g s' :=
  hs.of_same h.superblock h.start

theorem SameControl.trans {s₁ s₂ s₃ : ChainFS} (h₁ : SameControl s₁ s₂)
    (h₂ : SameControl s₂ s₃) : SameControl s₁ s₃ :=
  ⟨h₂.superblock.trans h₁.superblock, h₂.start.trans h₁.start,
    h₂.current.trans h₁.current⟩

/-- The call left the disk alone. -/
structure Unchanged (s s' : ChainFS) : Prop where
  control : SameControl s s'
  disk : s'.disk = s.disk
  log : s'.dataWrites = s.dataWrites
  heap : HeapReady s'.heap

theorem Unchanged.of_buffer (hready : HeapReady s.heap) (m : Memory) :
    Unchanged s { s with sectorBuffer := m } :=
  ⟨⟨rfl, rfl, rfl⟩, rfl, rfl, hready⟩

/-! ## Storing a file -/

theorem writeBlockMapEntry_control (s : ChainFS) (b v : ℕ) :
    SameControl s (chainfsWriteBlockMapEntry s b v).1 := by
  unfold chainfsWriteBlockMapEntry
  by_cases hb : s.blockMapBlockCount ≤ b / mapEntriesPerBlock
  · rw [if_pos hb]
    exact ⟨rfl, rfl, rfl⟩
  · rw [if_neg hb]
    exact ⟨rfl, rfl, rfl⟩

theorem writeChain_control (s : ChainFS) (data : Memory) (bs : List ℕ)
    (remaining off : ℕ) :
    SameControl s (writeChain s data bs remaining off) := by
  induction bs generalizing s remaining off with
  | nil => exact ⟨rfl, rfl, rfl⟩
  | cons b bs ih =>
      rw [writeChain]
      refine SameControl.trans ?_ (ih _ _ _)
      refine SameControl.trans ?_ (writeBlockMapEntry_control _ _ _)
      exact ⟨rfl, rfl, rfl⟩

theorem blocksNeeded_bounds (size : ℕ) :
    0 < blocksNeeded size ∧ blocksNeeded size * 4 ≤ 2 ^ 32 := by
  have hmod : wrap32 (size + chainfsBlockSize - 1) < 2 ^ 32 :=
    Nat.mod_lt _ (by omega)
  unfold blocksNeeded
  unfold chainfsBlockSize at *
  generalize wrap32 (size + 512 - 1) = w at *
  by_cases hzero : w / 512 = 0
  · simp only [if_pos hzero]
    omega
  · simp only [if_neg hzero]
    omega

/-- The blocks that `chainfs_find_free_blocks` returns for `size` bytes. -/
def allocated (g : Geometry) (d : ℕ → Memory) (size : ℕ) : List ℕ :=
  (freeBlocks g d).take (blocksNeeded size)

/-- The heap has room for the array of blocks and the map has enough free
ones. -/
def HasRoom (g : Geometry) (s : ChainFS) (size : ℕ) : Prop :=
  (∀ h', kmalloc s.heap (blocksNeeded size * 4) ≠ some (h', 0)) ∧
    blocksNeeded size ≤ (freeBlocks g s.disk).length

/-- None of these blocks has a sector number that wraps. -/
def AllocatedUsable (g : Geometry) (d : ℕ → Memory) (size : ℕ) : Prop :=
  ∀ b ∈ allocated g d size, g.Usable b

theorem allocatedUsable_of_lt {d : ℕ → Memory}
    (h : ∀ b ∈ allocated g d size, g.dataStart + b < 2 ^ 32) :
    AllocatedUsable g d size := by
  intro b hb
  obtain ⟨hrange, hmapped, -⟩ := freeBlocks_spec hb
  exact ⟨hmapped, hrange, h b hb⟩

theorem Geometry.NoWrap.allocatedUsable (h : g.NoWrap) (d : ℕ → Memory)
    (size : ℕ) : AllocatedUsable g d size := by
  refine allocatedUsable_of_lt fun b hb => ?_
  obtain ⟨hrange, hmapped, -⟩ := freeBlocks_spec hb
  exact h b hrange hmapped

theorem allocated_sorted (g : Geometry) (d : ℕ → Memory) (size : ℕ) :
    (allocated g d size).Pairwise (· < ·) :=
  freeBlocks_sorted g d _

theorem allocated_nodup (g : Geometry) (d : ℕ → Memory) (size : ℕ) :
    (allocated g d size).Nodup :=
  (allocated_sorted g d size).imp fun hlt => Nat.ne_of_lt hlt

theorem HasRoom.length_allocated (h : HasRoom g s size) :
    (allocated g s.disk size).length = blocksNeeded size := by
  have hroom := h.2
  simp only [allocated, List.length_take]
  omega

/-- The file was stored: its blocks are written, then its entry. -/
structure Stored (g : Geometry) (s s' : ChainFS) (slot : ℕ × ℕ)
    (fileName : List UInt8) (data : Memory) (size parent : ℕ) : Prop where
  control : SameControl s s'
  heap : HeapReady s'.heap
  log : s'.dataWrites =
    ((allocated g s.disk size).map fun b => g.dataStart + b).reverse ++
      s.dataWrites
  disk : ∃ d, Written g s.disk d data size 0 (allocated g s.disk size) ∧
    s'.disk = Function.update d slot.1 (setFileEntry (d slot.1) slot.2
      fileName size ((allocated g s.disk size).headD 0) parent)

/-- Where there is room the call returns 0.  What it has stored is known where
no sector number wraps. -/
theorem Mounted.storeFile_cases (h : Mounted g s)
    (hready : HeapReady s.heap) (slot : ℕ × ℕ) (fileName : List UInt8)
    (data : Memory) (size parent : ℕ) :
    (∃ s', storeFile s slot fileName data size parent = .ok (s', -1) ∧
      ¬ HasRoom g s size ∧ Unchanged s s') ∨
    ∃ s', storeFile s slot fileName data size parent = .ok (s', 0) ∧
      HasRoom g s size ∧ SameControl s s' ∧
      (AllocatedUsable g s.disk size →
        Stored g s s' slot fileName data size parent) := by
  unfold storeFile
  rcases hready.kmalloc_cases (blocksNeeded_bounds size).2 with
    hfail | ⟨heap, p, hok, hp, hheap, hfreed⟩
  · left
    refine ⟨s, ?_, ?_, ⟨⟨rfl, rfl, rfl⟩, rfl, rfl, hready⟩⟩
    · rw [hfail]
      rfl
    · intro hroom
      exact hroom.1 _ hfail
  · have hs₁ : Mounted g { s with heap := heap } := h.of_same rfl rfl
    obtain ⟨m, hfind⟩ := hs₁.findFreeBlocks_eq (blocksNeeded size)
    rw [hok]
    simp only [if_neg hp, hfind]
    by_cases hroom : blocksNeeded size ≤ (freeBlocks g s.disk).length
    · right
      have hs₂ : Mounted g
          { s with
            heap := heap
            sectorBuffer := m } := h.of_same rfl rfl
      have hhas : HasRoom g s size := by
        refine ⟨?_, hroom⟩
        intro h' hnull
        rw [hok] at hnull
        cases hnull
        exact hp rfl
      simp only [if_pos hroom, ne_eq, not_true_eq_false, if_false]
      have hcontrol := writeChain_control
        { s with
          heap := heap
          sectorBuffer := m } data
        ((freeBlocks g s.disk).take (blocksNeeded size)) size 0
      refine ⟨_, rfl, hhas,
        ⟨hcontrol.superblock, hcontrol.start, hcontrol.current⟩,
        fun husable => ?_⟩
      obtain ⟨d, m', hchain, hwritten⟩ := hs₂.writeChain_eq data size 0
        husable (allocated_nodup g s.disk size)
      unfold allocated at hchain
      rw [hchain]
      exact ⟨⟨rfl, rfl, rfl⟩, hfreed, rfl, d, hwritten, rfl⟩
    · left
      refine ⟨{ s with
        heap := kfree heap p
        sectorBuffer := m }, ?_, fun hhas => hroom hhas.2,
        ⟨⟨rfl, rfl, rfl⟩, rfl, rfl, hfreed⟩⟩
      simp only [if_neg hroom]
      rfl

/-! ## Parents -/

/-- The sector of the directory at a path. -/
def dirSector (g : Geometry) (d : ℕ → Memory) (cur : ℕ)
    (path : List UInt8) : Option ℕ :=
  match resolveTable g d cur path with
  | none => none
  | some t =>
      if (t.found d).entry.type ≠ chainfsTypeDir then none
      else some (t.found d).block

/-- The parent that `chainfs_write_file` stores. -/
def writeParentId (g : Geometry) (d : ℕ → Memory) (cur : ℕ) :
    ParentPath → Option ℕ
  | .current => some cur
  | .root => some 0
  | .path chars => dirSector g d cur chars

/-- The parent that `chainfs_mkdir` stores. -/
def mkdirParentId (g : Geometry) (d : ℕ → Memory) (cur : ℕ) :
    ParentPath → Option ℕ
  | .current => some cur
  | .root => dirSector g d cur [slash]
  | .path chars => dirSector g d cur chars

/-- A parent is the current directory, the root, or what a path leads to. -/
theorem parentId_cases {d : ℕ → Memory} {cur p : ℕ} {parent : ParentPath}
    (h : writeParentId g d cur parent = some p ∨
      mkdirParentId g d cur parent = some p) :
    p = cur ∨ p = 0 ∨ ∃ path, dirSector g d cur path = some p := by
  cases parent with
  | current =>
      left
      rcases h with h | h
      · exact (Option.some.inj h).symm
      · exact (Option.some.inj h).symm
  | root =>
      right
      rcases h with h | h
      · exact Or.inl (Option.some.inj h).symm
      · exact Or.inr ⟨[slash], h⟩
  | path chars =>
      right
      right
      rcases h with h | h
      · exact ⟨chars, h⟩
      · exact ⟨chars, h⟩

theorem Mounted.directorySector_eq (h : Mounted g s) (path : List UInt8) :
    ∃ m, directorySector s path = ({ s with sectorBuffer := m },
      dirSector g s.disk s.currentDirBlock path) := by
  obtain ⟨m, hresolve⟩ := h.resolvePath_eq path
  refine ⟨m, ?_⟩
  unfold directorySector dirSector
  rw [hresolve]
  cases resolveTable g s.disk s.currentDirBlock path with
  | none => rfl
  | some t =>
      simp only [Option.map_some]
      by_cases htype : (t.found s.disk).entry.type ≠ chainfsTypeDir
      · rw [if_pos htype, if_pos htype]
      · rw [if_neg htype, if_neg htype]

theorem Mounted.writeParent_eq (h : Mounted g s) (parent : ParentPath) :
    ∃ m, writeParent s parent = ({ s with sectorBuffer := m },
      writeParentId g s.disk s.currentDirBlock parent) := by
  cases parent with
  | current => exact ⟨s.sectorBuffer, rfl⟩
  | root =>
      refine ⟨s.sectorBuffer, ?_⟩
      simp only [writeParent, h.root, writeParentId]
  | path chars => exact h.directorySector_eq chars

theorem Mounted.mkdirParent_eq (h : Mounted g s) (parent : ParentPath) :
    ∃ m, mkdirParent s parent = ({ s with sectorBuffer := m },
      mkdirParentId g s.disk s.currentDirBlock parent) := by
  cases parent with
  | current => exact ⟨s.sectorBuffer, rfl⟩
  | root => exact h.directorySector_eq [slash]
  | path chars => exact h.directorySector_eq chars

/-! ## Files -/

/-- What a name denotes in a state. -/
def ChainFS.find (g : Geometry) (s : ChainFS) (filename : List UInt8) :
    Option Target :=
  findTable g s.disk s.currentDirBlock filename

/-- What a path resolves to in a state. -/
def ChainFS.resolve (g : Geometry) (s : ChainFS) (path : List UInt8) :
    Option Target :=
  resolveTable g s.disk s.currentDirBlock path

theorem Mounted.writeFile_new (h : Mounted g s) {filename : List UInt8}
    (hnew : s.find g filename = none) (data : Memory) (size : ℕ) :
    ∃ m, chainfsWriteFile s filename data size =
      match splitParent filename with
      | .error fault => .error fault
      | .ok (parent, fileName) =>
          match writeParentId g s.disk s.currentDirBlock parent with
          | none => .ok ({ s with sectorBuffer := m }, -1)
          | some parentBlock =>
              match freeSlot g s.disk with
              | none => .ok ({ s with sectorBuffer := m }, -1)
              | some idx =>
                  storeFile { s with sectorBuffer := m } (slotOf idx)
                    fileName data size parentBlock := by
  obtain ⟨m₁, hfind⟩ := h.findFile_eq filename
  rw [show findTable g s.disk s.currentDirBlock filename = none from hnew]
    at hfind
  unfold chainfsWriteFile
  rw [hfind]
  cases splitParent filename with
  | error fault => exact ⟨m₁, rfl⟩
  | ok split =>
      obtain ⟨parent, fileName⟩ := split
      have hs₁ : Mounted g { s with sectorBuffer := m₁ } :=
        h.of_same rfl rfl
      obtain ⟨m₂, hparent⟩ := hs₁.writeParent_eq parent
      simp only [hparent]
      cases writeParentId g s.disk s.currentDirBlock parent with
      | none => exact ⟨m₂, rfl⟩
      | some parentBlock =>
          have hs₂ : Mounted g { s with sectorBuffer := m₂ } :=
            h.of_same rfl rfl
          obtain ⟨m₃, hslot⟩ := hs₂.findFreeFileEntry_eq
          refine ⟨m₃, ?_⟩
          simp only [Option.map_none, targetSlot, hslot]
          cases freeSlot g s.disk <;> rfl

theorem Mounted.writeFile_over (h : Mounted g s) {filename : List UInt8}
    {t : Target} (hfound : s.find g filename = some t) (data : Memory)
    (size : ℕ) :
    ∃ m, chainfsWriteFile s filename data size =
      match splitParent filename with
      | .error fault => .error fault
      | .ok (parent, fileName) =>
          match writeParentId g s.disk s.currentDirBlock parent with
          | none => .ok ({ s with sectorBuffer := m }, -1)
          | some parentBlock =>
              match chainfsFreeBlockChain { s with sectorBuffer := m }
                (t.found s.disk).entry.startBlock with
              | none => .error .hang
              | some s₁ =>
                  storeFile s₁ ((t.found s.disk).block,
                    (t.found s.disk).offset) fileName data size
                    parentBlock := by
  obtain ⟨m₁, hfind⟩ := h.findFile_eq filename
  rw [show findTable g s.disk s.currentDirBlock filename = some t
    from hfound] at hfind
  unfold chainfsWriteFile
  rw [hfind]
  cases splitParent filename with
  | error fault => exact ⟨m₁, rfl⟩
  | ok split =>
      obtain ⟨parent, fileName⟩ := split
      have hs₁ : Mounted g { s with sectorBuffer := m₁ } :=
        h.of_same rfl rfl
      obtain ⟨m₂, hparent⟩ := hs₁.writeParent_eq parent
      simp only [hparent]
      cases writeParentId g s.disk s.currentDirBlock parent with
      | none => exact ⟨m₂, rfl⟩
      | some parentBlock =>
          refine ⟨m₂, ?_⟩
          simp only [Option.map_some, targetSlot]
          cases t <;>
            cases chainfsFreeBlockChain { s with sectorBuffer := m₂ } _ <;>
            rfl

theorem clearStatus_control (s : ChainFS) (block offset : ℕ) :
    SameControl s (clearStatus s block offset) := ⟨rfl, rfl, rfl⟩

theorem clearStatus_disk (s : ChainFS) (block offset : ℕ) :
    (clearStatus s block offset).disk =
      Function.update s.disk block (setStatus (s.disk block) offset 0) :=
  rfl

theorem Mounted.deleteFile_eq (h : Mounted g s) (filename : List UInt8) :
    ∃ m, chainfsDeleteFile s filename =
      match s.find g filename with
      | none => .ok ({ s with sectorBuffer := m }, -1)
      | some t =>
          match chainfsFreeBlockChain { s with sectorBuffer := m }
            (t.found s.disk).entry.startBlock with
          | none => .error .hang
          | some s₁ => .ok (clearStatus s₁ (t.found s.disk).block
              (t.found s.disk).offset, 0) := by
  obtain ⟨m, hfind⟩ := h.findFile_eq filename
  refine ⟨m, ?_⟩
  unfold chainfsDeleteFile ChainFS.find
  rw [hfind]
  cases findTable g s.disk s.currentDirBlock filename <;> rfl

theorem readBlockMapEntry_state (s : ChainFS) (b : ℕ) :
    ∃ m, (chainfsReadBlockMapEntry s b).1 = { s with sectorBuffer := m } := by
  unfold chainfsReadBlockMapEntry
  by_cases hout : s.blockMapBlockCount ≤ b / mapEntriesPerBlock
  · rw [if_pos hout]
    exact ⟨s.sectorBuffer, rfl⟩
  · rw [if_neg hout]
    exact ⟨_, rfl⟩

theorem readChain_state (s : ChainFS) (buffer : Memory)
    (bufferSize fuel remaining copied current : ℕ) :
    ∃ m, (readChain s buffer bufferSize fuel remaining copied current).1 =
      { s with sectorBuffer := m } := by
  induction fuel generalizing s buffer remaining copied current with
  | zero => exact ⟨s.sectorBuffer, rfl⟩
  | succ fuel ih =>
      rw [readChain]
      by_cases hrun : 0 < remaining ∧ current ≠ chainfsEofMarker ∧
          copied < bufferSize
      · rw [if_pos hrun]
        simp only [pataReadSector, transfer_eq]
        generalize (if bufferSize < wrap32 (copied + min remaining 512) then
          bufferSize - copied else min remaining 512) = n
        generalize s.disk (wrap32 (s.dataAreaStart + current)) = m₁
        by_cases hmore : 0 < remaining - n
        · rw [if_pos hmore]
          obtain ⟨m₂, hstate⟩ :=
            readBlockMapEntry_state { s with sectorBuffer := m₁ } current
          cases hread : chainfsReadBlockMapEntry
              { s with sectorBuffer := m₁ } current with
          | mk s₂ next =>
              rw [hread] at hstate
              cases next with
              | none => exact ⟨m₂, hstate⟩
              | some next =>
                  obtain ⟨m, hrest⟩ := ih s₂
                    (copyBytes buffer copied m₁ 0 n) (remaining - n)
                    (wrap32 (copied + n)) next
                  have hs₂ : s₂ = { s with sectorBuffer := m₂ } := hstate
                  exact ⟨m, by rw [hrest, hs₂]⟩
        · rw [if_neg hmore]
          exact ⟨m₁, rfl⟩
      · rw [if_neg hrun]
        exact ⟨s.sectorBuffer, rfl⟩

theorem Mounted.readFile_eq (h : Mounted g s) (filename : List UInt8)
    (buffer : Memory) (bufferSize : ℕ) :
    ∃ m, chainfsReadFile s filename buffer bufferSize =
      match s.find g filename with
      | none => ({ s with sectorBuffer := m }, none)
      | some t =>
          let e := (t.found s.disk).entry
          let r := readChain { s with sectorBuffer := m } buffer bufferSize
            (e.size + 1) e.size 0 e.startBlock
          (r.1, some r.2) := by
  obtain ⟨m, hfind⟩ := h.findFile_eq filename
  refine ⟨m, ?_⟩
  unfold chainfsReadFile ChainFS.find
  rw [hfind]
  cases findTable g s.disk s.currentDirBlock filename <;> rfl

theorem Mounted.readFile_state (h : Mounted g s) (filename : List UInt8)
    (buffer : Memory) (bufferSize : ℕ) :
    ∃ m, (chainfsReadFile s filename buffer bufferSize).1 =
      { s with sectorBuffer := m } := by
  obtain ⟨m, hread⟩ := h.readFile_eq filename buffer bufferSize
  rw [hread]
  cases s.find g filename with
  | none => exact ⟨m, rfl⟩
  | some t =>
      obtain ⟨m', hstate⟩ := readChain_state { s with sectorBuffer := m }
        buffer bufferSize ((t.found s.disk).entry.size + 1)
        (t.found s.disk).entry.size 0 (t.found s.disk).entry.startBlock
      exact ⟨m', hstate⟩

/-- Reading a file whose chain is known gives the bytes of the chain. -/
theorem Mounted.readFile_chain (h : Mounted g s) {filename : List UInt8}
    {idx : ℕ} {bs : List ℕ} (hfind : s.find g filename = some (.slot idx))
    (hstart : (entryOf s.disk idx).startBlock = bs.headD chainfsEofMarker)
    (hlinks : Links (mapLink g s.disk) chainfsEofMarker bs)
    (hbs : ∀ b ∈ bs, g.Usable b) (buffer : Memory) (bufferSize : ℕ) :
    ∃ m buffer', chainfsReadFile s filename buffer bufferSize =
        ({ s with sectorBuffer := m }, some (buffer',
          min (heldBytes (entryOf s.disk idx).size bs) bufferSize)) ∧
      (∀ i < min (heldBytes (entryOf s.disk idx).size bs) bufferSize,
        buffer' i = chainByte g s.disk bs i) ∧
      ∀ i, min (heldBytes (entryOf s.disk idx).size bs) bufferSize ≤ i →
        buffer' i = buffer i := by
  obtain ⟨m₁, hread⟩ := h.readFile_eq filename buffer bufferSize
  have hs₁ : Mounted g { s with sectorBuffer := m₁ } := h.of_same rfl rfl
  obtain ⟨m, buffer', hchain, hin, hout⟩ := hs₁.readChain_eq buffer
    bufferSize ((entryOf s.disk idx).size + 1) (entryOf s.disk idx).size 0
    hlinks hbs (Nat.lt_succ_self _)
    ((Nat.zero_add _).symm ▸ entryAt_size_lt _ _)
  simp only [Nat.zero_add, Nat.sub_zero, Nat.not_lt_zero, false_or]
    at hchain hin hout
  refine ⟨m, buffer', ?_, hin, hout⟩
  rw [hread, hfind]
  simp only [Target.found, foundAt, hstart, hchain]

/-! ## Directories -/

theorem Mounted.mkdir_eq (h : Mounted g s) (path : List UInt8) :
    ∃ m, chainfsMkdir s path =
      match splitParent path with
      | .error fault => .error fault
      | .ok (parent, dirName) =>
          match mkdirParentId g s.disk s.currentDirBlock parent with
          | none => .ok ({ s with sectorBuffer := m }, -1)
          | some parentBlock =>
              match lookup g s.disk parentBlock dirName,
                freeSlot g s.disk with
              | none, some idx =>
                  .ok ({ s with
                    disk := editSlot s.disk idx fun m i =>
                      setDirEntry m i dirName parentBlock
                    sectorBuffer := m }, 0)
              | _, _ => .ok ({ s with sectorBuffer := m }, -1) := by
  unfold chainfsMkdir
  cases splitParent path with
  | error fault => exact ⟨s.sectorBuffer, rfl⟩
  | ok split =>
      obtain ⟨parent, dirName⟩ := split
      obtain ⟨m₁, hparent⟩ := h.mkdirParent_eq parent
      simp only [hparent]
      cases mkdirParentId g s.disk s.currentDirBlock parent with
      | none => exact ⟨m₁, rfl⟩
      | some parentBlock =>
          have hs₁ : Mounted g { s with sectorBuffer := m₁ } :=
            h.of_same rfl rfl
          obtain ⟨m₂, hexists⟩ := hs₁.findInDirectory_eq parentBlock dirName
          simp only [hexists]
          cases lookup g s.disk parentBlock dirName with
          | some idx => exact ⟨m₂, rfl⟩
          | none =>
              have hs₂ : Mounted g { s with sectorBuffer := m₂ } :=
                h.of_same rfl rfl
              obtain ⟨m₃, hslot⟩ := hs₂.findFreeFileEntry_eq
              simp only [Option.map_none, hslot]
              cases freeSlot g s.disk with
              | none => exact ⟨m₃, rfl⟩
              | some idx => exact ⟨_, rfl⟩

theorem Mounted.chdir_eq (h : Mounted g s) (path : List UInt8) :
    ∃ m, chainfsChdir s path =
      match s.resolve g path with
      | none => ({ s with sectorBuffer := m }, -1)
      | some t =>
          if (t.found s.disk).entry.type ≠ chainfsTypeDir then
            ({ s with sectorBuffer := m }, -1)
          else
            ({ s with
              currentDirBlock := entryIndex (t.found s.disk).block
                (t.found s.disk).offset
              sectorBuffer := m }, 0) := by
  obtain ⟨m, hresolve⟩ := h.resolvePath_eq path
  refine ⟨m, ?_⟩
  unfold chainfsChdir ChainFS.resolve
  rw [hresolve]
  cases resolveTable g s.disk s.currentDirBlock path <;> rfl

theorem listTable_state (dirBlock maxFiles : ℕ) (s : ChainFS)
    (block n : ℕ) (files : List FileEntry) :
    ∃ m, (listTable dirBlock maxFiles s block n files).1 =
      { s with sectorBuffer := m } := by
  induction n generalizing s block files with
  | zero => exact ⟨s.sectorBuffer, rfl⟩
  | succ n ih =>
      rw [listTable]
      by_cases hroom : files.length < maxFiles
      · rw [if_pos hroom]
        exact ih _ _ _
      · rw [if_neg hroom]
        exact ⟨s.sectorBuffer, rfl⟩

theorem Mounted.listDir_state (h : Mounted g s) (path : List UInt8)
    (maxFiles : ℕ) :
    ∃ m, (chainfsListDir s path maxFiles).1 =
      { s with sectorBuffer := m } := by
  cases path with
  | nil => exact listTable_state _ _ _ _ _ _
  | cons c cs =>
      obtain ⟨m, hdir⟩ := h.directorySector_eq (c :: cs)
      simp only [chainfsListDir, hdir]
      cases dirSector g s.disk s.currentDirBlock (c :: cs) with
      | none => exact ⟨m, rfl⟩
      | some dirBlock => exact listTable_state _ _ _ _ _ _

theorem Mounted.rmdir_cases (h : Mounted g s) (path : List UInt8) :
    (∃ m, chainfsRmdir s path = ({ s with sectorBuffer := m }, -1)) ∨
    ∃ idx m, s.resolve g path = some (.slot idx) ∧
      (entryOf s.disk idx).type = chainfsTypeDir ∧
      chainfsRmdir s path =
        ({ s with
          disk := editSlot s.disk idx fun m i => setStatus m i 0
          sectorBuffer := m }, 0) := by
  obtain ⟨m₁, hresolve⟩ := h.resolvePath_eq path
  unfold chainfsRmdir ChainFS.resolve
  rw [hresolve]
  cases htarget : resolveTable g s.disk s.currentDirBlock path with
  | none => exact Or.inl ⟨m₁, rfl⟩
  | some t =>
      have hs₁ : Mounted g { s with sectorBuffer := m₁ } :=
        h.of_same rfl rfl
      simp only [Option.map_some]
      by_cases htype : (t.found s.disk).entry.type ≠ chainfsTypeDir
      · exact Or.inl ⟨m₁, by rw [if_pos htype]⟩
      · rw [if_neg htype]
        rw [hs₁.root]
        cases t with
        | rootBlock => exact Or.inl ⟨m₁, if_pos rfl⟩
        | slot idx =>
            have hblock : ¬ ((Target.slot idx).found s.disk).block = 0 := by
              show ¬ 1 + idx / 8 = 0
              omega
            rw [if_neg hblock]
            obtain ⟨m₂, hlist⟩ := hs₁.listDir_state path 1
            cases hdir : chainfsListDir { s with sectorBuffer := m₁ } path 1
              with
            | mk s₂ files =>
                rw [hdir] at hlist
                simp only at hlist
                subst hlist
                have hremoved : ∃ m, (clearStatus
                    { s with sectorBuffer := m₂ } (1 + idx / 8) (idx % 8),
                      (0 : ℤ)) =
                    ({ s with
                      disk := editSlot s.disk idx fun m i => setStatus m i 0
                      sectorBuffer := m }, 0) := ⟨_, rfl⟩
                obtain ⟨m, hremoved⟩ := hremoved
                rcases files with - | (- | ⟨file, files⟩)
                · exact Or.inr ⟨idx, m, rfl, not_not.mp htype, hremoved⟩
                · exact Or.inr ⟨idx, m, rfl, not_not.mp htype, hremoved⟩
                · exact Or.inl ⟨m₂, rfl⟩

end Otsos
