import Otsos.Lib.TornWrites
import Otsos.ChainFS.AnyDiskReads
import Otsos.ChainFS.Runs

/-!
# The sectors that a call writes

For each function that writes, the sectors it hands to `pata_write_sector`, in
order.  When the call returns, the disk is what these writes make of it; when
the power fails before, it is what a beginning of them does.
-/

namespace Otsos

open Lib

variable {s s' : ChainFS} {path : List UInt8} {data : Memory} {size : ℕ}
  {code : ℤ}

abbrev SectorWrite := ℕ × Memory

/-! ## The block map -/

def blockMapEntrySectors (s : ChainFS) (blockIndex nextBlock : ℕ) :
    List SectorWrite :=
  let mapBlock := blockIndex / mapEntriesPerBlock
  let mapOffset := blockIndex % mapEntriesPerBlock
  if s.blockMapBlockCount ≤ mapBlock then []
  else
    let sector := mapSector s mapBlock
    let s := pataReadSector s sector
    [(sector, s.sectorBuffer.store (4 * mapOffset) 4 nextBlock)]

def freeChainSectors (s : ChainFS) : ℕ → ℕ → List SectorWrite
  | 0, _ => []
  | fuel + 1, current =>
      if current = chainfsEofMarker then []
      else
        match chainfsReadBlockMapEntry s current with
        | (_, none) => []
        | (s, some next) =>
            blockMapEntrySectors s current chainfsFreeBlock ++
              freeChainSectors
                (chainfsWriteBlockMapEntry s current chainfsFreeBlock).1 fuel
                next

/-! ## Files -/

def writeChainSectors (s : ChainFS) (data : Memory) :
    List ℕ → ℕ → ℕ → List SectorWrite
  | [], _, _ => []
  | b :: bs, remaining, dataOffset =>
      let toCopy :=
        if chainfsBlockSize < remaining then chainfsBlockSize else remaining
      let s := { s with
        sectorBuffer := copyBytes zeroSector 0 data dataOffset toCopy }
      let realSector := wrap32 (s.dataAreaStart + b)
      let block := (realSector, s.sectorBuffer)
      let s := pataWriteSector s realSector
      let s := { s with dataWrites := realSector :: s.dataWrites }
      let nextBlock := bs.headD chainfsEofMarker
      block :: (blockMapEntrySectors s b nextBlock ++
        writeChainSectors (chainfsWriteBlockMapEntry s b nextBlock).1 data bs
          (remaining - toCopy) (dataOffset + toCopy))

/-- The writes of `storeFile`. -/
def storeFileSectors (s : ChainFS) (slot : ℕ × ℕ) (fileName : List UInt8)
    (data : Memory) (size parentBlock : ℕ) : List SectorWrite :=
  match kmalloc s.heap (blocksNeeded size * 4) with
  | none => []
  | some (heap, ptr) =>
      let s := { s with heap := heap }
      if ptr = 0 then []
      else
        match chainfsFindFreeBlocks s (blocksNeeded size) with
        | (s, code, blocks) =>
            if code ≠ 0 then []
            else
              let chained := writeChain s data blocks size 0
              writeChainSectors s data blocks size 0 ++
                [(slot.1, setFileEntry (chained.disk slot.1) slot.2 fileName
                  size (blocks.headD 0) parentBlock)]

def targetSlotSectors (s : ChainFS) : Option Found → List SectorWrite
  | some f => freeChainSectors s (chainFuel s) f.entry.startBlock
  | none => []

def writeFileSectors (s : ChainFS) (filename : List UInt8) (data : Memory)
    (size : ℕ) : List SectorWrite :=
  match chainfsFindFile s filename with
  | (s, found) =>
      match splitParent filename with
      | .error _ => []
      | .ok (parent, fileName) =>
          match writeParent s parent with
          | (_, none) => []
          | (s, some parentBlock) =>
              targetSlotSectors s found ++
                match targetSlot s found with
                | .ok (s, .ok slot) =>
                    storeFileSectors s slot fileName data size parentBlock
                | _ => []

def clearStatusSectors (s : ChainFS) (block offset : ℕ) : List SectorWrite :=
  [(block, setStatus (s.disk block) offset 0)]

def deleteFileSectors (s : ChainFS) (filename : List UInt8) :
    List SectorWrite :=
  match chainfsFindFile s filename with
  | (_, none) => []
  | (s, some f) =>
      freeChainSectors s (chainFuel s) f.entry.startBlock ++
        match chainfsFreeBlockChain s f.entry.startBlock with
        | none => []
        | some s => clearStatusSectors s f.block f.offset

/-! ## Directories -/

def mkdirSectors (s : ChainFS) (path : List UInt8) : List SectorWrite :=
  match splitParent path with
  | .error _ => []
  | .ok (parent, dirName) =>
      match mkdirParent s parent with
      | (_, none) => []
      | (s, some parentBlock) =>
          match chainfsFindInDirectory s parentBlock dirName with
          | (_, some _) => []
          | (s, none) =>
              match chainfsFindFreeFileEntry s with
              | (_, .error _) => []
              | (s, .ok slot) =>
                  [(slot.1, setDirEntry (s.disk slot.1) slot.2 dirName
                    parentBlock)]

def rmdirSectors (s : ChainFS) (path : List UInt8) : List SectorWrite :=
  match chainfsResolvePath s path with
  | (_, none) => []
  | (s, some f) =>
      if f.entry.type ≠ chainfsTypeDir then []
      else if f.block = s.rootDirBlock then []
      else
        match chainfsListDir s path 1 with
        | (_, some (_ :: _)) => []
        | (s, _) => clearStatusSectors s f.block f.offset

/-- The writes of a call. -/
def ChainFS.sectorWrites (s : ChainFS) : FsCall → List SectorWrite
  | .writeFile filename data size =>
      writeFileSectors s filename.chars data size
  | .deleteFile filename => deleteFileSectors s filename.chars
  | .mkdir path => mkdirSectors s path.chars
  | .rmdir path => rmdirSectors s path.chars
  | .readFile _ _ _ | .chdir _ | .listDir _ _ | .init => []

/-! ## The disk at the end -/

theorem blockMapEntrySectors_disk (s : ChainFS) (b v : ℕ) :
    afterWrites s.disk (blockMapEntrySectors s b v) =
      (chainfsWriteBlockMapEntry s b v).1.disk := by
  unfold blockMapEntrySectors chainfsWriteBlockMapEntry
  by_cases hout : s.blockMapBlockCount ≤ b / mapEntriesPerBlock
  · simp only [if_pos hout]
    rfl
  · simp only [if_neg hout]
    rfl

theorem freeChainSectors_disk {fuel b : ℕ}
    (h : freeChainWalk s fuel b = some s') :
    afterWrites s.disk (freeChainSectors s fuel b) = s'.disk := by
  induction fuel generalizing s b with
  | zero => cases h
  | succ fuel ih =>
      rw [freeChainWalk] at h
      rw [freeChainSectors]
      by_cases hend : b = chainfsEofMarker
      · rw [if_pos hend] at h ⊢
        cases h
        rfl
      · rw [if_neg hend] at h ⊢
        obtain ⟨m, hstate⟩ := readBlockMapEntry_state s b
        cases hread : chainfsReadBlockMapEntry s b with
        | mk s₁ next =>
            rw [hread] at h hstate
            have hdisk := congrArg ChainFS.disk hstate
            dsimp only at hdisk
            cases next with
            | none =>
                cases h
                exact hdisk.symm
            | some next =>
                dsimp only at h ⊢
                rw [afterWrites_append, ← hdisk, blockMapEntrySectors_disk]
                exact ih h

theorem writeChainSectors_disk (s : ChainFS) (data : Memory)
    (bs : List ℕ) (remaining off : ℕ) :
    afterWrites s.disk (writeChainSectors s data bs remaining off) =
      (writeChain s data bs remaining off).disk := by
  induction bs generalizing s remaining off with
  | nil => rfl
  | cons b bs ih =>
      rw [writeChainSectors, writeChain]
      simp only [afterWrites_cons, afterWrites_append]
      rw [← ih, ← blockMapEntrySectors_disk]
      rfl

theorem storeFileSectors_disk {slot : ℕ × ℕ} {fileName : List UInt8}
    {parentBlock : ℕ}
    (h : storeFile s slot fileName data size parentBlock = .ok (s', code)) :
    afterWrites s.disk
      (storeFileSectors s slot fileName data size parentBlock) = s'.disk := by
  unfold storeFile at h
  unfold storeFileSectors
  cases hkmalloc : kmalloc s.heap (blocksNeeded size * 4) with
  | none =>
      rw [hkmalloc] at h
      cases h
  | some r =>
      obtain ⟨heap, ptr⟩ := r
      rw [hkmalloc] at h
      dsimp only at h ⊢
      by_cases hptr : ptr = 0
      · rw [if_pos hptr] at h ⊢
        cases h
        rfl
      · rw [if_neg hptr] at h ⊢
        obtain ⟨m, hfind⟩ :=
          findFreeBlocks_eq { s with heap := heap } (blocksNeeded size)
        rw [hfind] at h ⊢
        dsimp only at h ⊢
        by_cases hcode : (if blocksNeeded size ≤
            (ChainFS.freeBlocks { s with heap := heap }).length then (0 : ℤ)
            else -1) ≠ 0
        · rw [if_pos hcode] at h ⊢
          cases h
          rfl
        · rw [if_neg hcode] at h ⊢
          cases h
          rw [afterWrites_append]
          have hchain := writeChainSectors_disk { s with
            heap := heap
            sectorBuffer := m } data ((ChainFS.freeBlocks
              { s with heap := heap }).take (blocksNeeded size)) size 0
          dsimp only at hchain
          rw [hchain]
          rfl

theorem findFreeFileEntry_disk (s : ChainFS) :
    (chainfsFindFreeFileEntry s).1.disk = s.disk := by
  obtain ⟨m, hscan, -⟩ := scanTable_first s slotFree
  unfold chainfsFindFreeFileEntry
  by_cases hmagic : s.magic ≠ chainfsMagic
  · rw [if_pos hmagic]
  · rw [if_neg hmagic, hscan]
    cases s.firstSlot slotFree <;> rfl

theorem targetSlotSectors_disk {found : Option Found}
    {slot : Except ℤ (ℕ × ℕ)} (h : targetSlot s found = .ok (s', slot)) :
    afterWrites s.disk (targetSlotSectors s found) = s'.disk := by
  cases found with
  | some f =>
      simp only [targetSlot, chainfsFreeBlockChain] at h
      cases hwalk : freeChainWalk s (chainFuel s) f.entry.startBlock with
      | none =>
          rw [hwalk] at h
          cases h
      | some s₁ =>
          rw [hwalk] at h
          cases h
          exact freeChainSectors_disk hwalk
  | none =>
      have hfree := findFreeFileEntry_disk s
      rw [Except.ok.inj h] at hfree
      exact hfree.symm

theorem directorySector_disk (s : ChainFS) (path : List UInt8) :
    (directorySector s path).1.disk = s.disk := by
  obtain ⟨m, found, hresolve⟩ := (resolvePath_searched s path).leaves
  unfold directorySector
  rw [hresolve]
  cases found with
  | none => rfl
  | some f =>
      by_cases htype : f.entry.type ≠ chainfsTypeDir
      · simp only [if_pos htype]
      · simp only [if_neg htype]

theorem writeParent_disk (s : ChainFS) (parent : ParentPath) :
    (writeParent s parent).1.disk = s.disk := by
  cases parent with
  | current => rfl
  | root => rfl
  | path chars => exact directorySector_disk s chars

theorem mkdirParent_disk (s : ChainFS) (parent : ParentPath) :
    (mkdirParent s parent).1.disk = s.disk := by
  cases parent with
  | current => rfl
  | root => exact directorySector_disk s [slash]
  | path chars => exact directorySector_disk s chars

theorem listDir_disk (s : ChainFS) (path : List UInt8) (maxFiles : ℕ) :
    (chainfsListDir s path maxFiles).1.disk = s.disk := by
  cases path with
  | nil =>
      obtain ⟨m, hlist⟩ := listTable_state s.currentDirBlock maxFiles s 1
        (tableBlocks s) []
      have hdisk := congrArg ChainFS.disk hlist
      exact hdisk
  | cons c cs =>
      have hdisk := directorySector_disk s (c :: cs)
      simp only [chainfsListDir]
      cases hdir : directorySector s (c :: cs) with
      | mk s₁ dirBlock =>
          rw [hdir] at hdisk
          cases dirBlock with
          | none => exact hdisk
          | some dirBlock =>
              obtain ⟨m, hlist⟩ := listTable_state dirBlock maxFiles s₁ 1
                (tableBlocks s₁) []
              exact (congrArg ChainFS.disk hlist).trans hdisk

theorem readFile_disk (s : ChainFS) (path : List UInt8) (buffer : Memory)
    (n : ℕ) : (chainfsReadFile s path buffer n).1.disk = s.disk := by
  obtain ⟨m, found, hfind⟩ := (findFile_searched s path).leaves
  unfold chainfsReadFile
  rw [hfind]
  cases found with
  | none => rfl
  | some f =>
      obtain ⟨m', hchain⟩ := readChain_state { s with sectorBuffer := m }
        buffer n (f.entry.size + 1) f.entry.size 0 f.entry.startBlock
      have hdisk := congrArg ChainFS.disk hchain
      exact hdisk

theorem chdir_disk (s : ChainFS) (path : List UInt8) :
    (chainfsChdir s path).1.disk = s.disk := by
  obtain ⟨m, found, hresolve⟩ := (resolvePath_searched s path).leaves
  unfold chainfsChdir
  rw [hresolve]
  cases found with
  | none => rfl
  | some f =>
      by_cases htype : f.entry.type ≠ chainfsTypeDir
      · simp only [if_pos htype]
      · simp only [if_neg htype]

theorem init_disk (s : ChainFS) : (chainfsInit s).1.disk = s.disk := by
  unfold chainfsInit
  by_cases hmagic : sbMagic (pataReadSector s 0).sectorBuffer ≠ chainfsMagic
  · rw [if_pos hmagic]
    rfl
  · rw [if_neg hmagic]
    rfl

theorem writeFileSectors_disk
    (h : chainfsWriteFile s path data size = .ok (s', code)) :
    afterWrites s.disk (writeFileSectors s path data size) = s'.disk := by
  obtain ⟨m, found, hfind⟩ := (findFile_searched s path).leaves
  unfold chainfsWriteFile at h
  unfold writeFileSectors
  rw [hfind] at h ⊢
  dsimp only at h ⊢
  cases hsplit : splitParent path with
  | error fault =>
      rw [hsplit] at h
      cases h
  | ok split =>
      obtain ⟨parent, fileName⟩ := split
      rw [hsplit] at h
      dsimp only at h ⊢
      have hdisk := writeParent_disk { s with sectorBuffer := m } parent
      cases hparent : writeParent { s with sectorBuffer := m } parent with
      | mk s₁ parentBlock =>
          rw [hparent] at h hdisk
          dsimp only at hdisk
          cases parentBlock with
          | none =>
              cases h
              exact hdisk.symm
          | some parentBlock =>
              dsimp only at h ⊢
              rw [← hdisk, afterWrites_append]
              cases hslot : targetSlot s₁ found with
              | error fault =>
                  rw [hslot] at h
                  cases h
              | ok r =>
                  obtain ⟨s₂, slot⟩ := r
                  rw [hslot] at h
                  rw [targetSlotSectors_disk hslot]
                  cases slot with
                  | error code =>
                      cases h
                      rfl
                  | ok slot => exact storeFileSectors_disk h

theorem deleteFileSectors_disk
    (h : chainfsDeleteFile s path = .ok (s', code)) :
    afterWrites s.disk (deleteFileSectors s path) = s'.disk := by
  obtain ⟨m, found, hfind⟩ := (findFile_searched s path).leaves
  unfold chainfsDeleteFile at h
  unfold deleteFileSectors
  rw [hfind] at h ⊢
  cases found with
  | none =>
      cases h
      rfl
  | some f =>
      simp only [chainfsFreeBlockChain] at h ⊢
      cases hwalk : freeChainWalk { s with sectorBuffer := m }
          (chainFuel { s with sectorBuffer := m }) f.entry.startBlock with
      | none =>
          rw [hwalk] at h
          cases h
      | some s₁ =>
          rw [hwalk] at h
          cases h
          have hfreed := freeChainSectors_disk hwalk
          dsimp only at hfreed ⊢
          rw [afterWrites_append, hfreed]
          rfl

theorem mkdirSectors_disk (h : chainfsMkdir s path = .ok (s', code)) :
    afterWrites s.disk (mkdirSectors s path) = s'.disk := by
  unfold chainfsMkdir at h
  unfold mkdirSectors
  cases hsplit : splitParent path with
  | error fault =>
      rw [hsplit] at h
      cases h
  | ok split =>
      obtain ⟨parent, dirName⟩ := split
      rw [hsplit] at h
      dsimp only at h ⊢
      have hdisk := mkdirParent_disk s parent
      cases hparent : mkdirParent s parent with
      | mk s₁ parentBlock =>
          rw [hparent] at h hdisk
          dsimp only at hdisk
          rw [← hdisk]
          cases parentBlock with
          | none =>
              cases h
              rfl
          | some parentBlock =>
              obtain ⟨m, found, hfind⟩ :=
                (findInDirectory_searched s₁ parentBlock dirName).leaves
              dsimp only at h ⊢
              rw [hfind] at h ⊢
              cases found with
              | some f =>
                  cases h
                  rfl
              | none =>
                  dsimp only at h ⊢
                  have hfree := findFreeFileEntry_disk
                    { s₁ with sectorBuffer := m }
                  cases hslot : chainfsFindFreeFileEntry
                      { s₁ with sectorBuffer := m } with
                  | mk s₂ slot =>
                      rw [hslot] at h hfree
                      dsimp only at hfree
                      rw [← hfree]
                      cases slot <;> cases h <;> rfl

theorem rmdirSectors_disk (s : ChainFS) (path : List UInt8) :
    afterWrites s.disk (rmdirSectors s path) =
      (chainfsRmdir s path).1.disk := by
  obtain ⟨m, found, hresolve⟩ := (resolvePath_searched s path).leaves
  unfold rmdirSectors chainfsRmdir
  rw [hresolve]
  cases found with
  | none => rfl
  | some f =>
      dsimp only
      by_cases htype : f.entry.type ≠ chainfsTypeDir
      · rw [if_pos htype, if_pos htype]
        rfl
      · rw [if_neg htype, if_neg htype]
        by_cases hroot : f.block =
            ChainFS.rootDirBlock { s with sectorBuffer := m }
        · rw [if_pos hroot, if_pos hroot]
          rfl
        · rw [if_neg hroot, if_neg hroot]
          have hdisk := listDir_disk { s with sectorBuffer := m } path 1
          cases hlist : chainfsListDir { s with sectorBuffer := m } path 1
            with
          | mk s₁ files =>
              rw [hlist] at hdisk
              dsimp only at hdisk
              rw [← hdisk]
              rcases files with - | (- | ⟨file, files⟩) <;> rfl

/-- A call that returns leaves what its writes make of the disk. -/
theorem sectorWrites_disk {call : FsCall}
    (h : s.exec call = .ok (s', code)) :
    afterWrites s.disk (s.sectorWrites call) = s'.disk := by
  cases call with
  | writeFile filename data size => exact writeFileSectors_disk h
  | deleteFile filename => exact deleteFileSectors_disk h
  | readFile filename buffer n =>
      have hread := readFile_disk s filename.chars buffer n
      simp only [ChainFS.exec] at h
      cases hresult : chainfsReadFile s filename.chars buffer n with
      | mk s₁ out =>
          rw [hresult] at h hread
          cases out <;> cases h <;> exact hread.symm
  | mkdir path => exact mkdirSectors_disk h
  | rmdir path =>
      have hrmdir := rmdirSectors_disk s path.chars
      rw [Except.ok.inj h] at hrmdir
      exact hrmdir
  | chdir path =>
      have hchdir := chdir_disk s path.chars
      rw [Except.ok.inj h] at hchdir
      exact hchdir.symm
  | listDir path n =>
      have hlist := listDir_disk s path.chars n
      simp only [ChainFS.exec] at h
      cases hresult : chainfsListDir s path.chars n with
      | mk s₁ out =>
          rw [hresult] at h hlist
          cases out <;> cases h <;> exact hlist.symm
  | init =>
      have hinit := init_disk s
      rw [Except.ok.inj h] at hinit
      exact hinit.symm

end Otsos
