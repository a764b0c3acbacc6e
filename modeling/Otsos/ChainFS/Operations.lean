import Mathlib.Data.List.Range
import Otsos.ChainFS.Disk

/-!
# The ChainFS operations

The functions of `chainfs.c`, in the order of their calls.  A search that finds
something returns it as an option, `none` being the code `-1`; the public
operations return their code.  Every function that reads a sector leaves it in
the sector buffer.
-/

namespace Otsos

open Lib

/-! ## Searching the file table -/

/-- Where an entry lies in the file table, with its contents. -/
structure Found where
  entry : FileEntry
  block : ℕ
  offset : ℕ

/-- The loop over the table shared by the searches: the first slot, from
`block` on, whose bytes in the sector buffer pass the test. -/
def scanTable (test : Memory → ℕ → Bool) (s : ChainFS) (block : ℕ) :
    ℕ → ChainFS × Option (ℕ × ℕ)
  | 0 => (s, none)
  | n + 1 =>
      let s := pataReadSector s block
      match (List.range entriesPerBlock).find? (test s.sectorBuffer) with
      | some i => (s, some (block, i))
      | none => scanTable test s (block + 1) n

/-- `for (block = 1; block < 1 + file_table_block_count; block++)`. -/
def tableBlocks (s : ChainFS) : ℕ := wrap32 (1 + s.fileTableBlockCount) - 1

def slotFree (m : Memory) (i : ℕ) : Bool := m (sizeofFileEntry * i) == 0

def chainfsFindFreeFileEntry (s : ChainFS) :
    ChainFS × Except ℤ (ℕ × ℕ) :=
  if s.magic ≠ chainfsMagic then (s, .error (-2))
  else
    match scanTable slotFree s 1 (tableBlocks s) with
    | (s, some slot) => (s, .ok slot)
    | (s, none) => (s, .error (-1))

def slotMatches (dirBlock : ℕ) (name : List UInt8) (m : Memory) (i : ℕ) :
    Bool :=
  m (sizeofFileEntry * i) == 1 &&
    m.load (sizeofFileEntry * i + 40) 4 == dirBlock &&
    strcmpEq m (sizeofFileEntry * i + 2) name

def chainfsFindInDirectory (s : ChainFS) (dirBlock : ℕ)
    (name : List UInt8) : ChainFS × Option Found :=
  match scanTable (slotMatches dirBlock name) s 1 (tableBlocks s) with
  | (s, some (block, i)) => (s, some ⟨entryAt s.sectorBuffer i, block, i⟩)
  | (s, none) => (s, none)

/-! ## Paths -/

/-- A component that fits `components[][32]` is kept, unless it is empty. -/
def keepComponent (component : List UInt8)
    (components : List (List UInt8)) : List (List UInt8) :=
  if 0 < component.length ∧ component.length < 31 then
    components ++ [component]
  else components

/-- The loop of `split_path`: `component` is what was read since `start`. -/
def splitPathFrom : List UInt8 → List UInt8 → List (List UInt8) →
    List (List UInt8)
  | path, component, components =>
      if 16 ≤ components.length then components
      else
        match path with
        | [] => keepComponent component components
        | c :: path =>
            if c = slash then
              splitPathFrom path [] (keepComponent component components)
            else splitPathFrom path (component ++ [c]) components

def splitPath (path : List UInt8) : List (List UInt8) :=
  if path.head? = some slash then splitPathFrom path.tail [] []
  else splitPathFrom path [] []

/-- `(found_block - 1) * ENTRIES_PER_BLOCK + found_offset`, stored in a
`u32`. -/
def entryIndex (block offset : ℕ) : ℕ :=
  wrap32 (sub32 block 1 * entriesPerBlock + offset)

/-- The loop of `chainfs_resolve_path` over the components. -/
def resolveComponents (s : ChainFS) (current : ℕ) :
    List (List UInt8) → ChainFS × Option Found
  | [] => (s, none)
  | c :: cs =>
      match chainfsFindInDirectory s current c with
      | (s, none) => (s, none)
      | (s, some f) =>
          if cs = [] then (s, some f)
          else if f.entry.type ≠ chainfsTypeDir then (s, none)
          else resolveComponents s (entryIndex f.block f.offset) cs

def chainfsResolvePath (s : ChainFS) (path : List UInt8) :
    ChainFS × Option Found :=
  let components := splitPath path
  let absolute := path.head? = some slash
  let current := if absolute then s.rootDirBlock else s.currentDirBlock
  if components = [] ∧ absolute then
    let s := pataReadSector s current
    (s, some ⟨entryAt s.sectorBuffer 0, current, 0⟩)
  else resolveComponents s current components

def chainfsFindFile (s : ChainFS) (filename : List UInt8) :
    ChainFS × Option Found :=
  if slash ∈ filename then chainfsResolvePath s filename
  else chainfsFindInDirectory s s.currentDirBlock filename

/-- The position of the last `'/'`. -/
def lastSlash (path : List UInt8) : Option ℕ :=
  (List.range path.length).reverse.find? fun i => path[i]? == some slash

/-- The directory part of a path, as `chainfs_write_file` and `chainfs_mkdir`
distinguish it. -/
inductive ParentPath where
  | current
  | root
  | path (chars : List UInt8)
deriving DecidableEq, Repr

/-- `strcpy` into an array of 32 characters. -/
def copyName (name : List UInt8) : Except Fault (List UInt8) :=
  if name.length < 32 then .ok name else .error .overflow

/-- The split of a path into its directory and its last name, copied into
`parent_path[256]` and an array of 32 characters. -/
def splitParent (path : List UInt8) :
    Except Fault (ParentPath × List UInt8) :=
  match lastSlash path with
  | none => (copyName path).map fun name => (.current, name)
  | some 0 => (copyName (path.drop 1)).map fun name => (.root, name)
  | some (k + 1) =>
      if k + 1 < chainfsMaxPath then
        (copyName (path.drop (k + 2))).map fun name =>
          (.path (path.take (k + 1)), name)
      else .error .overflow

/-- The sector that holds the directory at `path`, the parent identifier that
`chainfs_write_file` and `chainfs_mkdir` store. -/
def directorySector (s : ChainFS) (path : List UInt8) :
    ChainFS × Option ℕ :=
  match chainfsResolvePath s path with
  | (s, none) => (s, none)
  | (s, some f) =>
      if f.entry.type ≠ chainfsTypeDir then (s, none) else (s, some f.block)

/-! ## The block map -/

def mapSector (s : ChainFS) (mapBlock : ℕ) : ℕ :=
  wrap32 (1 + s.fileTableBlockCount + mapBlock)

def chainfsReadBlockMapEntry (s : ChainFS) (blockIndex : ℕ) :
    ChainFS × Option ℕ :=
  let mapBlock := blockIndex / mapEntriesPerBlock
  let mapOffset := blockIndex % mapEntriesPerBlock
  if s.blockMapBlockCount ≤ mapBlock then (s, none)
  else
    let s := pataReadSector s (mapSector s mapBlock)
    (s, some (s.sectorBuffer.load (4 * mapOffset) 4))

def chainfsWriteBlockMapEntry (s : ChainFS) (blockIndex nextBlock : ℕ) :
    ChainFS × ℤ :=
  let mapBlock := blockIndex / mapEntriesPerBlock
  let mapOffset := blockIndex % mapEntriesPerBlock
  if s.blockMapBlockCount ≤ mapBlock then (s, -1)
  else
    let sector := mapSector s mapBlock
    let s := pataReadSector s sector
    let s := { s with
      sectorBuffer := s.sectorBuffer.store (4 * mapOffset) 4 nextBlock }
    (pataWriteSector s sector, 0)

/-- The loop of `chainfs_find_free_blocks` with `left` iterations to go. -/
def findFreeBlocksFrom (count : ℕ) (s : ChainFS) :
    ℕ → ℕ → List ℕ → ChainFS × List ℕ
  | 0, _, blocks => (s, blocks)
  | left + 1, i, blocks =>
      if blocks.length < count then
        match chainfsReadBlockMapEntry s i with
        | (s, none) => findFreeBlocksFrom count s left (i + 1) blocks
        | (s, some nextBlock) =>
            if nextBlock = chainfsFreeBlock then
              findFreeBlocksFrom count s left (i + 1) (blocks ++ [i])
            else findFreeBlocksFrom count s left (i + 1) blocks
      else (s, blocks)

def totalDataBlocks (s : ChainFS) : ℕ := sub32 s.blockCount s.dataAreaStart

/-- The code and the blocks found.  The array they are stored in is read by the
caller only. -/
def chainfsFindFreeBlocks (s : ChainFS) (count : ℕ) :
    ChainFS × ℤ × List ℕ :=
  match findFreeBlocksFrom count s (totalDataBlocks s) 0 [] with
  | (s, blocks) => (s, if blocks.length = count then 0 else -1, blocks)

/-- The loop of `chainfs_free_block_chain`. -/
def freeChainWalk (s : ChainFS) : ℕ → ℕ → Option ChainFS
  | 0, _ => none
  | fuel + 1, current =>
      if current = chainfsEofMarker then some s
      else
        match chainfsReadBlockMapEntry s current with
        | (s, none) => some s
        | (s, some next) =>
            freeChainWalk
              (chainfsWriteBlockMapEntry s current chainfsFreeBlock).1 fuel
              next

/-- More iterations than there are map entries, and three. -/
def chainFuel (s : ChainFS) : ℕ :=
  mapEntriesPerBlock * s.blockMapBlockCount + 3

/-- `none` when the loop never ends. -/
def chainfsFreeBlockChain (s : ChainFS) (startBlock : ℕ) : Option ChainFS :=
  freeChainWalk s (chainFuel s) startBlock

/-! ## Files -/

/-- The loop of `chainfs_read_file`; every iteration copies something, so
`remaining` bounds their number. -/
def readChain (s : ChainFS) (buffer : Memory) (bufferSize : ℕ) :
    ℕ → ℕ → ℕ → ℕ → ChainFS × Memory × ℕ
  | 0, _, copied, _ => (s, buffer, copied)
  | fuel + 1, remaining, copied, current =>
      if 0 < remaining ∧ current ≠ chainfsEofMarker ∧
          copied < bufferSize then
        let s := pataReadSector s (wrap32 (s.dataAreaStart + current))
        let toCopy :=
          if chainfsBlockSize < remaining then chainfsBlockSize else remaining
        let toCopy :=
          if bufferSize < wrap32 (copied + toCopy) then bufferSize - copied
          else toCopy
        let buffer := copyBytes buffer copied s.sectorBuffer 0 toCopy
        let copied := wrap32 (copied + toCopy)
        let remaining := remaining - toCopy
        if 0 < remaining then
          match chainfsReadBlockMapEntry s current with
          | (s, none) => (s, buffer, copied)
          | (s, some next) =>
              readChain s buffer bufferSize fuel remaining copied next
        else (s, buffer, copied)
      else (s, buffer, copied)

/-- On success the buffer and `*bytes_read`; `none` is the code `-1`. -/
def chainfsReadFile (s : ChainFS) (filename : List UInt8) (buffer : Memory)
    (bufferSize : ℕ) : ChainFS × Option (Memory × ℕ) :=
  match chainfsFindFile s filename with
  | (s, none) => (s, none)
  | (s, some f) =>
      let r := readChain s buffer bufferSize (f.entry.size + 1) f.entry.size 0
        f.entry.startBlock
      (r.1, some r.2)

/-- `parent_block` of `chainfs_write_file`. -/
def writeParent (s : ChainFS) : ParentPath → ChainFS × Option ℕ
  | .current => (s, some s.currentDirBlock)
  | .root => (s, some s.rootDirBlock)
  | .path chars => directorySector s chars

/-- The blocks of a file of `size` bytes. -/
def blocksNeeded (size : ℕ) : ℕ :=
  let n := wrap32 (size + chainfsBlockSize - 1) / chainfsBlockSize
  if n = 0 then 1 else n

/-- The loop of `chainfs_write_file` over the allocated blocks. -/
def writeChain (s : ChainFS) (data : Memory) :
    List ℕ → ℕ → ℕ → ChainFS
  | [], _, _ => s
  | b :: bs, remaining, dataOffset =>
      let toCopy :=
        if chainfsBlockSize < remaining then chainfsBlockSize else remaining
      let s := { s with
        sectorBuffer := copyBytes zeroSector 0 data dataOffset toCopy }
      let realSector := wrap32 (s.dataAreaStart + b)
      let s := pataWriteSector s realSector
      let s := { s with dataWrites := realSector :: s.dataWrites }
      let nextBlock := bs.headD chainfsEofMarker
      let s := (chainfsWriteBlockMapEntry s b nextBlock).1
      writeChain s data bs (remaining - toCopy) (dataOffset + toCopy)

/-- `chainfs_write_file` from the heap allocation on, with the slot and the
parent of the entry known. -/
def storeFile (s : ChainFS) (slot : ℕ × ℕ) (fileName : List UInt8)
    (data : Memory) (size parentBlock : ℕ) : Except Fault (ChainFS × ℤ) :=
  match kmalloc s.heap (blocksNeeded size * 4) with
  | none => .error .hang
  | some (heap, ptr) =>
      let s := { s with heap := heap }
      if ptr = 0 then .ok (s, -1)
      else
        match chainfsFindFreeBlocks s (blocksNeeded size) with
        | (s, code, blocks) =>
            if code ≠ 0 then .ok ({ s with heap := kfree s.heap ptr }, -1)
            else
              let s := writeChain s data blocks size 0
              let s := pataReadSector s slot.1
              let s := { s with
                sectorBuffer := setFileEntry s.sectorBuffer slot.2 fileName
                  size (blocks.headD 0) parentBlock }
              let s := pataWriteSector s slot.1
              .ok ({ s with heap := kfree s.heap ptr }, 0)

/-- The slot to write: that of the existing entry, whose chain is released
first, or a free one. -/
def targetSlot (s : ChainFS) :
    Option Found → Except Fault (ChainFS × Except ℤ (ℕ × ℕ))
  | some f =>
      match chainfsFreeBlockChain s f.entry.startBlock with
      | none => .error .hang
      | some s => .ok (s, .ok (f.block, f.offset))
  | none => .ok (chainfsFindFreeFileEntry s)

def chainfsWriteFile (s : ChainFS) (filename : List UInt8) (data : Memory)
    (size : ℕ) : Except Fault (ChainFS × ℤ) :=
  match chainfsFindFile s filename with
  | (s, found) =>
      match splitParent filename with
      | .error fault => .error fault
      | .ok (parent, fileName) =>
          match writeParent s parent with
          | (s, none) => .ok (s, -1)
          | (s, some parentBlock) =>
              match targetSlot s found with
              | .error fault => .error fault
              | .ok (s, .error code) => .ok (s, code)
              | .ok (s, .ok slot) =>
                  storeFile s slot fileName data size parentBlock

/-- `entries[offset].status = 0`. -/
def clearStatus (s : ChainFS) (block offset : ℕ) : ChainFS :=
  let s := pataReadSector s block
  let s := { s with sectorBuffer := setStatus s.sectorBuffer offset 0 }
  pataWriteSector s block

def chainfsDeleteFile (s : ChainFS) (filename : List UInt8) :
    Except Fault (ChainFS × ℤ) :=
  match chainfsFindFile s filename with
  | (s, none) => .ok (s, -1)
  | (s, some f) =>
      match chainfsFreeBlockChain s f.entry.startBlock with
      | none => .error .hang
      | some s => .ok (clearStatus s f.block f.offset, 0)

/-! ## Directories -/

/-- `parent_block` of `chainfs_mkdir`. -/
def mkdirParent (s : ChainFS) : ParentPath → ChainFS × Option ℕ
  | .current => (s, some s.currentDirBlock)
  | .root => directorySector s [slash]
  | .path chars => directorySector s chars

def chainfsMkdir (s : ChainFS) (path : List UInt8) :
    Except Fault (ChainFS × ℤ) :=
  match splitParent path with
  | .error fault => .error fault
  | .ok (parent, dirName) =>
      match mkdirParent s parent with
      | (s, none) => .ok (s, -1)
      | (s, some parentBlock) =>
          match chainfsFindInDirectory s parentBlock dirName with
          | (s, some _) => .ok (s, -1)
          | (s, none) =>
              match chainfsFindFreeFileEntry s with
              | (s, .error _) => .ok (s, -1)
              | (s, .ok slot) =>
                  let s := pataReadSector s slot.1
                  let s := { s with
                    sectorBuffer := setDirEntry s.sectorBuffer slot.2 dirName
                      parentBlock }
                  .ok (pataWriteSector s slot.1, 0)

def chainfsChdir (s : ChainFS) (path : List UInt8) : ChainFS × ℤ :=
  match chainfsResolvePath s path with
  | (s, none) => (s, -1)
  | (s, some f) =>
      if f.entry.type ≠ chainfsTypeDir then (s, -1)
      else ({ s with currentDirBlock := entryIndex f.block f.offset }, 0)

/-- The entries of one sector that belong to the directory, as long as there is
room for them. -/
def listSector (dirBlock maxFiles : ℕ) (m : Memory)
    (files : List FileEntry) : List FileEntry :=
  (List.range entriesPerBlock).foldl (fun files i =>
    if files.length < maxFiles ∧ m (sizeofFileEntry * i) = 1 ∧
        m.load (sizeofFileEntry * i + 40) 4 = dirBlock then
      files ++ [entryAt m i]
    else files) files

/-- The loop of `chainfs_list_dir` over the table. -/
def listTable (dirBlock maxFiles : ℕ) (s : ChainFS) (block : ℕ) :
    ℕ → List FileEntry → ChainFS × List FileEntry
  | 0, files => (s, files)
  | n + 1, files =>
      if files.length < maxFiles then
        let s := pataReadSector s block
        listTable dirBlock maxFiles s (block + 1) n
          (listSector dirBlock maxFiles s.sectorBuffer files)
      else (s, files)

/-- The entries listed; `none` is the code `-1`. -/
def chainfsListDir (s : ChainFS) (path : List UInt8) (maxFiles : ℕ) :
    ChainFS × Option (List FileEntry) :=
  match path with
  | [] =>
      let r := listTable s.currentDirBlock maxFiles s 1 (tableBlocks s) []
      (r.1, some r.2)
  | _ =>
      match directorySector s path with
      | (s, none) => (s, none)
      | (s, some dirBlock) =>
          let r := listTable dirBlock maxFiles s 1 (tableBlocks s) []
          (r.1, some r.2)

def chainfsRmdir (s : ChainFS) (path : List UInt8) : ChainFS × ℤ :=
  match chainfsResolvePath s path with
  | (s, none) => (s, -1)
  | (s, some f) =>
      if f.entry.type ≠ chainfsTypeDir then (s, -1)
      else if f.block = s.rootDirBlock then (s, -1)
      else
        match chainfsListDir s path 1 with
        | (s, some (_ :: _)) => (s, -1)
        | (s, _) => (clearStatus s f.block f.offset, 0)

end Otsos
