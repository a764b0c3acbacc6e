import Mathlib.Logic.Function.Basic
import Otsos.Heap.Allocator
import Otsos.Mlibc.Strings

/-!
# The ChainFS disk

The state of `chainfs.c` over a disk that is an array of 512-byte sectors:
`pata_read_sector` and `pata_write_sector` move one sector between the disk and
the single sector buffer.  Sectors are byte memories of which the code uses the
first 512 bytes.  `u32` arithmetic wraps where the source can overflow.
-/

namespace Otsos

open Lib

def chainfsMagic : ℕ := 0xCAFEBABE
def chainfsBlockSize : ℕ := 512
def chainfsEofMarker : ℕ := 0xFFFFFFFF
def chainfsFreeBlock : ℕ := 0
def chainfsMaxPath : ℕ := 256
def chainfsTypeFile : UInt8 := 0
def chainfsTypeDir : UInt8 := 1

/-- `sizeof(chainfs_file_entry_t)`; the structure is packed. -/
def sizeofFileEntry : ℕ := 60

/-- `CHAINFS_BLOCK_SIZE / sizeof(chainfs_file_entry_t)`: the last 32 bytes of a
sector of the table stay unused. -/
def entriesPerBlock : ℕ := 8

example : chainfsBlockSize / sizeofFileEntry = entriesPerBlock := rfl

/-- `CHAINFS_BLOCK_SIZE / sizeof(u32)`. -/
def mapEntriesPerBlock : ℕ := 128

/-- The character `'/'`. -/
def slash : UInt8 := 47

/-- `g_chainfs`, the disk under it and the heap it allocates from.
`dataWrites` is a ghost: the sectors written with file contents so far. -/
structure ChainFS where
  disk : ℕ → Memory
  superblock : Memory
  dataAreaStart : ℕ
  currentDirBlock : ℕ
  sectorBuffer : Memory
  heap : Heap
  dataWrites : List ℕ

/-- What can keep a call from returning: a loop without end, or a write past
the end of an array on the stack. -/
inductive Fault where
  | hang
  | overflow
deriving DecidableEq, Repr

/-! ## Superblock -/

def sbMagic (m : Memory) : ℕ := m.load 0 4
def sbBlockCount (m : Memory) : ℕ := m.load 4 4
def sbFileTableBlockCount (m : Memory) : ℕ := m.load 8 4
def sbBlockMapBlockCount (m : Memory) : ℕ := m.load 12 4
def sbTotalFiles (m : Memory) : ℕ := m.load 16 4
def sbRootDirBlock (m : Memory) : ℕ := m.load 20 4

namespace ChainFS

def magic (s : ChainFS) : ℕ := sbMagic s.superblock
def blockCount (s : ChainFS) : ℕ := sbBlockCount s.superblock
def fileTableBlockCount (s : ChainFS) : ℕ :=
  sbFileTableBlockCount s.superblock
def blockMapBlockCount (s : ChainFS) : ℕ := sbBlockMapBlockCount s.superblock
def rootDirBlock (s : ChainFS) : ℕ := sbRootDirBlock s.superblock

end ChainFS

/-! ## Sectors -/

def pataReadSector (s : ChainFS) (lba : ℕ) : ChainFS :=
  { s with sectorBuffer := s.disk lba }

def pataWriteSector (s : ChainFS) (lba : ℕ) : ChainFS :=
  { s with disk := Function.update s.disk lba s.sectorBuffer }

def zeroSector : Memory := fun _ => 0

/-- `for (block = first; block < first + n; block++)
pata_write_sector(block, sector_buffer)`. -/
def writeSectors (s : ChainFS) (first : ℕ) : ℕ → ChainFS
  | 0 => s
  | n + 1 => writeSectors (pataWriteSector s first) (first + 1) n

/-! ## File entries -/

/-- `chainfs_file_entry_t`, read out of a sector. -/
@[ext] structure FileEntry where
  status : UInt8
  type : UInt8
  name : List UInt8
  size : ℕ
  startBlock : ℕ
  parentBlock : ℕ
  reserved : List UInt8
deriving DecidableEq, Repr

/-- `entries[i]`. -/
def entryAt (m : Memory) (i : ℕ) : FileEntry where
  status := m (sizeofFileEntry * i)
  type := m (sizeofFileEntry * i + 1)
  name := (List.range 30).map fun j => m (sizeofFileEntry * i + 2 + j)
  size := m.load (sizeofFileEntry * i + 32) 4
  startBlock := m.load (sizeofFileEntry * i + 36) 4
  parentBlock := m.load (sizeofFileEntry * i + 40) 4
  reserved := (List.range 16).map fun j => m (sizeofFileEntry * i + 44 + j)

/-- The name up to its terminator. -/
def FileEntry.cname (e : FileEntry) : List UInt8 :=
  e.name.takeWhile (· ≠ 0)

def setStatus (m : Memory) (i : ℕ) (v : UInt8) : Memory :=
  m.set (sizeofFileEntry * i) v

/-- The entry that `chainfs_write_file` fills in. -/
def setFileEntry (m : Memory) (i : ℕ) (fileName : List UInt8)
    (size startBlock parentBlock : ℕ) : Memory :=
  let m := m.set (sizeofFileEntry * i) 1
  let m := m.set (sizeofFileEntry * i + 1) chainfsTypeFile
  let m := copyBytes m (sizeofFileEntry * i + 2) zeroSector 0 30
  let m := copyChars m (sizeofFileEntry * i + 2) (fileName.take 29)
  let m := m.store (sizeofFileEntry * i + 32) 4 size
  let m := m.store (sizeofFileEntry * i + 36) 4 startBlock
  m.store (sizeofFileEntry * i + 40) 4 parentBlock

/-- The entry that `chainfs_mkdir` fills in; the terminator of a name of 30 or
31 characters falls on the size field, written after it. -/
def setDirEntry (m : Memory) (i : ℕ) (dirName : List UInt8)
    (parentBlock : ℕ) : Memory :=
  let m := m.set (sizeofFileEntry * i) 1
  let m := m.set (sizeofFileEntry * i + 1) chainfsTypeDir
  let m := strcpy m (sizeofFileEntry * i + 2) dirName
  let m := m.store (sizeofFileEntry * i + 32) 4 0
  let m := m.store (sizeofFileEntry * i + 36) 4 0
  m.store (sizeofFileEntry * i + 40) 4 parentBlock

/-! ## Mounting and formatting -/

def chainfsInit (s : ChainFS) : ChainFS × ℤ :=
  let s := pataReadSector s 0
  if sbMagic s.sectorBuffer ≠ chainfsMagic then (s, -1)
  else
    let s := { s with superblock := s.sectorBuffer }
    let s := { s with
      dataAreaStart :=
        wrap32 (1 + s.fileTableBlockCount + s.blockMapBlockCount) }
    ({ s with currentDirBlock := s.rootDirBlock }, 0)

/-- `M`, the blocks of the file table. -/
def formatTableBlocks (maxFiles : ℕ) : ℕ :=
  wrap32 (maxFiles + entriesPerBlock - 1) / entriesPerBlock

/-- `N`, the blocks of the block map. -/
def formatMapBlocks (totalBlocks maxFiles : ℕ) : ℕ :=
  let dataBlocks :=
    sub32 (sub32 totalBlocks 1) (formatTableBlocks maxFiles)
  wrap32 (dataBlocks + mapEntriesPerBlock - 1) / mapEntriesPerBlock

def formatSuperblock (totalBlocks maxFiles : ℕ) : Memory :=
  let m := zeroSector
  let m := m.store 0 4 chainfsMagic
  let m := m.store 4 4 totalBlocks
  let m := m.store 8 4 (formatTableBlocks maxFiles)
  let m := m.store 12 4 (formatMapBlocks totalBlocks maxFiles)
  let m := m.store 16 4 maxFiles
  m.store 20 4 0

/-- The first sector of a fresh file table. -/
def formatRootSector : Memory :=
  let m := zeroSector
  let m := m.set 0 1
  let m := m.set 1 chainfsTypeDir
  let m := m.set 2 slash
  let m := m.set 3 0
  let m := m.store 32 4 0
  let m := m.store 36 4 0
  m.store 40 4 0xFFFFFFFF

def chainfsFormat (s : ChainFS) (totalBlocks maxFiles : ℕ) : ChainFS × ℤ :=
  let fileTableBlocks := formatTableBlocks maxFiles
  let blockMapBlocks := formatMapBlocks totalBlocks maxFiles
  let s := { s with sectorBuffer := formatSuperblock totalBlocks maxFiles }
  let s := pataWriteSector s 0
  let s := { s with sectorBuffer := formatRootSector }
  let s := pataWriteSector s 1
  let s := { s with sectorBuffer := zeroSector }
  let s := writeSectors s 2 (wrap32 (1 + fileTableBlocks) - 2)
  let s := writeSectors s (wrap32 (1 + fileTableBlocks))
    (wrap32 (1 + fileTableBlocks + blockMapBlocks) -
      wrap32 (1 + fileTableBlocks))
  chainfsInit s

end Otsos
