import Otsos.Lib.Masks
import Otsos.Lib.Tiling
import Otsos.Mlibc.MemoryBlocks

/-!
# The kernel heap allocator

`mlibc/memory.c`, over a byte memory.  A header occupies 32 bytes in front of
its payload; pointers and `unsigned long` are 64-bit words.  A walk along
`next` is given as many steps as there are addresses.  A walk that uses them
all has met some header twice and, since walking writes nothing, never ends:
the answer is then `none`.
-/

namespace Otsos

open Lib

def heapSize : ℕ := 128 * 1024
def heapMagic : ℕ := 0x48454150

/-- `sizeof(header_t)`. -/
def sizeofHeader : ℕ := 32

/-- Where the linker put the end of the kernel image.  The image is linked at
1 MiB (`linker.ld`) and runs in the lower half of the address space. -/
structure KernelImage where
  kernelEnd : ℕ
  linked : 0x100000 ≤ kernelEnd
  lowHalf : kernelEnd < 2 ^ 47

/-- The memory together with the static variables of `memory.c`. -/
structure Heap where
  image : KernelImage
  mem : Memory
  heapStart : ℕ
  heapEnd : ℕ
  heapHead : ℕ

/-! ## Header fields -/

def magicField (m : Memory) (h : ℕ) : ℕ := m.load h 4
def isFreeField (m : Memory) (h : ℕ) : ℕ := m.load (h + 4) 4
def sizeField (m : Memory) (h : ℕ) : ℕ := m.load (h + 8) 8
def nextField (m : Memory) (h : ℕ) : ℕ := m.load (h + 16) 8
def prevField (m : Memory) (h : ℕ) : ℕ := m.load (h + 24) 8

def setMagic (m : Memory) (h v : ℕ) : Memory := m.store h 4 v
def setIsFree (m : Memory) (h v : ℕ) : Memory := m.store (h + 4) 4 v
def setSize (m : Memory) (h v : ℕ) : Memory := m.store (h + 8) 8 v
def setNext (m : Memory) (h v : ℕ) : Memory := m.store (h + 16) 8 v
def setPrev (m : Memory) (h v : ℕ) : Memory := m.store (h + 24) 8 v

def align16 (size : ℕ) : ℕ := clearBits (wrap64 (size + 15)) 15

/-! ## Splitting and joining blocks -/

/-- `if (via->next) via->next->prev = h;`. -/
def relinkNext (m : Memory) (via h : ℕ) : Memory :=
  if nextField m via ≠ 0 then setPrev m (nextField m via) h else m

def splitBlock (m : Memory) (current size : ℕ) : Memory :=
  if wrap64 (size + sizeofHeader + 16) ≤ sizeField m current then
    let newBlock := wrap64 (current + sizeofHeader + size)
    let m := setMagic m newBlock heapMagic
    let m := setSize m newBlock
      (sub64 (sub64 (sizeField m current) size) sizeofHeader)
    let m := setIsFree m newBlock 1
    let m := setNext m newBlock (nextField m current)
    let m := setPrev m newBlock current
    let m := relinkNext m newBlock newBlock
    let m := setSize m current size
    setNext m current newBlock
  else m

/-- The three statements by which a block takes over its successor:
`b->size += sizeof(header_t) + n->size; b->next = n->next;` and the back link,
found through `b` or through `n`. -/
def absorb (m : Memory) (b n via : ℕ) : Memory :=
  let m := setSize m b
    (wrap64 (sizeField m b + wrap64 (sizeofHeader + sizeField m n)))
  let m := setNext m b (nextField m n)
  relinkNext m via b

def coalesce (m : Memory) (block : ℕ) : Memory × ℕ :=
  if block = 0 ∨ isFreeField m block = 0 then (m, block)
  else
    let next := nextField m block
    let m :=
      if next ≠ 0 ∧ isFreeField m next ≠ 0 ∧ magicField m next = heapMagic then
        absorb m block next block
      else m
    let prev := prevField m block
    if prev ≠ 0 ∧ isFreeField m prev ≠ 0 ∧ magicField m prev = heapMagic then
      (absorb m prev block block, prev)
    else (m, block)

/-! ## The entry points -/

def initHeap (h : Heap) : Heap :=
  let start := align16 h.image.kernelEnd
  let m := setMagic h.mem start heapMagic
  let m := setSize m start (heapSize - sizeofHeader)
  let m := setNext m start 0
  let m := setPrev m start 0
  let m := setIsFree m start 1
  { h with
    mem := m
    heapStart := start
    heapEnd := wrap64 (start + heapSize)
    heapHead := start }

/-- `if (!heap_head) init_heap();`. -/
def ensureHeap (h : Heap) : Heap :=
  if h.heapHead = 0 then initHeap h else h

/-- As many steps as there are addresses. -/
def walkFuel : ℕ := 2 ^ 64

/-- The loop of `kmalloc` from `current` on. -/
def kmallocWalk (m : Memory) (size : ℕ) :
    ℕ → ℕ → Option (Memory × ℕ)
  | 0, _ => none
  | fuel + 1, current =>
      if current = 0 then some (m, 0)
      else if magicField m current ≠ heapMagic then some (m, 0)
      else if isFreeField m current ≠ 0 ∧ size ≤ sizeField m current then
        some (setIsFree (splitBlock m current size) current 0,
          wrap64 (current + sizeofHeader))
      else kmallocWalk m size fuel (nextField m current)

def kmalloc (h : Heap) (size : ℕ) : Option (Heap × ℕ) :=
  let h := ensureHeap h
  if size = 0 then some (h, 0)
  else
    (kmallocWalk h.mem (align16 size) walkFuel h.heapHead).map
      fun r => ({ h with mem := r.1 }, r.2)

def kfree (h : Heap) (ptr : ℕ) : Heap :=
  if ptr = 0 then h
  else if h.heapStart = 0 ∨ h.heapEnd = 0 then h
  else
    let header := sub64 ptr sizeofHeader
    if header < h.heapStart ∨ h.heapEnd ≤ header then h
    else if magicField h.mem header ≠ heapMagic then h
    else if isFreeField h.mem header ≠ 0 then h
    else { h with mem := (coalesce (setIsFree h.mem header 1) header).1 }

def kcalloc (h : Heap) (nmemb size : ℕ) : Option (Heap × ℕ) :=
  let total := wrap64 (nmemb * size)
  if nmemb ≠ 0 ∧ total / nmemb ≠ size then some (h, 0)
  else
    match kmalloc h total with
    | none => none
    | some (h, ptr) =>
        if ptr ≠ 0 then some ({ h with mem := memset h.mem ptr 0 total }, ptr)
        else some (h, ptr)

def krealloc (h : Heap) (ptr size : ℕ) : Option (Heap × ℕ) :=
  if ptr = 0 then kmalloc h size
  else if size = 0 then some (kfree h ptr, 0)
  else
    let header := sub64 ptr sizeofHeader
    if magicField h.mem header ≠ heapMagic then some (h, 0)
    else if size ≤ sizeField h.mem header then some (h, ptr)
    else
      let next := nextField h.mem header
      if next ≠ 0 ∧ isFreeField h.mem next ≠ 0 ∧
          size ≤ wrap64 (wrap64 (sizeField h.mem header + sizeofHeader) +
            sizeField h.mem next) then
        some ({ h with
          mem := splitBlock (absorb h.mem header next header) header
            (align16 size) }, ptr)
      else
        match kmalloc h size with
        | none => none
        | some (h, newPtr) =>
            if newPtr = 0 then some (h, 0)
            else
              let m := memcpy h.mem newPtr ptr (sizeField h.mem header)
              some (kfree { h with mem := m } ptr, newPtr)

/-- The first of the two splits of `kmalloc_aligned`: `padding` bytes, header
included, stay in front of a new block.  Returns the new block. -/
def splitPadding (m : Memory) (current padding : ℕ) : Memory × ℕ :=
  let alignedBlock := wrap64 (current + padding)
  let m := setMagic m alignedBlock heapMagic
  let m := setIsFree m alignedBlock 1
  let m := setSize m alignedBlock (sub64 (sizeField m current) padding)
  let m := setNext m alignedBlock (nextField m current)
  let m := setPrev m alignedBlock current
  let m := relinkNext m alignedBlock alignedBlock
  let m := setNext m current alignedBlock
  (setSize m current (sub64 padding sizeofHeader), alignedBlock)

/-- The loop of `kmalloc_aligned` from `current` on. -/
def kmallocAlignedWalk (m : Memory) (size align : ℕ) :
    ℕ → ℕ → Option (Memory × ℕ)
  | 0, _ => none
  | fuel + 1, current =>
      if current = 0 then some (m, 0)
      else if isFreeField m current ≠ 0 then
        let dataStart := wrap64 (current + sizeofHeader)
        let alignedStart :=
          clearBits (wrap64 (dataStart + (align - 1))) (align - 1)
        let padding := sub64 alignedStart dataStart
        if wrap64 (size + padding) ≤ sizeField m current then
          if sizeofHeader + 16 ≤ padding then
            let (m, alignedBlock) := splitPadding m current padding
            some (setIsFree (splitBlock m alignedBlock size) alignedBlock 0,
              wrap64 (alignedBlock + sizeofHeader))
          else if padding = 0 then
            some (setIsFree (splitBlock m current size) current 0,
              wrap64 (current + sizeofHeader))
          else kmallocAlignedWalk m size align fuel (nextField m current)
        else kmallocAlignedWalk m size align fuel (nextField m current)
      else kmallocAlignedWalk m size align fuel (nextField m current)

def kmallocAligned (h : Heap) (size align : ℕ) : Option (Heap × ℕ) :=
  let h := ensureHeap h
  if size = 0 then some (h, 0)
  else if align ≤ 16 then kmalloc h size
  else
    (kmallocAlignedWalk h.mem (align16 size) align walkFuel h.heapHead).map
      fun r => ({ h with mem := r.1 }, r.2)

/-- The loop of `kget_free_memory` from `current` on. -/
def freeMemoryWalk (m : Memory) : ℕ → ℕ → ℕ → Option ℕ
  | 0, _, _ => none
  | fuel + 1, current, freeMem =>
      if current = 0 then some freeMem
      else
        freeMemoryWalk m fuel (nextField m current)
          (if isFreeField m current ≠ 0 then
            wrap64 (freeMem + sizeField m current)
          else freeMem)

def kgetFreeMemory (h : Heap) : Option ℕ :=
  freeMemoryWalk h.mem walkFuel h.heapHead 0

/-- The loop of `kheap_dump` from `current` on: what it prints of each block,
links apart. -/
def kheapDumpWalk (m : Memory) : ℕ → ℕ → Option (List Block)
  | 0, _ => none
  | fuel + 1, current =>
      if current = 0 then some []
      else
        (kheapDumpWalk m fuel (nextField m current)).map fun bs =>
          ⟨current, sizeField m current,
            decide (isFreeField m current ≠ 0)⟩ :: bs

def kheapDump (h : Heap) : Option (List Block) :=
  kheapDumpWalk h.mem walkFuel h.heapHead

def kmallocUsableSize (h : Heap) (ptr : ℕ) : ℕ :=
  if ptr = 0 then 0
  else
    let header := sub64 ptr sizeofHeader
    if magicField h.mem header ≠ heapMagic then 0 else sizeField h.mem header

end Otsos
