import Otsos.ChainFS.SimpleNames

/-!
# What a call on a simple name does

Storing, removing, and the directory calls, each with what it leaves alone:
the bytes of the other slots and the data of the other files.
-/

namespace Otsos

open Lib

variable {g : Geometry} {s s' : ChainFS} {d d' : ℕ → Memory}
  {chain : ℕ → List ℕ} {idx size parent : ℕ} {name : CString}
  {data : Memory} {bs : List ℕ}

/-! ## Releasing the chain of a file -/

theorem Accounted.chain_nodup (h : Accounted g d chain fun _ => True)
    (idx : ℕ) : (chain idx).Nodup :=
  (h.table.increasing idx).imp fun hlt => Nat.ne_of_lt hlt

theorem FsInvariant.chain_usable (h : FsInvariant g s chain) :
    ∀ b ∈ chain idx, g.Usable b := by
  intro b hb
  obtain ⟨hmapped, hrange⟩ := h.accounts.table.inside idx b hb
  exact ⟨hmapped, hrange, h.noWrap b hrange hmapped⟩

theorem Accounted.chain_head (h : Accounted g d chain fun _ => True)
    (hlive : LiveFile g d idx) :
    (chain idx).headD chainfsEofMarker = (entryOf d idx).startBlock := by
  rw [List.headD_eq_head?_getD, h.start idx trivial hlive]
  rfl

/-- The chain of a live file is released: its blocks are free, its slot is
still to be written. -/
theorem FsInvariant.release (h : FsInvariant g s chain)
    (hlive : LiveFile g s.disk idx) (m : Memory) :
    ∃ d m', chainfsFreeBlockChain { s with sectorBuffer := m }
        (entryOf s.disk idx).startBlock = some { s with
          disk := d
          sectorBuffer := m' } ∧
      SameOutsideMap g s.disk d ∧
      Accounted g d (Function.update chain idx []) (· ≠ idx) := by
  have hmounted : Mounted g { s with sectorBuffer := m } :=
    h.mounted.of_same rfl rfl
  have hreleased := released_chain (h.accounts.table.links idx)
    (h.accounts.chain_nodup idx)
    (fun b hb => (h.chain_usable b hb).mapped)
    (g.eof_not_mem h.chain_usable)
  rw [h.accounts.chain_head hlive] at hreleased
  obtain ⟨d, m', hfree, hout, hmap⟩ :=
    hmounted.freeBlockChain_eq (entryOf s.disk idx).startBlock
  rw [hreleased, Option.map_some] at hfree
  refine ⟨d, m', hfree, hout, h.accounts.release idx ?_ ?_⟩
  · intro j hj
    exact hout.entryOf_eq hj
  · intro b _
    rw [hmap _ hreleased]

/-! ## Storing -/

/-- A file was stored under `name` in the slot `idx`. -/
structure FileStored (g : Geometry) (s s' : ChainFS)
    (chain : ℕ → List ℕ) (idx : ℕ) (chars : List UInt8) (data : Memory)
    (size parent : ℕ) (bs : List ℕ) : Prop where
  invariant : FsInvariant g s' (Function.update chain idx bs)
  current : s'.currentDirBlock = s.currentDirBlock
  slot : idx < g.slots
  slots : ∀ j < g.slots, j ≠ idx → SameSlot s.disk s'.disk j
  status : (entryOf s'.disk idx).status = 1
  type : (entryOf s'.disk idx).type = chainfsTypeFile
  length : (entryOf s'.disk idx).size = size
  answers : ∀ dir other, 0 ∉ other →
    (testSlot (slotMatches dir other) s'.disk idx = true ↔
      dir = parent ∧ other = chars)
  bytes : ∀ i < size, chainByte g s'.disk bs i = data i
  others : ∀ j ≠ idx, ∀ b ∈ chain j,
    s'.disk (g.dataStart + b) = s.disk (g.dataStart + b)

theorem Written.chainByte_eq {off i : ℕ}
    (h : Written g d d' data size off bs) (hi : i < heldBytes size bs) :
    chainByte g d' bs i = data (off + i) := by
  unfold heldBytes at hi
  have hk : i / 512 < bs.length := by omega
  have hbyte := h.bytes (i / 512) hk (i % 512) (by omega) (by omega)
  rw [chainByte, List.getD_eq_getElem?_getD, List.getElem?_eq_getElem hk,
    Option.getD_some, hbyte]
  congr 2
  omega

theorem fileBlocks_le (size : ℕ) : size ≤ 512 * fileBlocks size := by
  unfold fileBlocks
  omega

theorem disk_table_sector {sector t : ℕ} {m : Memory}
    (ht : t < 1 + g.table) (hsector : g.dataStart ≤ sector) :
    Function.update d t m sector = d sector := by
  apply Function.update_of_ne
  simp only [Geometry.dataStart] at hsector
  omega

theorem testSlot_setFileEntry {dir start : ℕ} {chars other : List UInt8}
    (hchars : 0 ∉ chars) (hshort : chars.length ≤ 29)
    (hparent : parent < 2 ^ 32) (hother : 0 ∉ other) :
    testSlot (slotMatches dir other) (editSlot d idx fun m i =>
      setFileEntry m i chars size start parent) idx = true ↔
        dir = parent ∧ other = chars := by
  rw [testSlot_editSlot, slotMatches_iff hother hchars setFileEntry_status
    (setFileEntry_name hshort), setFileEntry_parent hparent, eq_comm]

theorem Stored.disk_eq {chars : List UInt8}
    (h : Stored g s s' (slotOf idx) chars data size parent) :
    ∃ d, Written g s.disk d data size 0 (allocated g s.disk size) ∧
      s'.disk = editSlot d idx fun m i => setFileEntry m i chars size
        ((allocated g s.disk size).headD 0) parent :=
  h.disk

theorem Stored.chainByte_eq {slot : ℕ × ℕ} {chars : List UInt8} {i : ℕ}
    (h : Stored g s s' slot chars data size parent)
    (hslot : slot.1 < 1 + g.table)
    (hi : i < heldBytes size (allocated g s.disk size)) :
    chainByte g s'.disk (allocated g s.disk size) i = data i := by
  obtain ⟨d, hwritten, hdisk⟩ := h.disk
  have hsame : chainByte g s'.disk (allocated g s.disk size) i =
      chainByte g d (allocated g s.disk size) i := by
    simp only [chainByte]
    rw [hdisk, disk_table_sector hslot (Nat.le_add_right _ _)]
  rw [hsame, hwritten.chainByte_eq hi, Nat.zero_add]

theorem Stored.links {slot : ℕ × ℕ} {chars : List UInt8}
    (h : Stored g s s' slot chars data size parent)
    (husable : AllocatedUsable g s.disk size)
    (hslot : slot.1 < 1 + g.table) :
    Links (mapLink g s'.disk) chainfsEofMarker (allocated g s.disk size) := by
  obtain ⟨d, hwritten, hdisk⟩ := h.disk
  have hlinks := @links_linkAll (mapLink g s.disk) chainfsEofMarker _
    (allocated_nodup g s.disk size)
  refine hlinks.congr ?_
  intro b hb
  rw [hdisk, mapLink_table hslot]
  exact hwritten.links b (husable b hb).mapped

theorem Stored.entry {slot : ℕ × ℕ} {chars : List UInt8}
    (h : Stored g s s' slot chars data size parent)
    (husable : AllocatedUsable g s.disk size) (hroom : HasRoom g s size)
    (hsize : size < 2 ^ 32) :
    (entryAt (s'.disk slot.1) slot.2).startBlock =
        (allocated g s.disk size).headD chainfsEofMarker ∧
      (entryAt (s'.disk slot.1) slot.2).size = size := by
  obtain ⟨d, -, hdisk⟩ := h.disk
  obtain ⟨-, hhead, hstart⟩ := allocated_spec husable hroom.2
  rw [hdisk, Function.update_self, setFileEntry_start hstart,
    setFileEntry_size hsize]
  refine ⟨?_, rfl⟩
  rw [List.headD_eq_head?_getD (a := chainfsEofMarker), hhead,
    Option.getD_some]

/-- `storeFile` on an open slot, from the state before the call. -/
theorem FsInvariant.stored {chars : List UInt8}
    (h : FsInvariant g s chain) (s₁ : ChainFS) (hidx : idx < g.slots)
    (hsize : size ≤ 2 ^ 32 - 512) (hparent : parent < 2 ^ 32)
    (hchars : 0 ∉ chars) (hshort : chars.length ≤ 29)
    (hcontrol : SameControl s s₁) (hlog : s₁.dataWrites = s.dataWrites)
    (hout : SameOutsideMap g s.disk s₁.disk)
    (hopen : Accounted g s₁.disk (Function.update chain idx []) (· ≠ idx))
    (hroom : HasRoom g s₁ size)
    (hstored : Stored g s₁ s' (slotOf idx) chars data size parent) :
    FileStored g s s' chain idx chars data size parent
      (allocated g s₁.disk size) := by
  obtain ⟨d, hwritten, hdisk'⟩ := hstored.disk_eq
  have hbs : AllocatedUsable g s₁.disk size :=
    h.noWrap.allocatedUsable s₁.disk size
  have hlen : size ≤ 512 * (allocated g s₁.disk size).length := by
    rw [hroom.length_allocated, blocksNeeded_eq hsize]
    exact fileBlocks_le size
  have haccounts := hopen.store hbs chars parent hidx
    (Function.update_self idx [] chain) hsize hroom.2 hwritten
  rw [Function.update_idem, ← hdisk'] at haccounts
  refine ⟨⟨?_, h.noWrap, hstored.heap, ?_, haccounts, ?_⟩, ?_, hidx, ?_, ?_,
    ?_, ?_, ?_, ?_, ?_⟩
  · exact hstored.control.mounted (hcontrol.mounted h.mounted)
  · rw [hstored.control.current, hcontrol.current]
    exact h.current
  · intro sector hsector
    rw [hstored.log, hlog] at hsector
    rcases List.mem_append.mp hsector with hnew | hold
    · obtain ⟨b, hb, rfl⟩ := List.mem_map.mp (List.mem_reverse.mp hnew)
      have hlt := (hbs b hb).inRange
      omega
    · exact h.log sector hold
  · rw [hstored.control.current, hcontrol.current]
  · intro j hj hne
    have hsector := g.slot_sector hj
    rw [hdisk']
    intro off hoff
    rw [editSlot_other (setFileEntry_edits _ _ _ _) hne off hoff,
      hwritten.table_sector (by omega), hout _ (Or.inl (by omega))]
  · rw [hdisk', entryOf_editSlot, setFileEntry_status]
  · rw [hdisk', entryOf_editSlot, setFileEntry_type]
  · rw [hdisk', entryOf_editSlot, setFileEntry_size (by omega)]
  · intro dir other hother
    rw [hdisk']
    exact testSlot_setFileEntry hchars hshort hparent hother
  · intro i hi
    exact hstored.chainByte_eq (g.slot_sector hidx).2
      (by rwa [heldBytes_of_le hlen])
  · intro j hj b hb
    have hnot : b ∉ allocated g s₁.disk size := by
      intro hmem
      have hb' : b ∈ Function.update chain idx [] j := by
        rwa [Function.update_of_ne hj]
      have hne := (hopen.table.exact b (hbs b hmem).1).mpr ⟨j, hb'⟩
      exact hne (freeBlocks_spec hmem).2.2
    have hle : g.dataStart ≤ g.dataStart + b := Nat.le_add_right _ _
    rw [hdisk', editSlot, disk_table_sector (g.slot_sector hidx).2 hle,
      hwritten.other _ (Or.inr hle), hout _ (Or.inr hle)]
    intro c hc heq
    have hcb : b = c := by omega
    exact hnot (hcb ▸ hc)

/-! ## Removing -/

/-- The slot `idx` was emptied and its chain released. -/
structure SlotCleared (g : Geometry) (s s' : ChainFS)
    (chain : ℕ → List ℕ) (idx : ℕ) : Prop where
  invariant : FsInvariant g s' (Function.update chain idx [])
  current : s'.currentDirBlock = s.currentDirBlock
  slots : ∀ j < g.slots, j ≠ idx → SameSlot s.disk s'.disk j
  status : (entryOf s'.disk idx).status = 0
  others : ∀ sector, g.dataStart ≤ sector → s'.disk sector = s.disk sector

theorem FsInvariant.cleared {m : Memory}
    (h : FsInvariant g s chain) (s₁ : ChainFS) (hidx : idx < g.slots)
    (hcontrol : SameControl s s₁) (hready : HeapReady s₁.heap)
    (hlog : s₁.dataWrites = s.dataWrites)
    (hout : SameOutsideMap g s.disk s₁.disk)
    (hopen : Accounted g s₁.disk (Function.update chain idx [])
      (· ≠ idx)) :
    SlotCleared g s { s₁ with
      disk := editSlot s₁.disk idx fun m i => setStatus m i 0
      sectorBuffer := m } chain idx := by
  have hstatus : (entryOf (editSlot s₁.disk idx fun m i =>
      setStatus m i 0) idx).status = 0 := by
    rw [entryOf_editSlot, setStatus_status]
  refine ⟨⟨?_, h.noWrap, hready, ?_, ?_, ?_⟩, hcontrol.current, ?_, hstatus, ?_⟩
  · exact (hcontrol.mounted h.mounted).of_same rfl rfl
  · show s₁.currentDirBlock < 2 ^ 32
    rw [hcontrol.current]
    exact h.current
  · refine hopen.edit hidx (Function.update_self idx [] chain)
      (setStatus_edits 0) ?_
    intro hone
    rw [hstatus] at hone
    exact absurd hone (by decide)
  · show ∀ sector ∈ s₁.dataWrites, _
    rw [hlog]
    exact h.log
  · intro j hj hne
    have hsector := g.slot_sector hj
    intro off hoff
    dsimp only
    rw [editSlot_other (setStatus_edits 0) hne off hoff,
      hout _ (Or.inl (by omega))]
  · intro sector hsector
    dsimp only
    rw [editSlot, disk_table_sector (g.slot_sector hidx).2 hsector,
      hout _ (Or.inr hsector)]

/-! ## The calls -/

theorem FsInvariant.dead_chain (h : FsInvariant g s chain)
    (hdead : ¬ LiveFile g s.disk idx) : chain idx = [] :=
  h.accounts.dead idx trivial hdead

theorem FsInvariant.not_live_of_free (h : FsInvariant g s chain)
    (hfree : freeSlot g s.disk = some idx) :
    idx < g.slots ∧ chain idx = [] := by
  obtain ⟨hidx, hstatus⟩ := freeSlot_some hfree
  refine ⟨hidx, h.dead_chain ?_⟩
  rintro ⟨-, hone, -⟩
  rw [hstatus] at hone
  exact absurd hone (by decide)

/-- A name that does not denote a directory denotes a file. -/
theorem FsInvariant.live_of_lookup (h : FsInvariant g s chain) {dir : ℕ}
    {chars : List UInt8} (hlookup : lookup g s.disk dir chars = some idx)
    (hnotDir : (entryOf s.disk idx).type ≠ chainfsTypeDir) :
    LiveFile g s.disk idx := by
  obtain ⟨hidx, hone, -⟩ := lookup_some hlookup
  refine ⟨hidx, hone, ?_⟩
  rcases h.accounts.types idx hidx trivial hone with hfile | hdir
  · exact hfile
  · exact absurd hdir hnotDir

/-- The code of the call, and what became of the slot. -/
inductive WriteOutcome (g : Geometry) (s s' : ChainFS)
    (chain : ℕ → List ℕ) (name : CString) (data : Memory) (size : ℕ) :
    ℤ → Prop
  | failed (hnew : lookup g s.disk s.currentDirBlock name.chars = none)
      (hsame : Unchanged s s') : WriteOutcome g s s' chain name data size (-1)
  | lost (idx : ℕ)
      (hold : lookup g s.disk s.currentDirBlock name.chars = some idx) :
      WriteOutcome g s s' chain name data size (-1)
  | stored (idx : ℕ) (bs : List ℕ)
      (hslot : lookup g s.disk s.currentDirBlock name.chars = some idx ∨
        lookup g s.disk s.currentDirBlock name.chars = none ∧
          freeSlot g s.disk = some idx)
      (hstored : FileStored g s s' chain idx name.chars data size
        s.currentDirBlock bs) : WriteOutcome g s s' chain name data size 0

theorem FsInvariant.writeFile_simple (h : FsInvariant g s chain)
    (hname : SimpleName name) (data : Memory) (hsize : size ≤ 2 ^ 32 - 512)
    (hnotDir : ∀ idx,
      lookup g s.disk s.currentDirBlock name.chars = some idx →
        (entryOf s.disk idx).type ≠ chainfsTypeDir) :
    ∃ s' code, chainfsWriteFile s name.chars data size = .ok (s', code) ∧
      WriteOutcome g s s' chain name data size code := by
  have hfind := hname.find_eq (g := g) (s := s)
  cases hlookup : lookup g s.disk s.currentDirBlock name.chars with
  | none =>
      rw [hlookup, Option.map_none] at hfind
      obtain ⟨m, hwrite⟩ := h.mounted.writeFile_new hfind data size
      rw [hwrite, hname.splitParent_eq]
      simp only [writeParentId]
      cases hfree : freeSlot g s.disk with
      | none =>
          exact ⟨_, _, rfl, .failed hlookup
            (Unchanged.of_buffer h.heap m)⟩
      | some idx =>
          obtain ⟨hidx, hnone⟩ := h.not_live_of_free hfree
          have hbuffer := h.withBuffer m
          rcases hbuffer.mounted.storeFile_cases h.heap (slotOf idx)
              name.chars data size s.currentDirBlock with
            ⟨s', hstore, -, hsame⟩ | ⟨s', hstore, hroom, -, hstored⟩
          · refine ⟨s', -1, hstore, .failed hlookup ?_⟩
            exact ⟨⟨hsame.control.superblock, hsame.control.start,
              hsame.control.current⟩, hsame.disk, hsame.log, hsame.heap⟩
          · have hopen := h.accounts.open_ idx
            have hself : Function.update chain idx [] = chain := by
              rw [← hnone, Function.update_eq_self]
            rw [← hself] at hopen
            exact ⟨s', 0, hstore, .stored idx _ (Or.inr ⟨hlookup, hfree⟩)
              (h.stored { s with sectorBuffer := m } hidx hsize h.current
                name.terminated hname.short ⟨rfl, rfl, rfl⟩ rfl
                (SameOutsideMap.refl _ _) hopen hroom
                (hstored (h.noWrap.allocatedUsable _ _)))⟩
  | some idx =>
      rw [hlookup, Option.map_some] at hfind
      have hlive := h.live_of_lookup hlookup (hnotDir idx hlookup)
      obtain ⟨m, hwrite⟩ := h.mounted.writeFile_over hfind data size
      obtain ⟨d, m', hfree, hout, hopen⟩ := h.release hlive m
      rw [hwrite, hname.splitParent_eq]
      simp only [writeParentId, Target.found, foundAt, hfree]
      let s₁ : ChainFS := { s with
        disk := d
        sectorBuffer := m' }
      have hmounted : Mounted g s₁ := h.mounted.of_same rfl rfl
      rcases hmounted.storeFile_cases h.heap (slotOf idx) name.chars data
          size s.currentDirBlock with
        ⟨s', hstore, -, -⟩ | ⟨s', hstore, hroom, -, hstored⟩
      · exact ⟨s', -1, hstore, .lost idx hlookup⟩
      · exact ⟨s', 0, hstore, .stored idx _ (Or.inl hlookup)
          (h.stored s₁ hlive.1 hsize h.current name.terminated hname.short
            ⟨rfl, rfl, rfl⟩ rfl hout hopen hroom
            (hstored (h.noWrap.allocatedUsable _ _)))⟩

theorem FsInvariant.deleteFile_simple (h : FsInvariant g s chain)
    (hname : SimpleName name)
    (hnotDir : ∀ idx,
      lookup g s.disk s.currentDirBlock name.chars = some idx →
        (entryOf s.disk idx).type ≠ chainfsTypeDir) :
    (lookup g s.disk s.currentDirBlock name.chars = none ∧ ∃ s',
      chainfsDeleteFile s name.chars = .ok (s', -1) ∧ Unchanged s s') ∨
    ∃ idx s', lookup g s.disk s.currentDirBlock name.chars = some idx ∧
      chainfsDeleteFile s name.chars = .ok (s', 0) ∧
      SlotCleared g s s' chain idx := by
  have hfind := hname.find_eq (g := g) (s := s)
  obtain ⟨m, hdelete⟩ := h.mounted.deleteFile_eq name.chars
  rw [hdelete, hfind]
  cases hlookup : lookup g s.disk s.currentDirBlock name.chars with
  | none =>
      exact Or.inl ⟨rfl, _, rfl, Unchanged.of_buffer h.heap m⟩
  | some idx =>
      right
      have hlive := h.live_of_lookup hlookup (hnotDir idx hlookup)
      obtain ⟨d, m', hfree, hout, hopen⟩ := h.release hlive m
      simp only [Option.map_some, Target.found, foundAt, hfree]
      let s₁ : ChainFS := { s with
        disk := d
        sectorBuffer := m' }
      exact ⟨idx, _, rfl, rfl, h.cleared s₁ hlive.1 ⟨rfl, rfl, rfl⟩ h.heap
        rfl hout hopen⟩

theorem FsInvariant.mkdir_simple (h : FsInvariant g s chain)
    (hname : SimpleName name) :
    ∃ s' code, chainfsMkdir s name.chars = .ok (s', code) ∧
      FsInvariant g s' chain := by
  obtain ⟨m, hmkdir⟩ := h.mounted.mkdir_eq name.chars
  rw [hmkdir, hname.splitParent_eq]
  simp only [mkdirParentId]
  cases hlookup : lookup g s.disk s.currentDirBlock name.chars with
  | some idx => exact ⟨_, _, rfl, h.withBuffer m⟩
  | none =>
      cases hfree : freeSlot g s.disk with
      | none => exact ⟨_, _, rfl, h.withBuffer m⟩
      | some idx =>
          obtain ⟨hidx, hnone⟩ := h.not_live_of_free hfree
          have hshort := hname.short
          refine ⟨_, _, rfl, h.mounted.of_same rfl rfl, h.noWrap, h.heap,
            h.current, ?_, h.log⟩
          refine (h.accounts.open_ idx).edit hidx hnone
            (setDirEntry_edits _ (by omega)) ?_
          intro _
          rw [entryOf_editSlot, setDirEntry_type]

theorem FsInvariant.rmdir_simple (h : FsInvariant g s chain)
    (hname : SimpleName name) :
    FsInvariant g (chainfsRmdir s name.chars).1 chain := by
  rcases h.mounted.rmdir_cases name.chars with
    ⟨m, hfail⟩ | ⟨idx, m, htarget, hdir, hremoved⟩
  · rw [hfail]
    exact h.withBuffer m
  · rw [hname.resolve_eq] at htarget
    obtain ⟨idx', hlookup, heq⟩ := Option.map_eq_some_iff.mp htarget
    cases heq
    have hnone : chain idx = [] := by
      apply h.dead_chain
      rintro ⟨-, -, hfile⟩
      rw [hdir] at hfile
      exact absurd hfile (by decide)
    rw [hremoved]
    refine ⟨h.mounted.of_same rfl rfl, h.noWrap, h.heap, h.current, ?_,
      h.log⟩
    refine (h.accounts.open_ idx).edit (lookup_some hlookup).1 hnone
      (setStatus_edits 0) ?_
    intro hone
    rw [entryOf_editSlot, setStatus_status] at hone
    exact absurd hone (by decide)

theorem FsInvariant.withCurrent {current : ℕ} (h : FsInvariant g s chain)
    (m : Memory) (hlt : current < 2 ^ 32) :
    FsInvariant g { s with
      currentDirBlock := current
      sectorBuffer := m } chain :=
  ⟨h.mounted.of_same rfl rfl, h.noWrap, h.heap, hlt, h.accounts, h.log⟩

theorem FsInvariant.chdir_simple (h : FsInvariant g s chain)
    (hname : SimpleName name) :
    FsInvariant g (chainfsChdir s name.chars).1 chain := by
  obtain ⟨m, hchdir⟩ := h.mounted.chdir_eq name.chars
  rw [hchdir, hname.resolve_eq]
  cases hlookup : lookup g s.disk s.currentDirBlock name.chars with
  | none => exact h.withBuffer m
  | some idx =>
      simp only [Option.map_some]
      by_cases htype : ((Target.slot idx).found s.disk).entry.type ≠
          chainfsTypeDir
      · rw [if_pos htype]
        exact h.withBuffer m
      · rw [if_neg htype]
        exact h.withCurrent m (entryIndex_lt _ _)

theorem FsInvariant.readFile_simple (h : FsInvariant g s chain)
    (name : CString) (buffer : Memory) (bufferSize : ℕ) :
    FsInvariant g
      (chainfsReadFile s name.chars buffer bufferSize).1 chain := by
  obtain ⟨m, hread⟩ :=
    h.mounted.readFile_state name.chars buffer bufferSize
  rw [hread]
  exact h.withBuffer m

end Otsos
