import Otsos.ChainFS.BlockMapSound

/-!
# When a write succeeds

For a name in the current directory, in any mounted state whose map records
the chains of the files and nothing else, a write returns 0 exactly when it
finds an entry to fill, memory for its array of blocks, and enough blocks once
those of the version it replaces are given back.
-/

namespace Otsos

open Lib

variable {s : ChainFS} {chain : ℕ → List ℕ} {name : CString}
  {size idx : ℕ} {bs : List ℕ}

/-- The slot holds a file. -/
def ChainFS.HasFile (s : ChainFS) (idx : ℕ) : Prop :=
  idx < s.slots ∧ (entryOf s.disk idx).status = 1 ∧
    (entryOf s.disk idx).type ≠ chainfsTypeDir

/-- The superblock describes a data area that the map covers. -/
structure MapCoversData (s : ChainFS) : Prop where
  magic : s.magic = chainfsMagic
  start : s.dataAreaStart ≤ s.blockCount
  covered : s.blockCount - s.dataAreaStart ≤ 128 * s.blockMapBlockCount

/-- The map records the chains of the files, and every other entry is free. -/
structure MapSound (s : ChainFS) (chain : ℕ → List ℕ) : Prop where
  start : ∀ idx, s.HasFile idx →
    (chain idx).head? = some (entryOf s.disk idx).startBlock
  links : ∀ idx, s.HasFile idx → Links s.link chainfsEofMarker (chain idx)
  increasing : ∀ idx, s.HasFile idx → (chain idx).Pairwise (· < ·)
  inside : ∀ idx, s.HasFile idx →
    ∀ b ∈ chain idx, b < s.blockCount - s.dataAreaStart
  disjoint : ∀ i j, s.HasFile i → s.HasFile j →
    ∀ b, b ∈ chain i → b ∈ chain j → i = j
  free : ∀ b < 128 * s.blockMapBlockCount,
    (∀ idx, s.HasFile idx → b ∉ chain idx) → s.link b = chainfsFreeBlock

/-- The slot that a name of the current directory is found in. -/
def ChainFS.nameSlot (s : ChainFS) (chars : List UInt8) : Option ℕ :=
  s.firstSlot (slotMatches s.currentDirBlock chars)

/-- The blocks of the version that a write replaces. -/
def oldBlocks (s : ChainFS) (chain : ℕ → List ℕ) (chars : List UInt8) :
    List ℕ :=
  match s.nameSlot chars with
  | some idx => chain idx
  | none => []

/-- The blocks of the data area whose map entry is free. -/
def ChainFS.freeDataBlocks (s : ChainFS) : List ℕ :=
  (List.range (s.blockCount - s.dataAreaStart)).filter
    fun b => s.link b == chainfsFreeBlock

/-- `kmalloc` returns a block. -/
def Allocates (heap : Heap) (n : ℕ) : Prop :=
  ∃ heap' ptr, kmalloc heap n = some (heap', ptr) ∧ ptr ≠ 0

/-! ## Free blocks -/

theorem blockCount_lt (s : ChainFS) : s.blockCount < 2 ^ 32 :=
  s.superblock.load_lt _ 4

theorem totalDataBlocks_of_le (hstart : s.dataAreaStart ≤ s.blockCount) :
    totalDataBlocks s = s.blockCount - s.dataAreaStart :=
  sub32_of_le (blockCount_lt s) hstart

theorem inMap_of_covered
    (hcovered : s.blockCount - s.dataAreaStart ≤ 128 * s.blockMapBlockCount)
    {b : ℕ} (hb : b < s.blockCount - s.dataAreaStart) : s.InMap b := by
  unfold ChainFS.InMap mapEntriesPerBlock
  omega

theorem freeBlocks_of_covered (hstart : s.dataAreaStart ≤ s.blockCount)
    (hcovered : s.blockCount - s.dataAreaStart ≤
      128 * s.blockMapBlockCount) :
    s.freeBlocks = s.freeDataBlocks := by
  rw [ChainFS.freeBlocks, ChainFS.freeDataBlocks, totalDataBlocks_of_le hstart]
  apply List.filter_congr
  intro b hb
  rw [Bool.eq_iff_iff, ChainFS.freeInMap_iff, beq_iff_eq]
  exact and_iff_right (inMap_of_covered hcovered (List.mem_range.mp hb))

/-- Giving back blocks in use makes as many more free ones. -/
theorem length_filter_unlinkAll {next : ℕ → ℕ} {n : ℕ} (hnodup : bs.Nodup)
    (hrange : ∀ b ∈ bs, b < n) (hused : ∀ b ∈ bs, next b ≠ 0) :
    ((List.range n).filter fun b => unlinkAll next bs b == 0).length =
      ((List.range n).filter fun b => next b == 0).length + bs.length := by
  have hperm : ((List.range n).filter fun b => decide (b ∈ bs)).Perm bs := by
    apply (List.perm_ext_iff_of_nodup (List.nodup_range.filter _) hnodup).mpr
    intro b
    simp only [List.mem_filter, List.mem_range, decide_eq_true_iff]
    exact and_iff_right_of_imp (hrange b)
  rw [← hperm.length_eq, ← List.length_append]
  apply List.Perm.length_eq
  apply (List.perm_ext_iff_of_nodup (List.nodup_range.filter _) ?_).mpr
  · intro b
    simp only [List.mem_append, List.mem_filter, List.mem_range, beq_iff_eq,
      decide_eq_true_iff]
    by_cases hb : b ∈ bs
    · simp only [unlinkAll_mem hb, hb, and_true]
      exact ⟨Or.inr, fun h => h.elim And.left id⟩
    · simp [unlinkAll_not_mem hb, hb]
  · refine (List.nodup_range.filter _).append (List.nodup_range.filter _) ?_
    intro b hfree hmem
    simp only [List.mem_filter, beq_iff_eq, decide_eq_true_iff]
      at hfree hmem
    exact hused b hmem.2 hfree.2

/-! ## The parts of a write -/

theorem findFile_simple (s : ChainFS) (hname : SimpleName name) :
    ∃ m, chainfsFindFile s name.chars = ({ s with sectorBuffer := m },
      (s.nameSlot name.chars).map (foundAt s.disk)) := by
  unfold chainfsFindFile
  rw [if_neg hname.noSlash]
  exact findInDirectory_eq s s.currentDirBlock name.chars

theorem fileExists_iff (hname : SimpleName name) :
    FileExists s name.chars ↔ s.nameSlot name.chars ≠ none := by
  obtain ⟨m, hfind⟩ := findFile_simple s hname
  rw [FileExists, hfind]
  simp

theorem ChainFS.firstSlot_some {test : Memory → ℕ → Bool}
    (h : s.firstSlot test = some idx) :
    idx < s.slots ∧ testSlot test s.disk idx = true :=
  ⟨List.mem_range.mp (List.mem_of_find?_eq_some h), List.find?_some h⟩

theorem hasFile_of_nameSlot (hname : SimpleName name)
    (hnot : ¬ DenotesDirectory s name.chars)
    (hslot : s.nameSlot name.chars = some idx) : s.HasFile idx := by
  obtain ⟨hidx, htest⟩ := ChainFS.firstSlot_some hslot
  simp only [testSlot, slotMatches, Bool.and_eq_true, beq_iff_eq] at htest
  refine ⟨hidx, htest.1.1, fun htype => hnot ?_⟩
  obtain ⟨m, hfind⟩ := findFile_simple s hname
  exact ⟨foundAt s.disk idx, by rw [hfind, hslot]; rfl, htype⟩

theorem MapSound.release (h : MapSound s chain) (hcovers : MapCoversData s)
    (hfile : s.HasFile idx) (m : Memory) :
    ∃ d m', chainfsFreeBlockChain { s with sectorBuffer := m }
        (entryOf s.disk idx).startBlock = some { s with
          disk := d
          sectorBuffer := m' } ∧
      ∀ c, s.InMap c → ChainFS.link { s with disk := d } c =
        unlinkAll s.link (chain idx) c := by
  have hnodup : (chain idx).Nodup :=
    (h.increasing idx hfile).imp fun hlt => Nat.ne_of_lt hlt
  have hinside := h.inside idx hfile
  have hcount := blockCount_lt s
  have heof : chainfsEofMarker ∉ chain idx := by
    intro hmem
    have hlt := hinside _ hmem
    unfold chainfsEofMarker at hlt
    omega
  obtain ⟨d, m', hfree, -, hlink⟩ := freeBlockChain_links
    { s with sectorBuffer := m } (h.links idx hfile) hnodup
    (fun b hb => inMap_of_covered hcovers.covered (hinside b hb)) heof
  rw [List.headD_eq_head?_getD, h.start idx hfile] at hfree
  exact ⟨d, m', hfree, hlink⟩

theorem storeFile_zero_iff (s : ChainFS) (slot : ℕ × ℕ)
    (fileName : List UInt8) (data : Memory) (size parent : ℕ) :
    (∃ s', storeFile s slot fileName data size parent = .ok (s', 0)) ↔
      Allocates s.heap (blocksNeeded size * 4) ∧
        blocksNeeded size ≤ s.freeBlocks.length := by
  unfold storeFile Allocates
  cases hmalloc : kmalloc s.heap (blocksNeeded size * 4) with
  | none => simp
  | some r =>
      obtain ⟨heap, ptr⟩ := r
      by_cases hptr : ptr = 0
      · simp [hptr]
      · obtain ⟨m, hfind⟩ := findFreeBlocks_eq { s with heap := heap }
          (blocksNeeded size)
        simp only [if_neg hptr, hfind]
        have hsame : ChainFS.freeBlocks { s with heap := heap } =
            s.freeBlocks := rfl
        rw [hsame]
        by_cases hroom : blocksNeeded size ≤ s.freeBlocks.length
        · simp [hroom, hptr]
        · simp [hroom]

theorem writeFile_simple (s : ChainFS) (hmagic : s.magic = chainfsMagic)
    (hname : SimpleName name) (data : Memory) (size : ℕ) :
    ∃ m, chainfsWriteFile s name.chars data size =
      match s.nameSlot name.chars with
      | some idx =>
          match chainfsFreeBlockChain { s with sectorBuffer := m }
            (entryOf s.disk idx).startBlock with
          | none => .error .hang
          | some s₁ => storeFile s₁ (slotOf idx) name.chars data size
              s.currentDirBlock
      | none =>
          match s.firstSlot slotFree with
          | none => .ok ({ s with sectorBuffer := m }, -1)
          | some idx => storeFile { s with sectorBuffer := m } (slotOf idx)
              name.chars data size s.currentDirBlock := by
  obtain ⟨m, hfind⟩ := findFile_simple s hname
  unfold chainfsWriteFile
  rw [hfind]
  simp only [hname.splitParent_eq, writeParent]
  cases s.nameSlot name.chars with
  | some idx =>
      refine ⟨m, ?_⟩
      simp only [Option.map_some, targetSlot, foundAt]
      cases chainfsFreeBlockChain { s with sectorBuffer := m }
        (entryOf s.disk idx).startBlock <;> rfl
  | none =>
      obtain ⟨m', hfree⟩ := findFreeFileEntry_eq
        (s := { s with sectorBuffer := m }) hmagic
      refine ⟨m', ?_⟩
      simp only [Option.map_none, targetSlot, hfree]
      have hsame : ChainFS.firstSlot { s with sectorBuffer := m } slotFree =
          s.firstSlot slotFree := rfl
      rw [hsame]
      cases s.firstSlot slotFree <;> rfl

/-! ## The write -/

/-- A write succeeds exactly when there is an entry for it, memory, and room
on the disk. -/
theorem writeFile_zero_iff (hcovers : MapCoversData s)
    (hsound : MapSound s chain) (hname : SimpleName name)
    (hnot : ¬ DenotesDirectory s name.chars) (hsize : size ≤ 2 ^ 32 - 512)
    (data : Memory) :
    (∃ s', chainfsWriteFile s name.chars data size = .ok (s', 0)) ↔
      (FileExists s name.chars ∨
        ∃ idx < s.slots, (entryOf s.disk idx).status = 0) ∧
      Allocates s.heap (4 * fileBlocks size) ∧
      fileBlocks size ≤ s.freeDataBlocks.length +
        (oldBlocks s chain name.chars).length := by
  obtain ⟨m, hwrite⟩ := writeFile_simple s hcovers.magic hname data size
  have hneeded := blocksNeeded_eq hsize
  rw [fileExists_iff hname, hwrite, oldBlocks, Nat.mul_comm 4, ← hneeded]
  cases hslot : s.nameSlot name.chars with
  | some idx =>
      have hfile := hasFile_of_nameSlot hname hnot hslot
      obtain ⟨d, m', hfree, hlink⟩ := hsound.release hcovers hfile m
      have hafter : (ChainFS.freeBlocks { s with
          disk := d
          sectorBuffer := m' }).length =
          s.freeDataBlocks.length + (chain idx).length := by
        have hcovers' : MapCoversData { s with
            disk := d
            sectorBuffer := m' } := ⟨hcovers.magic, hcovers.start,
          hcovers.covered⟩
        have hincreasing := hsound.increasing idx hfile
        rw [freeBlocks_of_covered hcovers'.start hcovers'.covered]
        refine Eq.trans ?_ (length_filter_unlinkAll
          (hincreasing.imp fun hlt => Nat.ne_of_lt hlt)
          (hsound.inside idx hfile) fun b hb =>
            (hsound.links idx hfile).next_ne_zero hincreasing (by decide) hb)
        apply congrArg List.length
        apply List.filter_congr
        intro b hb
        exact congrArg (· == 0)
          (hlink b (inMap_of_covered hcovers.covered (List.mem_range.mp hb)))
      simp only [hfree]
      rw [storeFile_zero_iff, hafter]
      simp
  | none =>
      cases hfirst : s.firstSlot slotFree with
      | none =>
          have hfull : ¬ ∃ idx < s.slots, (entryOf s.disk idx).status = 0 := by
            rintro ⟨idx, hidx, hstatus⟩
            have hused := List.find?_eq_none.mp hfirst idx
              (List.mem_range.mpr hidx)
            exact hused (beq_iff_eq.mpr hstatus)
          simp [hfull]
      | some idx =>
          obtain ⟨hidx, htest⟩ := ChainFS.firstSlot_some hfirst
          have hfree : ∃ idx < s.slots, (entryOf s.disk idx).status = 0 :=
            ⟨idx, hidx, beq_iff_eq.mp htest⟩
          simp only [storeFile_zero_iff]
          rw [← freeBlocks_of_covered hcovers.start hcovers.covered]
          simp only [hfree, or_true, true_and, List.length_nil, Nat.add_zero]
          exact Iff.rfl

/-! ## Reachable states -/

theorem FsInvariant.mapSound {g : Geometry} (h : FsInvariant g s chain)
    (hcovers : MapCoversData s) : MapSound s chain := by
  have hlive : ∀ idx, s.HasFile idx → LiveFile g s.disk idx := by
    rintro idx ⟨hidx, hstatus, htype⟩
    rw [h.mounted.slots_eq] at hidx
    exact ⟨hidx, hstatus, (h.accounts.types idx hidx trivial
      hstatus).resolve_right htype⟩
  have htotal : g.dataBlocks = s.blockCount - s.dataAreaStart := by
    rw [← totalDataBlocks_of_le hcovers.start, totalDataBlocks,
      h.mounted.blockCount, h.mounted.start, Geometry.dataBlocks]
  constructor
  · exact fun idx hfile => h.accounts.start idx trivial (hlive idx hfile)
  · intro idx _
    exact (h.accounts.table.links idx).congr
      fun b hb => h.mounted.link_eq (h.chain_usable b hb).mapped
  · exact fun idx _ => h.accounts.table.increasing idx
  · intro idx _ b hb
    rw [← htotal]
    exact (h.chain_usable b hb).inRange
  · exact fun i j _ _ b hi hj => h.accounts.table.disjoint i j b hi hj
  · intro b hb hfree
    rw [h.mounted.map] at hb
    have hmapped : g.Mapped b := by
      unfold Geometry.Mapped
      omega
    rw [h.mounted.link_eq hmapped]
    by_contra hused
    obtain ⟨idx, hmem⟩ := (h.accounts.table.exact b hmapped).mp hused
    by_cases hfile : LiveFile g s.disk idx
    · refine hfree idx ⟨?_, hfile.2.1, ?_⟩ hmem
      · rw [h.mounted.slots_eq]
        exact hfile.1
      · rw [hfile.2.2]
        decide
    · rw [h.accounts.dead idx trivial hfile] at hmem
      exact absurd hmem List.not_mem_nil

theorem Mounted.mapCoversData {totalBlocks maxFiles : ℕ}
    (h : Mounted (formatGeometry totalBlocks maxFiles) s)
    (hfits : 1 + formatTableBlocks maxFiles +
      formatMapBlocks totalBlocks maxFiles ≤ totalBlocks)
    (hmap : totalBlocks - (1 + formatTableBlocks maxFiles +
      formatMapBlocks totalBlocks maxFiles) ≤
        128 * formatMapBlocks totalBlocks maxFiles) : MapCoversData s := by
  constructor
  · exact h.magic
  · rw [h.start, h.blockCount]
    exact hfits
  · rw [h.start, h.blockCount, h.map]
    exact hmap

/-- A file holds one of the 17 data blocks: it can be replaced by one of 17
blocks, for which a new file finds no room. -/
theorem writeFile_zero_iff_smallDisk : ∃ hist s,
    FsRun SimpleCall smallDisk hist s ∧ hist.map Prod.snd = [0] ∧
      (∃ s', chainfsWriteFile s [102] (fun _ => 2) 8704 = .ok (s', 0)) ∧
      ¬ ∃ s', chainfsWriteFile s [103] (fun _ => 2) 8704 = .ok (s', 0) := by
  have hcodes : (smallDisk.checkRun
      (fun s call code => decide (SimpleCall s call code))
      (initHeap unbootedHeap)
      [.writeFile ⟨[102], by decide⟩ (fun _ => 1) 3]).map
        (fun r => (r.1, decide (FileExists r.2 [102] ∧
            ¬ DenotesDirectory r.2 [102] ∧ ¬ DenotesDirectory r.2 [103] ∧
            r.2.nameSlot [102] = some 1 ∧ r.2.nameSlot [103] = none),
          decide ((entryOf r.2.disk 1).status = 1 ∧
            (entryOf r.2.disk 1).type = chainfsTypeFile ∧
            (entryOf r.2.disk 1).size = 3),
          r.2.freeDataBlocks.length,
          (kmalloc r.2.heap 68).any fun a => decide (a.2 ≠ 0))) =
      some ([0], true, true, 16, true) := by
    decide +kernel
  obtain ⟨codes, s, hrun, heq⟩ :=
    checkRun_run blankDrive_ready (fun _ _ _ => of_decide_eq_true) hcodes
  simp only [Prod.mk.injEq, decide_eq_true_eq] at heq
  obtain ⟨rfl, ⟨hexists, hfile, hother, hold, hnew⟩,
    ⟨hstatus, htype, hsize⟩, hfree, hheap⟩ := heq
  obtain ⟨chain, hinv⟩ :=
    (smallDisk_formatted.invariant smallDisk_noWrap).simple_run hrun
  have hcovers := hinv.mounted.mapCoversData (by decide) (by decide)
  have hsound := hinv.mapSound hcovers
  have hlength : (chain 1).length = fileBlocks (entryOf s.disk 1).size :=
    hinv.accounts.length 1 trivial ⟨by decide, hstatus, htype⟩
  have hname : SimpleName ⟨[102], by decide⟩ := by decide
  have hsecond : SimpleName ⟨[103], by decide⟩ := by decide
  refine ⟨_, s, hrun, rfl, ?_, ?_⟩
  · refine (writeFile_zero_iff hcovers hsound hname hfile (by decide) _).mpr
      ⟨Or.inl hexists, ?_, ?_⟩
    · obtain ⟨⟨heap, ptr⟩, hkmalloc, hptr⟩ :=
        (Option.any_eq_true _ _).mp hheap
      exact ⟨heap, ptr, hkmalloc, of_decide_eq_true hptr⟩
    · rw [hfree, oldBlocks, hold]
      dsimp only
      rw [hlength, hsize]
      decide
  · intro hzero
    obtain ⟨-, -, hroom⟩ := (writeFile_zero_iff hcovers hsound hsecond hother
      (by decide) _).mp hzero
    rw [hfree, oldBlocks, hnew] at hroom
    have hseventeen : 17 ≤ 16 + 0 := hroom
    omega

end Otsos
