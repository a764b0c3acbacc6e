import Otsos.ChainFS.Reachable
import Otsos.ChainFS.SimpleCalls

/-!
# Which sizes are stored

`chainfs_write_file` rounds the size up to blocks with a sum of 32 bits.  For
the largest sizes the sum wraps around, one block is allocated and filled, and
the entry still records the size that was asked for.
-/

namespace Otsos

open Lib

variable {g : Geometry} {s s' s₀ : ChainFS} {path : CString} {data : Memory}
  {size : ℕ} {hist : List (FsCall × ℤ)} {bs cs : List ℕ}

/-- The list is the chain of `start`, up to the end marker. -/
structure ChainOf (s : ChainFS) (start : ℕ) (bs : List ℕ) : Prop where
  head : bs.headD chainfsEofMarker = start
  links : Links s.link chainfsEofMarker bs
  proper : chainfsEofMarker ∉ bs

/-- The entry records the size, and its chain holds the data. -/
structure StoredWhole (s : ChainFS) (slot : ℕ × ℕ) (data : Memory)
    (size : ℕ) : Prop where
  recorded : (entryAt (s.disk slot.1) slot.2).size = size
  held : ∃ bs, ChainOf s (entryAt (s.disk slot.1) slot.2).startBlock bs ∧
    (size + 511) / 512 ≤ bs.length ∧ ∀ i < size, s.storedByte bs i = data i

/-- The entry that a write fills: that of the file it finds, or the first free
one. -/
def writtenEntry (s : ChainFS) (path : List UInt8) : Option (ℕ × ℕ) :=
  match (chainfsFindFile s path).2 with
  | some f => some (f.block, f.offset)
  | none => (chainfsFindFreeFileEntry s).2.toOption

theorem ChainOf.unique {start : ℕ} (h : ChainOf s start bs)
    (h' : ChainOf s start cs) : bs = cs :=
  h.links.unique h'.links h.proper h'.proper (h.head.trans h'.head.symm)

/-- The block count is the natural one up to `2 ^ 32 - 512`, and 1 above. -/
theorem blocksNeeded_enough_iff (hsize : size < 2 ^ 32) :
    (size + 511) / 512 ≤ blocksNeeded size ↔ size ≤ 2 ^ 32 - 512 := by
  by_cases hround : size ≤ 2 ^ 32 - 512
  · rw [blocksNeeded_eq hround, fileBlocks]
    omega
  · have hone : blocksNeeded size = 1 := by
      have hzero : wrap32 (size + chainfsBlockSize - 1) / chainfsBlockSize =
          0 := by
        unfold wrap32 chainfsBlockSize
        omega
      rw [blocksNeeded, hzero]
      rfl
    omega

theorem Target.Valid.position_lt {t : Target} (h : t.Valid g) :
    t.position.1 < 1 + g.table := by
  cases t with
  | slot idx => exact (g.slot_sector h).2
  | rootBlock => exact Nat.add_pos_left Nat.one_pos _

theorem Mounted.writtenEntry_eq (h : Mounted g s) {plan : WritePlan}
    (hplan : writePlan g s path.chars = .ok (some plan)) :
    writtenEntry s path.chars = some plan.target.position := by
  obtain ⟨m, hfind⟩ := h.findFile_eq path.chars
  unfold writtenEntry
  rw [hfind]
  obtain ⟨-, -, -, ⟨hfound, -⟩ | ⟨hnone, -, idx, hfree, htarget⟩⟩ :=
    writePlan_some hplan
  · rw [show findTable g s.disk s.currentDirBlock path.chars =
      some plan.target from hfound, ← Target.found_position s.disk]
    rfl
  · obtain ⟨m', hslot⟩ := h.findFreeFileEntry_eq
    rw [show findTable g s.disk s.currentDirBlock path.chars = none
      from hnone, hslot, hfree, htarget]
    rfl

theorem Stored.chainOf {slot : ℕ × ℕ} {chars : List UInt8} {parent : ℕ}
    (h : Stored g s s' slot chars data size parent) (hmounted : Mounted g s')
    (husable : AllocatedUsable g s.disk size) (hroom : HasRoom g s size)
    (hsize : size < 2 ^ 32) (hslot : slot.1 < 1 + g.table) :
    ChainOf s' (entryAt (s'.disk slot.1) slot.2).startBlock
      (allocated g s.disk size) := by
  refine ⟨(h.entry husable hroom hsize).1.symm, ?_, g.eof_not_mem husable⟩
  exact (h.links husable hslot).congr
    fun b hb => hmounted.link_eq (husable b hb).mapped

theorem DiskInvariant.written_whole_iff (h : DiskInvariant g s)
    (hsize : size < 2 ^ 32)
    (htakes : TakesSectors g s path.chars size (· < 2 ^ 32))
    (hwrite : chainfsWriteFile s path.chars data size = .ok (s', 0)) :
    ∃ slot, writtenEntry s path.chars = some slot ∧
      (StoredWhole s' slot data size ↔ size ≤ 2 ^ 32 - 512) := by
  have hresult := h.mounted.writeFile_result h.heap path.chars data size
  rw [hwrite] at hresult
  cases hresult with
  | stored plan s₁ _ hplan hprepared hroom hstored =>
      have husable := htakes.usable hplan hprepared hroom
      have hstored := hstored husable
      rw [← hprepared.hasRoom_iff] at hroom
      have hmounted : Mounted g s' := hstored.control.mounted
        (hprepared.control.mounted h.mounted)
      have hslot := (writePlan_valid hplan).position_lt
      have hchain := hstored.chainOf hmounted husable hroom hsize hslot
      have hlen := hroom.length_allocated
      refine ⟨plan.target.position, h.mounted.writtenEntry_eq hplan, ?_⟩
      rw [← blocksNeeded_enough_iff hsize]
      constructor
      · rintro ⟨-, bs, hbs, hlong, -⟩
        rw [hbs.unique hchain] at hlong
        omega
      · intro henough
        refine ⟨(hstored.entry husable hroom hsize).2, _, hchain,
          by omega, ?_⟩
        intro i hi
        have hinside : i < 512 * (allocated g s₁.disk size).length := by
          omega
        have hbyte := hmounted.storedByte_eq husable
          (Nat.div_lt_of_lt_mul hinside) hinside
        rw [List.take_length] at hbyte
        rw [hbyte]
        have hheld : heldBytes size (allocated g s₁.disk size) = size :=
          heldBytes_of_le (by omega)
        exact hstored.chainByte_eq hslot (by rwa [hheld])

/-- In every state reached a write that returns 0 has stored all of its bytes
exactly if the rounding of its size does not overflow. -/
theorem storedWhole_iff {totalBlocks maxFiles : ℕ}
    (hformat : Formatted totalBlocks maxFiles s₀)
    (hrun : FsRun (UnwrappedCall (formatGeometry totalBlocks maxFiles)) s₀
      hist s) {heap : Heap} (hready : HeapReady heap)
    (hsize : size < 2 ^ 32)
    (htakes : TakesSectors (formatGeometry totalBlocks maxFiles)
      { s with heap := heap } path.chars size (· < 2 ^ 32))
    (hwrite : chainfsWriteFile { s with heap := heap } path.chars data size =
      .ok (s', 0)) :
    ∃ slot, writtenEntry { s with heap := heap } path.chars = some slot ∧
      (StoredWhole s' slot data size ↔ size ≤ 2 ^ 32 - 512) :=
  ((hformat.diskInvariant.run hrun).withHeap hready).written_whole_iff
    hsize htakes hwrite

/-- 700 bytes, two blocks, written over a file of 3. -/
theorem storedWhole_iff_smallDisk : ∃ s s',
    FsRun (UnwrappedCall (formatGeometry 20 8)) smallDisk
      ([FsCall.writeFile ⟨[102], by decide⟩ (fun _ => 1) 3].zip [0]) s ∧
      chainfsWriteFile s [102] (fun _ => 2) 700 = .ok (s', 0) ∧
      ∃ slot, writtenEntry s [102] = some slot ∧
        StoredWhole s' slot (fun _ => 2) 700 := by
  have hcodes : (smallDisk.checkRun (fun _ _ _ => true)
      (initHeap unbootedHeap)
      [.writeFile ⟨[102], by decide⟩ (fun _ => 1) 3]).map
        (fun r => (r.1, decide ((chainfsWriteFile r.2 [102] (fun _ => 2)
          700).map Prod.snd = .ok 0))) = some ([0], true) := by
    decide +kernel
  obtain ⟨codes, s, hrun, heq⟩ := smallDisk_run hcodes
  simp only [Prod.mk.injEq, decide_eq_true_eq] at heq
  obtain ⟨rfl, hcode⟩ := heq
  obtain ⟨s', code, hwrite, rfl⟩ := evaluated_call hcode
  have hcall : chainfsWriteFile s
      (CString.chars ⟨[102], by decide⟩) (fun _ => 2) 700 = .ok (s', 0) :=
    hwrite
  obtain ⟨slot, hslot, hwhole⟩ := storedWhole_iff smallDisk_formatted hrun
    (smallDisk_formatted.diskInvariant.run hrun).heap (by decide)
    (smallDisk_noWrap.takesSectors _ _ _) hcall
  exact ⟨s, s', hrun, hwrite, slot, hslot, hwhole.mpr (by decide)⟩

/-- A write of `2 ^ 32 - 1` bytes returns 0 on a disk of 20 sectors. -/
theorem largest_size_not_stored : ∃ s',
    FsRun AnyCall smallDisk [] smallDisk ∧
      chainfsWriteFile smallDisk [102] (fun _ => 1) (2 ^ 32 - 1) =
        .ok (s', 0) ∧
      ∃ slot, writtenEntry smallDisk [102] = some slot ∧
        ¬ StoredWhole s' slot (fun _ => 1) (2 ^ 32 - 1) := by
  have hcode : (chainfsWriteFile smallDisk [102] (fun _ => 1)
      (2 ^ 32 - 1)).map Prod.snd = .ok 0 := by
    decide +kernel
  have hinv := smallDisk_formatted.diskInvariant
  obtain ⟨s', code, hwrite, rfl⟩ := evaluated_call hcode
  have hcall : chainfsWriteFile smallDisk
      (CString.chars ⟨[102], by decide⟩) (fun _ => 1) (2 ^ 32 - 1) =
        .ok (s', 0) := hwrite
  obtain ⟨slot, hslot, hwhole⟩ := hinv.written_whole_iff (by decide)
    (smallDisk_noWrap.takesSectors _ _ _) hcall
  exact ⟨s', FsRun.start, hwrite, slot, hslot,
    fun hstored => absurd (hwhole.mp hstored) (by decide)⟩

end Otsos
