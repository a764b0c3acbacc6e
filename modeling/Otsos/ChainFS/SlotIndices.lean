import Otsos.ChainFS.FilledTable
import Otsos.ChainFS.ParentWalks
import Otsos.ChainFS.UniqueNames

/-!
# Table slots and the number of files

`chainfs_find_free_file_entry` hands out all slots of the table sectors, and
`read_entry_by_index` takes the indices below `total_files`.  These are the
same slots when the number of files fills the sectors; otherwise the last slots
are given to entries that cannot be read by their index.
-/

namespace Otsos

open Lib

variable {g : Geometry} {s s' s₀ : ChainFS} {d : ℕ → Memory}
  {idx n dir totalBlocks maxFiles : ℕ} {c : List UInt8} {call : FsCall}
  {code : ℤ} {hist : List (FsCall × ℤ)}

/-- The indices that the loop of `chainfs_get_current_path` comes to. -/
inductive WalkReaches (s : ChainFS) : ℕ → Prop
  | current : WalkReaches s s.currentDirBlock
  | parent {idx : ℕ} {e : FileEntry} (before : WalkReaches s idx)
      (inside : ¬ (idx = s.rootDirBlock ∨ idx = 0xFFFFFFFF))
      (reads : (readEntryByIndex s idx).2 = some e) :
      WalkReaches s e.parentBlock

/-- Slots are handed out below `total_files`, directories can be read by their
index, and the loop of `chainfs_get_current_path` ends at the top only. -/
structure SlotsAddressable (g : Geometry) (s : ChainFS) : Prop where
  handed : ∀ block offset,
    (chainfsFindFreeFileEntry s).2 = .ok (block, offset) →
      entryIndex block offset < s.totalFiles
  accepted : ∀ idx, LiveDir g s.disk idx →
    (readEntryByIndex s idx).2 = some (entryOf s.disk idx)
  complete : ∀ idx, WalkReaches s idx → idx = s.rootDirBlock ∨
    idx = 0xFFFFFFFF ∨ (readEntryByIndex s idx).2 ≠ none

/-- The number of files fills the sectors of the table, or is so large that
there is no table. -/
def FillsTable (maxFiles : ℕ) : Prop := maxFiles % 8 = 0 ∨ 2 ^ 32 - 8 < maxFiles

theorem fillsTable_iff (hmax : maxFiles < 2 ^ 32) :
    FillsTable maxFiles ↔
      (formatGeometry totalBlocks maxFiles).slots ≤ maxFiles := by
  have hslots : (formatGeometry totalBlocks maxFiles).slots =
      8 * formatTableBlocks maxFiles := rfl
  have hcases := formatTableBlocks_cases hmax
  unfold FillsTable
  omega

/-! ## The indices that are stored -/

/-- Parents and the current directory are slots of the table, if there is
one. -/
structure AddressInvariant (g : Geometry) (s : ChainFS) : Prop where
  walk : WalkInvariant g s
  current : s.currentDirBlock = 0 ∨ s.currentDirBlock < g.slots
  parents : ∀ idx < g.slots, parentOf s.disk idx = 0xFFFFFFFF ∨
    parentOf s.disk idx < g.slots
  files : g.slots ≤ s.totalFiles

theorem AddressInvariant.withHeap {heap : Heap} (h : AddressInvariant g s)
    (hready : HeapReady heap) : AddressInvariant g { s with heap := heap } :=
  ⟨h.walk.withHeap hready, h.current, h.parents, h.files⟩

theorem DiskInvariant.dirSector_inside {path : List UInt8}
    (h : DiskInvariant g s)
    (hdir : dirSector g s.disk s.currentDirBlock path = some dir) :
    dir < g.slots := by
  obtain ⟨t, hresolve, htype, rfl⟩ := dirSector_some hdir
  obtain ⟨idx, rfl, -⟩ := h.directory_slot hresolve htype
  have hidx := (resolve_slot hresolve).1
  show 1 + idx / 8 < g.slots
  simp only [Geometry.slots] at hidx ⊢
  omega

theorem AddressInvariant.parentId_inside {parent : ParentPath}
    (h : AddressInvariant g s) (hslots : 0 < g.slots)
    (hparent : writeParentId g s.disk s.currentDirBlock parent = some dir ∨
      mkdirParentId g s.disk s.currentDirBlock parent = some dir) :
    dir < g.slots := by
  rcases parentId_cases hparent with rfl | rfl | ⟨path, hdir⟩
  · rcases h.current with hzero | hlt
    · rw [hzero]
      exact hslots
    · exact hlt
  · exact hslots
  · exact h.walk.disk.dirSector_inside hdir

theorem AddressInvariant.stored_inside {e : TableEdit} {parent : ℕ}
    (h : AddressInvariant g s) (hplanned : Planned g s call e)
    (hstored : e.stored = some (idx, parent)) (hidx : idx < g.slots) :
    parent < g.slots := by
  have hslots : 0 < g.slots := by omega
  cases e with
  | file j name size p =>
      cases hstored
      obtain ⟨path, data, plan, -, hplan, -, -, -, rfl⟩ := hplanned.file_inv
      obtain ⟨p, -, hparent, -⟩ := writePlan_some hplan
      exact h.parentId_inside hslots (Or.inl hparent)
  | directory j name p =>
      cases hstored
      obtain ⟨path, plan, -, hplan, -, -, rfl⟩ := hplanned.directory_inv
      obtain ⟨p, -, hparent, -⟩ := mkdirPlan_some hplan
      exact h.parentId_inside hslots (Or.inr hparent)
  | clear j => cases hstored

theorem AddressInvariant.parents_step (h : AddressInvariant g s)
    (hcall : UnwrappedCall g s call code)
    (hexec : s.exec call = .ok (s', code)) (hidx : idx < g.slots) :
    parentOf s'.disk idx = 0xFFFFFFFF ∨ parentOf s'.disk idx < g.slots := by
  cases h.walk.disk.tableStep hcall hexec with
  | same hnone hsame =>
      rw [parentOf, (hsame idx hidx).entryOf_eq]
      exact h.parents idx hidx
  | edited e hplanned hedited =>
      by_cases hslot : idx = e.slot
      · have haddr : ∀ parent, e.stored = some (idx, parent) →
            parent < 2 ^ 32 := fun parent hstored =>
          hplanned.parent_lt h.walk.current hstored
        cases e with
        | clear j =>
            rw [show idx = j from hslot, parentOf,
              h.walk.disk.cleared_entry hplanned hexec]
            exact h.parents j hedited.inside
        | file j name size parent =>
            obtain rfl : idx = j := hslot
            rw [parentOf, (hedited.file_fields (haddr parent rfl)).2.2]
            exact Or.inr (h.stored_inside hplanned rfl hidx)
        | directory j name parent =>
            obtain rfl : idx = j := hslot
            rw [parentOf, (hedited.directory_fields (haddr parent rfl)).2.2]
            exact Or.inr (h.stored_inside hplanned rfl hidx)
      · rw [parentOf, (hedited.other idx hidx hslot).entryOf_eq]
        exact h.parents idx hidx

theorem AddressInvariant.step (h : AddressInvariant g s)
    (hcall : UnwrappedCall g s call code)
    (hexec : s.exec call = .ok (s', code)) : AddressInvariant g s' := by
  refine ⟨h.walk.step hcall hexec, ?_, fun idx => h.parents_step hcall hexec,
    ?_⟩
  · rcases h.walk.disk.current_cases hexec with
      hsame | hzero | ⟨path, idx, -, hresolve, hmoved⟩
    · rw [hsame]
      exact h.current
    · exact Or.inl hzero
    · rw [hmoved]
      exact Or.inr (resolve_slot hresolve).1
  · rw [ChainFS.totalFiles, h.walk.disk.superblock_step hexec]
    exact h.files

theorem AddressInvariant.run (h : AddressInvariant g s₀)
    (hrun : FsRun (UnwrappedCall g) s₀ hist s) : AddressInvariant g s :=
  hrun.invariant h (fun _ _ hs hready => hs.withHeap hready)
    fun _ _ _ _ hs _ hcall hexec => hs.step hcall hexec

theorem FreshDisk.parentOf_eq (h : FreshDisk totalBlocks maxFiles d)
    (hidx : idx < (formatGeometry totalBlocks maxFiles).slots) :
    parentOf d idx = if idx = 0 then 0xFFFFFFFF else 0 := by
  by_cases hzero : idx = 0
  · rw [if_pos hzero, parentOf, (h.entries hidx).1 hzero]
    exact formatRootSector_root.2.2.2
  · rw [if_neg hzero]
    have hsector := Geometry.slot_sector _ hidx
    simp only [formatGeometry] at hsector
    show (d (1 + idx / 8)).load (sizeofFileEntry * (idx % 8) + 40) 4 = 0
    rw [← zeroSector_load (sizeofFileEntry * (idx % 8) + 40)]
    by_cases hone : idx / 8 = 0
    · rw [hone, h.root (by omega)]
      refine Memory.load_congr fun j _ => formatRootSector_zero ?_
      unfold sizeofFileEntry
      omega
    · rw [h.zero (1 + idx / 8) (by omega) (by omega) (by omega)]

theorem Formatted.addressInvariant (h : Formatted totalBlocks maxFiles s)
    (hfills : FillsTable maxFiles) :
    AddressInvariant (formatGeometry totalBlocks maxFiles) s := by
  obtain ⟨hfresh, -, -, hcurrent, -⟩ := h.fresh
  refine ⟨h.walkInvariant, Or.inl hcurrent, ?_, ?_⟩
  · intro idx hidx
    rw [hfresh.parentOf_eq hidx]
    by_cases hzero : idx = 0
    · rw [if_pos hzero]
      exact Or.inl rfl
    · rw [if_neg hzero]
      exact Or.inr (by omega)
  · rw [h.totalFiles_eq]
    exact (fillsTable_iff h.2.1).mp hfills

/-! ## Tables that are filled -/

theorem AddressInvariant.reads (h : AddressInvariant g s)
    (hidx : idx < g.slots) :
    (readEntryByIndex s idx).2 = some (entryOf s.disk idx) := by
  obtain ⟨m, hread⟩ := readEntryByIndex_some (hidx.trans_le h.files)
  rw [hread]

theorem AddressInvariant.reaches (h : AddressInvariant g s)
    (hreach : WalkReaches s idx) :
    idx = 0 ∨ idx = 0xFFFFFFFF ∨ idx < g.slots := by
  induction hreach with
  | current => exact h.current.imp_right Or.inr
  | parent before inside reads ih =>
      rw [h.walk.disk.mounted.root] at inside
      have hidx := ih.resolve_left fun hzero => inside (Or.inl hzero)
      have hidx := hidx.resolve_left fun hnone => inside (Or.inr hnone)
      rw [h.reads hidx] at reads
      cases reads
      exact Or.inr (h.parents _ hidx)

theorem AddressInvariant.addressable (h : AddressInvariant g s) :
    SlotsAddressable g s := by
  constructor
  · intro block offset hfree
    obtain ⟨m, heq⟩ := h.walk.disk.mounted.findFreeFileEntry_eq
    rw [heq] at hfree
    cases hslot : freeSlot g s.disk with
    | none => simp [hslot] at hfree
    | some idx =>
        have hidx := (freeSlot_some hslot).1
        have haddr := g.addressable
        have hfiles := h.files
        simp only [hslot, Except.ok.injEq, slotOf, Prod.mk.injEq] at hfree
        obtain ⟨rfl, rfl⟩ := hfree
        simp only [Geometry.slots] at hidx hfiles
        rw [entryIndex_slotOf (by omega)]
        omega
  · exact fun idx hlive => h.reads hlive.1.1
  · intro idx hreach
    rw [h.walk.disk.mounted.root]
    rcases h.reaches hreach with hzero | hnone | hidx
    · exact Or.inl hzero
    · exact Or.inr (Or.inl hnone)
    · rw [h.reads hidx]
      exact Or.inr (Or.inr (Option.some_ne_none _))

/-! ## Tables that are not filled -/

theorem NamesTerminated.lookup_long (h : NamesTerminated g d) (hnul : 0 ∉ c)
    (hlong : 30 < c.length) : lookup g d dir c = none := by
  refine (h.lookup_none_iff hnul).mpr ?_
  intro j _ hkey
  have hlen : (entryOf d j).cname.length ≤ 30 := by
    refine (List.takeWhile_prefix _).length_le.trans (le_of_eq ?_)
    simp [entryOf, entryAt]
  have hname : (entryOf d j).cname = c := (Prod.ext_iff.mp hkey).2
  rw [hname] at hlen
  exact absurd hlong (Nat.not_lt.mpr hlen)

/-- As many characters as `dir_name[32]` holds, one more than an entry. -/
def longName : CString := ⟨List.replicate 31 97, by decide⟩

/-- What a run of `mkdir` calls on that name keeps. -/
structure FillInvariant (g : Geometry) (s : ChainFS) (files n : ℕ) :
    Prop where
  mounted : Mounted g s
  terminated : NamesTerminated g s.disk
  filled : Filled g s.disk n
  current : s.currentDirBlock < 2 ^ 32
  files : s.totalFiles = files

theorem FillInvariant.mkdir {files : ℕ} (h : FillInvariant g s files n)
    (hready : HeapReady s.heap) (hroom : n < g.slots) :
    ∃ s', s.exec (.mkdir longName) = .ok (s', 0) ∧
      FillInvariant g s' files (n + 1) := by
  have hplan : mkdirPlan g s longName.chars =
      .ok (some ⟨n, longName.chars, s.currentDirBlock⟩) := by
    have hsplit : splitParent longName.chars =
        .ok (.current, longName.chars) := by decide
    rw [mkdirPlan, hsplit]
    simp only [mkdirParentId]
    rw [h.terminated.lookup_long (by decide) (by decide),
      h.filled.freeSlot_eq hroom]
  have hresult := h.mounted.mkdir_result hready longName.chars
  cases hmkdir : chainfsMkdir s longName.chars with
  | error fault =>
      rw [hmkdir] at hresult
      cases hresult with
      | fault fault hfault =>
          rw [hplan] at hfault
          cases hfault
  | ok r =>
      rw [hmkdir] at hresult
      cases hresult with
      | rejected s' hnone hsame =>
          rw [hplan] at hnone
          cases hnone
      | made plan s' hmade hcontrol hheap hdisk =>
          rw [hplan] at hmade
          cases hmade
          have hedited : Edited g s.disk s'.disk
              (.directory n longName.chars s.currentDirBlock) :=
            Edited.of_editSlot 0 hroom (setDirEntry_edits _ (by decide))
              (SameTable.of_disk rfl) hdisk
          have hfields := hedited.directory_fields h.current
          refine ⟨s', hmkdir, hcontrol.mounted h.mounted,
            h.terminated.edited hedited,
            h.filled.stored hedited rfl hfields.1, ?_, ?_⟩
          · rw [hcontrol.current]
            exact h.current
          · rw [ChainFS.totalFiles, hcontrol.superblock]
            exact h.files

theorem FillInvariant.run {files : ℕ} (h : FillInvariant g s₀ files 1)
    (hready : HeapReady s₀.heap) (k : ℕ) (hk : 1 + k ≤ g.slots) :
    ∃ hist s, FsRun (UnwrappedCall g) s₀ hist s ∧
      FillInvariant g s files (1 + k) := by
  induction k with
  | zero => exact ⟨[], s₀, .start, h⟩
  | succ k ih =>
      obtain ⟨hist, s, hrun, hs⟩ := ih (by omega)
      have hnext : FillInvariant g { s with heap := s₀.heap } files (1 + k) :=
        ⟨hs.mounted.of_same rfl rfl, hs.terminated, hs.filled, hs.current,
          hs.files⟩
      obtain ⟨s', hexec, hs'⟩ := hnext.mkdir hready (by omega)
      have hmeets : UnwrappedCall g { s with heap := s₀.heap }
          (.mkdir longName) 0 := trivial
      exact ⟨_, s', hrun.step hready hmeets hexec, hs'⟩

/-- The slot after the last file of a table that is not filled is handed
out. -/
theorem FillInvariant.not_addressable {files : ℕ}
    (h : FillInvariant g s files files) (hroom : files < g.slots) :
    ¬ SlotsAddressable g s := by
  intro haddressable
  have haddr := g.addressable
  obtain ⟨m, heq⟩ := h.mounted.findFreeFileEntry_eq
  rw [h.filled.freeSlot_eq hroom] at heq
  have hlt := haddressable.handed (1 + files / 8) (files % 8) (by rw [heq]; rfl)
  simp only [Geometry.slots] at hroom
  rw [entryIndex_slotOf (by omega), h.files] at hlt
  exact absurd hlt (Nat.lt_irrefl files)

/-- Every slot is addressable in every state exactly if the number of files
fills the table. -/
theorem slots_addressable_iff
    (hformat : Formatted totalBlocks maxFiles s₀) :
    (∀ hist s,
      FsRun (UnwrappedCall (formatGeometry totalBlocks maxFiles)) s₀ hist s →
        SlotsAddressable (formatGeometry totalBlocks maxFiles) s) ↔
      FillsTable maxFiles := by
  constructor
  · intro hall
    by_contra hnot
    have hroom : maxFiles < (formatGeometry totalBlocks maxFiles).slots := by
      rw [fillsTable_iff hformat.2.1] at hnot
      exact Nat.not_le.mp hnot
    have hpos : 1 ≤ maxFiles := by
      by_contra hzero
      exact hnot (Or.inl (by omega))
    obtain ⟨-, -, -, hcurrent, -, hready⟩ := hformat.fresh
    have hfilled := hformat.filled
    rw [Nat.min_eq_left (by omega)] at hfilled
    have hstart : FillInvariant (formatGeometry totalBlocks maxFiles) s₀
        maxFiles 1 :=
      ⟨hformat.mounted, hformat.namesTerminated, hfilled,
        by rw [hcurrent]; exact Nat.two_pow_pos 32, hformat.totalFiles_eq⟩
    obtain ⟨hist, s, hrun, hs⟩ := hstart.run hready (maxFiles - 1) (by omega)
    rw [Nat.add_sub_cancel' hpos] at hs
    exact hs.not_addressable hroom (hall hist s hrun)
  · intro hfills hist s hrun
    exact ((hformat.addressInvariant hfills).run hrun).addressable

theorem slots_addressable_smallDisk : ∃ hist s,
    FsRun AnyCall smallDisk hist s ∧ hist.map Prod.snd = [0, 0] ∧
      SlotsAddressable (formatGeometry 20 8) s := by
  have hcodes : (smallDisk.checkRun (fun _ _ _ => true)
      (initHeap unbootedHeap)
      [.mkdir ⟨[97], by decide⟩, .chdir ⟨[97], by decide⟩]).map Prod.fst =
        some [0, 0] := by
    decide +kernel
  obtain ⟨codes, s, hrun, heq⟩ := checkRun_any hcodes
  cases heq
  exact ⟨_, s, hrun, rfl, (slots_addressable_iff smallDisk_formatted).mpr
    (Or.inl rfl) _ s (smallDisk_noWrap.unwrapped_run hrun)⟩

/-- The blank drive formatted for 20 sectors and one file. -/
def oneFileDisk : ChainFS := (chainfsFormat blankDrive 20 1).1

theorem oneFileDisk_formatted : Formatted 20 1 oneFileDisk := by
  refine ⟨by decide, by decide, blankDrive, blankDrive_ready, rfl, ?_⟩
  rw [oneFileDisk, chainfsFormat_eq _ (by decide)]

/-- The directory `a` is the second entry, and its path is printed as the
root. -/
theorem second_slot_not_addressable : Formatted 20 1 oneFileDisk ∧
    ∃ hist s, FsRun AnyCall oneFileDisk hist s ∧
      hist.map Prod.snd = [0, 0] ∧ s.currentDirBlock = 1 ∧
      (chainfsGetCurrentPath s 256).map Prod.snd = .ok (some [slash]) ∧
      ¬ SlotsAddressable (formatGeometry 20 1) s := by
  have hcodes : (oneFileDisk.checkRun (fun _ _ _ => true)
      (initHeap unbootedHeap)
      [.mkdir ⟨[97], by decide⟩, .chdir ⟨[97], by decide⟩]).map
        (fun r => (r.1, r.2.currentDirBlock,
          (readEntryByIndex r.2 1).2.isNone &&
            decide (LiveDir (formatGeometry 20 1) r.2.disk 1),
          decide ((chainfsGetCurrentPath r.2 256).toOption.map Prod.snd =
            some (some [slash])))) =
      some ([0, 0], 1, true, true) := by
    decide +kernel
  obtain ⟨codes, s, hrun, heq⟩ := checkRun_any hcodes
  simp only [Prod.mk.injEq, Bool.and_eq_true, decide_eq_true_eq] at heq
  obtain ⟨rfl, hcurrent, ⟨hnone, hlive⟩, hpath⟩ := heq
  refine ⟨oneFileDisk_formatted, _, s, hrun, rfl, hcurrent, ?_, ?_⟩
  · cases hprinted : chainfsGetCurrentPath s 256 with
    | error fault => simp [hprinted, Except.toOption] at hpath
    | ok r =>
        rw [hprinted] at hpath
        simp only [Except.toOption, Option.map_some, Option.some.injEq]
          at hpath
        rw [Except.map, hpath]
  · intro haddressable
    rw [haddressable.accepted 1 hlive] at hnone
    cases hnone

end Otsos
