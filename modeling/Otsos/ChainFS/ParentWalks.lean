import Otsos.ChainFS.CurrentPath
import Otsos.ChainFS.FormatLayout

/-!
# Walks up from the current directory

Removing an entry keeps the parent it stores, and a change of directory moves
along parents.  So the walk from the current directory can only be bent into a
circle by a call that stores an entry in a slot the walk passes: the slot of a
directory that was removed, or written over, while it was in use.
-/

namespace Otsos

open Lib

variable {g : Geometry} {s s' s₀ : ChainFS} {d : ℕ → Memory}
  {path : List UInt8} {idx : ℕ} {call : FsCall} {code : ℤ}
  {hist : List (FsCall × ℤ)} {visited : List ℕ}

/-- The walk of `chainfs_get_current_path` ends and reads no entry twice. -/
def CurrentPathEnds (s : ChainFS) : Prop :=
  ∃ fuel visited, parentWalk s fuel s.currentDirBlock = some visited ∧
    visited.Nodup

/-- The slot that an edit fills in and the parent it stores there. -/
def TableEdit.stored : TableEdit → Option (ℕ × ℕ)
  | .file idx _ _ parent => some (idx, parent)
  | .directory idx _ parent => some (idx, parent)
  | .clear _ => none

/-- If the call stores an entry in a slot that the walk from the current
directory passes, then the walk from the parent stored there ends without
passing that slot. -/
def KeepsWalk (g : Geometry) (s : ChainFS) (call : FsCall) : Prop :=
  ∀ e idx parent, Planned g s call e → e.stored = some (idx, parent) →
    ∀ fuel visited, parentWalk s fuel s.currentDirBlock = some visited →
      idx ∈ visited →
      ∃ fuel above, parentWalk s fuel parent = some above ∧ idx ∉ above

/-- The calls of a run in which every step does so, and takes no block whose
sector number wraps. -/
def WalkCall (g : Geometry) : StepCondition := fun s call code =>
  UnwrappedCall g s call code ∧ KeepsWalk g s call

theorem currentPathEnds_iff :
    CurrentPathEnds s ↔ Ends s.up s.currentDirBlock := by
  constructor
  · rintro ⟨fuel, visited, hwalk, -⟩
    exact ⟨visited, parentWalk_iff.mp ⟨fuel, hwalk⟩⟩
  · rintro ⟨visited, hwalk⟩
    obtain ⟨fuel, hfuel⟩ := parentWalk_iff.mpr hwalk
    exact ⟨fuel, visited, hfuel, hwalk.nodup⟩

theorem CurrentPathEnds.withHeap (h : CurrentPathEnds s) (heap : Heap) :
    CurrentPathEnds { s with heap := heap } := by
  rw [currentPathEnds_iff] at h ⊢
  exact h

/-! ## What a call leaves of the entries and of the superblock -/

theorem entryAt_setStatus (m : Memory) (i : ℕ) (v : UInt8) :
    entryAt (setStatus m i v) i = { entryAt m i with status := v } := by
  have hother : ∀ x, sizeofFileEntry * i < x → setStatus m i v x = m x :=
    fun x hx => m.set_other v (by omega)
  simp only [entryAt, FileEntry.mk.injEq]
  refine ⟨m.set_same _ _, hother _ (by omega), ?_, ?_, ?_, ?_, ?_⟩
  · exact List.map_congr_left fun j _ => hother _ (by omega)
  · exact Memory.load_congr fun j _ => hother _ (by omega)
  · exact Memory.load_congr fun j _ => hother _ (by omega)
  · exact Memory.load_congr fun j _ => hother _ (by omega)
  · exact List.map_congr_left fun j _ => hother _ (by omega)

theorem DiskInvariant.cleared_entry (h : DiskInvariant g s)
    (hplanned : Planned g s call (.clear idx))
    (hexec : s.exec call = .ok (s', code)) :
    entryOf s'.disk idx = { entryOf s.disk idx with status := 0 } := by
  rcases hplanned.clear_inv with ⟨path, rfl, hfind⟩ | ⟨path, rfl, htarget⟩
  · have hresult := h.mounted.deleteFile_result h.heap path.chars
    rw [show chainfsDeleteFile s path.chars = .ok (s', code) from hexec]
      at hresult
    cases hresult with
    | missing s' hmissing hsame =>
        rw [hmissing] at hfind
        cases hfind
    | cleared t freed s₁ s' hfound hfreed hprepared hcontrol hheap hdisk =>
        rw [hfound, Option.some.injEq] at hfind
        subst hfind
        rw [editTarget_slot] at hdisk
        rw [hdisk, entryOf_editSlot, entryAt_setStatus,
          ← hprepared.outside.entryOf_eq (find_slot hfound).1]
        rfl
  · have hresult := h.mounted.rmdir_result h.heap path.chars
    rw [show chainfsRmdir s path.chars = (s', code)
      from Except.ok.inj hexec] at hresult
    cases hresult with
    | rejected s' hnone hsame => exact absurd htarget (hnone idx)
    | removed j s' htarget' hcontrol hheap hdisk =>
        have hsome := htarget.1
        rw [htarget'.1] at hsome
        cases hsome
        rw [hdisk, entryOf_editSlot, entryAt_setStatus]
        rfl

theorem DiskInvariant.superblock_step (h : DiskInvariant g s)
    (hexec : s.exec call = .ok (s', code)) : s'.superblock = s.superblock := by
  by_cases hchdir : ∃ path, call = .chdir path
  · obtain ⟨path, rfl⟩ := hchdir
    have hresult := h.mounted.chdir_result h.heap path.chars
    rw [show chainfsChdir s path.chars = (s', code)
      from Except.ok.inj hexec] at hresult
    cases hresult with
    | rejected s' hsame => exact hsame.control.superblock
    | moved t s' htarget hdir hsuper hstart hcurrent hdisk hheap =>
        exact hsuper
  · by_cases hinit : call.isInit = true
    · cases call with
      | init => rcases h.init_cases hexec with rfl | rfl <;> rfl
      | _ => cases hinit
    · exact (exec_control h.mounted h.heap
        (Bool.eq_false_of_not_eq_true hinit)
        (fun path heq => hchdir ⟨path, heq⟩) hexec).superblock

/-! ## Steps of the walk -/

theorem up_congr (hsuper : s'.superblock = s.superblock)
    (hparent : idx < s.totalFiles →
      parentOf s'.disk idx = parentOf s.disk idx) : s'.up idx = s.up idx := by
  have hroot : s'.rootDirBlock = s.rootDirBlock :=
    congrArg sbRootDirBlock hsuper
  have hfiles : s'.totalFiles = s.totalFiles := congrArg sbTotalFiles hsuper
  unfold ChainFS.up
  rw [hroot, hfiles]
  by_cases hstop : idx = s.rootDirBlock ∨ idx = 0xFFFFFFFF ∨
      s.totalFiles ≤ idx
  · rw [if_pos hstop, if_pos hstop]
  · rw [if_neg hstop, if_neg hstop, hparent (by omega)]

theorem up_edited {e : TableEdit} (hedited : Edited g s.disk s'.disk e)
    (hsuper : s'.superblock = s.superblock) (hfiles : s.totalFiles ≤ g.slots) :
    Redirected s.up s'.up e.slot := by
  constructor
  · intro z
    simp only [up_none, ChainFS.rootDirBlock, ChainFS.totalFiles, hsuper]
  · intro z hz
    apply up_congr hsuper
    intro hlt
    rw [parentOf, (hedited.other z (by omega) hz).entryOf_eq, parentOf]

theorem up_same (hsame : SameTable g s.disk s'.disk)
    (hsuper : s'.superblock = s.superblock) (hfiles : s.totalFiles ≤ g.slots) :
    s'.up = s.up := by
  funext z
  apply up_congr hsuper
  intro hlt
  rw [parentOf, (hsame z (by omega)).entryOf_eq, parentOf]

theorem up_stored {e : TableEdit} {parent : ℕ}
    (hedited : Edited g s.disk s'.disk e)
    (hstored : e.stored = some (idx, parent)) (hparent : parent < 2 ^ 32)
    (hpass : s'.up idx ≠ none) : s'.up idx = some parent := by
  have hup : s'.up idx = some (parentOf s'.disk idx) := by
    unfold ChainFS.up at hpass ⊢
    by_cases hstop : idx = s'.rootDirBlock ∨ idx = 0xFFFFFFFF ∨
        s'.totalFiles ≤ idx
    · exact absurd (if_pos hstop) hpass
    · rw [if_neg hstop]
  rw [hup, parentOf]
  cases e with
  | file j name size p =>
      cases hstored
      rw [(hedited.file_fields hparent).2.2]
  | directory j name p =>
      cases hstored
      rw [(hedited.directory_fields hparent).2.2]
  | clear j => cases hstored

/-- The entries on a path hang under each other. -/
theorem walkTable_ends {dir : ℕ} {cs : List (List UInt8)}
    (h : walkTable g s.disk dir cs = some idx) (hdir : Ends s.up dir) :
    Ends s.up idx := by
  induction cs generalizing dir with
  | nil => cases h
  | cons c cs ih =>
      obtain ⟨j, hlookup, hrest⟩ := walkTable_cons_some h
      have hends : Ends s.up j := by
        cases hup : s.up j with
        | none => exact ⟨[], .stop hup⟩
        | some parent =>
            have hparent := (up_some hup).2
            rw [parentOf, (lookup_some hlookup).2.2] at hparent
            rw [Ends.step hup, hparent]
            exact hdir
      rcases hrest with rfl | ⟨-, hrest⟩
      · exact hends
      · exact ih hrest hends

theorem Mounted.ends_root (h : Mounted g s) : Ends s.up 0 :=
  ⟨[], .stop (up_none.mpr (Or.inl h.root.symm))⟩

theorem Mounted.resolve_ends (h : Mounted g s)
    (hresolve : s.resolve g path = some (.slot idx))
    (hends : Ends s.up s.currentDirBlock) : Ends s.up idx := by
  refine walkTable_ends (resolve_walked hresolve) ?_
  by_cases habs : path.head? = some slash
  · rw [if_pos habs]
    exact h.ends_root
  · rw [if_neg habs]
    exact hends

/-! ## Steps of a run -/

/-- The walk reads entries of the table, or there is no table and the root is
the current directory. -/
structure WalkInvariant (g : Geometry) (s : ChainFS) : Prop where
  disk : DiskInvariant g s
  current : s.currentDirBlock < 2 ^ 32
  files : s.totalFiles ≤ g.slots ∨ g.slots = 0 ∧ s.currentDirBlock = 0

theorem WalkInvariant.withHeap {heap : Heap} (h : WalkInvariant g s)
    (hready : HeapReady heap) : WalkInvariant g { s with heap := heap } :=
  ⟨h.disk.withHeap hready, h.current, h.files⟩

theorem DiskInvariant.current_cases (h : DiskInvariant g s)
    (hexec : s.exec call = .ok (s', code)) :
    s'.currentDirBlock = s.currentDirBlock ∨ s'.currentDirBlock = 0 ∨
      ∃ path idx, call = .chdir path ∧
        s.resolve g path.chars = some (.slot idx) ∧
        s'.currentDirBlock = idx := by
  by_cases hchdir : ∃ path, call = .chdir path
  · obtain ⟨path, rfl⟩ := hchdir
    rcases h.chdir_current (Except.ok.inj hexec) with
      hsame | ⟨idx, hresolve, -, hmoved⟩
    · exact Or.inl hsame
    · have hidx := (resolve_slot hresolve).1
      have haddr := g.addressable
      simp only [Geometry.slots] at hidx
      rw [entryIndex_slotOf (by omega)] at hmoved
      exact Or.inr (Or.inr ⟨path, idx, rfl, hresolve, hmoved⟩)
  · by_cases hinit : call.isInit = true
    · cases call with
      | init =>
          rcases h.init_cases hexec with rfl | rfl
          · exact Or.inr (Or.inl rfl)
          · exact Or.inl rfl
      | _ => cases hinit
    · exact Or.inl (exec_control h.mounted h.heap
        (Bool.eq_false_of_not_eq_true hinit)
        (fun path heq => hchdir ⟨path, heq⟩) hexec).current

theorem WalkInvariant.step (h : WalkInvariant g s)
    (hcall : UnwrappedCall g s call code)
    (hexec : s.exec call = .ok (s', code)) : WalkInvariant g s' := by
  refine ⟨h.disk.step hcall hexec, h.disk.current_step h.current hexec, ?_⟩
  have hsuper := h.disk.superblock_step hexec
  rcases h.files with hfiles | ⟨hslots, hzero⟩
  · left
    rwa [ChainFS.totalFiles, hsuper]
  · right
    refine ⟨hslots, ?_⟩
    rcases h.disk.current_cases hexec with
      hsame | hroot | ⟨path, idx, -, hresolve, -⟩
    · rw [hsame, hzero]
    · exact hroot
    · have hidx := (resolve_slot hresolve).1
      omega

theorem Planned.parent_lt {e : TableEdit} {parent : ℕ}
    (hplanned : Planned g s call e) (hcurrent : s.currentDirBlock < 2 ^ 32)
    (hstored : e.stored = some (idx, parent)) : parent < 2 ^ 32 := by
  cases e with
  | file j name size p =>
      cases hstored
      obtain ⟨path, data, plan, -, hplan, -, -, -, rfl⟩ := hplanned.file_inv
      obtain ⟨p, -, hparent, -⟩ := writePlan_some hplan
      exact parentId_lt hcurrent (Or.inl hparent)
  | directory j name p =>
      cases hstored
      obtain ⟨path, plan, -, hplan, -, -, rfl⟩ := hplanned.directory_inv
      obtain ⟨p, -, hparent, -⟩ := mkdirPlan_some hplan
      exact parentId_lt hcurrent (Or.inr hparent)
  | clear j => cases hstored

theorem keepsWalk_iff (hwalk : Walk s.up s.currentDirBlock visited) :
    KeepsWalk g s call ↔ ∀ e idx parent, Planned g s call e →
      e.stored = some (idx, parent) → idx ∈ visited →
        ∃ above, Walk s.up parent above ∧ idx ∉ above := by
  obtain ⟨fuel, hfuel⟩ := parentWalk_iff.mpr hwalk
  constructor
  · intro hkeeps e idx parent hplanned hstored hmem
    obtain ⟨fuel', above, habove, hnot⟩ :=
      hkeeps e idx parent hplanned hstored fuel visited hfuel hmem
    exact ⟨above, parentWalk_iff.mp ⟨fuel', habove⟩, hnot⟩
  · intro hkeeps e idx parent hplanned hstored fuel' visited' hfuel' hmem
    have hsame := hwalk.unique (parentWalk_iff.mp ⟨fuel', hfuel'⟩)
    rw [← hsame] at hmem
    obtain ⟨above, habove, hnot⟩ := hkeeps e idx parent hplanned hstored hmem
    obtain ⟨fuel'', hfuel''⟩ := parentWalk_iff.mpr habove
    exact ⟨fuel'', above, hfuel'', hnot⟩

theorem DiskInvariant.planned_current {e : TableEdit} (h : DiskInvariant g s)
    (hplanned : Planned g s call e)
    (hexec : s.exec call = .ok (s', code)) :
    s'.currentDirBlock = s.currentDirBlock := by
  have hinit : call.isInit = false := by
    cases call with
    | init => exact absurd hplanned id
    | _ => rfl
  refine (exec_control h.mounted h.heap hinit ?_ hexec).current
  rintro path rfl
  exact hplanned

/-- A call without an edit moves along the table, if at all. -/
theorem WalkInvariant.ends_same (h : WalkInvariant g s)
    (hends : Ends s.up s.currentDirBlock) (hsame : SameTable g s.disk s'.disk)
    (hcall : UnwrappedCall g s call code)
    (hexec : s.exec call = .ok (s', code)) :
    Ends s'.up s'.currentDirBlock := by
  have hinv' := h.step hcall hexec
  rcases h.disk.current_cases hexec with
    hcur | hzero | ⟨path, idx, -, hresolve, hcur⟩
  · rcases h.files with hfiles | ⟨-, hzero⟩
    · rw [up_same hsame (h.disk.superblock_step hexec) hfiles, hcur]
      exact hends
    · rw [hcur, hzero]
      exact hinv'.disk.mounted.ends_root
  · rw [hzero]
    exact hinv'.disk.mounted.ends_root
  · have hidx := (resolve_slot hresolve).1
    have hfiles : s.totalFiles ≤ g.slots :=
      h.files.resolve_right fun hnone => by omega
    rw [up_same hsame (h.disk.superblock_step hexec) hfiles, hcur]
    exact h.disk.mounted.resolve_ends hresolve hends

theorem WalkInvariant.up_cleared (h : WalkInvariant g s)
    (hplanned : Planned g s call (.clear idx))
    (hexec : s.exec call = .ok (s', code)) (hfiles : s.totalFiles ≤ g.slots)
    (hedited : Edited g s.disk s'.disk (.clear idx)) : s'.up = s.up := by
  have hsuper := h.disk.superblock_step hexec
  funext z
  by_cases hz : z = idx
  · apply up_congr hsuper
    intro _
    rw [hz, parentOf, h.disk.cleared_entry hplanned hexec, parentOf]
  · exact (up_edited hedited hsuper hfiles).other z hz

theorem WalkInvariant.ends_iff (h : WalkInvariant g s)
    (hends : CurrentPathEnds s) (hcall : UnwrappedCall g s call code)
    (hexec : s.exec call = .ok (s', code)) :
    CurrentPathEnds s' ↔ KeepsWalk g s call := by
  have hsuper := h.disk.superblock_step hexec
  rw [currentPathEnds_iff] at hends ⊢
  obtain ⟨visited, hwalk⟩ := hends
  rw [keepsWalk_iff hwalk]
  cases h.disk.tableStep hcall hexec with
  | same hnone hsame =>
      exact iff_of_true (h.ends_same ⟨visited, hwalk⟩ hsame hcall hexec)
        fun e _ _ hplanned => absurd hplanned (hnone e)
  | edited e hplanned hedited =>
      have hinside := hedited.inside
      have hfiles : s.totalFiles ≤ g.slots :=
        h.files.resolve_right fun hnone => by omega
      rw [h.disk.planned_current hplanned hexec]
      have hredirect := up_edited hedited hsuper hfiles
      cases hstored : e.stored with
      | none =>
          have hup : s'.up = s.up := by
            cases e with
            | clear idx => exact h.up_cleared hplanned hexec hfiles hedited
            | file idx name size parent => cases hstored
            | directory idx name parent => cases hstored
          rw [hup]
          refine iff_of_true ⟨visited, hwalk⟩ ?_
          intro e' idx parent hplanned' hstored'
          rw [hplanned.unique hplanned', hstored] at hstored'
          cases hstored'
      | some stored =>
          obtain ⟨idx, parent⟩ := stored
          have hslot : e.slot = idx := by
            cases e <;> cases hstored <;> rfl
          rw [hslot] at hredirect
          rw [hredirect.ends_iff hwalk (up_stored hedited hstored
            (hplanned.parent_lt h.current hstored))]
          constructor
          · intro hcond e' idx' parent' hplanned' hstored'
            rw [hplanned.unique hplanned', hstored] at hstored'
            cases hstored'
            exact hcond
          · exact fun hcond => hcond e idx parent hplanned hstored

theorem formatSuperblock_totalFiles {totalBlocks maxFiles : ℕ}
    (hmax : maxFiles < 2 ^ 32) :
    sbTotalFiles (formatSuperblock totalBlocks maxFiles) = maxFiles := by
  simp (disch := omega) only [sbTotalFiles, formatSuperblock,
    Memory.load_store_disjoint, Memory.load_store_same]
  exact Nat.mod_eq_of_lt hmax

theorem Formatted.totalFiles_eq {totalBlocks maxFiles : ℕ}
    (h : Formatted totalBlocks maxFiles s) : s.totalFiles = maxFiles := by
  obtain ⟨-, hsuper, -⟩ := h.fresh
  rw [ChainFS.totalFiles, hsuper, formatSuperblock_totalFiles h.2.1]

theorem Formatted.walkInvariant {totalBlocks maxFiles : ℕ}
    (h : Formatted totalBlocks maxFiles s) :
    WalkInvariant (formatGeometry totalBlocks maxFiles) s := by
  obtain ⟨-, -, -, hcurrent, -⟩ := h.fresh
  refine ⟨h.diskInvariant, by rw [hcurrent]; exact Nat.two_pow_pos 32, ?_⟩
  rw [h.totalFiles_eq]
  have hslots : (formatGeometry totalBlocks maxFiles).slots =
      8 * formatTableBlocks maxFiles := rfl
  rcases formatTableBlocks_cases h.2.1 with
    ⟨-, -, htable⟩ | ⟨-, htable⟩
  · left
    omega
  · exact Or.inr ⟨by omega, hcurrent⟩

/-- In every run whose calls keep the walk it ends in every state reached, and
after the next call it ends exactly if that call keeps it. -/
theorem currentPath_ends {totalBlocks maxFiles : ℕ}
    (hformat : Formatted totalBlocks maxFiles s₀)
    (hrun : FsRun (WalkCall (formatGeometry totalBlocks maxFiles)) s₀ hist
      s) :
    CurrentPathEnds s ∧
      ∀ heap call s' code, HeapReady heap →
        UnwrappedCall (formatGeometry totalBlocks maxFiles)
          { s with heap := heap } call code →
        { s with heap := heap }.exec call = .ok (s', code) →
          (CurrentPathEnds s' ↔ KeepsWalk
            (formatGeometry totalBlocks maxFiles) { s with heap := heap }
              call) := by
  have hstart := hformat.walkInvariant
  obtain ⟨-, -, -, hcurrent, -⟩ := hformat.fresh
  have hends : CurrentPathEnds s₀ := by
    rw [currentPathEnds_iff, hcurrent]
    exact hstart.disk.mounted.ends_root
  have hinv := hrun.invariant
    (I := fun s => WalkInvariant (formatGeometry totalBlocks maxFiles) s ∧
      CurrentPathEnds s)
    ⟨hstart, hends⟩
    (fun s heap hs hready => ⟨hs.1.withHeap hready, hs.2.withHeap heap⟩)
    fun s call s' code hs _ hmeets hexec =>
      ⟨hs.1.step hmeets.1 hexec,
        (hs.1.ends_iff hs.2 hmeets.1 hexec).mpr hmeets.2⟩
  refine ⟨hinv.2, ?_⟩
  intro heap call s' code hready hcall hexec
  exact (hinv.1.withHeap hready).ends_iff (hinv.2.withHeap heap) hcall hexec

/-- The test of `KeepsWalk` for directory calls by which the walk does not
come to the slot filled in. -/
def walkCallTest (g : Geometry) (s : ChainFS) (call : FsCall) (_ : ℤ) :
    Bool :=
  match call with
  | .mkdir path =>
      match mkdirPlan g s path.chars, parentWalk s 9 s.currentDirBlock with
      | .ok (some plan), some visited => decide (plan.slot ∉ visited)
      | .ok (some _), none => false
      | _, _ => true
  | .chdir _ => true
  | _ => false

theorem walkCall_of_test (g : Geometry) (s : ChainFS) (call : FsCall)
    (code : ℤ) (h : walkCallTest g s call code = true) :
    WalkCall g s call code := by
  cases call with
  | mkdir path =>
      refine ⟨trivial, ?_⟩
      rintro e idx parent ⟨plan, hplan, rfl⟩ hstored fuel visited hwalk hmem
      cases hstored
      rw [walkCallTest, hplan] at h
      cases hshort : parentWalk s 9 s.currentDirBlock with
      | none => simp [hshort] at h
      | some visited' =>
          have hsame := (parentWalk_iff.mp ⟨fuel, hwalk⟩).unique
            (parentWalk_iff.mp ⟨9, hshort⟩)
          rw [hsame] at hmem
          simp only [hshort, decide_eq_true_eq] at h
          exact absurd hmem h
  | chdir path => exact ⟨trivial, fun e idx parent hplanned => hplanned.elim⟩
  | writeFile path data size => cases h
  | deleteFile path => cases h
  | readFile path buffer n => cases h
  | rmdir path => cases h
  | listDir path n => cases h
  | init => cases h

theorem currentPath_ends_smallDisk : ∃ hist s,
    FsRun (WalkCall (formatGeometry 20 8)) smallDisk hist s ∧
      hist.map Prod.snd = [0, 0, 0] ∧ CurrentPathEnds s := by
  have hcodes : (smallDisk.checkRun (walkCallTest (formatGeometry 20 8))
      (initHeap unbootedHeap)
      [.mkdir ⟨[97], by decide⟩, .chdir ⟨[97], by decide⟩,
        .mkdir ⟨[98], by decide⟩]).map Prod.fst = some [0, 0, 0] := by
    decide +kernel
  obtain ⟨codes, s, hrun, heq⟩ :=
    checkRun_run blankDrive_ready
      (walkCall_of_test (formatGeometry 20 8)) hcodes
  cases heq
  exact ⟨_, s, hrun, rfl, (currentPath_ends smallDisk_formatted hrun).1⟩

/-- The current directory `a` is removed and its slot given to a directory
`c`, whose parent it is: the walk goes round in it. -/
theorem currentPath_endless : ∃ hist s,
    FsRun AnyCall smallDisk hist s ∧ hist.map Prod.snd = [0, 0, 0, 0] ∧
      ¬ CurrentPathEnds s := by
  have hcodes : (smallDisk.checkRun (fun _ _ _ => true)
      (initHeap unbootedHeap)
      [.mkdir ⟨[97], by decide⟩, .chdir ⟨[97], by decide⟩,
        .rmdir ⟨[47, 97], by decide⟩, .mkdir ⟨[99], by decide⟩]).map
          (fun r => (r.1, r.2.currentDirBlock, r.2.up 1)) =
      some ([0, 0, 0, 0], 1, some 1) := by
    decide +kernel
  obtain ⟨codes, s, hrun, heq⟩ := checkRun_any hcodes
  simp only [Prod.mk.injEq] at heq
  obtain ⟨rfl, hcurrent, hup⟩ := heq
  refine ⟨_, s, hrun, rfl, ?_⟩
  rw [currentPathEnds_iff, hcurrent]
  exact not_ends_self hup

end Otsos
