import Otsos.Lib.ParentTree
import Otsos.ChainFS.TableEdits

/-!
# The directory tree

The live entries should form a tree under the root, by table index.  The calls
that write an entry store as its parent either the index of a directory or the
sector it lies in, and those that clear one look only for children stored under
the sector.  Whether a call keeps the tree can be said of its path and the state
before it.
-/

namespace Otsos

open Lib

variable {g : Geometry} {s s' s₀ s₁ : ChainFS} {d d' : ℕ → Memory}
  {path : List UInt8} {data : Memory} {idx size : ℕ}
  {call : FsCall} {code : ℤ} {hist : List (FsCall × ℤ)}

/-- The live entries are a tree under the entry 0, by table index, and the
current directory is one of its directories. -/
structure DirectoryTree (g : Geometry) (s : ChainFS) : Prop where
  tree : ParentTree (LiveEntry g s.disk) (LiveDir g s.disk)
    (parentOf s.disk) 0
  current : LiveDir g s.disk s.currentDirBlock

/-- Nothing hangs under the slot, and it is not the current directory. -/
def Vacant (g : Geometry) (s : ChainFS) (idx : ℕ) : Prop :=
  (∀ j, LiveEntry g s.disk j → parentOf s.disk j ≠ idx) ∧
    s.currentDirBlock ≠ idx

/-! ## The condition on a call -/

/-- An entry is put under the index of a directory, and a file or nothing is
put only where nothing hangs. -/
def TableEdit.KeepsTree (g : Geometry) (s : ChainFS) : TableEdit → Prop
  | .file idx _ _ parent =>
      Vacant g s idx ∧ LiveDir g s.disk parent ∧ parent ≠ idx
  | .directory _ _ parent => LiveDir g s.disk parent
  | .clear idx => Vacant g s idx

/-- If the call gets as far as changing the table: the sector in which the
directory of a path lies is the index of a directory as well, and not of the
one that a write replaces; and nothing is replaced or cleared that is in use as
a directory. -/
def KeepsTree (g : Geometry) (s : ChainFS) (call : FsCall) : Prop :=
  (∃ e, Planned g s call e) →
    match call with
    | .writeFile path _ _ =>
        (∀ p, ParentSector g s path.chars p →
          LiveDir g s.disk p ∧ s.find g path.chars ≠ some (.slot p)) ∧
        ∀ idx, s.find g path.chars = some (.slot idx) → Vacant g s idx
    | .mkdir path => ∀ p, ParentSector g s path.chars p → LiveDir g s.disk p
    | .deleteFile path =>
        ∀ idx, s.find g path.chars = some (.slot idx) → Vacant g s idx
    | .rmdir path =>
        ∀ idx, s.resolve g path.chars = some (.slot idx) → Vacant g s idx
    | _ => True

/-- The calls of a run in which every step keeps the tree. -/
def TreeCall (g : Geometry) : StepCondition := fun s call code =>
  call.isInit = false ∧ UnwrappedCall g s call code ∧ KeepsTree g s call

/-! ## Changes of one slot -/

theorem tree_congr
    (h : ParentTree (LiveEntry g d) (LiveDir g d) (parentOf d) 0)
    (hentries : ∀ j < g.slots, entryOf d' j = entryOf d j) :
    ParentTree (LiveEntry g d') (LiveDir g d') (parentOf d') 0 := by
  refine h.congr ?_ ?_ ?_
  · intro j
    by_cases hj : j < g.slots
    · exact LiveEntry.congr (hentries j hj)
    · simp [LiveEntry, hj]
  · intro j hj
    exact (LiveDir.congr (hentries j hj.1.1)).mpr hj
  · intro j hj
    rw [parentOf, hentries j hj.1, parentOf]

theorem DirectoryTree.congr (h : DirectoryTree g s)
    (hcurrent : s'.currentDirBlock = s.currentDirBlock)
    (hentries : ∀ j < g.slots, entryOf s'.disk j = entryOf s.disk j) :
    DirectoryTree g s' := by
  refine ⟨tree_congr h.tree hentries, ?_⟩
  rw [hcurrent]
  exact (LiveDir.congr (hentries _ h.current.1.1)).mpr h.current

theorem Edited.nodeEdit {e : TableEdit} (h : Edited g d d' e)
    (hzero : e.slot ≠ 0) :
    NodeEdit (LiveEntry g d) (LiveEntry g d') (LiveDir g d) (LiveDir g d')
      (parentOf d) (parentOf d') 0 e.slot := by
  refine ⟨hzero, ?_, ?_, ?_⟩
  · intro j hne
    by_cases hj : j < g.slots
    · exact LiveEntry.congr (h.other j hj hne).entryOf_eq
    · simp [LiveEntry, hj]
  · intro j hne
    by_cases hj : j < g.slots
    · exact LiveDir.congr (h.other j hj hne).entryOf_eq
    · simp [LiveDir, LiveEntry, hj]
  · intro j hne hlive
    rw [parentOf, (h.other j hlive.1 hne).entryOf_eq, parentOf]

/-- The root entry is nobody's child. -/
def RootDetached (d : ℕ → Memory) : Prop := parentOf d 0 = 0xFFFFFFFF

/-- A slot that is free before the change, or does not hold a directory after
it, is changed without harm exactly if nothing hangs under it and it hangs
under another directory. -/
theorem DirectoryTree.change_iff {e : TableEdit} (h : DirectoryTree g s)
    (hcurrent : s'.currentDirBlock = s.currentDirBlock)
    (hedited : Edited g s.disk s'.disk e) (hzero : e.slot ≠ 0)
    (hslots : g.slots < 2 ^ 32) (hroot : RootDetached s.disk)
    (hkind : ¬ LiveDir g s'.disk e.slot ∨ ¬ LiveEntry g s.disk e.slot) :
    DirectoryTree g s' ↔ Vacant g s e.slot ∧
      (LiveEntry g s'.disk e.slot →
        LiveDir g s.disk (parentOf s'.disk e.slot) ∧
          parentOf s'.disk e.slot ≠ e.slot) := by
  have hnodes := hedited.nodeEdit hzero
  have hinner : ∀ j, LiveDir g s.disk j → LiveEntry g s.disk j :=
    fun j hj => hj.1
  constructor
  · intro h'
    have hdetached : parentOf s.disk 0 ≠ e.slot := by
      have hinside := hedited.inside
      rw [hroot]
      omega
    obtain ⟨hvacant, hnode⟩ := h.tree.edit_inv h'.tree hnodes hinner
      (Or.inr hdetached) hkind
    refine ⟨⟨hvacant, ?_⟩, hnode⟩
    intro heq
    rcases hkind with hnot | hfree
    · have hcur := h'.current
      rw [hcurrent, heq] at hcur
      exact hnot hcur
    · have hcur := h.current.1
      rw [heq] at hcur
      exact hfree hcur
  · rintro ⟨⟨hvacant, hcur⟩, hnode⟩
    refine ⟨h.tree.edit hnodes hvacant hinner hnode, ?_⟩
    rw [hcurrent]
    exact (hnodes.inner_iff _ hcur).mpr h.current

theorem DirectoryTree.vacant_of_free (h : DirectoryTree g s)
    (hroot : RootDetached s.disk) (hidx : idx < g.slots)
    (hslots : g.slots < 2 ^ 32) (hdead : ¬ LiveEntry g s.disk idx) :
    Vacant g s idx := by
  refine ⟨?_, ?_⟩
  · intro j hj heq
    by_cases hzero : j = 0
    · rw [hzero, hroot] at heq
      omega
    · have hparent := (h.tree.parents j hj hzero).1
      rw [heq] at hparent
      exact hdead hparent
  · intro heq
    have hcur := h.current.1
    rw [heq] at hcur
    exact hdead hcur

/-! ## Targets -/

structure TreeInvariant (g : Geometry) (s : ChainFS) : Prop where
  disk : DiskInvariant g s
  slots : g.slots < 2 ^ 32
  tree : DirectoryTree g s
  root : RootDetached s.disk

theorem DirectoryTree.root_live (h : DirectoryTree g s) :
    LiveDir g s.disk 0 :=
  h.tree.root_inner (fun _ hj => hj.1) h.current

theorem walkTable_parent {dir : ℕ} {cs : List (List UInt8)}
    (h : walkTable g d dir cs = some idx) :
    parentOf d idx = dir ∨ parentOf d idx < g.slots := by
  induction cs generalizing dir with
  | nil => cases h
  | cons c cs ih =>
      obtain ⟨j, hlookup, rfl | ⟨-, hrest⟩⟩ := walkTable_cons_some h
      · exact Or.inl (lookup_some hlookup).2.2
      · right
        rcases ih hrest with heq | hlt
        · rw [heq]
          exact (lookup_some hlookup).1
        · exact hlt

theorem TreeInvariant.resolve_ne_zero (h : TreeInvariant g s)
    (hresolve : s.resolve g path = some (.slot idx)) : idx ≠ 0 := by
  have hcurrent := h.tree.current.1.1
  have hslots := h.slots
  rintro rfl
  have hdetached : parentOf s.disk 0 = 0xFFFFFFFF := h.root
  have hparent := walkTable_parent (resolve_walked hresolve)
  rw [hdetached] at hparent
  by_cases habs : path.head? = some slash
  · rw [if_pos habs] at hparent
    omega
  · rw [if_neg habs] at hparent
    omega

theorem TreeInvariant.find_ne_zero (h : TreeInvariant g s)
    (hfind : s.find g path = some (.slot idx)) : idx ≠ 0 := by
  simp only [ChainFS.find, findTable] at hfind
  by_cases hslash : slash ∈ path
  · rw [if_pos hslash] at hfind
    exact h.resolve_ne_zero hfind
  · rw [if_neg hslash] at hfind
    obtain ⟨j, hlookup, heq⟩ := Option.map_eq_some_iff.mp hfind
    cases heq
    have hdetached : parentOf s.disk 0 = 0xFFFFFFFF := h.root
    obtain ⟨-, -, hparent⟩ := lookup_some hlookup
    have hcurrent := h.tree.current.1.1
    have hslots := h.slots
    rintro rfl
    rw [parentOf, hparent] at hdetached
    omega

theorem TreeInvariant.free_ne_zero (h : TreeInvariant g s)
    (hfree : freeSlot g s.disk = some idx) : idx ≠ 0 := by
  rintro rfl
  exact not_liveEntry_of_free hfree h.tree.root_live.1

theorem TreeInvariant.parent_lt (h : TreeInvariant g s)
    {parent : ParentPath} {parentBlock : ℕ}
    (hparent : writeParentId g s.disk s.currentDirBlock parent =
      some parentBlock ∨
      mkdirParentId g s.disk s.currentDirBlock parent = some parentBlock) :
    parentBlock < 2 ^ 32 := by
  have hcurrent := h.tree.current.1.1
  have hslots := h.slots
  exact parentId_lt (by omega) hparent

/-! ## The calls -/

theorem TreeInvariant.planned_ne_zero {e : TableEdit}
    (h : TreeInvariant g s) (hplanned : Planned g s call e) :
    e.slot ≠ 0 := by
  cases call with
  | writeFile path data size =>
      obtain ⟨plan, idx, hplan, -, hslot, rfl⟩ := hplanned
      obtain ⟨parent, -, -, ⟨hfind, -⟩ | ⟨-, -, j, hfree, hj⟩⟩ :=
        writePlan_some hplan
      · rw [hslot] at hfind
        exact h.find_ne_zero hfind
      · rw [hslot, Target.slot.injEq] at hj
        rw [← hj] at hfree
        exact h.free_ne_zero hfree
  | deleteFile path =>
      obtain ⟨idx, hfind, -, rfl⟩ := hplanned
      exact h.find_ne_zero hfind
  | mkdir path =>
      obtain ⟨plan, hplan, rfl⟩ := hplanned
      obtain ⟨-, -, -, -, hfree⟩ := mkdirPlan_some hplan
      exact h.free_ne_zero hfree
  | rmdir path =>
      obtain ⟨idx, htarget, rfl⟩ := hplanned
      exact h.resolve_ne_zero htarget.1
  | readFile path buffer n => exact absurd hplanned id
  | chdir path => exact absurd hplanned id
  | listDir path n => exact absurd hplanned id
  | init => exact absurd hplanned id

theorem TreeInvariant.edited {e : TableEdit} (h : TreeInvariant g s)
    (hcurrent : s'.currentDirBlock = s.currentDirBlock)
    (hplanned : Planned g s call e)
    (hedited : Edited g s.disk s'.disk e) :
    DirectoryTree g s' ↔ e.KeepsTree g s := by
  have hiff := h.tree.change_iff hcurrent hedited
    (h.planned_ne_zero hplanned) h.slots h.root
  have hinside := hedited.inside
  cases e with
  | clear idx =>
      have hdead := hedited.clear_dead
      rw [hiff (Or.inl fun hdir => hdead hdir.1)]
      constructor
      · exact fun hboth => hboth.1
      · exact fun hvacant => ⟨hvacant, fun hlive => absurd hlive hdead⟩
  | file idx name size parent =>
      obtain ⟨path, data, plan, -, hplan, -, -, -, rfl⟩ := hplanned.file_inv
      obtain ⟨p, -, hparent, -⟩ := writePlan_some hplan
      obtain ⟨hone, htype, hparentOf⟩ :=
        hedited.file_fields (h.parent_lt (Or.inl hparent))
      have hfile : ¬ LiveDir g s'.disk idx := by
        rintro ⟨-, hdir⟩
        rw [htype] at hdir
        exact absurd hdir (by decide)
      rw [hiff (Or.inl hfile), show parentOf s'.disk
        (TableEdit.file idx name size plan.parent).slot = plan.parent
        from hparentOf]
      constructor
      · exact fun hboth => ⟨hboth.1, hboth.2 ⟨hinside, hone⟩⟩
      · exact fun hkeeps => ⟨hkeeps.1, fun _ => hkeeps.2⟩
  | directory idx name parent =>
      obtain ⟨path, plan, -, hplan, rfl, -, rfl⟩ := hplanned.directory_inv
      obtain ⟨p, -, hparent, -, hfree⟩ := mkdirPlan_some hplan
      obtain ⟨hone, -, hparentOf⟩ :=
        hedited.directory_fields (h.parent_lt (Or.inr hparent))
      have hdead := not_liveEntry_of_free hfree
      rw [hiff (Or.inr hdead), show parentOf s'.disk
        (TableEdit.directory plan.slot name plan.parent).slot = plan.parent
        from hparentOf]
      constructor
      · exact fun hboth => (hboth.2 ⟨hinside, hone⟩).1
      · intro hdir
        refine ⟨h.tree.vacant_of_free h.root hinside h.slots hdead,
          fun _ => ⟨hdir, ?_⟩⟩
        intro heq
        rw [heq] at hdir
        exact hdead hdir.1

theorem TreeInvariant.free_vacant (h : TreeInvariant g s)
    (hfree : freeSlot g s.disk = some idx) :
    Vacant g s idx ∧ ¬ LiveDir g s.disk idx := by
  have hdead := not_liveEntry_of_free hfree
  exact ⟨h.tree.vacant_of_free h.root (freeSlot_some hfree).1 h.slots hdead,
    fun hdir => hdead hdir.1⟩

/-- The condition on a write, for the entry that it stores. -/
theorem TreeInvariant.write_keeps_iff {plan : WritePlan}
    (h : TreeInvariant g s) (hplan : writePlan g s path = .ok (some plan))
    (hslot : plan.target = .slot idx) :
    ((∀ p, ParentSector g s path p →
        LiveDir g s.disk p ∧ s.find g path ≠ some (.slot p)) ∧
      ∀ j, s.find g path = some (.slot j) → Vacant g s j) ↔
    Vacant g s idx ∧ LiveDir g s.disk plan.parent ∧ plan.parent ≠ idx := by
  obtain ⟨p, hsplit, hparent, hfound⟩ := writePlan_some hplan
  rw [hslot] at hfound
  rcases hfound with ⟨hfind, -⟩ | ⟨hfind, -, j, hfree, hj⟩
  · have hsector := fun hvacant : Vacant g s idx =>
      h.disk.parentSector_forall (P := fun q => LiveDir g s.disk q ∧ q ≠ idx)
        ⟨h.tree.current, hvacant.2⟩
        ⟨h.tree.root_live, Ne.symm (h.find_ne_zero hfind)⟩ hsplit
        (Or.inl hparent)
    rw [hfind]
    constructor
    · rintro ⟨hparents, htarget⟩
      have hvacant := htarget idx rfl
      refine ⟨hvacant, (hsector hvacant).mpr fun q hq => ?_⟩
      obtain ⟨hdir, hne⟩ := hparents q hq
      exact ⟨hdir, fun heq => hne (by rw [heq])⟩
    · rintro ⟨hvacant, hboth⟩
      have hparents := (hsector hvacant).mp hboth
      refine ⟨fun q hq => ⟨(hparents q hq).1, fun heq => ?_⟩, fun k hk => ?_⟩
      · cases heq
        exact (hparents _ hq).2 rfl
      · cases hk
        exact hvacant
  · cases hj
    obtain ⟨hvacant, hdead⟩ := h.free_vacant hfree
    have hsector := h.disk.parentSector_forall
      (P := fun q => LiveDir g s.disk q) h.tree.current h.tree.root_live
      hsplit (Or.inl hparent)
    rw [hfind]
    constructor
    · rintro ⟨hparents, -⟩
      have hdir := hsector.mpr fun q hq => (hparents q hq).1
      refine ⟨hvacant, hdir, ?_⟩
      intro heq
      rw [heq] at hdir
      exact hdead hdir
    · rintro ⟨-, hdir, -⟩
      exact ⟨fun q hq => ⟨hsector.mp hdir q hq, by simp⟩,
        fun k hk => by cases hk⟩

theorem TreeInvariant.keepsTree_iff {e : TableEdit} (h : TreeInvariant g s)
    (hplanned : Planned g s call e) :
    KeepsTree g s call ↔ e.KeepsTree g s := by
  refine (forall_prop_of_true ⟨e, hplanned⟩).trans ?_
  cases call with
  | writeFile path data size =>
      obtain ⟨plan, idx, hplan, -, hslot, rfl⟩ := hplanned
      exact h.write_keeps_iff hplan hslot
  | mkdir path =>
      obtain ⟨plan, hplan, rfl⟩ := hplanned
      obtain ⟨p, hsplit, hparent, -⟩ := mkdirPlan_some hplan
      exact (h.disk.parentSector_forall (P := LiveDir g s.disk)
        h.tree.current h.tree.root_live hsplit (Or.inr hparent)).symm
  | deleteFile path =>
      obtain ⟨idx, hfind, -, rfl⟩ := hplanned
      show (∀ j, s.find g path.chars = some (.slot j) → Vacant g s j) ↔
        Vacant g s idx
      simp [hfind]
  | rmdir path =>
      obtain ⟨idx, htarget, rfl⟩ := hplanned
      show (∀ j, s.resolve g path.chars = some (.slot j) → Vacant g s j) ↔
        Vacant g s idx
      simp [htarget.1]
  | readFile path buffer n => exact absurd hplanned id
  | chdir path => exact absurd hplanned id
  | listDir path n => exact absurd hplanned id
  | init => exact absurd hplanned id

theorem TreeInvariant.step (h : TreeInvariant g s)
    (hcall : call.isInit = false) (hwrap : UnwrappedCall g s call code)
    (hexec : s.exec call = .ok (s', code)) :
    (DirectoryTree g s' ↔ KeepsTree g s call) ∧ RootDetached s'.disk := by
  have hzero := h.tree.root_live.1.1
  cases h.disk.tableStep hwrap hexec with
  | edited e hplanned hedited =>
      have hcurrent : s'.currentDirBlock = s.currentDirBlock := by
        refine (exec_control h.disk.mounted h.disk.heap hcall ?_
          hexec).current
        rintro path rfl
        exact hplanned
      refine ⟨(h.edited hcurrent hplanned hedited).trans
        (h.keepsTree_iff hplanned).symm, ?_⟩
      rw [RootDetached, parentOf, (hedited.other 0 hzero
        (Ne.symm (h.planned_ne_zero hplanned))).entryOf_eq]
      exact h.root
  | same hnone hsame =>
      have hkeeps : KeepsTree g s call :=
        fun ⟨e, hplanned⟩ => absurd hplanned (hnone e)
      have hentries : ∀ j < g.slots, entryOf s'.disk j = entryOf s.disk j :=
        fun j hj => (hsame j hj).entryOf_eq
      refine ⟨iff_of_true ?_ hkeeps, ?_⟩
      · by_cases hchdir : ∃ path, call = .chdir path
        · obtain ⟨path, rfl⟩ := hchdir
          rcases h.disk.chdir_current (Except.ok.inj hexec) with
            hcurrent | ⟨idx, hresolve, hdir, hcurrent⟩
          · exact h.tree.congr hcurrent hentries
          · have hlive := resolve_slot hresolve
            have hslots := h.slots
            rw [entryIndex_slotOf (by omega)] at hcurrent
            refine ⟨tree_congr h.tree.tree hentries, ?_⟩
            rw [hcurrent]
            exact (LiveDir.congr (hentries idx hlive.1)).mpr ⟨hlive, hdir⟩
        · refine h.tree.congr ?_ hentries
          exact (exec_control h.disk.mounted h.disk.heap hcall
            (fun path heq => hchdir ⟨path, heq⟩) hexec).current
      · rw [RootDetached, parentOf, hentries 0 hzero]
        exact h.root

/-! ## Runs -/

theorem TreeInvariant.withHeap {heap : Heap} (h : TreeInvariant g s)
    (hready : HeapReady heap) : TreeInvariant g { s with heap := heap } :=
  ⟨h.disk.withHeap hready, h.slots, ⟨h.tree.tree, h.tree.current⟩, h.root⟩

theorem TreeInvariant.run (h : TreeInvariant g s₀)
    (hrun : FsRun (TreeCall g) s₀ hist s) : TreeInvariant g s := by
  refine hrun.invariant h ?_ ?_
  · intro s heap hs hready
    exact hs.withHeap hready
  · intro s call s' code hs _ hmeets hexec
    obtain ⟨hcall, hwrap, hkeeps⟩ := hmeets
    obtain ⟨htree, hroot⟩ := hs.step hcall hwrap hexec
    exact ⟨hs.disk.step hwrap hexec, hs.slots, htree.mpr hkeeps, hroot⟩

theorem Formatted.treeInvariant {totalBlocks maxFiles : ℕ}
    (h : Formatted totalBlocks maxFiles s)
    (htable : 1 ≤ formatTableBlocks maxFiles) :
    TreeInvariant (formatGeometry totalBlocks maxFiles) s := by
  obtain ⟨hfresh, -, -, hcurrent, -, -⟩ := h.fresh
  have hlt := (formatTableBlocks_lt maxFiles).2
  have hslots : (formatGeometry totalBlocks maxFiles).slots < 2 ^ 32 := by
    simp only [Geometry.slots, formatGeometry]
    omega
  have hzero : 0 < (formatGeometry totalBlocks maxFiles).slots := by
    simp only [Geometry.slots, formatGeometry]
    omega
  have hroot := (hfresh.entries hzero).1 rfl
  obtain ⟨hstatus, htype, -, hparent⟩ := formatRootSector_root
  refine ⟨h.diskInvariant, hslots, ⟨⟨?_, ?_⟩, ?_⟩, ?_⟩
  · intro j hj hne
    exact absurd (h.live_root hj) hne
  · intro j hj
    rw [h.live_root hj]
    exact .root
  · rw [hcurrent]
    refine ⟨⟨hzero, ?_⟩, ?_⟩
    · rw [hroot]
      exact hstatus
    · rw [hroot]
      exact htype
  · rw [RootDetached, parentOf, hroot]
    exact hparent

/-- The tree is intact as long as every call meets its condition, and the next
call leaves it intact exactly if it does too. -/
theorem directory_tree {totalBlocks maxFiles : ℕ}
    (hformat : Formatted totalBlocks maxFiles s₀)
    (htable : 1 ≤ formatTableBlocks maxFiles)
    (hrun : FsRun (TreeCall (formatGeometry totalBlocks maxFiles)) s₀ hist s) :
    DirectoryTree (formatGeometry totalBlocks maxFiles) s ∧
      ∀ heap call s' code, HeapReady heap → call.isInit = false →
        UnwrappedCall (formatGeometry totalBlocks maxFiles)
          { s with heap := heap } call code →
        { s with heap := heap }.exec call = .ok (s', code) →
          (DirectoryTree (formatGeometry totalBlocks maxFiles) s' ↔
            KeepsTree (formatGeometry totalBlocks maxFiles)
              { s with heap := heap } call) := by
  have hinv := (hformat.treeInvariant htable).run hrun
  refine ⟨hinv.tree, ?_⟩
  intro heap call s' code hready hcall hwrap hexec
  exact ((hinv.withHeap hready).step hcall hwrap hexec).1

theorem not_parentSector {p : ℕ} (h : slash ∉ path) :
    ¬ ParentSector g s path p := by
  rintro ⟨dir, name, hsplit, -⟩
  rw [splitParent_current h] at hsplit
  cases (copyName_inv hsplit).1

/-- The call makes a directory in the current one, or changes to another. -/
def FsCall.keepsTree : FsCall → Bool
  | .mkdir path => decide (slash ∉ path.chars)
  | .chdir _ => true
  | _ => false

theorem treeCall_of_test (g : Geometry) (hwrap : g.NoWrap) (s : ChainFS)
    (call : FsCall) (code : ℤ) (h : call.keepsTree = true) :
    TreeCall g s call code := by
  refine ⟨?_, hwrap.unwrappedCall s call code, fun _ => ?_⟩
  · cases call with
    | init => cases h
    | _ => rfl
  · cases call with
    | mkdir path =>
        exact fun p hp => absurd hp (not_parentSector (of_decide_eq_true h))
    | chdir path => trivial
    | _ => cases h

/-- The directory `a` is the entry 1 and lies in the sector 1: a file written
into it by its path hangs under it. -/
theorem directory_tree_smallDisk : ∃ hist s s',
    FsRun (TreeCall (formatGeometry 20 8)) smallDisk hist s ∧
      hist.map Prod.snd = [0, 0] ∧ DirectoryTree (formatGeometry 20 8) s ∧
      s.exec (.writeFile ⟨[47, 97, 47, 120], by decide⟩ (fun _ => 1) 3) =
        .ok (s', 0) ∧
      DirectoryTree (formatGeometry 20 8) s' := by
  have hcodes : (smallDisk.checkRun (fun _ call _ => call.keepsTree)
      (initHeap unbootedHeap)
      [.mkdir ⟨[97], by decide⟩, .chdir ⟨[97], by decide⟩]).map
        (fun r => (r.1, r.2.resolve (formatGeometry 20 8) [47, 97],
          r.2.find (formatGeometry 20 8) [47, 97, 47, 120],
          decide (LiveDir (formatGeometry 20 8) r.2.disk 1),
          decide ((r.2.exec (.writeFile ⟨[47, 97, 47, 120], by decide⟩
            (fun _ => 1) 3)).map Prod.snd = .ok 0))) =
        some ([0, 0], some (.slot 1), none, true, true) := by
    decide +kernel
  obtain ⟨codes, s, hrun, heq⟩ := checkRun_run blankDrive_ready
    (treeCall_of_test (formatGeometry 20 8) smallDisk_noWrap) hcodes
  simp only [Prod.mk.injEq, decide_eq_true_eq] at heq
  obtain ⟨rfl, hresolve, hfind, hdir, hwrite⟩ := heq
  obtain ⟨htree, hnext⟩ :=
    directory_tree smallDisk_formatted (by decide) hrun
  obtain ⟨s', code, hexec, rfl⟩ := evaluated_call hwrite
  refine ⟨_, s, s', hrun, rfl, htree, hexec, ?_⟩
  have hunwrapped := hrun.weaken fun _ _ _ h => h.2.1
  have hready := (smallDisk_formatted.diskInvariant.run hunwrapped).heap
  refine (hnext s.heap _ s' 0 hready rfl
    (smallDisk_noWrap.unwrappedCall _ _ _) hexec).mpr fun _ => ⟨?_, ?_⟩
  · rintro p ⟨dir, name, hsplit, k, hk, rfl⟩
    cases hsplit
    have hslot : s.resolve (formatGeometry 20 8) [47, 97] = some (.slot k) :=
      hk
    rw [hresolve] at hslot
    cases hslot
    refine ⟨hdir, ?_⟩
    intro hfound
    have hnone : s.find (formatGeometry 20 8) [47, 97, 47, 120] =
        some (.slot 1) := hfound
    rw [hfind] at hnone
    cases hnone
  · intro idx hidx
    have hfound : s.find (formatGeometry 20 8) [47, 97, 47, 120] =
        some (.slot idx) := hidx
    rw [hfind] at hfound
    cases hfound

/-- A file in the slot 1, a directory in the slot 2: a file written into the
directory by its path becomes a child of the first file. -/
theorem file_under_file : ∃ hist s,
    FsRun AnyCall smallDisk hist s ∧ hist.map Prod.snd = [0, 0, 0] ∧
      ¬ DirectoryTree (formatGeometry 20 8) s := by
  have hcodes : (smallDisk.checkRun (fun _ _ _ => true)
      (initHeap unbootedHeap)
      [.writeFile ⟨[97], by decide⟩ (fun _ => 1) 3,
        .mkdir ⟨[100], by decide⟩,
        .writeFile ⟨[100, 47, 120], by decide⟩ (fun _ => 2) 3]).map
          (fun r => (r.1, (entryOf r.2.disk 3).status,
            parentOf r.2.disk 3, (entryOf r.2.disk 1).type)) =
      some ([0, 0, 0], 1, 1, chainfsTypeFile) := by
    decide +kernel
  obtain ⟨codes, s, hrun, heq⟩ := checkRun_any hcodes
  simp only [Prod.mk.injEq] at heq
  obtain ⟨rfl, hstatus, hparent, htype⟩ := heq
  refine ⟨_, s, hrun, rfl, ?_⟩
  intro htree
  have hdir := htree.tree.parents 3 ⟨by decide, hstatus⟩ (by decide)
  rw [hparent] at hdir
  have hfile := hdir.2
  rw [htype] at hfile
  exact absurd hfile (by decide)

end Otsos
