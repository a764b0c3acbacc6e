import Otsos.ChainFS.WritePlan

/-!
# The effect of each call

What the calls other than a write can do to the disk, each with what it knew
before: the result of a call is one of the cases of an inductive proposition.
-/

namespace Otsos

open Lib

variable {g : Geometry} {s s' s₁ : ChainFS} {d : ℕ → Memory}
  {path : List UInt8} {idx : ℕ}

/-- The disk after editing the entry of a target. -/
def editTarget (d : ℕ → Memory) (t : Target)
    (edit : Memory → ℕ → Memory) : ℕ → Memory :=
  Function.update d t.position.1 (edit (d t.position.1) t.position.2)

theorem editTarget_slot (edit : Memory → ℕ → Memory) :
    editTarget d (.slot idx) edit = editSlot d idx edit := rfl

/-! ## Deleting -/

inductive DeleteResult (g : Geometry) (s : ChainFS) (path : List UInt8) :
    Except Fault (ChainFS × ℤ) → Prop
  | missing (s' : ChainFS) (hfind : s.find g path = none)
      (hsame : Unchanged s s') : DeleteResult g s path (.ok (s', -1))
  | hang (t : Target) (hfind : s.find g path = some t)
      (hfreed : released g s.disk (t.found s.disk).entry.startBlock = none) :
      DeleteResult g s path (.error .hang)
  | cleared (t : Target) (freed : List ℕ) (s₁ s' : ChainFS)
      (hfind : s.find g path = some t)
      (hfreed : released g s.disk (t.found s.disk).entry.startBlock =
        some freed)
      (hprepared : Prepared g s freed s₁) (hcontrol : SameControl s₁ s')
      (hheap : s'.heap = s₁.heap)
      (hdisk : s'.disk = editTarget s₁.disk t fun m i => setStatus m i 0) :
      DeleteResult g s path (.ok (s', 0))

theorem Mounted.deleteFile_result (h : Mounted g s)
    (hready : HeapReady s.heap) (path : List UInt8) :
    DeleteResult g s path (chainfsDeleteFile s path) := by
  obtain ⟨m, hdelete⟩ := h.deleteFile_eq path
  rw [hdelete]
  cases hfind : s.find g path with
  | none => exact .missing _ hfind (Unchanged.of_buffer hready m)
  | some t =>
      dsimp only
      have hmounted : Mounted g { s with sectorBuffer := m } :=
        h.of_same rfl rfl
      obtain ⟨d, m', hfree, hout, hlinks⟩ :=
        hmounted.freeBlockChain_eq (t.found s.disk).entry.startBlock
      rw [hfree]
      cases hfreed : released g s.disk (t.found s.disk).entry.startBlock with
      | none => exact .hang t hfind hfreed
      | some freed =>
          dsimp only [Option.map_some]
          let s₁ : ChainFS := { s with
            disk := d
            sectorBuffer := m' }
          have hprepared : Prepared g s freed s₁ :=
            ⟨⟨rfl, rfl, rfl⟩, hout, hlinks freed hfreed, rfl, rfl⟩
          refine .cleared t freed s₁ _ hfind hfreed hprepared
            (clearStatus_control s₁ _ _) rfl ?_
          rw [clearStatus_disk]
          cases t <;> rfl

/-! ## Making a directory -/

structure MkdirPlan where
  slot : ℕ
  dirName : List UInt8
  parent : ℕ

/-- The decisions of `chainfs_mkdir`; `none` when it gives up. -/
def mkdirPlan (g : Geometry) (s : ChainFS) (path : List UInt8) :
    Except Fault (Option MkdirPlan) :=
  match splitParent path with
  | .error fault => .error fault
  | .ok (parent, dirName) =>
      match mkdirParentId g s.disk s.currentDirBlock parent with
      | none => .ok none
      | some parentBlock =>
          match lookup g s.disk parentBlock dirName,
            freeSlot g s.disk with
          | none, some idx => .ok (some ⟨idx, dirName, parentBlock⟩)
          | _, _ => .ok none

inductive MkdirResult (g : Geometry) (s : ChainFS) (path : List UInt8) :
    Except Fault (ChainFS × ℤ) → Prop
  | fault (fault : Fault) (hplan : mkdirPlan g s path = .error fault) :
      MkdirResult g s path (.error fault)
  | rejected (s' : ChainFS) (hplan : mkdirPlan g s path = .ok none)
      (hsame : Unchanged s s') : MkdirResult g s path (.ok (s', -1))
  | made (plan : MkdirPlan) (s' : ChainFS)
      (hplan : mkdirPlan g s path = .ok (some plan))
      (hcontrol : SameControl s s') (hheap : s'.heap = s.heap)
      (hdisk : s'.disk = editSlot s.disk plan.slot fun m i =>
        setDirEntry m i plan.dirName plan.parent) :
      MkdirResult g s path (.ok (s', 0))

theorem Mounted.mkdir_result (h : Mounted g s) (hready : HeapReady s.heap)
    (path : List UInt8) : MkdirResult g s path (chainfsMkdir s path) := by
  obtain ⟨m, hmkdir⟩ := h.mkdir_eq path
  have hsame := Unchanged.of_buffer hready m
  have hplan := mkdirPlan.eq_def g s path
  rw [hmkdir]
  cases hsplit : splitParent path with
  | error fault =>
      rw [hsplit] at hplan
      exact .fault fault hplan
  | ok split =>
      obtain ⟨parent, dirName⟩ := split
      rw [hsplit] at hplan
      dsimp only at hplan ⊢
      cases hparent : mkdirParentId g s.disk s.currentDirBlock parent with
      | none =>
          rw [hparent] at hplan
          exact .rejected _ hplan hsame
      | some parentBlock =>
          rw [hparent] at hplan
          dsimp only at hplan ⊢
          cases hlookup : lookup g s.disk parentBlock dirName with
          | some idx =>
              rw [hlookup] at hplan
              exact .rejected _ hplan hsame
          | none =>
              rw [hlookup] at hplan
              cases hfree : freeSlot g s.disk with
              | none =>
                  rw [hfree] at hplan
                  exact .rejected _ hplan hsame
              | some idx =>
                  rw [hfree] at hplan
                  exact .made ⟨idx, dirName, parentBlock⟩ _ hplan
                    ⟨rfl, rfl, rfl⟩ rfl rfl

theorem mkdirPlan_some {plan : MkdirPlan}
    (h : mkdirPlan g s path = .ok (some plan)) :
    ∃ parent, splitParent path = .ok (parent, plan.dirName) ∧
      mkdirParentId g s.disk s.currentDirBlock parent = some plan.parent ∧
      lookup g s.disk plan.parent plan.dirName = none ∧
      freeSlot g s.disk = some plan.slot := by
  unfold mkdirPlan at h
  cases hsplit : splitParent path with
  | error fault => simp [hsplit] at h
  | ok split =>
      obtain ⟨parent, dirName⟩ := split
      simp only [hsplit] at h
      cases hparent : mkdirParentId g s.disk s.currentDirBlock parent with
      | none => simp [hparent] at h
      | some parentBlock =>
          simp only [hparent] at h
          cases hlookup : lookup g s.disk parentBlock dirName with
          | some idx => simp [hlookup] at h
          | none =>
              simp only [hlookup] at h
              cases hfree : freeSlot g s.disk with
              | none => simp [hfree] at h
              | some idx =>
                  simp only [hfree, Except.ok.injEq,
                    Option.some.injEq] at h
                  subst h
                  exact ⟨parent, rfl, hparent, hlookup, rfl⟩

theorem writePlan_some {plan : WritePlan}
    (h : writePlan g s path = .ok (some plan)) :
    ∃ parent, splitParent path = .ok (parent, plan.fileName) ∧
      writeParentId g s.disk s.currentDirBlock parent = some plan.parent ∧
      ((s.find g path = some plan.target ∧
          released g s.disk (plan.target.found s.disk).entry.startBlock =
            some plan.freed) ∨
        (s.find g path = none ∧ plan.freed = [] ∧
          ∃ idx, freeSlot g s.disk = some idx ∧
            plan.target = .slot idx)) := by
  unfold writePlan at h
  cases hsplit : splitParent path with
  | error fault => simp [hsplit] at h
  | ok split =>
      obtain ⟨parent, fileName⟩ := split
      simp only [hsplit] at h
      cases hparent : writeParentId g s.disk s.currentDirBlock parent with
      | none => simp [hparent] at h
      | some parentBlock =>
          simp only [hparent] at h
          cases hfind : s.find g path with
          | some t =>
              simp only [hfind] at h
              cases hfreed : released g s.disk
                  (t.found s.disk).entry.startBlock with
              | none => simp [hfreed] at h
              | some freed =>
                  simp only [hfreed, Except.ok.injEq,
                    Option.some.injEq] at h
                  subst h
                  exact ⟨parent, rfl, hparent, Or.inl ⟨rfl, hfreed⟩⟩
          | none =>
              simp only [hfind] at h
              cases hfree : freeSlot g s.disk with
              | none => simp [hfree] at h
              | some idx =>
                  simp only [hfree, Except.ok.injEq,
                    Option.some.injEq] at h
                  subst h
                  exact ⟨parent, rfl, hparent,
                    Or.inr ⟨rfl, rfl, idx, rfl, rfl⟩⟩

/-- The last name is the end of the path, and fits its array. -/
theorem splitParent_name {parent : ParentPath} {name : List UInt8}
    (h : splitParent path = .ok (parent, name)) :
    ∃ k, name = path.drop k ∧ name.length < 32 := by
  have hcopy : ∀ (k : ℕ) (p : ParentPath),
      (copyName (path.drop k)).map (fun n => (p, n)) = .ok (parent, name) →
        ∃ k, name = path.drop k ∧ name.length < 32 := by
    intro k p hmap
    unfold copyName at hmap
    by_cases hlt : (path.drop k).length < 32
    · rw [if_pos hlt] at hmap
      cases hmap
      exact ⟨k, rfl, hlt⟩
    · rw [if_neg hlt] at hmap
      cases hmap
  unfold splitParent at h
  cases hslash : lastSlash path with
  | none =>
      rw [hslash] at h
      exact hcopy 0 _ h
  | some k =>
      rw [hslash] at h
      cases k with
      | zero => exact hcopy 1 _ h
      | succ k =>
          dsimp only at h
          by_cases hk : k + 1 < chainfsMaxPath
          · rw [if_pos hk] at h
            exact hcopy _ _ h
          · rw [if_neg hk] at h
            cases h

theorem splitParent_short {parent : ParentPath} {name : List UInt8}
    (h : splitParent path = .ok (parent, name)) : name.length < 32 := by
  obtain ⟨-, -, hshort⟩ := splitParent_name h
  exact hshort

theorem splitParent_no_nul {parent : ParentPath} {name : List UInt8}
    (hnul : 0 ∉ path) (h : splitParent path = .ok (parent, name)) :
    0 ∉ name := by
  obtain ⟨k, rfl, -⟩ := splitParent_name h
  exact fun hmem => hnul (List.mem_of_mem_drop hmem)

/-! ## Removing and entering a directory -/

/-- The entry that `chainfs_list_dir` shows. -/
def slotListed (dirBlock : ℕ) (m : Memory) (i : ℕ) : Bool :=
  m (sizeofFileEntry * i) == 1 &&
    m.load (sizeofFileEntry * i + 40) 4 == dirBlock

theorem slotListed_iff {dirBlock : ℕ} :
    testSlot (slotListed dirBlock) d idx = true ↔
      (entryOf d idx).status = 1 ∧ (entryOf d idx).parentBlock = dirBlock := by
  simp only [testSlot, slotListed, Bool.and_eq_true, beq_iff_eq]
  rfl

theorem take_append_take {α : Type*} (n : ℕ) (xs ys : List α) :
    (xs.take n ++ ys).take n = (xs ++ ys).take n := by
  simp [List.take_append, List.take_take]
  omega

theorem listSector_eq {dirBlock maxFiles : ℕ} {m : Memory}
    {files : List FileEntry} (hfiles : files.length ≤ maxFiles) :
    listSector dirBlock maxFiles m files =
      (files ++ ((List.range entriesPerBlock).filter
        (slotListed dirBlock m)).map (entryAt m)).take maxFiles := by
  unfold listSector
  generalize List.range entriesPerBlock = is
  induction is generalizing files with
  | nil => simp [List.take_of_length_le hfiles]
  | cons i is ih =>
      rw [List.foldl_cons]
      by_cases hlisted : m (sizeofFileEntry * i) = 1 ∧
          m.load (sizeofFileEntry * i + 40) 4 = dirBlock
      · have htest : slotListed dirBlock m i = true := by
          simp [slotListed, hlisted]
        rw [List.filter_cons_of_pos htest, List.map_cons]
        by_cases hroom : files.length < maxFiles
        · rw [if_pos ⟨hroom, hlisted⟩, ih (by simp; omega)]
          simp
        · rw [if_neg (fun hall => hroom hall.1), ih hfiles]
          have hfull : maxFiles = files.length := by omega
          rw [hfull, List.take_left, List.take_left]
      · have htest : ¬ slotListed dirBlock m i = true := by
          simpa [slotListed] using hlisted
        rw [List.filter_cons_of_neg htest, if_neg (fun hall => hlisted hall.2)]
        exact ih hfiles

theorem listed_sector {dirBlock block : ℕ} (hblock : 0 < block) :
    ((List.range' (8 * (block - 1)) 8).filter
        (testSlot (slotListed dirBlock) d)).map (entryOf d) =
      ((List.range entriesPerBlock).filter
        (slotListed dirBlock (d block))).map (entryAt (d block)) := by
  have hrange : List.range' (8 * (block - 1)) 8 =
      (List.range entriesPerBlock).map fun i => 8 * (block - 1) + i := by
    rw [List.range'_eq_map_range]
    rfl
  rw [hrange, List.filter_map, List.map_map]
  have hfilter : (List.range entriesPerBlock).filter
        (testSlot (slotListed dirBlock) d ∘ fun i => 8 * (block - 1) + i) =
      (List.range entriesPerBlock).filter (slotListed dirBlock (d block)) := by
    apply List.filter_congr
    intro i hi
    exact testSlot_add hblock (List.mem_range.mp hi)
  rw [hfilter]
  apply List.map_congr_left
  intro i hi
  have hlt := List.mem_range.mp (List.mem_of_mem_filter hi)
  have hslot := slotOf_add hblock hlt
  simp only [slotOf, Prod.mk.injEq] at hslot
  simp only [Function.comp_apply, entryOf, hslot]

theorem listTable_eq {dirBlock maxFiles n block : ℕ}
    {files : List FileEntry} (hblock : 0 < block)
    (hfiles : files.length ≤ maxFiles) :
    (listTable dirBlock maxFiles s block n files).2 =
      (files ++ ((List.range' (8 * (block - 1)) (8 * n)).filter
        (testSlot (slotListed dirBlock) s.disk)).map
          (entryOf s.disk)).take maxFiles := by
  induction n generalizing s block files with
  | zero => simp [listTable, List.take_of_length_le hfiles]
  | succ n ih =>
      rw [listTable, range'_sector,
        show 8 * (block - 1) + 8 = 8 * (block + 1 - 1) by omega,
        List.filter_append, List.map_append,
        listed_sector hblock, ← List.append_assoc]
      by_cases hroom : files.length < maxFiles
      · rw [if_pos hroom]
        simp only [pataReadSector]
        rw [listSector_eq hfiles, ih (by omega) (by simp), take_append_take]
      · rw [if_neg hroom]
        have hfull : maxFiles = files.length := by omega
        rw [List.append_assoc, hfull, List.take_left]

/-- The live entries stored under a directory, in the order of the table. -/
def dirEntries (g : Geometry) (d : ℕ → Memory) (dirBlock : ℕ) :
    List FileEntry :=
  ((List.range g.slots).filter (testSlot (slotListed dirBlock) d)).map
    (entryOf d)

theorem mem_dirEntries {dirBlock : ℕ} {e : FileEntry} :
    e ∈ dirEntries g d dirBlock ↔
      ∃ j < g.slots, (entryOf d j).status = 1 ∧
        (entryOf d j).parentBlock = dirBlock ∧ entryOf d j = e := by
  simp only [dirEntries, List.mem_map, List.mem_filter, List.mem_range,
    slotListed_iff, and_assoc]

theorem Mounted.listTable_eq (h : Mounted g s) (dirBlock maxFiles : ℕ) :
    (listTable dirBlock maxFiles s 1 (tableBlocks s) []).2 =
      (dirEntries g s.disk dirBlock).take maxFiles := by
  rw [h.tableBlocks_eq, Otsos.listTable_eq Nat.one_pos (Nat.zero_le _),
    List.nil_append, dirEntries, Geometry.slots, List.range_eq_range']

theorem Mounted.listDir_eq (h : Mounted g s) (path : List UInt8)
    (maxFiles : ℕ) :
    (chainfsListDir s path maxFiles).2 =
      match path with
      | [] => some ((dirEntries g s.disk s.currentDirBlock).take maxFiles)
      | _ => (dirSector g s.disk s.currentDirBlock path).map
          fun dirBlock => (dirEntries g s.disk dirBlock).take maxFiles := by
  cases path with
  | nil => exact congrArg some (h.listTable_eq _ _)
  | cons c cs =>
      obtain ⟨m, hsector⟩ := h.directorySector_eq (c :: cs)
      simp only [chainfsListDir, hsector]
      cases dirSector g s.disk s.currentDirBlock (c :: cs) with
      | none => rfl
      | some dirBlock =>
          have hs : Mounted g { s with sectorBuffer := m } :=
            h.of_same rfl rfl
          exact congrArg some (hs.listTable_eq _ _)

/-- No live entry names the sector of the slot as its parent. -/
def SectorChildless (g : Geometry) (d : ℕ → Memory) (idx : ℕ) : Prop :=
  ∀ j < g.slots, (entryOf d j).status = 1 →
    (entryOf d j).parentBlock ≠ 1 + idx / 8

theorem sectorChildless_iff :
    SectorChildless g d idx ↔ dirEntries g d (1 + idx / 8) = [] := by
  rw [List.eq_nil_iff_forall_not_mem]
  constructor
  · rintro hall e hmem
    obtain ⟨j, hj, hone, hparent, -⟩ := mem_dirEntries.mp hmem
    exact hall j hj hone hparent
  · intro hall j hj hone hparent
    exact hall (entryOf d j) (mem_dirEntries.mpr ⟨j, hj, hone, hparent, rfl⟩)

theorem resolve_nil : s.resolve g [] = none := by
  simp [ChainFS.resolve, resolveTable, splitPath, splitPathFrom,
    keepComponent, walkTable]

theorem dirSector_of_resolve (hresolve : s.resolve g path = some (.slot idx))
    (hdir : (entryOf s.disk idx).type = chainfsTypeDir) :
    dirSector g s.disk s.currentDirBlock path = some (1 + idx / 8) := by
  unfold dirSector
  rw [show resolveTable g s.disk s.currentDirBlock path = some (.slot idx)
    from hresolve]
  exact if_neg (not_not.mpr hdir)

theorem Mounted.listDir_slot (h : Mounted g s)
    (hresolve : s.resolve g path = some (.slot idx))
    (hdir : (entryOf s.disk idx).type = chainfsTypeDir) (maxFiles : ℕ) :
    (chainfsListDir s path maxFiles).2 =
      some ((dirEntries g s.disk (1 + idx / 8)).take maxFiles) := by
  rw [h.listDir_eq]
  cases path with
  | nil =>
      rw [resolve_nil] at hresolve
      cases hresolve
  | cons c cs =>
      dsimp only
      rw [dirSector_of_resolve hresolve hdir]
      rfl

/-- The directory that `chainfs_rmdir` removes. -/
def RmdirTarget (g : Geometry) (s : ChainFS) (path : List UInt8)
    (idx : ℕ) : Prop :=
  s.resolve g path = some (.slot idx) ∧
    (entryOf s.disk idx).type = chainfsTypeDir ∧
    SectorChildless g s.disk idx

inductive RmdirResult (g : Geometry) (s : ChainFS) (path : List UInt8) :
    ChainFS × ℤ → Prop
  | rejected (s' : ChainFS) (hnone : ∀ idx, ¬ RmdirTarget g s path idx)
      (hsame : Unchanged s s') : RmdirResult g s path (s', -1)
  | removed (idx : ℕ) (s' : ChainFS) (htarget : RmdirTarget g s path idx)
      (hcontrol : SameControl s s') (hheap : s'.heap = s.heap)
      (hdisk : s'.disk = editSlot s.disk idx fun m i => setStatus m i 0) :
      RmdirResult g s path (s', 0)

theorem Mounted.rmdir_result (h : Mounted g s) (hready : HeapReady s.heap)
    (path : List UInt8) : RmdirResult g s path (chainfsRmdir s path) := by
  obtain ⟨m₁, hresolve⟩ := h.resolvePath_eq path
  have hsame := Unchanged.of_buffer hready
  unfold chainfsRmdir
  rw [hresolve]
  cases htarget : s.resolve g path with
  | none =>
      rw [show resolveTable g s.disk s.currentDirBlock path = none
        from htarget]
      refine .rejected _ ?_ (hsame m₁)
      rintro idx ⟨hsome, -, -⟩
      rw [htarget] at hsome
      cases hsome
  | some t =>
      have hs₁ : Mounted g { s with sectorBuffer := m₁ } :=
        h.of_same rfl rfl
      rw [show resolveTable g s.disk s.currentDirBlock path = some t
        from htarget]
      simp only [Option.map_some, hs₁.root]
      cases t with
      | rootBlock =>
          have hnone : ∀ idx, ¬ RmdirTarget g s path idx := by
            rintro idx ⟨hsome, -, -⟩
            rw [htarget] at hsome
            cases hsome
          by_cases htype : (Target.rootBlock.found s.disk).entry.type ≠
              chainfsTypeDir
          · rw [if_pos htype]
            exact .rejected _ hnone (hsame m₁)
          · rw [if_neg htype]
            exact .rejected _ hnone (hsame m₁)
      | slot idx =>
          by_cases htype : (entryOf s.disk idx).type ≠ chainfsTypeDir
          · refine (if_pos htype).symm ▸ .rejected _ ?_ (hsame m₁)
            rintro j ⟨hsome, hdir, -⟩
            rw [htarget] at hsome
            cases hsome
            exact htype hdir
          · have hdir := not_not.mp htype
            have hblock : ¬ ((Target.slot idx).found s.disk).block = 0 := by
              show ¬ 1 + idx / 8 = 0
              omega
            rw [if_neg (show ¬ ((Target.slot idx).found s.disk).entry.type ≠
              chainfsTypeDir from htype), if_neg hblock]
            have hresolve : ChainFS.resolve g
                { s with sectorBuffer := m₁ } path = some (.slot idx) :=
              htarget
            obtain ⟨m₂, hstate⟩ := hs₁.listDir_state path 1
            have hfiles := hs₁.listDir_slot hresolve hdir 1
            cases hlist : chainfsListDir { s with sectorBuffer := m₁ } path
                1 with
            | mk s₂ files =>
                rw [hlist] at hstate hfiles
                simp only at hstate hfiles
                subst hstate hfiles
                cases hentries : dirEntries g s.disk (1 + idx / 8) with
                | cons file files =>
                    rw [List.take_succ_cons]
                    refine .rejected _ ?_ (hsame m₂)
                    rintro j ⟨hsome, -, hchildless⟩
                    rw [htarget] at hsome
                    cases hsome
                    rw [sectorChildless_iff, hentries] at hchildless
                    cases hchildless
                | nil =>
                    exact .removed idx _
                      ⟨htarget, hdir, sectorChildless_iff.mpr hentries⟩
                      ⟨rfl, rfl, rfl⟩ rfl rfl

inductive ChdirResult (g : Geometry) (s : ChainFS) (path : List UInt8) :
    ChainFS × ℤ → Prop
  | rejected (s' : ChainFS) (hsame : Unchanged s s') :
      ChdirResult g s path (s', -1)
  | moved (t : Target) (s' : ChainFS) (htarget : s.resolve g path = some t)
      (hdir : (t.found s.disk).entry.type = chainfsTypeDir)
      (hsuper : s'.superblock = s.superblock)
      (hstart : s'.dataAreaStart = s.dataAreaStart)
      (hcurrent : s'.currentDirBlock =
        entryIndex (t.found s.disk).block (t.found s.disk).offset)
      (hdisk : s'.disk = s.disk) (hheap : s'.heap = s.heap) :
      ChdirResult g s path (s', 0)

theorem Mounted.chdir_result (h : Mounted g s) (hready : HeapReady s.heap)
    (path : List UInt8) : ChdirResult g s path (chainfsChdir s path) := by
  obtain ⟨m, hchdir⟩ := h.chdir_eq path
  rw [hchdir]
  cases htarget : s.resolve g path with
  | none => exact .rejected _ (Unchanged.of_buffer hready m)
  | some t =>
      dsimp only
      by_cases htype : (t.found s.disk).entry.type ≠ chainfsTypeDir
      · rw [if_pos htype]
        exact .rejected _ (Unchanged.of_buffer hready m)
      · rw [if_neg htype]
        exact .moved t _ htarget (not_not.mp htype) rfl rfl rfl rfl rfl

end Otsos
