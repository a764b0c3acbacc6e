import Otsos.ChainFS.Effects
import Otsos.ChainFS.SimpleNames
import Otsos.ChainFS.SuperblockIntact

/-!
# Every run

What holds in any run of calls, whatever paths they are given: links and first
blocks stay among the blocks a file may use, directories have no block, and the
root block never looks like a directory.  A call that edits the root block
leaves the status of an entry where the magic number begins, so that mounting
again finds the same superblock or none.
-/

namespace Otsos

open Lib

variable {g : Geometry} {s s' s₀ s₁ : ChainFS} {d d' : ℕ → Memory}
  {path : List UInt8} {data : Memory} {idx size : ℕ} {bs freed : List ℕ}
  {t : Target} {call : FsCall} {code : ℤ} {hist : List (FsCall × ℤ)}

/-- An entry in use holds a file with a first block, or a directory. -/
def EntryOk (g : Geometry) (e : FileEntry) : Prop :=
  (e.type = chainfsTypeFile ∧ g.Usable e.startBlock) ∨
    (e.type = chainfsTypeDir ∧ e.startBlock = 0 ∧ e.size = 0)

/-- What the first entry of the root block may look like. -/
def RootBlockOk (g : Geometry) (e : FileEntry) : Prop :=
  e.type ≠ chainfsTypeDir ∧
    (e.type = chainfsTypeFile → g.Usable e.startBlock)

structure DiskOk (g : Geometry) (d : ℕ → Memory) : Prop where
  links : ∀ b, g.Mapped b → mapLink g d b = 0 ∨
    mapLink g d b = chainfsEofMarker ∨ g.Usable (mapLink g d b)
  entries : ∀ idx < g.slots, (entryOf d idx).status = 1 →
    EntryOk g (entryOf d idx)
  rootBlock : RootBlockOk g (entryAt (d 0) 0)

/-! ## What the calls do to the disk -/

theorem DiskOk.release (h : DiskOk g d) (hout : SameOutsideMap g d d')
    (hlinks : mapLink g d' = unlinkAll (mapLink g d) freed) :
    DiskOk g d' := by
  refine ⟨?_, ?_, ?_⟩
  · intro b hb
    rw [hlinks]
    by_cases hmem : b ∈ freed
    · exact Or.inl (unlinkAll_mem hmem)
    · rw [unlinkAll_not_mem hmem]
      exact h.links b hb
  · intro idx hidx
    rw [hout.entryOf_eq hidx]
    exact h.entries idx hidx
  · rw [hout 0 (Or.inl (by omega))]
    exact h.rootBlock

theorem DiskOk.written {off : ℕ} (h : DiskOk g d)
    (hwritten : Written g d d' data size off bs)
    (hbs : ∀ b ∈ bs, g.Usable b) : DiskOk g d' := by
  refine ⟨?_, ?_, ?_⟩
  · intro b hb
    rw [hwritten.links b hb]
    rcases @linkAll_cases (mapLink g d) chainfsEofMarker
        bs b with hold | heof | hmem
    · rw [hold]
      exact h.links b hb
    · exact Or.inr (Or.inl heof)
    · exact Or.inr (Or.inr (hbs _ hmem))
  · intro idx hidx
    rw [hwritten.entryOf_eq hidx]
    exact h.entries idx hidx
  · rw [hwritten.table_sector (by omega)]
    exact h.rootBlock

theorem DiskOk.editSlot {edit : Memory → ℕ → Memory} (h : DiskOk g d)
    (hidx : idx < g.slots) (hedit : EditsEntry edit)
    (hentry : (entryOf (editSlot d idx edit) idx).status = 1 →
      EntryOk g (entryOf (Otsos.editSlot d idx edit) idx)) :
    DiskOk g (Otsos.editSlot d idx edit) := by
  refine ⟨?_, ?_, ?_⟩
  · intro b hb
    rw [mapLink_editSlot hidx]
    exact h.links b hb
  · intro j hj
    by_cases hne : j = idx
    · rw [hne]
      exact hentry
    · rw [(editSlot_other hedit hne).entryOf_eq]
      exact h.entries j hj
  · rw [editSlot_zero]
    exact h.rootBlock

theorem DiskOk.editRoot {edit : Memory → ℕ → Memory} (h : DiskOk g d)
    (hentry : RootBlockOk g (entryAt (edit (d 0) 0) 0)) :
    DiskOk g (editTarget d .rootBlock edit) := by
  have hother : ∀ sector, 1 ≤ sector →
      editTarget d .rootBlock edit sector = d sector := by
    intro sector hsector
    apply Function.update_of_ne
    show sector ≠ 0
    omega
  refine ⟨?_, ?_, ?_⟩
  · intro b hb
    rw [mapLink_congr (hother _ (by omega))]
    exact h.links b hb
  · intro j hj
    have hsame : entryOf (editTarget d .rootBlock edit) j = entryOf d j :=
      (SameSlot.of_sector (hother _ (by omega))).entryOf_eq
    rw [hsame]
    exact h.entries j hj
  · have hself : editTarget d .rootBlock edit 0 = edit (d 0) 0 :=
      Function.update_self _ _ _
    rw [hself]
    exact hentry

/-! ## Mounting again -/

/-- The disk holds the superblock that is in memory, or none. -/
def MountsSame (s : ChainFS) : Prop :=
  s.disk 0 = s.superblock ∨ sbMagic (s.disk 0) ≠ chainfsMagic

/-- The superblock is left alone, or is none any more. -/
def SparesOrSpoils (d d' : ℕ → Memory) : Prop :=
  d' 0 = d 0 ∨ sbMagic (d' 0) ≠ chainfsMagic

theorem sbMagic_ne_of_status {m : Memory}
    (h : (entryAt m 0).status = 0 ∨ (entryAt m 0).status = 1) :
    sbMagic m ≠ chainfsMagic := by
  have hbyte : sbMagic m % 256 = (entryAt m 0).status.toNat := by
    have hlt := (m 0).toNat_lt
    simp only [sbMagic, Memory.load, entryAt, Nat.mul_zero]
    omega
  intro hmagic
  rw [hmagic] at hbyte
  rcases h with hstatus | hstatus <;>
  · rw [hstatus] at hbyte
    exact absurd hbyte (by decide)

theorem SparesOrSpoils.editTarget {t : Target}
    {edit : Memory → ℕ → Memory}
    (h : (entryAt (edit (d 0) 0) 0).status = 0 ∨
      (entryAt (edit (d 0) 0) 0).status = 1) :
    SparesOrSpoils d (Otsos.editTarget d t edit) := by
  cases t with
  | slot idx => exact Or.inl (editSlot_zero edit)
  | rootBlock =>
      right
      have hself : Otsos.editTarget d .rootBlock edit 0 = edit (d 0) 0 :=
        Function.update_self _ _ _
      rw [hself]
      exact sbMagic_ne_of_status h

theorem MountsSame.of_spares (h : MountsSame s)
    (hsuper : s'.superblock = s.superblock)
    (hspares : SparesOrSpoils s.disk s'.disk) : MountsSame s' := by
  rcases hspares with hzero | hspoilt
  · rw [MountsSame, hzero, hsuper]
    exact h
  · exact Or.inr hspoilt

/-- Mounting again leads to the root, or fails and changes nothing. -/
theorem MountsSame.init (h : MountsSame s) (hmounted : Mounted g s) :
    chainfsInit s =
        ({ s with
          currentDirBlock := 0
          sectorBuffer := s.disk 0 }, 0) ∨
      chainfsInit s = ({ s with sectorBuffer := s.disk 0 }, -1) := by
  by_cases hmagic : sbMagic (s.disk 0) = chainfsMagic
  · rcases h with hsame | hspoilt
    · have hintact : SuperblockIntact g s.superblock s :=
        ⟨hmounted, rfl, hsame⟩
      exact Or.inl hintact.init
    · exact absurd hmagic hspoilt
  · right
    unfold chainfsInit
    exact if_pos hmagic

/-! ## The invariant -/

structure DiskInvariant (g : Geometry) (s : ChainFS) : Prop where
  mounted : Mounted g s
  heap : HeapReady s.heap
  disk : DiskOk g s.disk
  mounts : MountsSame s

theorem DiskInvariant.of_control (h : DiskInvariant g s)
    (hcontrol : SameControl s s') (hheap : HeapReady s'.heap)
    (hdisk : DiskOk g s'.disk) (hspares : SparesOrSpoils s.disk s'.disk) :
    DiskInvariant g s' :=
  ⟨hcontrol.mounted h.mounted, hheap, hdisk,
    h.mounts.of_spares hcontrol.superblock hspares⟩

theorem DiskInvariant.of_unchanged (h : DiskInvariant g s)
    (hsame : Unchanged s s') : DiskInvariant g s' := by
  refine h.of_control hsame.control hsame.heap ?_
    (Or.inl (congrFun hsame.disk 0))
  rw [hsame.disk]
  exact h.disk

theorem DiskInvariant.withHeap {heap : Heap} (h : DiskInvariant g s)
    (hready : HeapReady heap) : DiskInvariant g { s with heap := heap } :=
  ⟨h.mounted.of_same rfl rfl, hready, h.disk, h.mounts⟩

theorem DiskInvariant.prepared (h : DiskInvariant g s)
    (hprepared : Prepared g s freed s₁) : DiskInvariant g s₁ := by
  refine h.of_control hprepared.control ?_
    (h.disk.release hprepared.outside hprepared.links)
    (Or.inl (hprepared.outside 0 (Or.inl (by omega))))
  rw [hprepared.heap]
  exact h.heap

/-- The targets that a search can return. -/
def Target.Valid (g : Geometry) : Target → Prop
  | .slot idx => idx < g.slots
  | .rootBlock => True

theorem walkTable_some {dir : ℕ} {cs : List (List UInt8)}
    (h : walkTable g d dir cs = some idx) :
    idx < g.slots ∧ (entryOf d idx).status = 1 := by
  induction cs generalizing dir with
  | nil => cases h
  | cons c cs ih =>
      obtain ⟨j, hlookup, rfl | ⟨-, hrest⟩⟩ := walkTable_cons_some h
      · exact ⟨(lookup_some hlookup).1, (lookup_some hlookup).2.1⟩
      · exact ih hrest

/-- A path that leads to a slot is walked from the root or from the current
directory. -/
theorem resolve_walked (h : s.resolve g path = some (.slot idx)) :
    walkTable g s.disk
      (if path.head? = some slash then 0 else s.currentDirBlock)
      (splitPath path) = some idx := by
  simp only [ChainFS.resolve, resolveTable] at h
  by_cases hroot : splitPath path = [] ∧ path.head? = some slash
  · rw [if_pos hroot] at h
    cases h
  · rw [if_neg hroot] at h
    obtain ⟨j, hwalk, heq⟩ := Option.map_eq_some_iff.mp h
    cases heq
    exact hwalk

theorem resolve_slot (h : s.resolve g path = some (.slot idx)) :
    idx < g.slots ∧ (entryOf s.disk idx).status = 1 :=
  walkTable_some (resolve_walked h)

theorem dirSector_some {dirBlock : ℕ}
    (h : dirSector g s.disk s.currentDirBlock path = some dirBlock) :
    ∃ t, s.resolve g path = some t ∧
      (t.found s.disk).entry.type = chainfsTypeDir ∧
      dirBlock = (t.found s.disk).block := by
  unfold dirSector at h
  cases hresolve : s.resolve g path with
  | none =>
      rw [show resolveTable g s.disk s.currentDirBlock path = none
        from hresolve] at h
      cases h
  | some t =>
      rw [show resolveTable g s.disk s.currentDirBlock path = some t
        from hresolve] at h
      dsimp only at h
      by_cases htype : (t.found s.disk).entry.type ≠ chainfsTypeDir
      · rw [if_pos htype] at h
        cases h
      · rw [if_neg htype, Option.some.injEq] at h
        exact ⟨t, rfl, not_not.mp htype, h.symm⟩

theorem dirSector_lt {dirBlock : ℕ}
    (h : dirSector g s.disk s.currentDirBlock path = some dirBlock) :
    dirBlock < 2 ^ 32 := by
  have haddr := g.addressable
  obtain ⟨t, hresolve, -, rfl⟩ := dirSector_some h
  cases t with
  | rootBlock => exact Nat.two_pow_pos 32
  | slot idx =>
      have hidx := (resolve_slot hresolve).1
      simp only [Geometry.slots] at hidx
      show 1 + idx / 8 < 2 ^ 32
      omega

/-- A directory is a slot of the table whose first block is zero. -/
theorem DiskInvariant.directory_slot {t : Target} (h : DiskInvariant g s)
    (hresolve : s.resolve g path = some t)
    (htype : (t.found s.disk).entry.type = chainfsTypeDir) :
    ∃ idx, t = .slot idx ∧ (t.found s.disk).entry.startBlock = 0 := by
  cases t with
  | rootBlock => exact absurd htype h.disk.rootBlock.1
  | slot idx =>
      refine ⟨idx, rfl, ?_⟩
      obtain ⟨hidx, hone⟩ := resolve_slot hresolve
      rcases h.disk.entries idx hidx hone with ⟨hfile, -⟩ | ⟨-, hstart, -⟩
      · have hdir : (entryOf s.disk idx).type = chainfsTypeDir := htype
        rw [hfile] at hdir
        exact absurd hdir (by decide)
      · exact hstart

theorem find_slot (h : s.find g path = some (.slot idx)) :
    idx < g.slots ∧ (entryOf s.disk idx).status = 1 := by
  simp only [ChainFS.find, findTable] at h
  by_cases hslash : slash ∈ path
  · rw [if_pos hslash] at h
    exact resolve_slot h
  · rw [if_neg hslash] at h
    obtain ⟨j, hlookup, heq⟩ := Option.map_eq_some_iff.mp h
    cases heq
    exact ⟨(lookup_some hlookup).1, (lookup_some hlookup).2.1⟩

theorem find_valid (h : s.find g path = some t) : t.Valid g := by
  cases t with
  | slot idx => exact (find_slot h).1
  | rootBlock => trivial

theorem writePlan_valid {plan : WritePlan}
    (h : writePlan g s path = .ok (some plan)) : plan.target.Valid g := by
  obtain ⟨-, -, -, ⟨hfind, -⟩ | ⟨-, -, idx, hfree, htarget⟩⟩ :=
    writePlan_some h
  · exact find_valid hfind
  · rw [htarget]
    exact (freeSlot_some hfree).1

theorem DiskInvariant.writeFile (h : DiskInvariant g s)
    (htakes : TakesSectors g s path size (· < 2 ^ 32))
    (hexec : chainfsWriteFile s path data size = .ok (s', code)) :
    DiskInvariant g s' := by
  have hresult := h.mounted.writeFile_result h.heap path data size
  rw [hexec] at hresult
  cases hresult with
  | rejected s' hplan hsame => exact h.of_unchanged hsame
  | full plan s₁ s' hplan hprepared hroom hsame =>
      exact (h.prepared hprepared).of_unchanged hsame
  | stored plan s₁ s' hplan hprepared hroom hstored =>
      have h₁ := h.prepared hprepared
      have hall := htakes.usable hplan hprepared hroom
      have hstored := hstored hall
      rw [← hprepared.hasRoom_iff] at hroom
      obtain ⟨d, hwritten, hdisk⟩ := hstored.disk
      have hd := h₁.disk.written hwritten hall
      obtain ⟨-, hhead, hstart⟩ := allocated_spec hall hroom.2
      have husable : g.Usable ((allocated g s₁.disk size).headD 0) :=
        hall _ (List.mem_of_mem_head? hhead)
      have hedit : s'.disk = editTarget d plan.target fun m i =>
          setFileEntry m i plan.fileName size
            ((allocated g s₁.disk size).headD 0) plan.parent := hdisk
      have hspares : SparesOrSpoils s₁.disk s'.disk := by
        have hzero : d 0 = s₁.disk 0 := hwritten.table_sector (by omega)
        rw [SparesOrSpoils, ← hzero, hedit]
        exact SparesOrSpoils.editTarget (Or.inr setFileEntry_status)
      refine h₁.of_control hstored.control hstored.heap ?_ hspares
      have hvalid := writePlan_valid hplan
      cases htarget : plan.target with
      | slot idx =>
          rw [htarget] at hdisk hvalid
          rw [show s'.disk = editSlot d idx fun m i => setFileEntry m i
            plan.fileName size ((allocated g s₁.disk size).headD 0)
            plan.parent from hdisk]
          refine hd.editSlot hvalid (setFileEntry_edits _ _ _ _) fun _ => ?_
          rw [entryOf_editSlot]
          left
          rw [setFileEntry_type, setFileEntry_start hstart]
          exact ⟨rfl, husable⟩
      | rootBlock =>
          rw [htarget] at hdisk
          rw [show s'.disk = editTarget d .rootBlock fun m i =>
            setFileEntry m i plan.fileName size
              ((allocated g s₁.disk size).headD 0) plan.parent from hdisk]
          apply hd.editRoot
          rw [RootBlockOk, setFileEntry_type, setFileEntry_start hstart]
          exact ⟨by decide, fun _ => husable⟩

theorem setStatus_type (m : Memory) (i : ℕ) (v : UInt8) :
    (entryAt (setStatus m i v) i).type = (entryAt m i).type :=
  m.set_other v (by omega)

theorem setStatus_start (m : Memory) (i : ℕ) (v : UInt8) :
    (entryAt (setStatus m i v) i).startBlock = (entryAt m i).startBlock := by
  simp only [entryAt, setStatus]
  apply Memory.load_congr
  intro k hk
  exact m.set_other v (by omega)

theorem DiskOk.clear (h : DiskOk g d) (hvalid : t.Valid g) :
    DiskOk g (editTarget d t fun m i => setStatus m i 0) := by
  cases t with
  | slot idx =>
      rw [editTarget_slot]
      refine h.editSlot hvalid (setStatus_edits 0) ?_
      intro hone
      rw [entryOf_editSlot, setStatus_status] at hone
      exact absurd hone (by decide)
  | rootBlock =>
      apply h.editRoot
      rw [RootBlockOk, setStatus_type, setStatus_start]
      exact h.rootBlock

theorem DiskInvariant.deleteFile (h : DiskInvariant g s)
    (hexec : chainfsDeleteFile s path = .ok (s', code)) :
    DiskInvariant g s' := by
  have hresult := h.mounted.deleteFile_result h.heap path
  rw [hexec] at hresult
  cases hresult with
  | missing s' hfind hsame => exact h.of_unchanged hsame
  | cleared t freed s₁ s' hfind hfreed hprepared hcontrol hheap hdisk =>
      have h₁ := h.prepared hprepared
      refine h₁.of_control hcontrol ?_ ?_ ?_
      · rw [hheap]
        exact h₁.heap
      · rw [hdisk]
        exact h₁.disk.clear (find_valid hfind)
      · rw [hdisk]
        exact SparesOrSpoils.editTarget (Or.inl (setStatus_status 0))

theorem DiskInvariant.mkdir (h : DiskInvariant g s)
    (hexec : chainfsMkdir s path = .ok (s', code)) : DiskInvariant g s' := by
  have hresult := h.mounted.mkdir_result h.heap path
  rw [hexec] at hresult
  cases hresult with
  | rejected s' hplan hsame => exact h.of_unchanged hsame
  | made plan s' hplan hcontrol hheap hdisk =>
      obtain ⟨parent, hsplit, -, -, hfree⟩ := mkdirPlan_some hplan
      have hshort := splitParent_short hsplit
      have hzero : s'.disk 0 = s.disk 0 := by
        rw [hdisk]
        exact editSlot_zero _
      refine h.of_control hcontrol ?_ ?_ (Or.inl hzero)
      · rw [hheap]
        exact h.heap
      · rw [hdisk]
        refine h.disk.editSlot (freeSlot_some hfree).1
          (setDirEntry_edits _ hshort) fun _ => ?_
        rw [entryOf_editSlot]
        right
        rw [setDirEntry_type, setDirEntry_start, setDirEntry_size]
        exact ⟨rfl, rfl, rfl⟩

theorem DiskInvariant.rmdir (h : DiskInvariant g s)
    (hexec : chainfsRmdir s path = (s', code)) : DiskInvariant g s' := by
  have hresult := h.mounted.rmdir_result h.heap path
  rw [hexec] at hresult
  cases hresult with
  | rejected s' hnone hsame => exact h.of_unchanged hsame
  | removed idx s' htarget hcontrol hheap hdisk =>
      have hzero : s'.disk 0 = s.disk 0 := by
        rw [hdisk]
        exact editSlot_zero _
      refine h.of_control hcontrol ?_ ?_ (Or.inl hzero)
      · rw [hheap]
        exact h.heap
      · rw [hdisk, ← editTarget_slot]
        exact h.disk.clear (t := .slot idx) (resolve_slot htarget.1).1

theorem DiskInvariant.chdir (h : DiskInvariant g s)
    (hexec : chainfsChdir s path = (s', code)) : DiskInvariant g s' := by
  have hresult := h.mounted.chdir_result h.heap path
  rw [hexec] at hresult
  cases hresult with
  | rejected s' hsame => exact h.of_unchanged hsame
  | moved t s' htarget hdir hsuper hstart hcurrent hdisk hheap =>
      refine ⟨h.mounted.of_same hsuper hstart, ?_, ?_,
        h.mounts.of_spares hsuper (Or.inl (congrFun hdisk 0))⟩
      · rw [hheap]
        exact h.heap
      · rw [hdisk]
        exact h.disk

theorem DiskInvariant.init_cases (h : DiskInvariant g s)
    (hexec : s.exec .init = .ok (s', code)) :
    s' = { s with
        currentDirBlock := 0
        sectorBuffer := s.disk 0 } ∨
      s' = { s with sectorBuffer := s.disk 0 } := by
  rcases h.mounts.init h.mounted with hinit | hinit
  · simp only [ChainFS.exec, hinit, Except.ok.injEq] at hexec
    cases hexec
    exact Or.inl rfl
  · simp only [ChainFS.exec, hinit, Except.ok.injEq] at hexec
    cases hexec
    exact Or.inr rfl

theorem DiskInvariant.init_disk (h : DiskInvariant g s)
    (hexec : s.exec .init = .ok (s', code)) : s'.disk = s.disk := by
  rcases h.init_cases hexec with rfl | rfl <;> rfl

/-! ## Runs -/

/-- No sector number of a block that the call takes wraps around. -/
def UnwrappedCall (g : Geometry) : StepCondition := fun s call _ =>
  match call with
  | .writeFile path _ size => TakesSectors g s path.chars size (· < 2 ^ 32)
  | _ => True

theorem Geometry.NoWrap.unwrappedCall (h : g.NoWrap) (s : ChainFS)
    (call : FsCall) (code : ℤ) : UnwrappedCall g s call code := by
  cases call with
  | writeFile path data size => exact h.takesSectors s path.chars size
  | _ => trivial

/-- On such a disk it is no condition on the calls. -/
theorem Geometry.NoWrap.unwrapped_run {P : StepCondition} (h : g.NoWrap)
    (hrun : FsRun P s₀ hist s) : FsRun (UnwrappedCall g) s₀ hist s :=
  hrun.weaken fun s call code _ => h.unwrappedCall s call code

/-- A computed result of calls on the small disk is that of a run. -/
theorem smallDisk_run {test : ChainFS → FsCall → ℤ → Bool}
    {calls : List FsCall} {α : Type*} {f : List ℤ × ChainFS → α} {v : α}
    (hcheck : (smallDisk.checkRun test (initHeap unbootedHeap) calls).map f =
      some v) :
    ∃ codes s, FsRun (UnwrappedCall (formatGeometry 20 8)) smallDisk
      (calls.zip codes) s ∧ f (codes, s) = v :=
  checkRun_run blankDrive_ready
    (fun _ _ _ _ => smallDisk_noWrap.unwrappedCall _ _ _) hcheck

theorem DiskInvariant.step (h : DiskInvariant g s)
    (hcall : UnwrappedCall g s call code)
    (hexec : s.exec call = .ok (s', code)) : DiskInvariant g s' := by
  cases call with
  | writeFile path data size => exact h.writeFile hcall hexec
  | deleteFile path => exact h.deleteFile hexec
  | readFile path buffer n =>
      exact h.of_unchanged (exec_unchanged h.mounted h.heap
        (Or.inl ⟨path, buffer, n, rfl⟩) hexec)
  | mkdir path => exact h.mkdir hexec
  | rmdir path => exact h.rmdir (Except.ok.inj hexec)
  | chdir path => exact h.chdir (Except.ok.inj hexec)
  | listDir path n =>
      exact h.of_unchanged (exec_unchanged h.mounted h.heap
        (Or.inr ⟨path, n, rfl⟩) hexec)
  | init =>
      rcases h.init_cases hexec with rfl | rfl <;>
        exact ⟨h.mounted.of_same rfl rfl, h.heap, h.disk, h.mounts⟩

theorem DiskInvariant.run (h : DiskInvariant g s₀)
    (hrun : FsRun (UnwrappedCall g) s₀ hist s) : DiskInvariant g s := by
  refine hrun.invariant h ?_ ?_
  · intro s heap hs hready
    exact hs.withHeap hready
  · intro s call s' code hs _ hcall hexec
    exact hs.step hcall hexec

/-- The superblock of a format looks like neither a file nor a directory. -/
theorem formatSuperblock_type (totalBlocks maxFiles : ℕ) :
    (entryAt (formatSuperblock totalBlocks maxFiles) 0).type = 0xBA := by
  have hword : ∀ m : Memory, (m.store 0 4 chainfsMagic) 1 = 0xBA := by
    intro m
    have hbyte := m.store_inside (a := 0) (n := 4) chainfsMagic
      (show 1 < 4 by omega)
    rw [Nat.zero_add] at hbyte
    rw [hbyte]
    decide
  simp only [entryAt, formatSuperblock]
  rw [Memory.store_outside _ _ (by omega), Memory.store_outside _ _ (by omega),
    Memory.store_outside _ _ (by omega), Memory.store_outside _ _ (by omega),
    Memory.store_outside _ _ (by omega)]
  exact hword _

theorem Formatted.diskInvariant {totalBlocks maxFiles : ℕ}
    (h : Formatted totalBlocks maxFiles s) :
    DiskInvariant (formatGeometry totalBlocks maxFiles) s := by
  obtain ⟨hfresh, hsuper, -, -, -, hready⟩ := h.fresh
  refine ⟨h.mounted, hready, ⟨?_, ?_, ?_⟩,
    Or.inl (hfresh.super.trans hsuper.symm)⟩
  · intro b hb
    exact Or.inl (hfresh.mapLink_zero hb)
  · intro idx hidx hone
    obtain ⟨hroot, hother⟩ := hfresh.entries hidx
    by_cases hzero : idx = 0
    · right
      rw [hroot hzero]
      obtain ⟨-, htype, hstart, -⟩ := formatRootSector_root
      exact ⟨htype, hstart, formatRootSector_size⟩
    · rw [hother hzero] at hone
      exact absurd hone (by decide)
  · have htype := formatSuperblock_type totalBlocks maxFiles
    rw [RootBlockOk, hfresh.super, htype]
    exact ⟨by decide, fun hfile => absurd hfile (by decide)⟩

end Otsos
