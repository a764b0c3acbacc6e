import Otsos.ChainFS.Reachable

/-!
# What a call does to the file table

A call that returns has changed at most one slot of the table: a write and
`chainfs_mkdir` fill it in, a delete and `chainfs_rmdir` clear its status.
Which slot, and what goes into it, is decided before anything is written, so
the edit can be named in terms of the state before the call.
-/

namespace Otsos

open Lib

variable {g : Geometry} {s s' s₀ s₁ : ChainFS} {d d' : ℕ → Memory}
  {path : List UInt8} {data : Memory} {idx size : ℕ}
  {call : FsCall} {code : ℤ} {hist : List (FsCall × ℤ)}

def LiveEntry (g : Geometry) (d : ℕ → Memory) (idx : ℕ) : Prop :=
  idx < g.slots ∧ (entryOf d idx).status = 1

def LiveDir (g : Geometry) (d : ℕ → Memory) (idx : ℕ) : Prop :=
  LiveEntry g d idx ∧ (entryOf d idx).type = chainfsTypeDir

instance (g : Geometry) (d : ℕ → Memory) (idx : ℕ) :
    Decidable (LiveDir g d idx) :=
  inferInstanceAs (Decidable ((_ ∧ _) ∧ _))

def parentOf (d : ℕ → Memory) (idx : ℕ) : ℕ := (entryOf d idx).parentBlock

theorem LiveEntry.congr (hentry : entryOf d' idx = entryOf d idx) :
    LiveEntry g d' idx ↔ LiveEntry g d idx := by
  simp only [LiveEntry, hentry]

theorem LiveDir.congr (hentry : entryOf d' idx = entryOf d idx) :
    LiveDir g d' idx ↔ LiveDir g d idx := by
  simp only [LiveDir, LiveEntry, hentry]

theorem not_liveEntry_of_free (hfree : freeSlot g d = some idx) :
    ¬ LiveEntry g d idx := by
  rintro ⟨-, hone⟩
  rw [(freeSlot_some hfree).2] at hone
  exact absurd hone (by decide)

inductive TableEdit where
  | file (idx : ℕ) (name : List UInt8) (size parent : ℕ)
  | directory (idx : ℕ) (name : List UInt8) (parent : ℕ)
  | clear (idx : ℕ)

def TableEdit.slot : TableEdit → ℕ
  | .file idx _ _ _ => idx
  | .directory idx _ _ => idx
  | .clear idx => idx

/-- The edit of the sector; a file gets the first block `start`. -/
def TableEdit.apply (start : ℕ) : TableEdit → Memory → ℕ → Memory
  | .file _ name size parent => fun m i =>
      setFileEntry m i name size start parent
  | .directory _ name parent => fun m i => setDirEntry m i name parent
  | .clear _ => fun m i => setStatus m i 0

/-- The edit that a call makes if it returns. -/
def Planned (g : Geometry) (s : ChainFS) (call : FsCall) (e : TableEdit) :
    Prop :=
  match call with
  | .writeFile path _ size => ∃ plan idx,
      writePlan g s path.chars = .ok (some plan) ∧
        RoomAfter g s plan.freed size ∧ plan.target = .slot idx ∧
        e = .file idx plan.fileName size plan.parent
  | .deleteFile path => ∃ idx, s.find g path.chars = some (.slot idx) ∧
      released g s.disk (entryOf s.disk idx).startBlock ≠ none ∧
      e = .clear idx
  | .mkdir path => ∃ plan, mkdirPlan g s path.chars = .ok (some plan) ∧
      e = .directory plan.slot plan.dirName plan.parent
  | .rmdir path => ∃ idx, RmdirTarget g s path.chars idx ∧ e = .clear idx
  | _ => False

theorem Planned.unique {e e' : TableEdit} (h : Planned g s call e)
    (h' : Planned g s call e') : e' = e := by
  cases call with
  | writeFile path data size =>
      obtain ⟨plan, idx, hplan, -, hslot, rfl⟩ := h
      obtain ⟨plan', idx', hplan', -, hslot', rfl⟩ := h'
      rw [hplan] at hplan'
      cases hplan'
      rw [hslot] at hslot'
      cases hslot'
      rfl
  | deleteFile path =>
      obtain ⟨idx, hfind, -, rfl⟩ := h
      obtain ⟨idx', hfind', -, rfl⟩ := h'
      rw [hfind] at hfind'
      cases hfind'
      rfl
  | mkdir path =>
      obtain ⟨plan, hplan, rfl⟩ := h
      obtain ⟨plan', hplan', rfl⟩ := h'
      rw [hplan] at hplan'
      cases hplan'
      rfl
  | rmdir path =>
      obtain ⟨idx, htarget, rfl⟩ := h
      obtain ⟨idx', htarget', rfl⟩ := h'
      have hsome := htarget.1
      rw [htarget'.1] at hsome
      cases hsome
      rfl
  | readFile path buffer n => exact absurd h id
  | chdir path => exact absurd h id
  | listDir path n => exact absurd h id
  | init => exact absurd h id

theorem Planned.file_inv {name : List UInt8} {parent : ℕ}
    (h : Planned g s call (.file idx name size parent)) :
    ∃ path data plan, call = .writeFile path data size ∧
      writePlan g s path.chars = .ok (some plan) ∧
      RoomAfter g s plan.freed size ∧ plan.target = .slot idx ∧
      plan.fileName = name ∧ plan.parent = parent := by
  cases call with
  | writeFile path data n =>
      obtain ⟨plan, j, hplan, hroom, hslot, heq⟩ := h
      cases heq
      exact ⟨path, data, plan, rfl, hplan, hroom, hslot, rfl, rfl⟩
  | deleteFile path =>
      obtain ⟨j, -, -, heq⟩ := h
      cases heq
  | mkdir path =>
      obtain ⟨plan, -, heq⟩ := h
      cases heq
  | rmdir path =>
      obtain ⟨j, -, heq⟩ := h
      cases heq
  | readFile path buffer n => exact absurd h id
  | chdir path => exact absurd h id
  | listDir path n => exact absurd h id
  | init => exact absurd h id

theorem Planned.directory_inv {name : List UInt8} {parent : ℕ}
    (h : Planned g s call (.directory idx name parent)) :
    ∃ path plan, call = .mkdir path ∧
      mkdirPlan g s path.chars = .ok (some plan) ∧
      plan.slot = idx ∧ plan.dirName = name ∧ plan.parent = parent := by
  cases call with
  | mkdir path =>
      obtain ⟨plan, hplan, heq⟩ := h
      cases heq
      exact ⟨path, plan, rfl, hplan, rfl, rfl, rfl⟩
  | writeFile path data n =>
      obtain ⟨plan, j, -, -, -, heq⟩ := h
      cases heq
  | deleteFile path =>
      obtain ⟨j, -, -, heq⟩ := h
      cases heq
  | rmdir path =>
      obtain ⟨j, -, heq⟩ := h
      cases heq
  | readFile path buffer n => exact absurd h id
  | chdir path => exact absurd h id
  | listDir path n => exact absurd h id
  | init => exact absurd h id

theorem Planned.clear_inv (h : Planned g s call (.clear idx)) :
    (∃ path, call = .deleteFile path ∧
        s.find g path.chars = some (.slot idx)) ∨
      ∃ path, call = .rmdir path ∧ RmdirTarget g s path.chars idx := by
  cases call with
  | deleteFile path =>
      obtain ⟨j, hfind, -, heq⟩ := h
      cases heq
      exact Or.inl ⟨path, rfl, hfind⟩
  | rmdir path =>
      obtain ⟨j, htarget, heq⟩ := h
      cases heq
      exact Or.inr ⟨path, rfl, htarget⟩
  | writeFile path data n =>
      obtain ⟨plan, j, -, -, -, heq⟩ := h
      cases heq
  | mkdir path =>
      obtain ⟨plan, -, heq⟩ := h
      cases heq
  | readFile path buffer n => exact absurd h id
  | chdir path => exact absurd h id
  | listDir path n => exact absurd h id
  | init => exact absurd h id

/-- The slots of the table hold the same bytes. -/
def SameTable (g : Geometry) (d d' : ℕ → Memory) : Prop :=
  ∀ j < g.slots, SameSlot d d' j

theorem SameSlot.trans {d'' : ℕ → Memory} (h : SameSlot d d' idx)
    (h' : SameSlot d' d'' idx) : SameSlot d d'' idx := by
  intro off hoff
  rw [h' off hoff, h off hoff]

theorem SameTable.trans {d'' : ℕ → Memory} (h : SameTable g d d')
    (h' : SameTable g d' d'') : SameTable g d d'' :=
  fun j hj => (h j hj).trans (h' j hj)

theorem SameTable.of_disk (h : d' = d) : SameTable g d d' := by
  intro j _
  exact SameSlot.of_sector (by rw [h])

theorem SameTable.of_outside (h : SameOutsideMap g d d') :
    SameTable g d d' := by
  intro j hj
  have hsector := g.slot_sector hj
  exact SameSlot.of_sector (h _ (Or.inl (by omega)))

theorem SameTable.of_written {bs : List ℕ} {off : ℕ}
    (h : Written g d d' data size off bs) : SameTable g d d' := by
  intro j hj
  have hsector := g.slot_sector hj
  exact SameSlot.of_sector (h.table_sector (by omega))

theorem SameTable.editRoot (edit : Memory → ℕ → Memory) :
    SameTable g d (editTarget d .rootBlock edit) := by
  intro j _
  apply SameSlot.of_sector
  apply Function.update_of_ne
  show 1 + j / 8 ≠ 0
  omega

/-- The edit has been made, and no other slot has changed. -/
structure Edited (g : Geometry) (d d' : ℕ → Memory) (e : TableEdit) :
    Prop where
  inside : e.slot < g.slots
  other : ∀ j < g.slots, j ≠ e.slot → SameSlot d d' j
  bytes : ∃ m start, SameBytes (e.apply start m (e.slot % 8)) (e.slot % 8)
    (d' (1 + e.slot / 8)) (e.slot % 8)

theorem Edited.of_editSlot {d₁ : ℕ → Memory} {e : TableEdit} (start : ℕ)
    (hinside : e.slot < g.slots) (hedit : EditsEntry (e.apply start))
    (hsame : SameTable g d d₁)
    (hdisk : d' = editSlot d₁ e.slot (e.apply start)) :
    Edited g d d' e := by
  refine ⟨hinside, ?_, d₁ (1 + e.slot / 8), start, ?_⟩
  · intro j hj hne
    rw [hdisk]
    exact (hsame j hj).trans (editSlot_other hedit hne)
  · intro off _
    rw [hdisk, editSlot, Function.update_self]

theorem Edited.entryOf_eq {e : TableEdit} (h : Edited g d d' e) :
    ∃ m start, entryOf d' e.slot =
      entryAt (e.apply start m (e.slot % 8)) (e.slot % 8) := by
  obtain ⟨m, start, hbytes⟩ := h.bytes
  exact ⟨m, start, hbytes.entryAt_eq⟩

theorem Edited.clear_status (h : Edited g d d' (.clear idx)) :
    (entryOf d' idx).status = 0 := by
  obtain ⟨m, start, hentry⟩ := h.entryOf_eq
  rw [show entryOf d' idx = entryAt (setStatus m (idx % 8) 0) (idx % 8)
    from hentry]
  exact setStatus_status 0

theorem Edited.clear_dead (h : Edited g d d' (.clear idx)) :
    ¬ LiveEntry g d' idx := by
  rintro ⟨-, hone⟩
  rw [h.clear_status] at hone
  exact absurd hone (by decide)

theorem Edited.file_fields {name : List UInt8} {parent : ℕ}
    (h : Edited g d d' (.file idx name size parent))
    (hparent : parent < 2 ^ 32) :
    (entryOf d' idx).status = 1 ∧ (entryOf d' idx).type = chainfsTypeFile ∧
      (entryOf d' idx).parentBlock = parent := by
  obtain ⟨m, start, hentry⟩ := h.entryOf_eq
  rw [show entryOf d' idx = entryAt (setFileEntry m (idx % 8) name size start
    parent) (idx % 8) from hentry]
  exact ⟨setFileEntry_status, setFileEntry_type, setFileEntry_parent hparent⟩

theorem Edited.directory_fields {name : List UInt8} {parent : ℕ}
    (h : Edited g d d' (.directory idx name parent))
    (hparent : parent < 2 ^ 32) :
    (entryOf d' idx).status = 1 ∧ (entryOf d' idx).type = chainfsTypeDir ∧
      (entryOf d' idx).parentBlock = parent := by
  obtain ⟨m, start, hentry⟩ := h.entryOf_eq
  rw [show entryOf d' idx = entryAt (setDirEntry m (idx % 8) name parent)
    (idx % 8) from hentry]
  exact ⟨setDirEntry_status, setDirEntry_type, setDirEntry_parent hparent⟩

/-- A call that returns has made its edit, if it has one. -/
inductive TableStep (g : Geometry) (s s' : ChainFS) (call : FsCall) : Prop
  | same (hnone : ∀ e, ¬ Planned g s call e)
      (hsame : SameTable g s.disk s'.disk) : TableStep g s s' call
  | edited (e : TableEdit) (hplanned : Planned g s call e)
      (hedited : Edited g s.disk s'.disk e) : TableStep g s s' call

theorem TableStep.edited_of {e : TableEdit} (h : TableStep g s s' call)
    (hplanned : Planned g s call e) : Edited g s.disk s'.disk e := by
  cases h with
  | same hnone hsame => exact absurd hplanned (hnone e)
  | edited e' hplanned' hedited =>
      rw [← hplanned.unique hplanned']
      exact hedited

theorem DiskInvariant.tableStep_write (h : DiskInvariant g s)
    {path : CString}
    (htakes : TakesSectors g s path.chars size (· < 2 ^ 32))
    (hexec : s.exec (.writeFile path data size) = .ok (s', code)) :
    TableStep g s s' (.writeFile path data size) := by
  have hresult := h.mounted.writeFile_result h.heap path.chars data size
  rw [show chainfsWriteFile s path.chars data size = .ok (s', code)
    from hexec] at hresult
  cases hresult with
  | rejected s' hplan hsame =>
      refine .same ?_ (SameTable.of_disk hsame.disk)
      rintro e ⟨plan, idx, hplan', -⟩
      rw [hplan] at hplan'
      cases hplan'
  | full plan s₁ s' hplan hprepared hroom hsame =>
      refine .same ?_ ((SameTable.of_outside hprepared.outside).trans
        (SameTable.of_disk hsame.disk))
      rintro e ⟨plan', idx, hplan', hroom', -⟩
      rw [hplan] at hplan'
      cases hplan'
      exact hroom hroom'
  | stored plan s₁ s' hplan hprepared hroom hstored =>
      obtain ⟨d, hwritten, hdisk⟩ :=
        (hstored (htakes.usable hplan hprepared hroom)).disk
      have hsame : SameTable g s.disk d :=
        (SameTable.of_outside hprepared.outside).trans
          (SameTable.of_written hwritten)
      have hvalid := writePlan_valid hplan
      cases hslot : plan.target with
      | rootBlock =>
          rw [hslot] at hdisk
          refine .same ?_ ?_
          · rintro e ⟨plan', idx, hplan', -, hslot', -⟩
            rw [hplan] at hplan'
            cases hplan'
            rw [hslot] at hslot'
            cases hslot'
          · rw [hdisk]
            exact hsame.trans (SameTable.editRoot fun m i => setFileEntry m i
              plan.fileName size ((allocated g s₁.disk size).headD 0)
              plan.parent)
      | slot idx =>
          rw [hslot] at hdisk hvalid
          refine .edited (.file idx plan.fileName size plan.parent)
            ⟨plan, idx, hplan, hroom, hslot, rfl⟩ ?_
          exact Edited.of_editSlot _ hvalid (setFileEntry_edits _ _ _ _)
            hsame hdisk

theorem DiskInvariant.tableStep_delete (h : DiskInvariant g s)
    {path : CString} (hexec : s.exec (.deleteFile path) = .ok (s', code)) :
    TableStep g s s' (.deleteFile path) := by
  have hresult := h.mounted.deleteFile_result h.heap path.chars
  rw [show chainfsDeleteFile s path.chars = .ok (s', code) from hexec]
    at hresult
  cases hresult with
  | missing s' hfind hsame =>
      refine .same ?_ (SameTable.of_disk hsame.disk)
      rintro e ⟨idx, hfind', -⟩
      rw [hfind] at hfind'
      cases hfind'
  | cleared t freed s₁ s' hfind hfreed hprepared hcontrol hheap hdisk =>
      have hsame := SameTable.of_outside hprepared.outside
      cases t with
      | rootBlock =>
          refine .same ?_ ?_
          · rintro e ⟨idx, hfind', -⟩
            rw [hfind] at hfind'
            cases hfind'
          · rw [hdisk]
            exact hsame.trans (SameTable.editRoot _)
      | slot idx =>
          have hreturns : released g s.disk (entryOf s.disk idx).startBlock =
              some freed := hfreed
          refine .edited (.clear idx)
            ⟨idx, hfind, by rw [hreturns]; simp, rfl⟩ ?_
          exact Edited.of_editSlot 0 (find_slot hfind).1 (setStatus_edits 0)
            hsame hdisk

theorem DiskInvariant.tableStep_mkdir (h : DiskInvariant g s)
    {path : CString} (hexec : s.exec (.mkdir path) = .ok (s', code)) :
    TableStep g s s' (.mkdir path) := by
  have hresult := h.mounted.mkdir_result h.heap path.chars
  rw [show chainfsMkdir s path.chars = .ok (s', code) from hexec] at hresult
  cases hresult with
  | rejected s' hplan hsame =>
      refine .same ?_ (SameTable.of_disk hsame.disk)
      rintro e ⟨plan, hplan', -⟩
      rw [hplan] at hplan'
      cases hplan'
  | made plan s' hplan hcontrol hheap hdisk =>
      obtain ⟨parent, hsplit, -, -, hfree⟩ := mkdirPlan_some hplan
      refine .edited (.directory plan.slot plan.dirName plan.parent)
        ⟨plan, hplan, rfl⟩ ?_
      exact Edited.of_editSlot 0 (freeSlot_some hfree).1
        (setDirEntry_edits _ (splitParent_short hsplit))
        (SameTable.of_disk rfl) hdisk

theorem DiskInvariant.tableStep_rmdir (h : DiskInvariant g s)
    {path : CString} (hexec : s.exec (.rmdir path) = .ok (s', code)) :
    TableStep g s s' (.rmdir path) := by
  have hresult := h.mounted.rmdir_result h.heap path.chars
  rw [show chainfsRmdir s path.chars = (s', code) from Except.ok.inj hexec]
    at hresult
  cases hresult with
  | rejected s' hnone hsame =>
      refine .same ?_ (SameTable.of_disk hsame.disk)
      rintro e ⟨idx, htarget, -⟩
      exact hnone idx htarget
  | removed idx s' htarget hcontrol hheap hdisk =>
      refine .edited (.clear idx) ⟨idx, htarget, rfl⟩ ?_
      exact Edited.of_editSlot 0 (resolve_slot htarget.1).1
        (setStatus_edits 0) (SameTable.of_disk rfl) hdisk

theorem DiskInvariant.chdir_disk (h : DiskInvariant g s)
    (hexec : chainfsChdir s path = (s', code)) : s'.disk = s.disk := by
  have hresult := h.mounted.chdir_result h.heap path
  rw [hexec] at hresult
  cases hresult with
  | rejected s' hsame => exact hsame.disk
  | moved t s' htarget hdir hsuper hstart hcurrent hdisk hheap => exact hdisk

theorem DiskInvariant.tableStep (h : DiskInvariant g s)
    (hcall : UnwrappedCall g s call code)
    (hexec : s.exec call = .ok (s', code)) : TableStep g s s' call := by
  cases call with
  | writeFile path data size => exact h.tableStep_write hcall hexec
  | deleteFile path => exact h.tableStep_delete hexec
  | mkdir path => exact h.tableStep_mkdir hexec
  | rmdir path => exact h.tableStep_rmdir hexec
  | readFile path buffer n =>
      refine .same (fun e => id) (SameTable.of_disk ?_)
      exact (exec_unchanged h.mounted h.heap
        (Or.inl ⟨path, buffer, n, rfl⟩) hexec).disk
  | listDir path n =>
      refine .same (fun e => id) (SameTable.of_disk ?_)
      exact (exec_unchanged h.mounted h.heap
        (Or.inr ⟨path, n, rfl⟩) hexec).disk
  | chdir path =>
      refine .same (fun e => id) (SameTable.of_disk ?_)
      exact h.chdir_disk (Except.ok.inj hexec)
  | init =>
      refine .same (fun e => id) (SameTable.of_disk ?_)
      exact h.init_disk hexec

/-! ## The current directory -/

def FsCall.isInit : FsCall → Bool
  | .init => true
  | _ => false

theorem exec_control (h : Mounted g s) (hready : HeapReady s.heap)
    (hcall : call.isInit = false)
    (hchdir : ∀ path, call ≠ .chdir path)
    (hexec : s.exec call = .ok (s', code)) : SameControl s s' := by
  cases call with
  | writeFile path data size =>
      have hresult := h.writeFile_result hready path.chars data size
      rw [show chainfsWriteFile s path.chars data size = .ok (s', code)
        from hexec] at hresult
      cases hresult with
      | rejected s' hplan hsame => exact hsame.control
      | full plan s₁ s' hplan hprepared hroom hsame =>
          exact hprepared.control.trans hsame.control
      | stored plan s₁ s' hplan hprepared hroom hstored hcontrol =>
          exact hprepared.control.trans hcontrol
  | deleteFile path =>
      have hresult := h.deleteFile_result hready path.chars
      rw [show chainfsDeleteFile s path.chars = .ok (s', code) from hexec]
        at hresult
      cases hresult with
      | missing s' hfind hsame => exact hsame.control
      | cleared t freed s₁ s' hfind hfreed hprepared hcontrol hheap hdisk =>
          exact hprepared.control.trans hcontrol
  | mkdir path =>
      have hresult := h.mkdir_result hready path.chars
      rw [show chainfsMkdir s path.chars = .ok (s', code) from hexec]
        at hresult
      cases hresult with
      | rejected s' hplan hsame => exact hsame.control
      | made plan s' hplan hcontrol hheap hdisk => exact hcontrol
  | rmdir path =>
      have hresult := h.rmdir_result hready path.chars
      rw [show chainfsRmdir s path.chars = (s', code)
        from Except.ok.inj hexec] at hresult
      cases hresult with
      | rejected s' hnone hsame => exact hsame.control
      | removed idx s' htarget hcontrol hheap hdisk => exact hcontrol
  | readFile path buffer n =>
      exact (exec_unchanged h hready (Or.inl ⟨path, buffer, n, rfl⟩)
        hexec).control
  | listDir path n =>
      exact (exec_unchanged h hready (Or.inr ⟨path, n, rfl⟩) hexec).control
  | chdir path => exact absurd rfl (hchdir path)
  | init => cases hcall

theorem DiskInvariant.chdir_current (h : DiskInvariant g s)
    (hexec : chainfsChdir s path = (s', code)) :
    s'.currentDirBlock = s.currentDirBlock ∨
      ∃ idx, s.resolve g path = some (.slot idx) ∧
        (entryOf s.disk idx).type = chainfsTypeDir ∧
        s'.currentDirBlock = entryIndex (1 + idx / 8) (idx % 8) := by
  have hresult := h.mounted.chdir_result h.heap path
  rw [hexec] at hresult
  cases hresult with
  | rejected s' hsame => exact Or.inl hsame.control.current
  | moved t s' htarget hdir hsuper hstart hcurrent hdisk hheap =>
      obtain ⟨idx, rfl, -⟩ := h.directory_slot htarget hdir
      exact Or.inr ⟨idx, htarget, hdir, hcurrent⟩

theorem DiskInvariant.current_step (h : DiskInvariant g s)
    (hcurrent : s.currentDirBlock < 2 ^ 32)
    (hexec : s.exec call = .ok (s', code)) : s'.currentDirBlock < 2 ^ 32 := by
  by_cases hchdir : ∃ path, call = .chdir path
  · obtain ⟨path, rfl⟩ := hchdir
    rcases h.chdir_current (Except.ok.inj hexec) with
      hsame | ⟨idx, -, -, hmoved⟩
    · rw [hsame]
      exact hcurrent
    · rw [hmoved]
      exact Nat.mod_lt _ (Nat.two_pow_pos 32)
  · by_cases hinit : call.isInit = true
    · cases call with
      | init =>
          rcases h.init_cases hexec with rfl | rfl
          · exact Nat.two_pow_pos 32
          · exact hcurrent
      | _ => cases hinit
    · rw [(exec_control h.mounted h.heap
        (Bool.eq_false_of_not_eq_true hinit)
        (fun path heq => hchdir ⟨path, heq⟩) hexec).current]
      exact hcurrent

theorem DiskInvariant.current_run (h : DiskInvariant g s₀)
    (hcurrent : s₀.currentDirBlock < 2 ^ 32)
    (hrun : FsRun (UnwrappedCall g) s₀ hist s) :
    s.currentDirBlock < 2 ^ 32 := by
  induction hrun with
  | start => exact hcurrent
  | step before ready meets returns ih =>
      exact ((h.run before).withHeap ready).current_step ih returns

theorem parentId_lt {parent : ParentPath} {parentBlock : ℕ}
    (hcurrent : s.currentDirBlock < 2 ^ 32)
    (hparent : writeParentId g s.disk s.currentDirBlock parent =
      some parentBlock ∨
      mkdirParentId g s.disk s.currentDirBlock parent = some parentBlock) :
    parentBlock < 2 ^ 32 := by
  rcases parentId_cases hparent with rfl | rfl | ⟨path, hdir⟩
  · exact hcurrent
  · exact Nat.two_pow_pos 32
  · exact dirSector_lt hdir

theorem dirSector_slash (h : DiskInvariant g s) :
    dirSector g s.disk s.currentDirBlock [slash] = none := by
  rw [dirSector, resolveTable, if_pos (by decide)]
  exact if_pos h.disk.rootBlock.1

/-- The path leads to an entry of the table, and this is the sector that the
entry lies in. -/
def EntrySector (g : Geometry) (s : ChainFS) (path : List UInt8) (p : ℕ) :
    Prop :=
  ∃ k, s.resolve g path = some (.slot k) ∧ p = 1 + k / 8

/-- The sector of the entry that the directory part of the path leads to, if
the path has one other than `"/"`. -/
def ParentSector (g : Geometry) (s : ChainFS) (path : List UInt8) (p : ℕ) :
    Prop :=
  ∃ dir name, splitParent path = .ok (.path dir, name) ∧ EntrySector g s dir p

/-- The number under which an entry is put: that of the current directory or
of the root, but the sector of any other directory. -/
def ParentNumber (g : Geometry) (s : ChainFS) : ParentPath → ℕ → Prop
  | .current, p => p = s.currentDirBlock
  | .root, p => p = 0
  | .path dir, p => EntrySector g s dir p

/-- The number and the name under which an entry for the path is put. -/
def StoredUnder (g : Geometry) (s : ChainFS) (path : List UInt8) (p : ℕ)
    (name : List UInt8) : Prop :=
  ∃ parent, splitParent path = .ok (parent, name) ∧ ParentNumber g s parent p

theorem DiskInvariant.entrySector_iff {p q : ℕ} (h : DiskInvariant g s)
    (hsector : dirSector g s.disk s.currentDirBlock path = some p) :
    EntrySector g s path q ↔ q = p := by
  obtain ⟨t, hresolve, htype, rfl⟩ := dirSector_some hsector
  obtain ⟨idx, rfl, -⟩ := h.directory_slot hresolve htype
  constructor
  · rintro ⟨k, hk, rfl⟩
    rw [hresolve] at hk
    cases hk
    rfl
  · rintro rfl
    exact ⟨idx, hresolve, rfl⟩

section Stored

variable {parent : ParentPath} {p : ℕ} {name : List UInt8}

theorem DiskInvariant.parentNumber_iff {q : ℕ} (h : DiskInvariant g s)
    (hparent : writeParentId g s.disk s.currentDirBlock parent = some p ∨
      mkdirParentId g s.disk s.currentDirBlock parent = some p) :
    ParentNumber g s parent q ↔ q = p := by
  cases parent with
  | current =>
      have hp : s.currentDirBlock = p := by
        rcases hparent with hparent | hparent <;>
          exact Option.some.inj hparent
      rw [← hp]
      rfl
  | root =>
      rcases hparent with hparent | hparent
      · rw [← Option.some.inj hparent]
        rfl
      · rw [mkdirParentId, dirSector_slash h] at hparent
        cases hparent
  | path dir =>
      rcases hparent with hparent | hparent <;>
        exact h.entrySector_iff hparent

/-- A call that gets as far as storing an entry stores it under that number. -/
theorem DiskInvariant.storedUnder_iff {q : ℕ} {c : List UInt8}
    (h : DiskInvariant g s) (hsplit : splitParent path = .ok (parent, name))
    (hparent : writeParentId g s.disk s.currentDirBlock parent = some p ∨
      mkdirParentId g s.disk s.currentDirBlock parent = some p) :
    StoredUnder g s path q c ↔ q = p ∧ c = name := by
  constructor
  · rintro ⟨parent', hsplit', hq⟩
    rw [hsplit] at hsplit'
    cases hsplit'
    exact ⟨(h.parentNumber_iff hparent).mp hq, rfl⟩
  · rintro ⟨hq, rfl⟩
    exact ⟨parent, hsplit, (h.parentNumber_iff hparent).mpr hq⟩

/-- What holds of the current directory and of the root holds of the number
that is stored if it holds of the sector in question. -/
theorem DiskInvariant.parentSector_forall {P : ℕ → Prop}
    (h : DiskInvariant g s) (hcurrent : P s.currentDirBlock) (hroot : P 0)
    (hsplit : splitParent path = .ok (parent, name))
    (hparent : writeParentId g s.disk s.currentDirBlock parent = some p ∨
      mkdirParentId g s.disk s.currentDirBlock parent = some p) :
    P p ↔ ∀ q, ParentSector g s path q → P q := by
  constructor
  · rintro hp q ⟨dir, name', hsplit', hq⟩
    obtain ⟨rfl, -⟩ := (h.storedUnder_iff hsplit hparent).mp
      ⟨.path dir, hsplit', hq⟩
    exact hp
  · intro hall
    obtain ⟨parent', hsplit', hp⟩ :=
      (h.storedUnder_iff hsplit hparent).mpr ⟨rfl, rfl⟩
    cases parent' with
    | current =>
        rw [show p = s.currentDirBlock from hp]
        exact hcurrent
    | root =>
        rw [show p = 0 from hp]
        exact hroot
    | path dir => exact hall p ⟨dir, name, hsplit', hp⟩

end Stored

theorem Formatted.live_root {totalBlocks maxFiles : ℕ}
    (h : Formatted totalBlocks maxFiles s)
    (hlive : LiveEntry (formatGeometry totalBlocks maxFiles) s.disk idx) :
    idx = 0 := by
  obtain ⟨hfresh, -⟩ := h.fresh
  obtain ⟨hidx, hone⟩ := hlive
  by_contra hne
  rw [(hfresh.entries hidx).2 hne] at hone
  exact absurd hone (by decide)

end Otsos
