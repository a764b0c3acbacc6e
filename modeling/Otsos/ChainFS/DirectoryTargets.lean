import Otsos.ChainFS.Reachable

/-!
# File calls on directories

`chainfs_delete_file` and `chainfs_write_file` do not look at the type of the
entry they find.  A directory has the first block zero, so that both start by
releasing the chain of whatever file begins at the block zero.
-/

namespace Otsos

open Lib

variable {g : Geometry} {s s' s₀ : ChainFS} {path : List UInt8}
  {data : Memory} {idx size : ℕ} {hist : List (FsCall × ℤ)}

/-- The table, the map and the contents are as before. -/
structure FilesUnchanged (g : Geometry) (s s' : ChainFS) : Prop where
  table : ∀ idx < g.slots, SameSlot s.disk s'.disk idx
  map : ∀ b, g.Mapped b → mapLink g s'.disk b = mapLink g s.disk b
  contents : ∀ sector, g.dataStart ≤ sector → s'.disk sector = s.disk sector

/-- The call returns an error and changes no file. -/
def Rejects (g : Geometry) (s : ChainFS)
    (result : Except Fault (ChainFS × ℤ)) : Prop :=
  ∃ s' code, result = .ok (s', code) ∧ code ≠ 0 ∧ FilesUnchanged g s s'

def ResolvesToDirectory (s : ChainFS) (path : List UInt8) : Prop :=
  ∃ f, (chainfsResolvePath s path).2 = some f ∧
    f.entry.type = chainfsTypeDir

instance (s : ChainFS) (path : List UInt8) :
    Decidable (ResolvesToDirectory s path) :=
  decidable_of_iff
    ((chainfsResolvePath s path).2.any (·.entry.type == chainfsTypeDir))
    (by simp [ResolvesToDirectory, Option.any_eq_true])

theorem findFile_of_resolves {f : Found}
    (h : (chainfsResolvePath s path).2 = some f) :
    (chainfsFindFile s path).2 = some f := by
  unfold chainfsFindFile
  by_cases hslash : slash ∈ path
  · rwa [if_pos hslash]
  · rw [if_neg hslash]
    have hhead : ¬ path.head? = some slash :=
      fun heq => hslash (List.mem_of_head? heq)
    have hsplit := splitPath_noSlash hslash
    unfold chainfsResolvePath at h
    simp only [hhead, and_false, if_false, hsplit] at h
    unfold keepComponent at h
    by_cases hkeep : 0 < path.length ∧ path.length < 31
    · rw [if_pos hkeep, List.nil_append, resolveComponents] at h
      cases hfind : chainfsFindInDirectory s s.currentDirBlock path with
      | mk s₁ found =>
          rw [hfind] at h
          cases found with
          | none => exact h
          | some f' => simpa using h
    · rw [if_neg hkeep, resolveComponents] at h
      cases h

theorem deleteFile_found {f : Found} {code : ℤ}
    (hfind : (chainfsFindFile s path).2 = some f)
    (hdelete : chainfsDeleteFile s path = .ok (s', code)) : code = 0 := by
  unfold chainfsDeleteFile at hdelete
  cases hfound : chainfsFindFile s path with
  | mk s₁ found =>
      rw [hfound] at hfind hdelete
      simp only at hfind
      subst hfind
      dsimp only at hdelete
      cases hfree : chainfsFreeBlockChain s₁ f.entry.startBlock with
      | none =>
          rw [hfree] at hdelete
          cases hdelete
      | some s₂ =>
          rw [hfree] at hdelete
          cases hdelete
          rfl

/-- In no state and for no path of a directory are both calls rejected. -/
theorem file_calls_take_directories (g : Geometry) (s : ChainFS)
    (path : CString) (hdir : ResolvesToDirectory s path.chars)
    (data : Memory) (size : ℕ) :
    ¬ (Rejects g s (chainfsWriteFile s path.chars data size) ∧
      Rejects g s (chainfsDeleteFile s path.chars)) := by
  rintro ⟨-, s', code, hdelete, hcode, -⟩
  obtain ⟨f, hresolve, -⟩ := hdir
  exact hcode (deleteFile_found (findFile_of_resolves hresolve) hdelete)

/-- A file in the block zero, and a directory. -/
def fileAndDirectory : List FsCall :=
  [.writeFile ⟨[97], noNul_a⟩ (fun _ => 1) 3, .mkdir ⟨[100], noNul_d⟩]

theorem file_calls_take_directories_smallDisk : ∃ s,
    FsRun AnyCall smallDisk (fileAndDirectory.zip [0, 0]) s ∧
      ¬ (Rejects (formatGeometry 20 8) s
          (chainfsWriteFile s [100] (fun _ => 2) 5) ∧
        Rejects (formatGeometry 20 8) s (chainfsDeleteFile s [100])) := by
  have hcodes : (smallDisk.checkRun (fun _ _ _ => true)
      (initHeap unbootedHeap) fileAndDirectory).map
        (fun r => (r.1, decide (ResolvesToDirectory r.2 [100]))) =
      some ([0, 0], true) := by
    decide +kernel
  obtain ⟨codes, s, hrun, heq⟩ := checkRun_any hcodes
  simp only [Prod.mk.injEq, decide_eq_true_eq] at heq
  obtain ⟨rfl, hdir⟩ := heq
  exact ⟨s, hrun, file_calls_take_directories (formatGeometry 20 8) s
    ⟨[100], by decide⟩ hdir (fun _ => 2) 5⟩

/-- Deleting the directory returns zero and frees the block of the file. -/
theorem directory_deleted : ∃ s s',
    FsRun AnyCall smallDisk (fileAndDirectory.zip [0, 0]) s ∧
      ResolvesToDirectory s [100] ∧
      chainfsDeleteFile s [100] = .ok (s', 0) ∧
      mapLink (formatGeometry 20 8) s.disk 0 = chainfsEofMarker ∧
      mapLink (formatGeometry 20 8) s'.disk 0 = 0 := by
  have hcodes : (smallDisk.checkRun (fun _ _ _ => true)
      (initHeap unbootedHeap) fileAndDirectory).map
        (fun r => (r.1, decide (ResolvesToDirectory r.2 [100]),
          mapLink (formatGeometry 20 8) r.2.disk 0,
          (chainfsDeleteFile r.2 [100]).map fun r' =>
            (r'.2, mapLink (formatGeometry 20 8) r'.1.disk 0))) =
      some ([0, 0], true, chainfsEofMarker, .ok (0, 0)) := by
    decide +kernel
  obtain ⟨codes, s, hrun, heq⟩ := checkRun_any hcodes
  simp only [Prod.mk.injEq, decide_eq_true_eq] at heq
  obtain ⟨rfl, hdir, hbefore, hdelete⟩ := heq
  obtain ⟨s', code, hresult, heq⟩ := evaluated_call hdelete
  obtain ⟨rfl, hafter⟩ := Prod.mk.inj heq
  exact ⟨s, s', hrun, hdir, hresult, hbefore, hafter⟩

/-! ## Writes -/

theorem Mounted.resolves_iff (h : Mounted g s) :
    ResolvesToDirectory s path ↔ ∃ t, s.resolve g path = some t ∧
      (t.found s.disk).entry.type = chainfsTypeDir := by
  obtain ⟨m, hresolve⟩ := h.resolvePath_eq path
  unfold ResolvesToDirectory ChainFS.resolve
  rw [hresolve]
  constructor
  · rintro ⟨f, hf, htype⟩
    obtain ⟨t, ht, rfl⟩ := Option.map_eq_some_iff.mp hf
    exact ⟨t, ht, htype⟩
  · rintro ⟨t, ht, htype⟩
    exact ⟨_, by rw [ht]; rfl, htype⟩

theorem find_of_resolve {t : Target} (h : s.resolve g path = some t) :
    s.find g path = some t := by
  unfold ChainFS.find findTable
  by_cases hslash : slash ∈ path
  · rw [if_pos hslash]
    exact h
  · rw [if_neg hslash]
    have hhead : ¬ path.head? = some slash :=
      fun heq => hslash (List.mem_of_head? heq)
    have hsplit := splitPath_noSlash hslash
    simp only [ChainFS.resolve, resolveTable, hhead, and_false, if_false,
      hsplit] at h
    unfold keepComponent at h
    by_cases hkeep : 0 < path.length ∧ path.length < 31
    · rw [if_pos hkeep, List.nil_append, walkTable] at h
      cases hlookup : lookup g s.disk s.currentDirBlock path with
      | none => simp [hlookup] at h
      | some idx => simpa [hlookup] using h
    · rw [if_neg hkeep, walkTable] at h
      cases h

theorem released_zero {freed : List ℕ} {d : ℕ → Memory}
    (hmap : g.map ≠ 0) (h : released g d 0 = some freed) :
    0 ∈ freed ∧ mapLink g d 0 ≠ 0 := by
  have hmapped : g.Mapped 0 := by
    simp only [Geometry.Mapped]
    omega
  have hvisit : ¬ (0 = chainfsEofMarker ∨ g.mapped 0 = false) := by
    rw [← Bool.not_eq_true, Geometry.mapped_iff, not_or, not_not]
    exact ⟨by decide, hmapped⟩
  unfold released at h
  constructor
  · rw [releaseWalk_visit hvisit] at h
    obtain ⟨cs, -, rfl⟩ := Option.map_eq_some_iff.mp h
    exact List.mem_cons_self
  · intro hzero
    rw [releaseWalk_stuck hvisit hzero] at h
    cases h

/-- Without a map nothing is released and no file finds room. -/
theorem released_unmapped {d : ℕ → Memory} (hmap : g.map = 0) (b : ℕ) :
    released g d b = some [] := by
  refine releaseWalk_end (Or.inr ?_)
  rw [← Bool.not_eq_true, Geometry.mapped_iff, Geometry.Mapped, hmap]
  omega

theorem no_room_unmapped (hmap : g.map = 0) (freed : List ℕ) :
    ¬ RoomAfter g s freed size := by
  rintro ⟨-, hroom⟩
  have hpos := (blocksNeeded_bounds size).1
  have hnone : freeBlocksAfter g s.disk freed = [] := by
    apply List.filter_eq_nil_iff.mpr
    intro b _
    simp only [Geometry.Mapped, hmap, decide_eq_true_eq]
    omega
  rw [hnone, List.length_nil] at hroom
  omega

theorem FilesUnchanged.of_disk (h : s'.disk = s.disk) :
    FilesUnchanged g s s' := by
  refine ⟨?_, ?_, ?_⟩
  · intro idx _ off _
    rw [h]
  · intro b _
    rw [h]
  · intro sector _
    rw [h]

section Plans

variable {plan : WritePlan}

theorem DiskInvariant.rejects_given_up (h : DiskInvariant g s)
    (hplan : writePlan g s path = .ok none) :
    Rejects g s (chainfsWriteFile s path data size) := by
  have hresult := h.mounted.writeFile_result h.heap path data size
  generalize hcall : chainfsWriteFile s path data size = r at hresult
  cases hresult with
  | fault fault hp => simp [hp] at hplan
  | rejected s' hp hsame =>
      exact ⟨s', -1, rfl, by decide, FilesUnchanged.of_disk hsame.disk⟩
  | full plan s₁ s' hp => simp [hp] at hplan
  | stored plan s₁ s' hp => simp [hp] at hplan

theorem DiskInvariant.rejects_unmapped (h : DiskInvariant g s)
    (hplan : writePlan g s path = .ok (some plan)) (hmap : g.map = 0) :
    Rejects g s (chainfsWriteFile s path data size) := by
  have hresult := h.mounted.writeFile_result h.heap path data size
  generalize hcall : chainfsWriteFile s path data size = r at hresult
  cases hresult with
  | fault fault hp => simp [hp] at hplan
  | rejected s' hp => simp [hp] at hplan
  | full plan s₁ s' hp hprepared hroom hsame =>
      refine ⟨s', -1, rfl, by decide, ?_⟩
      apply FilesUnchanged.of_disk
      rw [hsame.disk]
      funext sector
      apply hprepared.outside
      simp only [Geometry.dataStart, hmap]
      omega
  | stored plan s₁ s' hp hprepared hroom =>
      exact absurd hroom (no_room_unmapped hmap _)

theorem DiskInvariant.not_rejects_fault (h : DiskInvariant g s)
    {fault : Fault} (hplan : writePlan g s path = .error fault) :
    ¬ Rejects g s (chainfsWriteFile s path data size) := by
  have hresult := h.mounted.writeFile_result h.heap path data size
  rintro ⟨s', code, hwrite, -, -⟩
  rw [hwrite] at hresult
  cases hresult with
  | rejected s' hp => simp [hp] at hplan
  | full plan s₁ s' hp => simp [hp] at hplan
  | stored plan s₁ s' hp => simp [hp] at hplan

/-- Where the block zero was in use and is released, a failed write has freed
it. -/
theorem DiskInvariant.not_rejects_released (h : DiskInvariant g s)
    (hplan : writePlan g s path = .ok (some plan)) (hmap : g.map ≠ 0)
    (hfreed : released g s.disk 0 = some plan.freed) :
    ¬ Rejects g s (chainfsWriteFile s path data size) := by
  have hresult := h.mounted.writeFile_result h.heap path data size
  obtain ⟨hmem, hused⟩ := released_zero hmap hfreed
  rintro ⟨s', code, hwrite, hcode, hsame⟩
  rw [hwrite] at hresult
  cases hresult with
  | rejected s' hp => simp [hp] at hplan
  | full plan s₁ s' hp hprepared hroom hunchanged =>
      rw [hp] at hplan
      cases hplan
      have hzero := hsame.map 0 (by simp only [Geometry.Mapped]; omega)
      rw [hunchanged.disk, hprepared.links, unlinkAll_mem hmem] at hzero
      exact hused hzero.symm
  | stored plan s₁ s' hp => exact hcode rfl

end Plans

/-- A write is rejected on a directory only where it gives up before looking
at the blocks, or where there are none. -/
theorem DiskInvariant.rejects_write_iff {t : Target} (h : DiskInvariant g s)
    (hresolve : s.resolve g path = some t)
    (htype : (t.found s.disk).entry.type = chainfsTypeDir) :
    Rejects g s (chainfsWriteFile s path data size) ↔
      ∃ parent name, splitParent path = .ok (parent, name) ∧
        (writeParentId g s.disk s.currentDirBlock parent = none ∨
          g.map = 0) := by
  obtain ⟨idx, -, hstart⟩ := h.directory_slot hresolve htype
  have hplan := writePlan.eq_def g s path
  simp only [find_of_resolve hresolve, hstart] at hplan
  cases hsplit : splitParent path with
  | error fault =>
      rw [hsplit] at hplan
      refine iff_of_false (h.not_rejects_fault hplan) ?_
      simp
  | ok split =>
      obtain ⟨parent, name⟩ := split
      rw [hsplit] at hplan
      dsimp only at hplan
      have hparent : (∃ p n, Except.ok (parent, name) =
          (Except.ok (p, n) : Except Fault _) ∧
            (writeParentId g s.disk s.currentDirBlock p = none ∨
              g.map = 0)) ↔
          (writeParentId g s.disk s.currentDirBlock parent = none ∨
            g.map = 0) := by
        constructor
        · rintro ⟨p, n, heq, hor⟩
          cases heq
          exact hor
        · exact fun hor => ⟨parent, name, rfl, hor⟩
      rw [hparent]
      cases hid : writeParentId g s.disk s.currentDirBlock parent with
      | none =>
          rw [hid] at hplan
          exact iff_of_true (h.rejects_given_up hplan) (Or.inl rfl)
      | some parentBlock =>
          rw [hid] at hplan
          dsimp only at hplan
          by_cases hmap : g.map = 0
          · rw [released_unmapped hmap] at hplan
            exact iff_of_true (h.rejects_unmapped hplan hmap) (Or.inr hmap)
          · refine iff_of_false ?_ (by simp [hmap])
            cases hfreed : released g s.disk 0 with
            | none =>
                rw [hfreed] at hplan
                exact h.not_rejects_fault hplan
            | some freed =>
                rw [hfreed] at hplan
                exact h.not_rejects_released hplan hmap hfreed

end Otsos
