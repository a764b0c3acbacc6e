import Otsos.Lib.UniqueKeys
import Otsos.ChainFS.Paths
import Otsos.ChainFS.StoredNames

/-!
# Names within a directory

The calls look for an existing entry under the parent and the name that the
path gives, and store the entry under a parent found another way and a name cut
to 29 or 30 characters.  The names of a directory stay distinct exactly as long
as what is stored is not there already.
-/

namespace Otsos

open Lib

variable {g : Geometry} {s s' s₀ : ChainFS} {d d' : ℕ → Memory}
  {dir idx j parent size : ℕ} {name c : List UInt8} {e : TableEdit}
  {call : FsCall} {code : ℤ} {hist : List (FsCall × ℤ)}

/-- What tells the entries of the table apart. -/
def entryKey (d : ℕ → Memory) (idx : ℕ) : ℕ × List UInt8 :=
  (parentOf d idx, (entryOf d idx).cname)

/-- No two live entries have the same `parent_block` and the same name. -/
def NamesUnique (g : Geometry) (d : ℕ → Memory) : Prop :=
  UniqueKeys (LiveEntry g d) (entryKey d)

/-- The lookup of what is going to be stored finds nothing, or the entry that
is written over. -/
def TableEdit.Unclaimed (g : Geometry) (d : ℕ → Memory) : TableEdit → Prop
  | .file idx name _ parent =>
      ∀ j, lookup g d parent (name.take 29) = some j → j = idx
  | .directory _ name parent => lookup g d parent (name.take 30) = none
  | .clear _ => True

/-- If the call gets as far as storing an entry: under the number and the cut
name that it stores nothing is found, or only what a write finds by its path. -/
def StoresUnclaimed (g : Geometry) (s : ChainFS) (call : FsCall) : Prop :=
  (∃ e, Planned g s call e) →
    match call with
    | .writeFile path _ _ =>
        ∀ p name, StoredUnder g s path.chars p name →
          ∀ j, lookup g s.disk p (name.take 29) = some j →
            s.find g path.chars = some (.slot j)
    | .mkdir path =>
        ∀ p name, StoredUnder g s path.chars p name →
          lookup g s.disk p (name.take 30) = none
    | _ => True

/-- The calls of a run in which every step does so. -/
def UnclaimedCall (g : Geometry) : StepCondition := fun s call code =>
  UnwrappedCall g s call code ∧ StoresUnclaimed g s call

/-! ## What a lookup finds -/

theorem NamesTerminated.slotMatches_iff (h : NamesTerminated g d)
    (hj : j < g.slots) (hnul : 0 ∉ c) :
    testSlot (slotMatches dir c) d j = true ↔
      LiveEntry g d j ∧ entryKey d j = (dir, c) := by
  simp only [testSlot, slotMatches, Bool.and_eq_true, beq_iff_eq, entryKey,
    Prod.mk.injEq]
  constructor
  · rintro ⟨⟨hone, hparent⟩, hname⟩
    have hself := (h j hj hone).strcmpEq_cname
    exact ⟨⟨hj, hone⟩, hparent,
      strcmpEq_unique (cname_no_nul _) hnul hself hname⟩
  · rintro ⟨⟨-, hone⟩, hparent, rfl⟩
    exact ⟨⟨hone, hparent⟩, (h j hj hone).strcmpEq_cname⟩

theorem NamesTerminated.lookup_key (h : NamesTerminated g d) (hnul : 0 ∉ c)
    (hlookup : lookup g d dir c = some j) :
    LiveEntry g d j ∧ entryKey d j = (dir, c) := by
  obtain ⟨hj, htest, -⟩ := firstSlot_some hlookup
  exact (h.slotMatches_iff hj hnul).mp htest

theorem NamesTerminated.lookup_none_iff (h : NamesTerminated g d)
    (hnul : 0 ∉ c) :
    lookup g d dir c = none ↔
      ∀ j, LiveEntry g d j → entryKey d j ≠ (dir, c) := by
  refine firstSlot_none.trans ⟨?_, ?_⟩
  · intro hnone j hlive hkey
    have htest := (h.slotMatches_iff hlive.1 hnul).mpr ⟨hlive, hkey⟩
    rw [hnone j hlive.1] at htest
    cases htest
  · intro hfresh j hj
    rw [← Bool.not_eq_true, h.slotMatches_iff hj hnul]
    exact fun hboth => hfresh j hboth.1 hboth.2

/-- Where names are unique a lookup finds whatever is there. -/
theorem NamesUnique.lookup_iff (h : NamesUnique g d)
    (hterm : NamesTerminated g d) (hnul : 0 ∉ c) :
    lookup g d dir c = some j ↔
      LiveEntry g d j ∧ entryKey d j = (dir, c) := by
  refine ⟨hterm.lookup_key hnul, ?_⟩
  rintro ⟨hlive, hkey⟩
  cases hlookup : lookup g d dir c with
  | none =>
      exact absurd hkey ((hterm.lookup_none_iff hnul).mp hlookup j hlive)
  | some k =>
      obtain ⟨hlivek, hkeyk⟩ := hterm.lookup_key hnul hlookup
      rw [h k j hlivek hlive (hkeyk.trans hkey.symm)]

/-! ## Edits -/

theorem Edited.file_key
    (h : Edited g d d' (.file idx name size parent)) (hnul : 0 ∉ name)
    (hparent : parent < 2 ^ 32) :
    LiveEntry g d' idx ∧ entryKey d' idx = (parent, name.take 29) := by
  obtain ⟨hone, -, hparentOf⟩ := h.file_fields hparent
  obtain ⟨m, start, hentry⟩ := h.entryOf_eq
  refine ⟨⟨h.inside, hone⟩, Prod.ext hparentOf ?_⟩
  show (entryOf d' idx).cname = name.take 29
  rw [show entryOf d' idx = entryAt (setFileEntry m (idx % 8) name size start
    parent) (idx % 8) from hentry]
  exact setFileEntry_cname hnul

theorem Edited.directory_key
    (h : Edited g d d' (.directory idx name parent)) (hnul : 0 ∉ name)
    (hparent : parent < 2 ^ 32) :
    LiveEntry g d' idx ∧ entryKey d' idx = (parent, name.take 30) := by
  obtain ⟨hone, -, hparentOf⟩ := h.directory_fields hparent
  obtain ⟨m, start, hentry⟩ := h.entryOf_eq
  refine ⟨⟨h.inside, hone⟩, Prod.ext hparentOf ?_⟩
  show (entryOf d' idx).cname = name.take 30
  rw [show entryOf d' idx = entryAt (setDirEntry m (idx % 8) name parent)
    (idx % 8) from hentry]
  exact setDirEntry_cname hnul

theorem NamesUnique.change_iff (h : NamesUnique g d)
    (hedited : Edited g d d' e) :
    NamesUnique g d' ↔ (LiveEntry g d' e.slot →
      ∀ j, j ≠ e.slot → LiveEntry g d j →
        entryKey d j ≠ entryKey d' e.slot) := by
  refine UniqueKeys.change_iff h ?_ ?_
  · intro j hne
    by_cases hj : j < g.slots
    · exact LiveEntry.congr (hedited.other j hj hne).entryOf_eq
    · simp [LiveEntry, hj]
  · intro j hne hlive
    simp only [entryKey, parentOf, (hedited.other j hlive.1 hne).entryOf_eq]

/-- What holds in every run, and the property. -/
structure NamesInvariant (g : Geometry) (s : ChainFS) : Prop where
  disk : DiskInvariant g s
  current : s.currentDirBlock < 2 ^ 32
  terminated : NamesTerminated g s.disk
  unique : NamesUnique g s.disk

theorem NamesInvariant.edited (h : NamesInvariant g s)
    (hplanned : Planned g s call e) (hedited : Edited g s.disk s'.disk e) :
    NamesUnique g s'.disk ↔ e.Unclaimed g s.disk := by
  rw [h.unique.change_iff hedited]
  cases e with
  | clear idx =>
      exact iff_of_true (fun hlive => absurd hlive hedited.clear_dead) trivial
  | file idx name size parent =>
      obtain ⟨path, data, plan, -, hplan, -, -, rfl, rfl⟩ :=
        hplanned.file_inv
      obtain ⟨p, hsplit, hparent, -⟩ := writePlan_some hplan
      have hnul := splitParent_no_nul path.terminated hsplit
      have hcut : 0 ∉ plan.fileName.take 29 :=
        fun hmem => hnul (List.mem_of_mem_take hmem)
      obtain ⟨hlive, hkey⟩ := hedited.file_key hnul
        (parentId_lt h.current (Or.inl hparent))
      rw [show entryKey s'.disk (TableEdit.file idx plan.fileName size
        plan.parent).slot = _ from hkey]
      constructor
      · intro hfresh j hlookup
        obtain ⟨hlivej, hkeyj⟩ := h.terminated.lookup_key hcut hlookup
        by_contra hne
        exact hfresh hlive j hne hlivej hkeyj
      · intro hclaimed _ j hne hlivej hkeyj
        exact hne (hclaimed j ((h.unique.lookup_iff h.terminated hcut).mpr
          ⟨hlivej, hkeyj⟩))
  | directory idx name parent =>
      obtain ⟨path, plan, -, hplan, rfl, rfl, rfl⟩ := hplanned.directory_inv
      obtain ⟨p, hsplit, hparent, -, hfree⟩ := mkdirPlan_some hplan
      have hnul := splitParent_no_nul path.terminated hsplit
      have hcut : 0 ∉ plan.dirName.take 30 :=
        fun hmem => hnul (List.mem_of_mem_take hmem)
      obtain ⟨hlive, hkey⟩ := hedited.directory_key hnul
        (parentId_lt h.current (Or.inr hparent))
      rw [show entryKey s'.disk (TableEdit.directory plan.slot plan.dirName
        plan.parent).slot = _ from hkey]
      refine Iff.trans ?_ (h.terminated.lookup_none_iff hcut).symm
      constructor
      · intro hfresh j hlivej
        refine hfresh hlive j ?_ hlivej
        rintro rfl
        exact not_liveEntry_of_free hfree hlivej
      · exact fun hfresh _ j _ hlivej => hfresh j hlivej

/-- The condition on a write, for the entry that it stores. -/
theorem DiskInvariant.write_unclaimed_iff {plan : WritePlan}
    {path : List UInt8} (h : DiskInvariant g s)
    (hplan : writePlan g s path = .ok (some plan))
    (hslot : plan.target = .slot idx) :
    (∀ p name, StoredUnder g s path p name →
        ∀ j, lookup g s.disk p (name.take 29) = some j →
          s.find g path = some (.slot j)) ↔
      ∀ j, lookup g s.disk plan.parent (plan.fileName.take 29) = some j →
        j = idx := by
  obtain ⟨parent, hsplit, hparent, hfound⟩ := writePlan_some hplan
  rw [hslot] at hfound
  have htarget : ∀ j, LiveEntry g s.disk j →
      (s.find g path = some (.slot j) ↔ j = idx) := by
    intro j hlive
    rcases hfound with ⟨hfind, -⟩ | ⟨hfind, -, k, hfree, hk⟩
    · rw [hfind, Option.some.injEq, Target.slot.injEq, eq_comm]
    · cases hk
      rw [hfind]
      refine iff_of_false (by simp) ?_
      rintro rfl
      exact not_liveEntry_of_free hfree hlive
  have hlive : ∀ {p c j}, lookup g s.disk p c = some j →
      LiveEntry g s.disk j :=
    fun hj => ⟨(lookup_some hj).1, (lookup_some hj).2.1⟩
  constructor
  · intro hall j hj
    exact (htarget j (hlive hj)).mp (hall _ _
      ((h.storedUnder_iff hsplit (Or.inl hparent)).mpr ⟨rfl, rfl⟩) j hj)
  · intro hall p name hstored j hj
    obtain ⟨rfl, rfl⟩ :=
      (h.storedUnder_iff hsplit (Or.inl hparent)).mp hstored
    exact (htarget j (hlive hj)).mpr (hall j hj)

theorem DiskInvariant.storesUnclaimed_iff (h : DiskInvariant g s)
    (hplanned : Planned g s call e) :
    StoresUnclaimed g s call ↔ e.Unclaimed g s.disk := by
  refine (forall_prop_of_true ⟨e, hplanned⟩).trans ?_
  cases call with
  | writeFile path data size =>
      obtain ⟨plan, idx, hplan, -, hslot, rfl⟩ := hplanned
      exact h.write_unclaimed_iff hplan hslot
  | mkdir path =>
      obtain ⟨plan, hplan, rfl⟩ := hplanned
      obtain ⟨parent, hsplit, hparent, -⟩ := mkdirPlan_some hplan
      constructor
      · exact fun hall => hall _ _
          ((h.storedUnder_iff hsplit (Or.inr hparent)).mpr ⟨rfl, rfl⟩)
      · intro hnone p name hunder
        obtain ⟨rfl, rfl⟩ :=
          (h.storedUnder_iff hsplit (Or.inr hparent)).mp hunder
        exact hnone
  | deleteFile path =>
      obtain ⟨idx, -, -, rfl⟩ := hplanned
      exact iff_of_true trivial trivial
  | rmdir path =>
      obtain ⟨idx, -, rfl⟩ := hplanned
      exact iff_of_true trivial trivial
  | readFile path buffer n => exact absurd hplanned id
  | chdir path => exact absurd hplanned id
  | listDir path n => exact absurd hplanned id
  | init => exact absurd hplanned id

theorem NamesInvariant.step (h : NamesInvariant g s)
    (hcall : UnwrappedCall g s call code)
    (hexec : s.exec call = .ok (s', code)) :
    NamesUnique g s'.disk ↔ StoresUnclaimed g s call := by
  cases h.disk.tableStep hcall hexec with
  | edited e hplanned hedited =>
      exact (h.edited hplanned hedited).trans
        (h.disk.storesUnclaimed_iff hplanned).symm
  | same hnone hsame =>
      refine iff_of_true ?_ fun ⟨e, hplanned⟩ => absurd hplanned (hnone e)
      refine h.unique.congr ?_ ?_
      · intro j
        by_cases hj : j < g.slots
        · exact LiveEntry.congr (hsame j hj).entryOf_eq
        · simp [LiveEntry, hj]
      · intro j hlive
        simp only [entryKey, parentOf, (hsame j hlive.1).entryOf_eq]

theorem NamesInvariant.withHeap {heap : Heap} (h : NamesInvariant g s)
    (hready : HeapReady heap) : NamesInvariant g { s with heap := heap } :=
  ⟨h.disk.withHeap hready, h.current, h.terminated, h.unique⟩

theorem NamesInvariant.kept (h : NamesInvariant g s)
    (hcall : UnclaimedCall g s call code)
    (hexec : s.exec call = .ok (s', code)) : NamesInvariant g s' := by
  obtain ⟨hwrap, hunclaimed⟩ := hcall
  exact ⟨h.disk.step hwrap hexec, h.disk.current_step h.current hexec,
    h.terminated.step h.disk hwrap hexec, (h.step hwrap hexec).mpr hunclaimed⟩

theorem NamesInvariant.run (h : NamesInvariant g s₀)
    (hrun : FsRun (UnclaimedCall g) s₀ hist s) : NamesInvariant g s := by
  refine hrun.invariant h ?_ ?_
  · intro s heap hs hready
    exact hs.withHeap hready
  · intro s call s' code hs _ hcall hexec
    exact hs.kept hcall hexec

theorem Formatted.namesInvariant {totalBlocks maxFiles : ℕ}
    (h : Formatted totalBlocks maxFiles s) :
    NamesInvariant (formatGeometry totalBlocks maxFiles) s := by
  obtain ⟨-, -, -, hcurrent, -⟩ := h.fresh
  refine ⟨h.diskInvariant, ?_, h.namesTerminated, ?_⟩
  · rw [hcurrent]
    exact Nat.two_pow_pos 32
  · intro i j hi hj _
    rw [h.live_root hi, h.live_root hj]

/-- The names are unique as long as no call stores what is there already, and
the next call leaves them unique exactly if it does not. -/
theorem names_unique {totalBlocks maxFiles : ℕ}
    (hformat : Formatted totalBlocks maxFiles s₀)
    (hrun : FsRun (UnclaimedCall (formatGeometry totalBlocks maxFiles)) s₀
      hist s) :
    NamesUnique (formatGeometry totalBlocks maxFiles) s.disk ∧
      ∀ heap call s' code, HeapReady heap →
        UnwrappedCall (formatGeometry totalBlocks maxFiles)
          { s with heap := heap } call code →
        { s with heap := heap }.exec call = .ok (s', code) →
          (NamesUnique (formatGeometry totalBlocks maxFiles) s'.disk ↔
            StoresUnclaimed (formatGeometry totalBlocks maxFiles)
              { s with heap := heap } call) := by
  have hinv := hformat.namesInvariant.run hrun
  refine ⟨hinv.unique, ?_⟩
  intro heap call s' code hready hcall hexec
  exact (hinv.withHeap hready).step hcall hexec

/-! ## Calls that meet the condition -/

theorem DiskInvariant.storesUnclaimed_of (h : DiskInvariant g s)
    (hall : ∀ e, Planned g s call e → e.Unclaimed g s.disk) :
    StoresUnclaimed g s call := by
  intro hplans
  obtain ⟨e, hplanned⟩ := hplans
  exact (h.storesUnclaimed_iff hplanned).mpr (hall e hplanned) ⟨e, hplanned⟩

/-- `chainfs_mkdir` looks for what it stores, but for the 31st character. -/
theorem DiskInvariant.storesUnclaimed_mkdir {path : CString}
    (h : DiskInvariant g s)
    (hshort : ∀ parent name, splitParent path.chars = .ok (parent, name) →
      name.length ≤ 30) : StoresUnclaimed g s (.mkdir path) := by
  apply h.storesUnclaimed_of
  rintro e ⟨plan, hplan, rfl⟩
  obtain ⟨parent, hsplit, -, hlookup, -⟩ := mkdirPlan_some hplan
  show lookup g s.disk plan.parent (plan.dirName.take 30) = none
  rw [List.take_of_length_le (hshort parent _ hsplit)]
  exact hlookup

/-- So does a write into the current directory, for names that it does not
cut. -/
theorem DiskInvariant.storesUnclaimed_write {path : CString} {data : Memory}
    (h : DiskInvariant g s) (hslash : slash ∉ path.chars)
    (hshort : path.chars.length ≤ 29) :
    StoresUnclaimed g s (.writeFile path data size) := by
  apply h.storesUnclaimed_of
  rintro e ⟨plan, idx, hplan, -, hslot, rfl⟩ j hj
  obtain ⟨parent, hsplit, hparent, hfound⟩ := writePlan_some hplan
  rw [splitParent_current hslash, copyName, if_pos (by omega)] at hsplit
  obtain ⟨rfl, hname⟩ := Prod.mk.inj (Except.ok.inj hsplit)
  have hparent := Option.some.inj hparent
  rw [← hname, ← hparent, List.take_of_length_le hshort] at hj
  have hfind : s.find g path.chars = some (.slot j) := by
    rw [ChainFS.find, findTable, if_neg hslash, hj]
    rfl
  rcases hfound with ⟨hsame, -⟩ | ⟨hnone, -⟩
  · rw [hsame, hslot] at hfind
    cases hfind
    rfl
  · rw [hnone] at hfind
    cases hfind

/-- A file written over under its own name. -/
theorem names_unique_smallDisk : ∃ s s',
    FsRun (UnclaimedCall (formatGeometry 20 8)) smallDisk
      [(.writeFile ⟨[120], by decide⟩ (fun _ => 1) 3, 0)] s ∧
      NamesUnique (formatGeometry 20 8) s.disk ∧
      s.exec (.writeFile ⟨[120], by decide⟩ (fun _ => 2) 600) = .ok (s', 0) ∧
      NamesUnique (formatGeometry 20 8) s'.disk := by
  have hcodes : ({ smallDisk with heap := initHeap unbootedHeap }.exec
      (.writeFile ⟨[120], by decide⟩ (fun _ => 1) 3)).map
        (fun r : ChainFS × ℤ => (r.2, decide ((r.1.exec (.writeFile
          ⟨[120], by decide⟩ (fun _ => 2) 600)).map Prod.snd = Except.ok 0))) =
      .ok (0, true) := by
    decide +kernel
  obtain ⟨s, code, hfirst, heq⟩ := evaluated_call hcodes
  simp only [Prod.mk.injEq, decide_eq_true_eq] at heq
  obtain ⟨rfl, hwrite⟩ := heq
  obtain ⟨s', code, hexec, rfl⟩ := evaluated_call hwrite
  have hinv := smallDisk_formatted.diskInvariant
  have hrun : FsRun (UnclaimedCall (formatGeometry 20 8)) smallDisk
      [(.writeFile ⟨[120], by decide⟩ (fun _ => 1) 3, 0)] s :=
    FsRun.start.step blankDrive_ready ⟨smallDisk_noWrap.unwrappedCall _ _ _,
      (hinv.withHeap blankDrive_ready).storesUnclaimed_write (by decide)
        (by decide)⟩ hfirst
  obtain ⟨hunique, hnext⟩ := names_unique smallDisk_formatted hrun
  have hlater := hinv.run (hrun.weaken fun _ _ _ h => h.1)
  exact ⟨s, s', hrun, hunique, hexec, (hnext s.heap _ s' 0 hlater.heap
    (smallDisk_noWrap.unwrappedCall _ _ _) hexec).mpr
      (hlater.storesUnclaimed_write (by decide) (by decide))⟩

/-- A write of a name of 30 characters, made twice: the second one looks for
all of them and finds nothing. -/
theorem write_twice : ∃ s,
    FsRun AnyCall smallDisk
      ((List.replicate 2 (FsCall.writeFile ⟨List.replicate 30 97, by decide⟩
        (fun _ => 1) 3)).zip [0, 0]) s ∧
      ¬ NamesUnique (formatGeometry 20 8) s.disk := by
  have hcodes : (smallDisk.checkRun (fun _ _ _ => true)
      (initHeap unbootedHeap)
      (List.replicate 2 (FsCall.writeFile ⟨List.replicate 30 97, by decide⟩
        (fun _ => 1) 3))).map
        (fun r => (r.1, (entryOf r.2.disk 1).status,
          (entryOf r.2.disk 2).status,
          decide (entryKey r.2.disk 1 = entryKey r.2.disk 2))) =
      some ([0, 0], 1, 1, true) := by
    decide +kernel
  obtain ⟨codes, s, hrun, heq⟩ := checkRun_any hcodes
  simp only [Prod.mk.injEq, decide_eq_true_eq] at heq
  obtain ⟨rfl, hfirst, hsecond, hkeys⟩ := heq
  refine ⟨s, hrun, ?_⟩
  intro hunique
  have heq := hunique 1 2 ⟨by decide, hfirst⟩ ⟨by decide, hsecond⟩ hkeys
  omega

end Otsos
