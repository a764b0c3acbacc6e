import Otsos.ChainFS.DirectoryTargets
import Otsos.ChainFS.StoredNames

/-!
# Listings and removals

A directory has two numbers: the index of its entry, under which the lookup and
the current directory know it, and the sector of its entry, by which
`chainfs_list_dir` selects.  The two agree for the entry 1 only.  A listing by
path, and the test of `chainfs_rmdir` that relies on it, see the children that
were stored under the sector.
-/

namespace Otsos

open Lib

variable {g : Geometry} {s s' s₀ : ChainFS} {d : ℕ → Memory}
  {path : List UInt8} {idx j : ℕ} {hist : List (FsCall × ℤ)}

/-! ## Removing a directory -/

/-- No live entry has the index as its parent. -/
def Childless (g : Geometry) (d : ℕ → Memory) (idx : ℕ) : Prop :=
  ∀ j, LiveEntry g d j → parentOf d j ≠ idx

/-- Only the status byte of the entry has changed, to zero. -/
def StatusCleared (d d' : ℕ → Memory) (idx : ℕ) : Prop :=
  ∀ sector x, d' sector x =
    if sector = 1 + idx / 8 ∧ x = sizeofFileEntry * (idx % 8) then 0
    else d sector x

/-- If the call returns zero then the directory was empty and nothing else is
lost. -/
def RmdirSafe (g : Geometry) (s : ChainFS) (path : List UInt8) : Prop :=
  ∀ s', chainfsRmdir s path = (s', 0) →
    ∃ idx, s.resolve g path = some (.slot idx) ∧ Childless g s.disk idx ∧
      StatusCleared s.disk s'.disk idx

/-- If the directory has no child stored under its sector then it has none
stored under its index. -/
def ChildrenSeen (g : Geometry) (s : ChainFS) (path : List UInt8) : Prop :=
  ∀ idx, s.resolve g path = some (.slot idx) →
    (entryOf s.disk idx).type = chainfsTypeDir →
    SectorChildless g s.disk idx → Childless g s.disk idx

theorem statusCleared_editSlot :
    StatusCleared d (editSlot d idx fun m i => setStatus m i 0) idx := by
  intro sector x
  by_cases hsector : sector = 1 + idx / 8
  · subst hsector
    rw [editSlot, Function.update_self]
    by_cases hx : x = sizeofFileEntry * (idx % 8)
    · rw [if_pos ⟨rfl, hx⟩, hx]
      exact Memory.set_same _ _ _
    · rw [if_neg (fun hboth => hx hboth.2)]
      exact Memory.set_other _ _ hx
  · rw [if_neg (fun hboth => hsector hboth.1)]
    exact congrFun (editSlot_sector hsector) x

theorem DiskInvariant.rmdirSafe_iff (h : DiskInvariant g s) :
    RmdirSafe g s path ↔ ChildrenSeen g s path := by
  have hresult := h.mounted.rmdir_result h.heap path
  generalize hcall : chainfsRmdir s path = r at hresult
  constructor
  · intro hsafe idx hresolve hdir hempty
    cases hresult with
    | rejected s' hnone hsame =>
        exact absurd ⟨hresolve, hdir, hempty⟩ (hnone idx)
    | removed idx' s' htarget hcontrol hheap hdisk =>
        obtain ⟨j, hj, hchildless, -⟩ := hsafe s' hcall
        rw [hresolve] at hj
        cases hj
        exact hchildless
  · intro hseen s' hreturn
    rw [hcall] at hreturn
    subst hreturn
    cases hresult with
    | removed idx s' htarget hcontrol hheap hdisk =>
        obtain ⟨hresolve, hdir, hempty⟩ := htarget
        refine ⟨idx, hresolve, hseen idx hresolve hdir hempty, ?_⟩
        rw [hdisk]
        exact statusCleared_editSlot

/-- `chainfs_rmdir` removes only empty directories exactly where its test sees
the children. -/
theorem rmdir_safe_iff {totalBlocks maxFiles : ℕ}
    (hformat : Formatted totalBlocks maxFiles s₀)
    (hrun : FsRun (UnwrappedCall (formatGeometry totalBlocks maxFiles)) s₀
      hist s) (path : CString) :
    RmdirSafe (formatGeometry totalBlocks maxFiles) s path.chars ↔
      ChildrenSeen (formatGeometry totalBlocks maxFiles) s path.chars :=
  (hformat.diskInvariant.run hrun).rmdirSafe_iff

/-- The directory of the slot 1 is removed, empty as it is. -/
theorem rmdir_safe_iff_smallDisk : ∃ hist s s',
    FsRun (UnwrappedCall (formatGeometry 20 8)) smallDisk hist s ∧
      hist.map Prod.snd = [0] ∧ chainfsRmdir s [97] = (s', 0) ∧
      Childless (formatGeometry 20 8) s.disk 1 ∧
      StatusCleared s.disk s'.disk 1 := by
  have hcodes : (smallDisk.checkRun (fun _ _ _ => true)
      (initHeap unbootedHeap) [.mkdir ⟨[97], by decide⟩]).map
        (fun r => (r.1, r.2.resolve (formatGeometry 20 8) [97],
          (chainfsRmdir r.2 [97]).2)) = some ([0], some (.slot 1), 0) := by
    decide +kernel
  obtain ⟨codes, s, hrun, heq⟩ := smallDisk_run hcodes
  simp only [Prod.mk.injEq] at heq
  obtain ⟨rfl, hresolve, hzero⟩ := heq
  have hseen : ChildrenSeen (formatGeometry 20 8) s [97] := by
    intro idx hidx _ hempty
    rw [hresolve] at hidx
    cases hidx
    exact fun j hlive => hempty j hlive.1 hlive.2
  have hreturn : chainfsRmdir s [97] = ((chainfsRmdir s [97]).1, 0) :=
    Prod.ext rfl hzero
  obtain ⟨idx, hidx, hchildless, hcleared⟩ :=
    (rmdir_safe_iff smallDisk_formatted hrun ⟨[97], by decide⟩).mpr hseen _
      hreturn
  rw [show s.resolve (formatGeometry 20 8) [97] = some (.slot idx) from hidx]
    at hresolve
  cases hresolve
  exact ⟨_, s, _, hrun, rfl, hreturn, hchildless, hcleared⟩

/-- Two directories, a file made in the current one of the slot 2. -/
def fileInSecond : List FsCall :=
  [.mkdir ⟨[97], noNul_a⟩, .mkdir ⟨[98], noNul_b⟩, .chdir ⟨[98], noNul_b⟩,
    .writeFile ⟨[120], noNul_x⟩ (fun _ => 1) 3]

/-- A file made inside the directory `b` of the slot 2; `/b` is removed all
the same. -/
theorem rmdir_not_empty : ∃ s,
    FsRun AnyCall smallDisk (fileInSecond.zip [0, 0, 0, 0]) s ∧
      ¬ RmdirSafe (formatGeometry 20 8) s [47, 98] := by
  have hcodes : (smallDisk.checkRun (fun _ _ _ => true)
      (initHeap unbootedHeap) fileInSecond).map
          (fun r => (r.1, (chainfsRmdir r.2 [47, 98]).2,
            r.2.resolve (formatGeometry 20 8) [47, 98],
            (entryOf r.2.disk 3).status, parentOf r.2.disk 3)) =
      some ([0, 0, 0, 0], 0, some (.slot 2), 1, 2) := by
    decide +kernel
  obtain ⟨codes, s, hrun, heq⟩ := checkRun_any hcodes
  simp only [Prod.mk.injEq] at heq
  obtain ⟨rfl, hzero, hresolve, hstatus, hparent⟩ := heq
  refine ⟨s, hrun, ?_⟩
  intro hsafe
  obtain ⟨idx, hidx, hchildless, -⟩ :=
    hsafe (chainfsRmdir s [47, 98]).1 (Prod.ext rfl hzero)
  rw [hresolve] at hidx
  cases hidx
  exact hchildless 3 ⟨by decide, hstatus⟩ hparent

/-! ## Listing a directory -/

/-- The live entry in the slot is found by its name in the directory: the
lookup gives an entry of the same parent. -/
def foundIn (g : Geometry) (d : ℕ → Memory) (idx j : ℕ) : Bool :=
  (entryOf d j).status == 1 &&
    (lookup g d idx (entryOf d j).cname).any fun k =>
      parentOf d k == parentOf d j

/-- The entries found by their names, in the order of the table. -/
def foundEntries (g : Geometry) (d : ℕ → Memory) (idx : ℕ) :
    List FileEntry :=
  ((List.range g.slots).filter (foundIn g d idx)).map (entryOf d)

/-- The listing by path shows what the lookup finds, and so does the listing of
the current directory after `chainfs_chdir`. -/
structure ListingAgrees (g : Geometry) (s : ChainFS) (path : List UInt8)
    (maxFiles : ℕ) : Prop where
  found : ∃ idx, s.resolve g path = some (.slot idx) ∧
    (chainfsListDir s path maxFiles).2 = some (foundEntries g s.disk idx)
  current : (chainfsListDir (chainfsChdir s path).1 [] maxFiles).2 =
    (chainfsListDir s path maxFiles).2

/-- The directory is the entry 1, or has no children under either number. -/
def NumbersAgree (g : Geometry) (s : ChainFS) (path : List UInt8) : Prop :=
  ∀ idx, s.resolve g path = some (.slot idx) →
    idx = 1 ∨ (Childless g s.disk idx ∧ SectorChildless g s.disk idx)

theorem NamesTerminated.lookup_self (h : NamesTerminated g d)
    (hj : j < g.slots) (hone : (entryOf d j).status = 1) :
    (lookup g d (parentOf d j) (entryOf d j).cname).isSome := by
  rw [Option.isSome_iff_ne_none]
  intro hnone
  have hfalse := firstSlot_none.mp hnone j hj
  have hname := (h j hj hone).strcmpEq_cname
  have hstatus : d (1 + j / 8) (sizeofFileEntry * (j % 8)) = 1 := hone
  simp only [testSlot, slotMatches, hstatus, beq_self_eq_true, Bool.true_and]
    at hfalse
  rw [show strcmpEq (d (1 + j / 8)) (sizeofFileEntry * (j % 8) + 2)
      (entryOf d j).cname =
    true from hname, Bool.and_true, beq_eq_false_iff_ne] at hfalse
  exact hfalse rfl

/-- What is found by name are the children stored under the index. -/
theorem NamesTerminated.foundIn_iff (h : NamesTerminated g d)
    (hj : j < g.slots) :
    foundIn g d idx j = testSlot (slotListed idx) d j := by
  rw [Bool.eq_iff_iff, slotListed_iff, foundIn, Bool.and_eq_true, beq_iff_eq]
  constructor
  · rintro ⟨hone, hfound⟩
    obtain ⟨k, hk, heq⟩ := (Option.any_eq_true _ _).mp hfound
    have hparent := (lookup_some hk).2.2
    rw [beq_iff_eq] at heq
    exact ⟨hone, heq.symm.trans hparent⟩
  · rintro ⟨hone, rfl⟩
    refine ⟨hone, ?_⟩
    obtain ⟨k, hk⟩ := Option.isSome_iff_exists.mp (h.lookup_self hj hone)
    refine (Option.any_eq_true _ _).mpr ⟨k, hk, ?_⟩
    rw [beq_iff_eq]
    exact (lookup_some hk).2.2

theorem NamesTerminated.foundEntries_eq (h : NamesTerminated g d) :
    foundEntries g d idx = dirEntries g d idx := by
  unfold foundEntries dirEntries
  congr 1
  apply List.filter_congr
  intro j hj
  exact h.foundIn_iff (List.mem_range.mp hj)

theorem dirEntries_length (dirBlock : ℕ) :
    (dirEntries g d dirBlock).length ≤ g.slots := by
  have hle := List.length_filter_le (testSlot (slotListed dirBlock) d)
    (List.range g.slots)
  simpa [dirEntries] using hle

theorem childless_iff : Childless g d idx ↔ dirEntries g d idx = [] := by
  rw [List.eq_nil_iff_forall_not_mem]
  constructor
  · rintro hall e hmem
    obtain ⟨j, hj, hone, hparent, -⟩ := mem_dirEntries.mp hmem
    exact hall j ⟨hj, hone⟩ hparent
  · rintro hall j ⟨hj, hone⟩ hparent
    exact hall (entryOf d j) (mem_dirEntries.mpr ⟨j, hj, hone, hparent, rfl⟩)

/-- Two directories have the same listing only if it is empty or they are the
same. -/
theorem dirEntries_inj {a b : ℕ}
    (heq : dirEntries g d a = dirEntries g d b) :
    a = b ∨ dirEntries g d a = [] := by
  cases hlist : dirEntries g d a with
  | nil => exact Or.inr rfl
  | cons e es =>
      left
      have hmem : e ∈ dirEntries g d a := by
        rw [hlist]
        exact List.mem_cons_self
      obtain ⟨j, -, -, ha, rfl⟩ := mem_dirEntries.mp hmem
      rw [heq] at hmem
      obtain ⟨k, -, -, hb, hjk⟩ := mem_dirEntries.mp hmem
      rw [← ha, ← hb, hjk]

theorem DiskInvariant.listDir_chdir (h : DiskInvariant g s)
    (hresolve : s.resolve g path = some (.slot idx))
    (hdir : (entryOf s.disk idx).type = chainfsTypeDir) (maxFiles : ℕ) :
    (chainfsListDir (chainfsChdir s path).1 [] maxFiles).2 =
      some ((dirEntries g s.disk idx).take maxFiles) := by
  have haddr := g.addressable
  have hidx := (resolve_slot hresolve).1
  simp only [Geometry.slots] at hidx
  obtain ⟨m, hchdir⟩ := h.mounted.chdir_eq path
  rw [hresolve] at hchdir
  dsimp only at hchdir
  rw [if_neg (show ¬ ((Target.slot idx).found s.disk).entry.type ≠
    chainfsTypeDir from not_not.mpr hdir)] at hchdir
  rw [hchdir]
  have hmounted : Mounted g { s with
      sectorBuffer := m
      currentDirBlock := entryIndex ((Target.slot idx).found s.disk).block
        ((Target.slot idx).found s.disk).offset } :=
    h.mounted.of_same rfl rfl
  rw [hmounted.listDir_eq]
  dsimp only
  rw [show entryIndex ((Target.slot idx).found s.disk).block
    ((Target.slot idx).found s.disk).offset = idx
    from entryIndex_slotOf (by omega)]

theorem DiskInvariant.listingAgrees_iff (h : DiskInvariant g s)
    (hnames : NamesTerminated g s.disk)
    (hdirectory : ResolvesToDirectory s path) {maxFiles : ℕ}
    (hmax : g.slots ≤ maxFiles) :
    ListingAgrees g s path maxFiles ↔ NumbersAgree g s path := by
  obtain ⟨t, hresolve, hdir⟩ := h.mounted.resolves_iff.mp hdirectory
  obtain ⟨idx, rfl, -⟩ := h.directory_slot hresolve hdir
  have htake : ∀ dirBlock, (dirEntries g s.disk dirBlock).take maxFiles =
      dirEntries g s.disk dirBlock := by
    intro dirBlock
    exact List.take_of_length_le ((dirEntries_length dirBlock).trans hmax)
  have hlist := h.mounted.listDir_slot hresolve hdir maxFiles
  have hcurrent := h.listDir_chdir hresolve hdir maxFiles
  rw [htake] at hlist hcurrent
  have hagree : ListingAgrees g s path maxFiles ↔
      dirEntries g s.disk (1 + idx / 8) = dirEntries g s.disk idx := by
    constructor
    · intro hagrees
      have heq := hagrees.current
      rw [hlist, hcurrent, Option.some.injEq] at heq
      exact heq.symm
    · intro heq
      refine ⟨⟨idx, hresolve, ?_⟩, ?_⟩
      · rw [hlist, hnames.foundEntries_eq, heq]
      · rw [hlist, hcurrent, heq]
  rw [hagree]
  constructor
  · intro heq idx' hresolve'
    rw [hresolve] at hresolve'
    cases hresolve'
    rcases dirEntries_inj heq with hnumbers | hempty
    · left
      omega
    · right
      rw [childless_iff, sectorChildless_iff]
      exact ⟨heq ▸ hempty, hempty⟩
  · intro hnumbers
    rcases hnumbers idx hresolve with rfl | ⟨hchildless, hsector⟩
    · rfl
    · rw [childless_iff] at hchildless
      rw [sectorChildless_iff] at hsector
      rw [hchildless, hsector]

/-- A listing by path agrees with the lookup exactly for the directory of the
entry 1 and for directories without children. -/
theorem listing_agrees_iff {totalBlocks maxFiles : ℕ}
    (hformat : Formatted totalBlocks maxFiles s₀)
    (hrun : FsRun (UnwrappedCall (formatGeometry totalBlocks maxFiles)) s₀
      hist s) (path : CString)
    (hdirectory : ResolvesToDirectory s path.chars) (maxEntries : ℕ)
    (hmax : (formatGeometry totalBlocks maxFiles).slots ≤ maxEntries) :
    ListingAgrees (formatGeometry totalBlocks maxFiles) s path.chars
        maxEntries ↔
      NumbersAgree (formatGeometry totalBlocks maxFiles) s path.chars := by
  have hstart := hformat.diskInvariant
  exact (hstart.run hrun).listingAgrees_iff
    (hformat.namesTerminated.run hstart hrun) hdirectory hmax

/-- A file made inside the directory `a` of the slot 1 is listed. -/
theorem listing_agrees_iff_smallDisk : ∃ hist s,
    FsRun (UnwrappedCall (formatGeometry 20 8)) smallDisk hist s ∧
      hist.map Prod.snd = [0, 0, 0] ∧
      (chainfsListDir s [47, 97] 8).2.map List.length = some 1 ∧
      ListingAgrees (formatGeometry 20 8) s [47, 97] 8 := by
  have hcodes : (smallDisk.checkRun (fun _ _ _ => true)
      (initHeap unbootedHeap)
      [.mkdir ⟨[97], noNul_a⟩, .chdir ⟨[97], noNul_a⟩,
        .writeFile ⟨[120], noNul_x⟩ (fun _ => 1) 3]).map
        (fun r => (r.1, decide (ResolvesToDirectory r.2 [47, 97]),
          r.2.resolve (formatGeometry 20 8) [47, 97],
          (chainfsListDir r.2 [47, 97] 8).2.map List.length)) =
      some ([0, 0, 0], true, some (.slot 1), some 1) := by
    decide +kernel
  obtain ⟨codes, s, hrun, heq⟩ := smallDisk_run hcodes
  simp only [Prod.mk.injEq, decide_eq_true_eq] at heq
  obtain ⟨rfl, hdirectory, hresolve, hlisted⟩ := heq
  refine ⟨_, s, hrun, rfl, hlisted, ?_⟩
  refine (listing_agrees_iff smallDisk_formatted hrun ⟨[47, 97], by decide⟩
    hdirectory 8 (by decide)).mpr fun idx hidx => Or.inl ?_
  rw [show s.resolve (formatGeometry 20 8) [47, 97] = some (.slot idx)
    from hidx] at hresolve
  cases hresolve
  rfl

/-- The listing of `/b` is empty, that of the current directory `b` is not. -/
theorem listing_misses_file : ∃ s,
    FsRun AnyCall smallDisk (fileInSecond.zip [0, 0, 0, 0]) s ∧
      ResolvesToDirectory s [47, 98] ∧
      ¬ ListingAgrees (formatGeometry 20 8) s [47, 98] 8 := by
  have hcodes : (smallDisk.checkRun (fun _ _ _ => true)
      (initHeap unbootedHeap) fileInSecond).map
        (fun r => (r.1, decide (ResolvesToDirectory r.2 [47, 98]),
          (chainfsListDir r.2 [47, 98] 8).2.map List.length,
          (chainfsListDir (chainfsChdir r.2 [47, 98]).1 [] 8).2.map
            List.length)) =
      some ([0, 0, 0, 0], true, some 0, some 1) := by
    decide +kernel
  obtain ⟨codes, s, hrun, heq⟩ := checkRun_any hcodes
  simp only [Prod.mk.injEq, decide_eq_true_eq] at heq
  obtain ⟨rfl, hdirectory, hpath, hcurrent⟩ := heq
  refine ⟨s, hrun, hdirectory, ?_⟩
  intro hagrees
  rw [hagrees.current, hpath] at hcurrent
  cases hcurrent

end Otsos
