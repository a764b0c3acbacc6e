import Otsos.ChainFS.DirectoryTargets
import Otsos.ChainFS.DirectoryWalks
import Otsos.ChainFS.SimpleCalls

/-!
# What is created by a path

The calls that create an entry record as its parent the sector in which the
directory lies; a lookup of the path compares the parent with the index of the
directory in the table.  What was created is found again where the two numbers
agree.
-/

namespace Otsos

open Lib

variable {g : Geometry} {s s' s₀ s₁ : ChainFS} {path : CString}
  {data : Memory} {dir idx parent size n : ℕ} {e : TableEdit}
  {hist : List (FsCall × ℤ)}

/-- `chainfs_read_file` gives back what was written. -/
def ReadsBack (s : ChainFS) (path : List UInt8) (data : Memory)
    (size n : ℕ) : Prop :=
  ∀ buffer, ∃ buffer', (chainfsReadFile s path buffer n).2 =
      some (buffer', min size n) ∧ ∀ i < min size n, buffer' i = data i

/-- The path resolves to a directory of its last name. -/
def CreatedDirectory (s : ChainFS) (path : List UInt8) : Prop :=
  ∃ f, (chainfsResolvePath s path).2 = some f ∧
    f.entry.type = chainfsTypeDir ∧ f.entry.cname = lastName path

/-- The number of blocks is computed without overflow, or the first block is
all that is read. -/
def FitsChain (size n : ℕ) : Prop := size ≤ 2 ^ 32 - 512 ∨ n ≤ 512

/-- Two entries of the directory in which the path is looked up have its last
name. -/
def NameDoubled (g : Geometry) (s : ChainFS) (path : List UInt8) : Prop :=
  ∃ dir, s.lastDir g path = some dir ∧
    ∃ i j, i ≠ j ∧ LiveEntry g s.disk i ∧ LiveEntry g s.disk j ∧
      entryKey s.disk i = (dir, lastName path) ∧
      entryKey s.disk j = (dir, lastName path)

/-! ## The entry that is recorded -/

theorem SameControl.startDirectory (h : SameControl s s')
    (path : List UInt8) : startDirectory s' path = startDirectory s path := by
  simp only [Otsos.startDirectory, ChainFS.rootDirBlock, h.superblock,
    h.current]

/-- The edit puts an entry with the last name of the path under `parent`; the
path is looked up in `dir`. -/
structure Recorded (g : Geometry) (s s' : ChainFS) (path : CString)
    (e : TableEdit) (dir parent : ℕ) : Prop where
  creatable : CreatablePath path.chars
  edited : Edited g s.disk s'.disk e
  control : SameControl s s'
  lastDir : s.lastDir g path.chars = some dir
  before : NamesTerminated g s.disk
  live : LiveEntry g s'.disk e.slot
  key : entryKey s'.disk e.slot = (parent, lastName path.chars)
  notDir : ¬ LiveDir g s.disk e.slot

theorem CreatablePath.component_no_nul (h : CreatablePath path.chars) :
    (∀ c ∈ dirComponents path.chars, 0 ∉ c ∧ c.length ≤ 57) ∧
      0 ∉ lastName path.chars := by
  refine ⟨fun c hc => ?_, ?_⟩
  · have hmem : c ∈ pathComponents path.chars := by
      rw [h.components]
      exact List.mem_append_left _ hc
    exact ⟨pathComponents_no_nul path.terminated c hmem,
      (h.short c hmem).trans (by omega)⟩
  · exact pathComponents_no_nul path.terminated _ h.lastName_mem

theorem Recorded.matches_iff (h : Recorded g s s' path e dir parent)
    {d : ℕ} {c : List UInt8} (hnul : 0 ∉ c) :
    testSlot (slotMatches d c) s'.disk e.slot = true ↔
      d = parent ∧ c = lastName path.chars := by
  rw [(h.before.edited h.edited).slotMatches_iff h.edited.inside hnul, h.key,
    Prod.mk.injEq, and_iff_right h.live, eq_comm, @eq_comm _ c]

theorem Recorded.lastName_length (h : Recorded g s s' path e dir parent) :
    (lastName path.chars).length ≤ 57 :=
  h.creatable.lastName_short.trans (by omega)

/-- The directory is found again, if the new entry takes no directory's
place. -/
theorem Recorded.lastDir_kept (h : Recorded g s s' path e dir parent)
    (hnot : ∀ j, lookup g s.disk parent (lastName path.chars) = some j →
      (entryOf s.disk j).type ≠ chainfsTypeDir) :
    s'.lastDir g path.chars = some dir := by
  obtain ⟨hcs, -⟩ := h.creatable.component_no_nul
  rw [ChainFS.lastDir, h.control.startDirectory]
  refine h.edited.walkDirs_kept (fun c hc => (hcs c hc).2) h.notDir ?_
    h.lastDir
  intro d c hc j hlookup htype
  rw [← Bool.not_eq_true, h.matches_iff (hcs c hc).1]
  rintro ⟨rfl, rfl⟩
  exact hnot j hlookup htype

theorem Recorded.denoted (h : Recorded g s s' path e dir parent)
    (hagree : parent = dir)
    (hbefore : ∀ j, lookup g s.disk dir (lastName path.chars) = some j →
      j = e.slot)
    (hnot : ∀ j, lookup g s.disk dir (lastName path.chars) = some j →
      (entryOf s.disk j).type ≠ chainfsTypeDir) :
    s'.denoted g path.chars = some e.slot := by
  subst hagree
  obtain ⟨-, hnul⟩ := h.creatable.component_no_nul
  rw [ChainFS.denoted, h.lastDir_kept hnot, Option.bind_some]
  exact h.edited.lookup_stored h.lastName_length hbefore
    ((h.matches_iff hnul).mpr ⟨rfl, rfl⟩)

/-- A file recorded under another directory is not found, unless something
else has the name. -/
theorem Recorded.denoted_none (h : Recorded g s s' path e dir parent)
    (hnew : ¬ LiveDir g s'.disk e.slot) (hne : parent ≠ dir)
    (hother : ∀ j, j ≠ e.slot → LiveEntry g s.disk j →
      entryKey s.disk j ≠ (dir, lastName path.chars)) :
    s'.denoted g path.chars = none := by
  obtain ⟨hcs, hnul⟩ := h.creatable.component_no_nul
  rw [ChainFS.denoted]
  cases hdir : s'.lastDir g path.chars with
  | none => rfl
  | some dir' =>
      have hsame : dir' = dir := by
        rw [ChainFS.lastDir, h.control.startDirectory] at hdir
        exact h.edited.walkDirs_unique (fun c hc => (hcs c hc).2) h.notDir
          hnew h.lastDir hdir
      rw [Option.bind_some, hsame,
        (h.before.edited h.edited).lookup_none_iff hnul]
      intro j hlive hkey
      by_cases hslot : j = e.slot
      · rw [hslot, h.key, Prod.mk.injEq] at hkey
        exact hne hkey.1
      · have hentry := (h.edited.other j hlive.1 hslot).entryOf_eq
        refine hother j hslot ((LiveEntry.congr hentry).mp hlive) ?_
        rw [← hkey, entryKey, entryKey, parentOf, parentOf, hentry]

/-! ## Making a directory -/

theorem denotes_directory_iff (h : Mounted g s)
    (hpath : CreatablePath path.chars) :
    ResolvesToDirectory s path.chars ↔
      ∃ idx, s.denoted g path.chars = some idx ∧
        (entryOf s.disk idx).type = chainfsTypeDir := by
  rw [h.resolves_iff, hpath.resolve_eq h]
  constructor
  · rintro ⟨t, ht, htype⟩
    obtain ⟨idx, hidx, rfl⟩ := Option.map_eq_some_iff.mp ht
    exact ⟨idx, hidx, htype⟩
  · rintro ⟨idx, hidx, htype⟩
    exact ⟨.slot idx, by rw [hidx]; rfl, htype⟩

theorem DiskInvariant.mkdir_recorded (h : DiskInvariant g s)
    (hterm : NamesTerminated g s.disk)
    (hcurrent : s.currentDirBlock < 2 ^ 32)
    (hpath : CreatablePath path.chars) {plan : MkdirPlan}
    (hplan : mkdirPlan g s path.chars = .ok (some plan))
    (hedited : Edited g s.disk s'.disk
      (.directory plan.slot plan.dirName plan.parent))
    (hcontrol : SameControl s s') :
    ∃ dir, (plan.parent = dir ↔ StoresLookedUp g s path.chars) ∧
      Recorded g s s' path (.directory plan.slot plan.dirName plan.parent) dir
        plan.parent := by
  obtain ⟨p, hsplit, hparent, -, hfree⟩ := mkdirPlan_some hplan
  obtain ⟨hname, dir, hdir, hstores⟩ :=
    h.parent_stored hpath hsplit (Or.inr hparent)
  have hparentLt := parentId_lt hcurrent (Or.inr hparent)
  have hnul := splitParent_no_nul path.terminated hsplit
  obtain ⟨hlive, hkey⟩ := hedited.directory_key hnul hparentLt
  have hshort := hpath.lastName_short
  rw [hname, List.take_of_length_le (by omega)] at hkey
  exact ⟨dir, hstores, hpath, hedited, hcontrol, hdir, hterm, hlive, hkey,
    fun hlive => not_liveEntry_of_free hfree hlive.1⟩

/-- A directory recorded under another one changes nothing for the path. -/
theorem Recorded.denoted_kept (h : Recorded g s s' path e dir parent)
    (hfree : (entryOf s.disk e.slot).status = 0) (hne : parent ≠ dir)
    (hnot : ∀ j, lookup g s.disk parent (lastName path.chars) = some j →
      (entryOf s.disk j).type ≠ chainfsTypeDir) :
    s'.denoted g path.chars = s.denoted g path.chars := by
  rw [ChainFS.denoted, ChainFS.denoted, h.lastDir_kept hnot, h.lastDir,
    Option.bind_some, Option.bind_some]
  refine h.edited.lookup_kept h.lastName_length ?_ ?_
  · intro hslot
    have hone := (lookup_some hslot).2.1
    rw [hfree] at hone
    exact absurd hone (by decide)
  · rw [← Bool.not_eq_true, h.matches_iff h.creatable.component_no_nul.2]
    exact fun hboth => hne hboth.1.symm

theorem DiskInvariant.mkdir_found_iff (h : DiskInvariant g s)
    (hterm : NamesTerminated g s.disk)
    (hcurrent : s.currentDirBlock < 2 ^ 32)
    (hpath : CreatablePath path.chars)
    (hnot : ¬ ResolvesToDirectory s path.chars)
    (hmkdir : chainfsMkdir s path.chars = .ok (s', 0)) :
    CreatedDirectory s' path.chars ↔ StoresLookedUp g s path.chars := by
  have hmounted' := (h.mkdir hmkdir).mounted
  have hresult := h.mounted.mkdir_result h.heap path.chars
  rw [hmkdir] at hresult
  cases hresult with
  | made plan s' hplan hcontrol hheap hdisk =>
      obtain ⟨p, hsplit, hparent, hlookup, hfree⟩ := mkdirPlan_some hplan
      have hexec : s.exec (.mkdir path) = .ok (s', 0) := hmkdir
      have hedited := (h.tableStep_mkdir hexec).edited_of ⟨plan, hplan, rfl⟩
      obtain ⟨-, htype, -⟩ :=
        hedited.directory_fields (parentId_lt hcurrent (Or.inr hparent))
      obtain ⟨dir, hstores, hrecorded⟩ :=
        h.mkdir_recorded hterm hcurrent hpath hplan hedited hcontrol
      have hfreeSlot := (freeSlot_some hfree).2
      rw [(h.parent_stored hpath hsplit (Or.inr hparent)).1] at hlookup
      have hnone : ∀ j, lookup g s.disk plan.parent (lastName path.chars) =
          some j → (entryOf s.disk j).type ≠ chainfsTypeDir := by
        intro j hj
        rw [hlookup] at hj
        cases hj
      have hresolve := hmounted'.resolvePath_result path.chars
      rw [hpath.resolve_eq hmounted'] at hresolve
      rw [← hstores]
      constructor
      · intro hcreated
        by_contra hne
        obtain ⟨f, hf, hdirType, -⟩ := hcreated
        rw [hrecorded.denoted_kept hfreeSlot hne hnone, hf] at hresolve
        cases hold : s.denoted g path.chars with
        | none =>
            rw [hold] at hresolve
            cases hresolve
        | some j =>
            rw [hold] at hresolve
            cases hresolve
            refine hnot
              ((denotes_directory_iff h.mounted hpath).mpr ⟨j, hold, ?_⟩)
            rw [ChainFS.denoted, hrecorded.lastDir, Option.bind_some] at hold
            obtain ⟨hj, hone, -⟩ := lookup_some hold
            have hjne : j ≠ plan.slot := by
              rintro rfl
              rw [hfreeSlot] at hone
              exact absurd hone (by decide)
            rw [← (hedited.other j hj hjne).entryOf_eq]
            exact hdirType
      · intro hagree
        rw [hagree] at hnone hlookup
        have hdenoted := hrecorded.denoted hagree (by
          intro j hj
          rw [hlookup] at hj
          cases hj) hnone
        rw [hdenoted] at hresolve
        exact ⟨_, hresolve, htype, congrArg Prod.snd hrecorded.key⟩

/-! ## Writing a file -/

theorem Mounted.read_denoted (h : Mounted g s)
    (hpath : CreatablePath path.chars) {bs : List ℕ}
    (hdenoted : s.denoted g path.chars = some idx)
    (hstart : (entryOf s.disk idx).startBlock = bs.headD chainfsEofMarker)
    (hlinks : Links (mapLink g s.disk) chainfsEofMarker bs)
    (hbs : ∀ b ∈ bs, g.Usable b) (buffer : Memory) (n : ℕ) :
    ∃ buffer', (chainfsReadFile s path.chars buffer n).2 =
        some (buffer', min (heldBytes (entryOf s.disk idx).size bs) n) ∧
      ∀ i < min (heldBytes (entryOf s.disk idx).size bs) n,
        buffer' i = chainByte g s.disk bs i := by
  have hfind := hpath.find_eq h
  rw [hdenoted] at hfind
  obtain ⟨m, buffer', hread, hin, -⟩ :=
    h.readFile_chain hfind hstart hlinks hbs buffer n
  exact ⟨buffer', by rw [hread], hin⟩

theorem held_read_iff (hsize : size < 2 ^ 32) {bs : List ℕ}
    (hlen : bs.length = blocksNeeded size) :
    min (heldBytes size bs) n = min size n ↔ FitsChain size n := by
  unfold heldBytes FitsChain
  by_cases hfits : size ≤ 2 ^ 32 - 512
  · have hall := fileBlocks_le size
    rw [hlen, blocksNeeded_eq hfits]
    omega
  · have hone : blocksNeeded size = 1 := by
      have hwrap : wrap32 (size + chainfsBlockSize - 1) =
          size + 511 - 2 ^ 32 := by
        unfold wrap32 chainfsBlockSize
        omega
      unfold blocksNeeded
      rw [hwrap, if_pos]
      unfold chainfsBlockSize
      omega
    rw [hlen, hone]
    omega

/-- The slot of a write is that of the name it finds, or a free one. -/
def FillsSlot (g : Geometry) (s : ChainFS) (path : List UInt8) (idx : ℕ) :
    Prop :=
  s.denoted g path = some idx ∨
    s.denoted g path = none ∧ freeSlot g s.disk = some idx

theorem CreatablePath.write_slot (hpath : CreatablePath path.chars)
    (h : Mounted g s) {plan : WritePlan}
    (hplan : writePlan g s path.chars = .ok (some plan)) :
    ∃ idx, plan.target = .slot idx ∧ FillsSlot g s path.chars idx := by
  obtain ⟨-, -, -, ⟨hfind, -⟩ | ⟨hfind, -, idx, hfree, htarget⟩⟩ :=
    writePlan_some hplan
  · rw [hpath.find_eq h] at hfind
    obtain ⟨idx, hidx, htarget⟩ := Option.map_eq_some_iff.mp hfind
    exact ⟨idx, htarget.symm, Or.inl hidx⟩
  · rw [hpath.find_eq h] at hfind
    exact ⟨idx, htarget, Or.inr ⟨Option.map_eq_none_iff.mp hfind, hfree⟩⟩

theorem FillsSlot.not_directory (hslot : FillsSlot g s path.chars idx)
    (h : Mounted g s) (hpath : CreatablePath path.chars)
    (hnot : ¬ ResolvesToDirectory s path.chars) :
    ¬ LiveDir g s.disk idx := by
  rintro ⟨hlive, htype⟩
  rcases hslot with hdenoted | ⟨-, hfree⟩
  · exact hnot ((denotes_directory_iff h hpath).mpr ⟨idx, hdenoted, htype⟩)
  · exact not_liveEntry_of_free hfree hlive

/-- The entry that a successful write records. -/
theorem DiskInvariant.write_recorded (h : DiskInvariant g s)
    (hterm : NamesTerminated g s.disk)
    (hcurrent : s.currentDirBlock < 2 ^ 32)
    (hpath : CreatablePath path.chars)
    (hnot : ¬ ResolvesToDirectory s path.chars) {plan : WritePlan}
    (hplan : writePlan g s path.chars = .ok (some plan))
    (hslot : FillsSlot g s path.chars idx)
    (hedited : Edited g s.disk s'.disk
      (.file idx plan.fileName size plan.parent))
    (hcontrol : SameControl s s') :
    ∃ dir, (plan.parent = dir ↔ StoresLookedUp g s path.chars) ∧
      Recorded g s s' path (.file idx plan.fileName size plan.parent) dir
        plan.parent := by
  obtain ⟨p, hsplit, hparent, -⟩ := writePlan_some hplan
  obtain ⟨hname, dir, hdir, hstores⟩ :=
    h.parent_stored hpath hsplit (Or.inl hparent)
  have hparentLt := parentId_lt hcurrent (Or.inl hparent)
  have hnul := splitParent_no_nul path.terminated hsplit
  obtain ⟨hlive, hkey⟩ := hedited.file_key hnul hparentLt
  rw [hname, List.take_of_length_le hpath.lastName_short] at hkey
  exact ⟨dir, hstores, hpath, hedited, hcontrol, hdir, hterm, hlive, hkey,
    hslot.not_directory h.mounted hpath hnot⟩

section Recorded

variable {fileName : List UInt8}

theorem Recorded.file_denoted
    (hrecorded : Recorded g s s' path (.file idx fileName size parent) dir
      parent)
    (h : Mounted g s) (hnot : ¬ ResolvesToDirectory s path.chars)
    (hslot : FillsSlot g s path.chars idx) (hagree : parent = dir) :
    s'.denoted g path.chars = some idx := by
  have hlookup : s.denoted g path.chars =
      lookup g s.disk dir (lastName path.chars) := by
    rw [ChainFS.denoted, hrecorded.lastDir, Option.bind_some]
  refine hrecorded.denoted hagree ?_ ?_
  · intro j hj
    rw [← hlookup] at hj
    rcases hslot with hdenoted | ⟨hnone, -⟩
    · rw [hj] at hdenoted
      exact Option.some.inj hdenoted
    · rw [hj] at hnone
      cases hnone
  · intro j hj htype
    rw [← hlookup] at hj
    exact hnot ((denotes_directory_iff h hrecorded.creatable).mpr
      ⟨j, hj, htype⟩)

/-- A file recorded under another directory is found only where something
else had the name before. -/
theorem Recorded.file_absent
    (hrecorded : Recorded g s s' path (.file idx fileName size parent) dir
      parent)
    (hparentLt : parent < 2 ^ 32) (hslot : FillsSlot g s path.chars idx)
    (hne : parent ≠ dir) (hsingle : ¬ NameDoubled g s path.chars) :
    s'.denoted g path.chars = none := by
  obtain ⟨-, hnul⟩ := hrecorded.creatable.component_no_nul
  have hlookup : s.denoted g path.chars =
      lookup g s.disk dir (lastName path.chars) := by
    rw [ChainFS.denoted, hrecorded.lastDir, Option.bind_some]
  obtain ⟨-, hfile, -⟩ := hrecorded.edited.file_fields hparentLt
  have hnew : ¬ LiveDir g s'.disk idx := by
    rintro ⟨-, htype⟩
    rw [hfile] at htype
    exact absurd htype (by decide)
  refine hrecorded.denoted_none hnew hne ?_
  intro j hj hlivej hkeyj
  rcases hslot with hold | ⟨hold, -⟩
  · rw [hlookup] at hold
    obtain ⟨hlivei, hkeyi⟩ := hrecorded.before.lookup_key hnul hold
    exact hsingle ⟨dir, hrecorded.lastDir, j, idx, hj, hlivej, hlivei, hkeyj,
      hkeyi⟩
  · rw [hlookup] at hold
    exact (hrecorded.before.lookup_none_iff hnul).mp hold j hlivej hkeyj

end Recorded

/-- A file just written is read back by its path if the call stored the
directory of the lookup, and otherwise only where another entry of the same
name takes its place. -/
theorem DiskInvariant.write_found (h : DiskInvariant g s)
    (hterm : NamesTerminated g s.disk)
    (hcurrent : s.currentDirBlock < 2 ^ 32)
    (hpath : CreatablePath path.chars)
    (hnot : ¬ ResolvesToDirectory s path.chars) (hsize : size < 2 ^ 32)
    (htakes : TakesSectors g s path.chars size (· < 2 ^ 32))
    (hwrite : chainfsWriteFile s path.chars data size = .ok (s', 0)) :
    (StoresLookedUp g s path.chars → FitsChain size n →
      ReadsBack s' path.chars data size n) ∧
    (ReadsBack s' path.chars data size n →
      (StoresLookedUp g s path.chars ∧ FitsChain size n) ∨
        NameDoubled g s path.chars) := by
  have hmounted' := (h.writeFile htakes hwrite).mounted
  have hresult := h.mounted.writeFile_result h.heap path.chars data size
  rw [hwrite] at hresult
  cases hresult with
  | stored plan s₁ s' hplan hprepared hroom hstored hcontrol =>
      obtain ⟨p, -, hparent, -⟩ := writePlan_some hplan
      have hparentLt := parentId_lt hcurrent (Or.inl hparent)
      obtain ⟨idx, htarget, hslot⟩ := hpath.write_slot h.mounted hplan
      have hexec : s.exec (.writeFile path data size) = .ok (s', 0) := hwrite
      have hedited := (h.tableStep_write htakes hexec).edited_of
        ⟨plan, idx, hplan, hroom, htarget, rfl⟩
      obtain ⟨dir, hstores, hrecorded⟩ := h.write_recorded hterm hcurrent
        hpath hnot hplan hslot hedited (hprepared.control.trans hcontrol)
      have hfits := @held_read_iff size n hsize (allocated g s₁.disk size)
      have husable := htakes.usable hplan hprepared hroom
      have hstored := hstored husable
      rw [← hprepared.hasRoom_iff] at hroom
      rw [htarget] at hstored
      have hentry : (entryOf s'.disk idx).startBlock = _ ∧
          (entryOf s'.disk idx).size = size :=
        hstored.entry husable hroom hsize
      obtain ⟨hstart, hsizeOf⟩ := hentry
      have hsector := (g.slot_sector hedited.inside).2
      have hlinks := hstored.links husable hsector
      have hread := fun (hagree : plan.parent = dir) =>
        hmounted'.read_denoted hpath
          (hrecorded.file_denoted h.mounted hnot hslot hagree) hstart hlinks
          husable
      rw [hsizeOf] at hread
      rw [← hstores]
      refine ⟨?_, ?_⟩
      · intro hagree hfit buffer
        obtain ⟨buffer', hresult, hbytes⟩ := hread hagree buffer n
        rw [← (hfits hroom.length_allocated).mpr hfit]
        refine ⟨buffer', hresult, ?_⟩
        intro i hi
        rw [hbytes i hi]
        exact hstored.chainByte_eq hsector (by omega)
      · intro hback
        obtain ⟨buffer₁, hresult₁, -⟩ := hback zeroSector
        by_cases hagree : plan.parent = dir
        · left
          refine ⟨hagree, (hfits hroom.length_allocated).mp ?_⟩
          obtain ⟨buffer', hresult, -⟩ := hread hagree zeroSector n
          rw [hresult₁, Option.some.injEq, Prod.mk.injEq] at hresult
          exact hresult.2.symm
        · by_contra hor
          rw [not_or] at hor
          have hnone := hrecorded.file_absent hparentLt hslot hagree hor.2
          have hfind := hpath.find_eq hmounted'
          rw [hnone] at hfind
          obtain ⟨m, hread⟩ := hmounted'.readFile_eq path.chars zeroSector n
          rw [hread, hfind] at hresult₁
          cases hresult₁

/-! ## Every run -/

/-- In every state reached, a directory made by a path resolves by that path
exactly if the call stored the directory of the lookup; a file written is read
back if it did and the blocks suffice, and otherwise only where two entries had
the name before. -/
theorem created_found_iff {totalBlocks maxFiles : ℕ}
    (hformat : Formatted totalBlocks maxFiles s₀)
    (hrun : FsRun (UnwrappedCall (formatGeometry totalBlocks maxFiles)) s₀
      hist s) {heap : Heap}
    (hready : HeapReady heap) (path : CString)
    (hpath : CreatablePath path.chars)
    (hnot : ¬ ResolvesToDirectory { s with heap := heap } path.chars) :
    (∀ s', chainfsMkdir { s with heap := heap } path.chars = .ok (s', 0) →
      (CreatedDirectory s' path.chars ↔
        StoresLookedUp (formatGeometry totalBlocks maxFiles)
          { s with heap := heap } path.chars)) ∧
    ∀ data size s' n, size < 2 ^ 32 →
      TakesSectors (formatGeometry totalBlocks maxFiles)
        { s with heap := heap } path.chars size (· < 2 ^ 32) →
      chainfsWriteFile { s with heap := heap } path.chars data size =
        .ok (s', 0) →
      (StoresLookedUp (formatGeometry totalBlocks maxFiles)
          { s with heap := heap } path.chars → FitsChain size n →
        ReadsBack s' path.chars data size n) ∧
      (ReadsBack s' path.chars data size n →
        (StoresLookedUp (formatGeometry totalBlocks maxFiles)
            { s with heap := heap } path.chars ∧ FitsChain size n) ∨
          NameDoubled (formatGeometry totalBlocks maxFiles)
            { s with heap := heap } path.chars) := by
  have hstart := hformat.diskInvariant
  have hinv := (hstart.run hrun).withHeap hready
  have hterm := hformat.namesTerminated.run hstart hrun
  obtain ⟨-, -, -, hroot, -⟩ := hformat.fresh
  have hcurrent := hstart.current_run
    (by rw [hroot]; exact Nat.two_pow_pos 32) hrun
  refine ⟨?_, ?_⟩
  · intro s' hmkdir
    exact hinv.mkdir_found_iff hterm hcurrent hpath hnot hmkdir
  · intro data size s' n hsize htakes hwrite
    exact hinv.write_found hterm hcurrent hpath hnot hsize htakes hwrite

/-- In the directory `a`, the entry 1, both are found. -/
theorem created_found_iff_smallDisk : ∃ s s₁ s₂,
    FsRun (UnwrappedCall (formatGeometry 20 8)) smallDisk
      ([FsCall.mkdir ⟨[97], by decide⟩].zip [0]) s ∧
      chainfsMkdir s [97, 47, 120] = .ok (s₁, 0) ∧
      CreatedDirectory s₁ [97, 47, 120] ∧
      chainfsWriteFile s [97, 47, 120] (fun _ => 1) 3 = .ok (s₂, 0) ∧
      ReadsBack s₂ [97, 47, 120] (fun _ => 1) 3 2 := by
  have hcodes : (smallDisk.checkRun (fun _ _ _ => true)
      (initHeap unbootedHeap) [.mkdir ⟨[97], by decide⟩]).map
        (fun r => (r.1, decide (ResolvesToDirectory r.2 [97, 47, 120]),
          r.2.resolve (formatGeometry 20 8) [97],
          decide ((chainfsMkdir r.2 [97, 47, 120]).map Prod.snd = .ok 0),
          decide ((chainfsWriteFile r.2 [97, 47, 120] (fun _ => 1) 3).map
            Prod.snd = .ok 0))) =
      some ([0], false, some (.slot 1), true, true) := by
    decide +kernel
  obtain ⟨codes, s, hrun, heq⟩ := smallDisk_run hcodes
  simp only [Prod.mk.injEq, decide_eq_false_iff_not, decide_eq_true_eq]
    at heq
  obtain ⟨rfl, hnot, hresolve, hmkdir, hwrite⟩ := heq
  have hready := (smallDisk_formatted.diskInvariant.run hrun).heap
  have hstores : StoresLookedUp (formatGeometry 20 8) s [97, 47, 120] := by
    intro dir name hsplit idx hdir
    cases hsplit
    have heq : s.resolve (formatGeometry 20 8) [97] = some (.slot idx) := hdir
    rw [hresolve] at heq
    cases heq
    rfl
  obtain ⟨hmade, hread⟩ := created_found_iff smallDisk_formatted hrun
    hready ⟨[97, 47, 120], by decide⟩ (by decide) hnot
  obtain ⟨s₁, code₁, hfirst, rfl⟩ := evaluated_call hmkdir
  obtain ⟨s₂, code₂, hsecond, rfl⟩ := evaluated_call hwrite
  have hfound : ReadsBack s₂ [97, 47, 120] (fun _ => 1) 3 2 :=
    (hread _ 3 s₂ 2 (by decide) (smallDisk_noWrap.takesSectors _ _ _)
      hsecond).1 hstores (Or.inl (by decide))
  exact ⟨s, s₁, s₂, hrun, hfirst, (hmade s₁ hfirst).mpr hstores, hsecond,
    hfound⟩

/-- In the directory `b`, the entry 2, a file just written is not found. -/
theorem created_not_found : ∃ s s',
    FsRun AnyCall smallDisk
      ([FsCall.mkdir ⟨[97], by decide⟩, .mkdir ⟨[98], by decide⟩].zip [0, 0])
      s ∧
      CreatablePath [98, 47, 120] ∧ ¬ ResolvesToDirectory s [98, 47, 120] ∧
      chainfsWriteFile s [98, 47, 120] (fun _ => 1) 3 = .ok (s', 0) ∧
      (∀ buffer n, (chainfsReadFile s' [98, 47, 120] buffer n).2 = none) ∧
      ¬ ReadsBack s' [98, 47, 120] (fun _ => 1) 3 3 := by
  have hcodes : (smallDisk.checkRun (fun _ _ _ => true)
      (initHeap unbootedHeap)
      [.mkdir ⟨[97], by decide⟩, .mkdir ⟨[98], by decide⟩]).map
        (fun r => (r.1, decide (ResolvesToDirectory r.2 [98, 47, 120]),
          (chainfsWriteFile r.2 [98, 47, 120] (fun _ => 1) 3).map
            fun w => (w.2, (chainfsFindFile w.1 [98, 47, 120]).2.isSome))) =
      some ([0, 0], false, .ok (0, false)) := by
    decide +kernel
  obtain ⟨codes, s, hrun, heq⟩ := checkRun_any hcodes
  simp only [Prod.mk.injEq, decide_eq_false_iff_not] at heq
  obtain ⟨rfl, hnot, hwrite⟩ := heq
  obtain ⟨s', code, hresult, heq⟩ := evaluated_call hwrite
  obtain ⟨rfl, hlost⟩ := Prod.mk.inj heq
  have hmissing : ∀ buffer n,
      (chainfsReadFile s' [98, 47, 120] buffer n).2 = none := by
    intro buffer n
    unfold chainfsReadFile
    cases hfind : chainfsFindFile s' [98, 47, 120] with
    | mk s₁ found =>
        rw [hfind] at hlost
        cases found with
        | none => rfl
        | some f => cases hlost
  refine ⟨s, s', hrun, by decide, hnot, hresult, hmissing, ?_⟩
  intro hback
  obtain ⟨buffer', hread, -⟩ := hback zeroSector
  rw [hmissing] at hread
  cases hread

end Otsos
