import Mathlib.Data.Finset.Card
import Mathlib.Data.Finset.Range
import Otsos.ChainFS.BlockMapSound
import Otsos.ChainFS.DirectoryWalks
import Otsos.ChainFS.FilledTable
import Otsos.ChainFS.ParentWalks

/-!
# The path printed is the path walked

As long as nothing is removed, the current directory hangs under the
directories that the changes of directory went through, in their order.  The
walk up along the parents reads their names from the last to the first, and the
resolution of the text walks down again by the names.
-/

namespace Otsos

open Lib

variable {g : Geometry} {s s' s₀ : ChainFS} {d d' : ℕ → Memory}
  {m : Memory} {i idx n totalBlocks maxFiles : ℕ} {name : CString}
  {walked names : List (List UInt8)} {e : TableEdit} {call : FsCall}
  {code : ℤ} {hist : List (FsCall × ℤ)}

/-- Names of directories are made and walked, and files are written. -/
def WalkedCall : StepCondition := fun s call code =>
  match call with
  | .mkdir path => SimpleName path
  | .chdir path => SimpleName path
  | .writeFile name _ size => SimpleName name ∧ size ≤ 2 ^ 32 - 512 ∧
      ¬ DenotesDirectory s name.chars ∧ code = 0
  | _ => False

def chdirName : FsCall × ℤ → Option (List UInt8)
  | (.chdir path, code) => if code = 0 then some path.chars else none
  | _ => none

/-- The names given to the `chainfs_chdir` calls that succeeded. -/
def chdirNames (hist : List (FsCall × ℤ)) : List (List UInt8) :=
  hist.filterMap chdirName

/-- `'/'`, and the names with a `'/'` between them. -/
def joinedPath (names : List (List UInt8)) : List UInt8 :=
  slash :: [slash].intercalate names

def entriesInUse (g : Geometry) (d : ℕ → Memory) : ℕ :=
  ((Finset.range g.slots).filter fun idx => (entryOf d idx).status = 1).card

/-! ## Texts -/

theorem joinedPath_eq (hne : names ≠ []) :
    joinedPath names = names.flatMap (slash :: ·) := by
  induction names with
  | nil => exact absurd rfl hne
  | cons name names ih =>
      by_cases hlast : names = []
      · simp [hlast, joinedPath]
      · rw [List.flatMap_cons, ← ih hlast, joinedPath, joinedPath,
          List.intercalate_cons_of_ne_nil hlast]
        simp

theorem pathComponents_joinedPath (hnames : ∀ c ∈ names, c ≠ [] ∧ slash ∉ c)
    (hne : names ≠ []) : pathComponents (joinedPath names) = names := by
  rw [pathComponents, joinedPath, splitOn_cons, if_pos rfl,
    List.splitOn_intercalate slash (fun c hc => (hnames c hc).2) hne,
    List.filter_cons_of_neg (by simp), List.filter_eq_self.mpr]
  intro c hc
  simpa using (hnames c hc).1

/-- A name with room for its terminator is read as it was stored. -/
theorem nameString_eq {e : FileEntry} (hname : e.name.length = 30)
    (hshort : e.cname.length ≤ 29) : e.nameString = e.cname := by
  unfold FileEntry.nameString FileEntry.cname at *
  simp only [List.append_assoc]
  rw [List.takeWhile_append, if_neg (by omega)]

/-! ## The way from the root -/

/-- The directory hangs under the root by these names. -/
inductive Trail (g : Geometry) (d : ℕ → Memory) :
    ℕ → List (List UInt8) → Prop
  | root : Trail g d 0 []
  | enter {dir idx : ℕ} {names : List (List UInt8)} {name : CString}
      (before : Trail g d dir names) (simple : SimpleName name)
      (live : LiveDir g d idx) (inner : idx ≠ 0)
      (key : entryKey d idx = (dir, name.chars)) :
      Trail g d idx (names ++ [name.chars])

theorem Trail.kept (h : Trail g d idx names)
    (hkept : ∀ j, LiveDir g d j → entryOf d' j = entryOf d j) :
    Trail g d' idx names := by
  induction h with
  | root => exact .root
  | enter before simple live inner key ih =>
      have hentry := hkept _ live
      refine .enter ih simple ((LiveDir.congr hentry).mpr live) inner ?_
      rw [← key, entryKey, entryKey, parentOf, parentOf, hentry]

theorem Trail.simple (h : Trail g d idx names) :
    ∀ c ∈ names, c ≠ [] ∧ c.length ≤ 29 ∧ slash ∉ c := by
  induction h with
  | root => simp
  | enter before simple live inner key ih =>
      intro c hc
      rcases List.mem_append.mp hc with hc | hc
      · exact ih c hc
      · rw [List.mem_singleton] at hc
        rw [hc]
        exact ⟨simple.nonempty, simple.short, simple.noSlash⟩

theorem Trail.names_root (h : Trail g d 0 names) : names = [] := by
  generalize hzero : (0 : ℕ) = idx at h
  cases h with
  | root => rfl
  | enter before simple live inner key => exact absurd hzero.symm inner

theorem Trail.eq_root (h : Trail g d idx []) : idx = 0 := by
  generalize hnil : ([] : List (List UInt8)) = names at h
  cases h with
  | root => rfl
  | enter before simple live inner key => simp at hnil

/-- The loop goes up the trail and puts its text in front. -/
theorem Trail.walk (h : Trail g s.disk idx names) (hroot : s.rootDirBlock = 0)
    (hslots : g.slots < 0xFFFFFFFF)
    (hfiles : ∀ j, LiveDir g s.disk j → j < s.totalFiles) :
    ∃ visited, Walk s.up idx visited ∧ ∀ temp,
      pathText s.disk temp visited = names.flatMap (slash :: ·) ++ temp := by
  induction h with
  | root =>
      refine ⟨[], .stop (up_none.mpr (Or.inl hroot.symm)), ?_⟩
      intro temp
      rfl
  | @enter dir idx names name before simple live inner key ih =>
      obtain ⟨visited, hwalk, htext⟩ := ih
      have hparent : parentOf s.disk idx = dir := (Prod.ext_iff.mp key).1
      have hcname : (entryOf s.disk idx).cname = name.chars :=
        (Prod.ext_iff.mp key).2
      have hup : s.up idx = some dir := by
        have hidx := live.1.1
        have hlt := hfiles idx live
        rw [ChainFS.up, if_neg (by rw [hroot]; omega), hparent]
      have hname : (entryOf s.disk idx).nameString = name.chars := by
        rw [nameString_eq (by simp [entryOf, entryAt])
          (by rw [hcname]; exact simple.short), hcname]
      refine ⟨idx :: visited, .pass hup hwalk, ?_⟩
      intro temp
      rw [pathText, List.foldl_cons]
      refine (htext _).trans ?_
      rw [hname]
      simp

theorem Trail.walkDirs_eq (h : Trail g d idx names)
    (hunique : NamesUnique g d) (hterm : NamesTerminated g d) :
    walkDirs g d 0 names = some idx := by
  induction h with
  | root => rfl
  | @enter dir idx names name before simple live inner key ih =>
      refine walkDirs_of_walkTable ?_ live.2
      rw [walkTable_concat, ih, Option.bind_some]
      exact (hunique.lookup_iff hterm name.terminated).mpr ⟨live.1, key⟩

theorem Trail.walkTable_eq (h : Trail g d idx names)
    (hunique : NamesUnique g d) (hterm : NamesTerminated g d)
    (hne : names ≠ []) : walkTable g d 0 names = some idx := by
  cases h with
  | root => exact absurd rfl hne
  | enter before simple live inner key =>
      rw [walkTable_concat, before.walkDirs_eq hunique hterm,
        Option.bind_some]
      exact (hunique.lookup_iff hterm (CString.terminated _)).mpr
        ⟨live.1, key⟩

/-! ## Steps of a run -/

/-- The table is filled from the front, no name is taken twice, and the current
directory hangs under the root by the names walked. -/
structure PathInvariant (g : Geometry) (s : ChainFS)
    (walked : List (List UInt8)) : Prop where
  names : NamesInvariant g s
  filled : ∃ n, Filled g s.disk n
  root : 0 < g.slots →
    LiveDir g s.disk 0 ∧ (entryOf s.disk 0).cname = [slash]
  trail : Trail g s.disk s.currentDirBlock walked

theorem PathInvariant.withHeap {heap : Heap} (h : PathInvariant g s walked)
    (hready : HeapReady heap) :
    PathInvariant g { s with heap := heap } walked :=
  ⟨h.names.withHeap hready, h.filled, h.root, h.trail⟩

theorem DiskInvariant.storesUnclaimed_walked (h : DiskInvariant g s)
    (hcall : WalkedCall s call code) : StoresUnclaimed g s call := by
  cases call with
  | mkdir path =>
      have hname : SimpleName path := hcall
      refine h.storesUnclaimed_mkdir fun parent name hsplit => ?_
      rw [hname.splitParent_eq] at hsplit
      cases hsplit
      exact hname.short.trans (by omega)
  | writeFile name data size =>
      exact h.storesUnclaimed_write hcall.1.noSlash hcall.1.short
  | chdir path => exact fun _ => trivial
  | deleteFile path => exact absurd hcall id
  | readFile path buffer n => exact absurd hcall id
  | rmdir path => exact absurd hcall id
  | listDir path n => exact absurd hcall id
  | init => exact absurd hcall id

theorem PathInvariant.edited (h : PathInvariant g s walked)
    (hcall : WalkedCall s call code) (hplanned : Planned g s call e)
    (hedited : Edited g s.disk s'.disk e) :
    (∃ n, Filled g s'.disk n) ∧ ¬ LiveDir g s.disk e.slot := by
  obtain ⟨n, hfilled⟩ := h.filled
  have hparent : ∀ idx parent, e.stored = some (idx, parent) →
      parent < 2 ^ 32 := fun idx parent hstored =>
    hplanned.parent_lt h.names.current hstored
  have hfree : freeSlot g s.disk = some e.slot →
      (entryOf s'.disk e.slot).status = 1 →
        (∃ n, Filled g s'.disk n) ∧ ¬ LiveDir g s.disk e.slot := by
    intro hslot hone
    have hlast := hfilled.slot_eq hslot
    rw [hlast] at hone
    exact ⟨⟨n + 1, hfilled.stored hedited hlast hone⟩,
      fun hdir => not_liveEntry_of_free hslot hdir.1⟩
  cases e with
  | clear idx =>
      rcases hplanned.clear_inv with ⟨path, rfl, -⟩ | ⟨path, rfl, -⟩ <;>
        exact absurd hcall id
  | directory idx c parent =>
      have hone := (hedited.directory_fields (hparent idx parent rfl)).1
      obtain ⟨path, plan, -, hplan, rfl, -, -⟩ := hplanned.directory_inv
      obtain ⟨p, -, -, -, hslot⟩ := mkdirPlan_some hplan
      exact hfree hslot hone
  | file idx c size parent =>
      have hone := (hedited.file_fields (hparent idx parent rfl)).1
      obtain ⟨name, data, plan, rfl, hplan, -, htarget, -, -⟩ :=
        hplanned.file_inv
      obtain ⟨hname, -, hnot, -⟩ := hcall
      obtain ⟨p, -, -, ⟨hfind, -⟩ | ⟨-, -, j, hslot, hnew⟩⟩ :=
        writePlan_some hplan
      · rw [htarget, hname.find_eq] at hfind
        obtain ⟨j, hlookup, heq⟩ := Option.map_eq_some_iff.mp hfind
        cases heq
        obtain ⟨hidx, hlive, -⟩ := lookup_some hlookup
        have hin := hfilled.live_iff.mp ⟨hidx, hlive⟩
        refine ⟨⟨n, hfilled.over hedited hin hone⟩, ?_⟩
        exact fun hdir => hname.not_directory h.names.disk.mounted hnot idx
          hlookup hdir.2
      · rw [htarget] at hnew
        cases hnew
        exact hfree hslot hone

theorem PathInvariant.directories_kept (h : PathInvariant g s walked)
    (hcall : WalkedCall s call code) (hwrap : UnwrappedCall g s call code)
    (hexec : s.exec call = .ok (s', code)) (idx : ℕ)
    (hdir : LiveDir g s.disk idx) :
    entryOf s'.disk idx = entryOf s.disk idx := by
  have hidx := hdir.1.1
  cases h.names.disk.tableStep hwrap hexec with
  | same hnone hsame => exact (hsame idx hidx).entryOf_eq
  | edited e hplanned hedited =>
      have hnot := (h.edited hcall hplanned hedited).2
      have hne : idx ≠ e.slot := by
        rintro rfl
        exact hnot hdir
      exact (hedited.other idx hidx hne).entryOf_eq

theorem PathInvariant.filled_step (h : PathInvariant g s walked)
    (hcall : WalkedCall s call code) (hwrap : UnwrappedCall g s call code)
    (hexec : s.exec call = .ok (s', code)) : ∃ n, Filled g s'.disk n := by
  cases h.names.disk.tableStep hwrap hexec with
  | same hnone hsame =>
      obtain ⟨n, hfilled⟩ := h.filled
      exact ⟨n, hfilled.same hsame⟩
  | edited e hplanned hedited => exact (h.edited hcall hplanned hedited).1

theorem PathInvariant.chdir_trail {path : CString}
    (h : PathInvariant g s walked) (hname : SimpleName path)
    (hexec : s.exec (.chdir path) = .ok (s', code)) :
    Trail g s.disk s'.currentDirBlock
      (walked ++ (chdirName (.chdir path, code)).toList) := by
  have hresult := h.names.disk.mounted.chdir_result h.names.disk.heap
    path.chars
  rw [show chainfsChdir s path.chars = (s', code) from Except.ok.inj hexec]
    at hresult
  cases hresult with
  | rejected s' hsame =>
      rw [show chdirName (.chdir path, -1) = none from rfl,
        Option.toList_none, List.append_nil, hsame.control.current]
      exact h.trail
  | moved t s' htarget hdir hsuper hstart hcurrent hdisk hheap =>
      obtain ⟨idx, rfl, -⟩ := h.names.disk.directory_slot htarget hdir
      rw [hname.resolve_eq] at htarget
      obtain ⟨j, hlookup, heq⟩ := Option.map_eq_some_iff.mp htarget
      cases heq
      obtain ⟨hlive, hkey⟩ :=
        h.names.terminated.lookup_key path.terminated hlookup
      have hmoved : s'.currentDirBlock = idx := by
        have hidx := hlive.1
        have haddr := g.addressable
        simp only [Geometry.slots] at hidx
        exact hcurrent.trans (entryIndex_slotOf (by omega))
      have hinner : idx ≠ 0 := by
        rintro rfl
        have hroot := (h.root (Nat.zero_lt_of_lt hlive.1)).2
        have hchars : (entryOf s.disk 0).cname = path.chars :=
          (Prod.ext_iff.mp hkey).2
        rw [hchars] at hroot
        apply hname.noSlash
        rw [hroot]
        exact List.mem_singleton_self slash
      rw [hmoved]
      exact .enter h.trail hname ⟨hlive, hdir⟩ hinner hkey

theorem PathInvariant.step (h : PathInvariant g s walked)
    (hcall : WalkedCall s call code) (hwrap : UnwrappedCall g s call code)
    (hexec : s.exec call = .ok (s', code)) :
    PathInvariant g s' (walked ++ (chdirName (call, code)).toList) := by
  have hkept := h.directories_kept hcall hwrap hexec
  have hunclaimed := h.names.disk.storesUnclaimed_walked hcall
  refine ⟨h.names.kept ⟨hwrap, hunclaimed⟩ hexec,
    h.filled_step hcall hwrap hexec, ?_, Trail.kept (d := s.disk) ?_ hkept⟩
  · intro hslots
    obtain ⟨hdir, hname⟩ := h.root hslots
    rw [LiveDir.congr (hkept 0 hdir), hkept 0 hdir]
    exact ⟨hdir, hname⟩
  · by_cases hchdir : ∃ path, call = .chdir path
    · obtain ⟨path, rfl⟩ := hchdir
      exact h.chdir_trail hcall hexec
    · have hinit : call.isInit = false := by
        cases call with
        | init => exact absurd hcall id
        | _ => rfl
      have hnone : chdirName (call, code) = none := by
        cases call with
        | chdir path => exact absurd ⟨path, rfl⟩ hchdir
        | _ => rfl
      rw [hnone, Option.toList_none, List.append_nil,
        (exec_control h.names.disk.mounted h.names.disk.heap hinit
          (fun path heq => hchdir ⟨path, heq⟩) hexec).current]
      exact h.trail

theorem PathInvariant.run (h : PathInvariant g s₀ []) (hwrap : g.NoWrap)
    (hrun : FsRun WalkedCall s₀ hist s) :
    PathInvariant g s (chdirNames hist) := by
  induction hrun with
  | start => exact h
  | @step hist s s' heap call code before ready meets returns ih =>
      have hlast : [(call, code)].filterMap chdirName =
          (chdirName (call, code)).toList := by
        cases hname : chdirName (call, code) <;>
          simp [hname]
      rw [chdirNames, List.filterMap_append, hlast]
      exact (ih.withHeap ready).step meets (hwrap.unwrappedCall _ _ _) returns

theorem Formatted.pathInvariant (h : Formatted totalBlocks maxFiles s) :
    PathInvariant (formatGeometry totalBlocks maxFiles) s [] := by
  obtain ⟨hfresh, -, -, hcurrent, -⟩ := h.fresh
  refine ⟨h.namesInvariant, ⟨_, h.filled⟩, ?_, ?_⟩
  · intro hslots
    have hentry := (hfresh.entries hslots).1 rfl
    obtain ⟨hone, htype, -⟩ := formatRootSector_root
    rw [← hentry] at hone htype
    refine ⟨⟨⟨hslots, hone⟩, htype⟩, ?_⟩
    rw [hentry]
    exact formatRootSector_name
  · rw [hcurrent]
    exact .root

/-! ## The path -/

theorem Filled.entriesInUse_eq (h : Filled g d n) : entriesInUse g d = n := by
  have hset : ((Finset.range g.slots).filter
      fun idx => (entryOf d idx).status = 1) = Finset.range n := by
    ext idx
    rw [Finset.mem_filter, Finset.mem_range, Finset.mem_range]
    exact h.live_iff
  rw [entriesInUse, hset, Finset.card_range]

theorem PathInvariant.below_files (h : PathInvariant g s walked)
    (huse : entriesInUse g s.disk ≤ s.totalFiles) (idx : ℕ)
    (hdir : LiveDir g s.disk idx) : idx < s.totalFiles := by
  obtain ⟨n, hfilled⟩ := h.filled
  have hidx := hfilled.live_iff.mp hdir.1
  rw [hfilled.entriesInUse_eq] at huse
  omega

theorem PathInvariant.printed (h : PathInvariant g s walked)
    (hslots : g.slots < 0xFFFFFFFF)
    (huse : entriesInUse g s.disk ≤ s.totalFiles)
    (hshort : (joinedPath walked).length < chainfsMaxPath) :
    ∃ m, chainfsGetCurrentPath s chainfsMaxPath =
      .ok ({ s with sectorBuffer := m }, some (joinedPath walked)) := by
  have hroot := h.names.disk.mounted.root
  have htrail := h.trail
  unfold chainfsGetCurrentPath
  by_cases hcurrent : s.currentDirBlock = 0
  · rw [hcurrent] at htrail
    rw [hroot, if_pos hcurrent, htrail.names_root]
    exact ⟨s.sectorBuffer, rfl⟩
  · obtain ⟨visited, hwalk, htext⟩ := htrail.walk hroot hslots
      (h.below_files huse)
    have hne : walked ≠ [] := by
      rintro rfl
      exact hcurrent htrail.eq_root
    have htext := htext []
    rw [List.append_nil, ← joinedPath_eq hne] at htext
    rw [← htext] at hshort
    have hfuel : chainfsMaxPath <
        chainfsMaxPath + 1 + ([] : List UInt8).length := by simp
    obtain ⟨m, hloop⟩ := currentPathLoop_eq hwalk hshort hfuel
    rw [hroot, if_neg hcurrent, hloop, htext]
    rw [htext] at hshort
    have hcons : joinedPath walked ≠ [] := List.cons_ne_nil _ _
    refine ⟨m, ?_⟩
    dsimp only
    rw [if_neg hcons, if_pos hshort]

theorem PathInvariant.resolved (h : PathInvariant g s walked)
    (hpos : 1 ≤ walked.length) (hcount : walked.length ≤ 16)
    (current : ℕ) :
    (chainfsResolvePath { s with currentDirBlock := current }
      (joinedPath walked)).2 = some (foundAt s.disk s.currentDirBlock) := by
  have hne : walked ≠ [] := List.ne_nil_of_length_pos hpos
  have hsimple := h.trail.simple
  have hcomponents : pathComponents (joinedPath walked) = walked :=
    pathComponents_joinedPath
      (fun c hc => ⟨(hsimple c hc).1, (hsimple c hc).2.2⟩) hne
  have hsplit : splitPath (joinedPath walked) = walked := by
    rw [splitPath_eq_components, hcomponents]
    · rw [hcomponents]
      exact hcount
    · rw [hcomponents]
      exact fun c hc => (hsimple c hc).2.1.trans (by omega)
  have hmounted : Mounted g { s with currentDirBlock := current } :=
    h.names.disk.mounted.of_same rfl rfl
  have hhead : (joinedPath walked).head? = some slash := rfl
  obtain ⟨m, hresolve⟩ := hmounted.resolvePath_eq (joinedPath walked)
  rw [hresolve, resolveTable, hsplit, if_neg (fun hboth => hne hboth.1),
    if_pos hhead, h.trail.walkTable_eq h.names.unique h.names.terminated hne]
  rfl

theorem formatGeometry_slots_lt (totalBlocks maxFiles : ℕ) :
    (formatGeometry totalBlocks maxFiles).slots < 0xFFFFFFFF := by
  have htable := (formatTableBlocks_lt maxFiles).2
  show 8 * formatTableBlocks maxFiles < 0xFFFFFFFF
  omega

/-- `chainfs_get_current_path` returns the names of the successful changes of
directory since the format, and from any directory its text resolves to the
current one. -/
theorem printed_path_walked (hformat : Formatted totalBlocks maxFiles s₀)
    (hfits : 1 + formatTableBlocks maxFiles +
      formatMapBlocks totalBlocks maxFiles ≤ totalBlocks)
    (hrun : FsRun WalkedCall s₀ hist s)
    (huse : entriesInUse (formatGeometry totalBlocks maxFiles) s.disk ≤
      s.totalFiles)
    (hshort : (joinedPath (chdirNames hist)).length < 256) :
    (∃ m, chainfsGetCurrentPath s 256 = .ok ({ s with sectorBuffer := m },
      some (joinedPath (chdirNames hist)))) ∧
    (1 ≤ (chdirNames hist).length → (chdirNames hist).length ≤ 16 →
      ∀ current, (chainfsResolvePath { s with currentDirBlock := current }
        (joinedPath (chdirNames hist))).2 =
          some (foundAt s.disk s.currentDirBlock)) := by
  have hwrap := formatGeometry_noWrap totalBlocks maxFiles hformat.1 hfits
  have hinv := hformat.pathInvariant.run hwrap hrun
  exact ⟨hinv.printed (formatGeometry_slots_lt _ _) huse hshort,
    hinv.resolved⟩

instance (s : ChainFS) (call : FsCall) (code : ℤ) :
    Decidable (WalkedCall s call code) :=
  match call with
  | .mkdir path => inferInstanceAs (Decidable (SimpleName path))
  | .chdir path => inferInstanceAs (Decidable (SimpleName path))
  | .writeFile name _ size => inferInstanceAs (Decidable (SimpleName name ∧
      size ≤ 2 ^ 32 - 512 ∧ ¬ DenotesDirectory s name.chars ∧ code = 0))
  | .deleteFile _ | .readFile _ _ _ | .rmdir _ | .listDir _ _ | .init =>
      inferInstanceAs (Decidable False)

/-- A directory `a`, a file and a second directory `a` in it. -/
theorem printed_path_walked_smallDisk : ∃ hist s,
    FsRun WalkedCall smallDisk hist s ∧ chdirNames hist = [[97], [97]] ∧
      (∃ m, chainfsGetCurrentPath s 256 = .ok ({ s with sectorBuffer := m },
        some [47, 97, 47, 97])) ∧
      (chainfsResolvePath { s with currentDirBlock := 0 }
        [47, 97, 47, 97]).2 = some (foundAt s.disk 3) := by
  have hcodes : (smallDisk.checkRun
      (fun s call code => decide (WalkedCall s call code))
      (initHeap unbootedHeap)
      [.mkdir ⟨[97], by decide⟩, .chdir ⟨[97], by decide⟩,
        .writeFile ⟨[98], by decide⟩ (fun _ => 1) 3,
        .mkdir ⟨[97], by decide⟩, .chdir ⟨[97], by decide⟩]).map
        (fun r => (r.1, r.2.currentDirBlock,
          decide (entriesInUse (formatGeometry 20 8) r.2.disk ≤
            r.2.totalFiles))) = some ([0, 0, 0, 0, 0], 3, true) := by
    decide +kernel
  obtain ⟨codes, s, hrun, heq⟩ :=
    checkRun_run (P := WalkedCall) blankDrive_ready
      (fun _ _ _ htest => of_decide_eq_true htest) hcodes
  simp only [Prod.mk.injEq, decide_eq_true_eq] at heq
  obtain ⟨rfl, hcurrent, huse⟩ := heq
  obtain ⟨hprinted, hresolved⟩ :=
    printed_path_walked smallDisk_formatted (by decide) hrun huse (by decide)
  have hresolved := hresolved (by decide) (by decide) 0
  rw [hcurrent] at hresolved
  exact ⟨_, s, hrun, rfl, hprinted, hresolved⟩

end Otsos
