import Otsos.ChainFS.AnyDiskReads
import Otsos.ChainFS.CurrentPath

/-!
# The arrays that paths are copied into

The operations on paths copy names into local arrays of fixed sizes and into
the name field of an entry, most of them by `strcpy` and `strcat`, which do not
know how long the array is.  Here are the indices they write, in their order,
as if the arrays had no end; what comes after the first index outside is
without meaning.
-/

namespace Otsos

open Lib

/-- A write into one of the arrays `file_name[32]`, `dir_name[32]`,
`parent_path[256]`, `components[16][32]`, `name[30]` of an entry,
`new_name[256]` and `temp_path[256]`. -/
inductive ArrayWrite where
  | fileName (i : ℕ)
  | dirName (i : ℕ)
  | parentPath (i : ℕ)
  | component (row i : ℕ)
  | entryName (i : ℕ)
  | newName (i : ℕ)
  | tempPath (i : ℕ)
deriving DecidableEq

def ArrayWrite.Inside : ArrayWrite → Prop
  | .fileName i => i < 32
  | .dirName i => i < 32
  | .parentPath i => i < chainfsMaxPath
  | .component row i => row < 16 ∧ i < 32
  | .entryName i => i < 30
  | .newName i => i < chainfsMaxPath
  | .tempPath i => i < chainfsMaxPath

def WritesInside (ws : List ArrayWrite) : Prop := ∀ w ∈ ws, w.Inside

/-! ## The copies -/

/-- `strcpy`, or `strcat` behind `start` characters. -/
def strcpyWrites (array : ℕ → ArrayWrite) (start : ℕ) (src : List UInt8) :
    List ArrayWrite :=
  (List.range (src.length + 1)).map fun i => array (start + i)

/-- `for (i = 0; i < n; i++)`. -/
def loopWrites (array : ℕ → ArrayWrite) (n : ℕ) : List ArrayWrite :=
  (List.range n).map array

/-- The components that `split_path` keeps, each with its terminator. -/
def splitPathWrites (path : List UInt8) : List ArrayWrite :=
  (splitPath path).zipIdx.flatMap fun c => strcpyWrites (.component c.2) 0 c.1

def resolvePathWrites (path : List UInt8) : List ArrayWrite :=
  splitPathWrites path

def findFileWrites (filename : List UInt8) : List ArrayWrite :=
  if slash ∈ filename then resolvePathWrites filename else []

/-- The copies of the directory and of the last name in
`chainfs_write_file`. -/
def writeSplitWrites (filename : List UInt8) : List ArrayWrite :=
  match lastSlash filename with
  | none => strcpyWrites .fileName 0 filename
  | some 0 => strcpyWrites .fileName 0 (filename.drop 1)
  | some (k + 1) =>
      strcpyWrites .parentPath 0 (filename.take (k + 1)) ++
        strcpyWrites .fileName 0 (filename.drop (k + 2))

/-- The copies of the directory and of the last name in `chainfs_mkdir`. -/
def mkdirSplitWrites (path : List UInt8) : List ArrayWrite :=
  match lastSlash path with
  | none => .parentPath 0 :: strcpyWrites .dirName 0 path
  | some 0 =>
      .parentPath 0 :: .parentPath 1 :: strcpyWrites .dirName 0 (path.drop 1)
  | some (k + 1) =>
      strcpyWrites .parentPath 0 (path.take (k + 1)) ++
        strcpyWrites .dirName 0 (path.drop (k + 2))

def writeParentWrites : ParentPath → List ArrayWrite
  | .current => []
  | .root => []
  | .path chars => resolvePathWrites chars

def mkdirParentWrites : ParentPath → List ArrayWrite
  | .current => []
  | .root => resolvePathWrites [slash]
  | .path chars => resolvePathWrites chars

/-! ## The calls -/

/-- The entry is filled in last, by the calls that return 0. -/
def writeFileWrites (s : ChainFS) (filename : List UInt8) (data : Memory)
    (size : ℕ) : List ArrayWrite :=
  findFileWrites filename ++ writeSplitWrites filename ++
    match splitParent filename with
    | .error _ => []
    | .ok (parent, fileName) =>
        writeParentWrites parent ++
          match chainfsWriteFile s filename data size with
          | .error _ => []
          | .ok (_, code) =>
              if code = 0 then
                loopWrites .entryName 30 ++
                  loopWrites .entryName (min fileName.length 29)
              else []

/-- From the search for the parent on. -/
def mkdirEntryWrites (s : ChainFS) (parent : ParentPath)
    (dirName : List UInt8) : List ArrayWrite :=
  match mkdirParent s parent with
  | (_, none) => []
  | (s, some parentBlock) =>
      match chainfsFindInDirectory s parentBlock dirName with
      | (_, some _) => []
      | (s, none) =>
          match chainfsFindFreeFileEntry s with
          | (_, .error _) => []
          | (_, .ok _) => strcpyWrites .entryName 0 dirName

def mkdirWrites (s : ChainFS) (path : List UInt8) : List ArrayWrite :=
  mkdirSplitWrites path ++
    match splitParent path with
    | .error _ => []
    | .ok (parent, dirName) =>
        mkdirParentWrites parent ++ mkdirEntryWrites s parent dirName

/-- `if (strlen(temp_path) == 0) strcpy(temp_path, "/")`. -/
def topWrites (tempPath : List UInt8) : List ArrayWrite :=
  if tempPath = [] then strcpyWrites .tempPath 0 [slash] else []

/-- One iteration, for an entry with the name `name`. -/
def passWrites (name tempPath : List UInt8) : List ArrayWrite :=
  .newName 0 :: strcpyWrites .newName 1 name ++
    strcpyWrites .newName (1 + name.length) tempPath ++
      strcpyWrites .tempPath 0 (slash :: name ++ tempPath)

/-- The first `fuel` iterations of the loop of `chainfs_get_current_path`. -/
def currentPathLoopWrites (s : ChainFS) :
    ℕ → ℕ → List UInt8 → List ArrayWrite
  | 0, _, _ => []
  | fuel + 1, currentIdx, tempPath =>
      if currentIdx = s.rootDirBlock ∨ currentIdx = 0xFFFFFFFF then
        topWrites tempPath
      else
        match readEntryByIndex s currentIdx with
        | (_, none) => topWrites tempPath
        | (s, some entry) =>
            passWrites entry.nameString tempPath ++
              currentPathLoopWrites s fuel entry.parentBlock
                (slash :: entry.nameString ++ tempPath)

def currentPathWrites (s : ChainFS) (fuel : ℕ) : List ArrayWrite :=
  if s.currentDirBlock = s.rootDirBlock then []
  else .tempPath 0 :: currentPathLoopWrites s fuel s.currentDirBlock []

/-! ## When they stay inside -/

def afterSlash (path : List UInt8) : List UInt8 :=
  match lastSlash path with
  | none => path
  | some k => path.drop (k + 1)

def beforeSlash (path : List UInt8) : List UInt8 :=
  match lastSlash path with
  | none => []
  | some k => path.take k

/-- There is room for the last name and for the directory before it. -/
def SplitFits (path : List UInt8) : Prop :=
  (afterSlash path).length ≤ 31 ∧ (beforeSlash path).length ≤ 255

/-- The directory is found, does not have the name yet, and there is a free
entry. -/
def MkdirStores (s : ChainFS) (path : List UInt8) : Prop :=
  ∃ parent dirName parentBlock slot,
    splitParent path = .ok (parent, dirName) ∧
      (mkdirParent s parent).2 = some parentBlock ∧
      (chainfsFindInDirectory s parentBlock dirName).2 = none ∧
      (chainfsFindFreeFileEntry s).2 = .ok slot

/-- The parents lead to an end, and the names on the way, each with a `'/'`,
have no more than 255 characters together. -/
def CurrentPathFits (s : ChainFS) : Prop :=
  ∃ fuel visited, parentWalk s fuel s.currentDirBlock = some visited ∧
    (visited.map fun idx => (entryOf s.disk idx).nameString.length + 1).sum ≤
      255

variable {s : ChainFS} {array : ℕ → ArrayWrite} {idx n start : ℕ}
  {path src name temp : List UInt8} {ws ws' : List ArrayWrite}
  {visited : List ℕ}

theorem writesInside_append :
    WritesInside (ws ++ ws') ↔ WritesInside ws ∧ WritesInside ws' :=
  List.forall_mem_append

theorem writesInside_cons {w : ArrayWrite} :
    WritesInside (w :: ws) ↔ w.Inside ∧ WritesInside ws :=
  List.forall_mem_cons

theorem writesInside_nil : WritesInside [] := by
  rintro w ⟨⟩

/-- A string is copied inside exactly if its terminator is. -/
theorem strcpyWrites_inside (harray : ∀ i, (array i).Inside ↔ i < n) :
    WritesInside (strcpyWrites array start src) ↔ start + src.length < n := by
  constructor
  · intro h
    exact (harray _).mp (h (array (start + src.length)) (List.mem_map.mpr
      ⟨src.length, List.mem_range.mpr (Nat.lt_succ_self _), rfl⟩))
  · intro h w hw
    obtain ⟨i, hi, rfl⟩ := List.mem_map.mp hw
    have hi := List.mem_range.mp hi
    exact (harray _).mpr (by omega)

theorem strcpyWrites_fits (harray : ∀ i, (array i).Inside ↔ i < n + 1) :
    WritesInside (strcpyWrites array 0 src) ↔ src.length ≤ n := by
  rw [strcpyWrites_inside harray]
  omega

theorem loopWrites_inside {k : ℕ} (harray : ∀ i, (array i).Inside ↔ i < n)
    (hk : k ≤ n) : WritesInside (loopWrites array k) := by
  intro w hw
  obtain ⟨i, hi, rfl⟩ := List.mem_map.mp hw
  exact (harray i).mpr ((List.mem_range.mp hi).trans_le hk)

/-- `split_path` keeps at most 16 components of at most 30 characters. -/
theorem splitPathWrites_inside (path : List UInt8) :
    WritesInside (splitPathWrites path) := by
  intro w hw
  obtain ⟨⟨c, row⟩, hc, hw⟩ := List.mem_flatMap.mp hw
  have hrow : row < 16 := by
    have hlt := (List.mem_zipIdx hc).2.1
    have hlen : (splitPath path).length ≤ 16 := by
      rw [splitPath_components]
      exact List.length_take_le _ _
    omega
  have hshort : c.length < 31 := by
    have hmem := List.fst_mem_of_mem_zipIdx hc
    rw [splitPath_components] at hmem
    have htest := List.of_mem_filter (List.mem_of_mem_take hmem)
    simpa using htest
  have harray : ∀ i, (ArrayWrite.component row i).Inside ↔ i < 32 :=
    fun i => and_iff_right hrow
  exact (strcpyWrites_inside harray).mpr
    (show 0 + c.length < 32 by omega) w hw

theorem writeSplitWrites_inside :
    WritesInside (writeSplitWrites path) ↔ SplitFits path := by
  have hname : ∀ cs, WritesInside (strcpyWrites .fileName 0 cs) ↔
      cs.length ≤ 31 := fun cs => strcpyWrites_fits fun i => Iff.rfl
  have hparent : ∀ cs, WritesInside (strcpyWrites .parentPath 0 cs) ↔
      cs.length ≤ 255 := fun cs => strcpyWrites_fits fun i => Iff.rfl
  unfold writeSplitWrites SplitFits afterSlash beforeSlash
  match lastSlash path with
  | none => simp [hname]
  | some 0 => simp [hname]
  | some (k + 1) =>
      dsimp only
      rw [writesInside_append, hname, hparent, and_comm]

theorem mkdirSplitWrites_inside :
    WritesInside (mkdirSplitWrites path) ↔ SplitFits path := by
  have hname : ∀ cs, WritesInside (strcpyWrites .dirName 0 cs) ↔
      cs.length ≤ 31 := fun cs => strcpyWrites_fits fun i => Iff.rfl
  have hparent : ∀ cs, WritesInside (strcpyWrites .parentPath 0 cs) ↔
      cs.length ≤ 255 := fun cs => strcpyWrites_fits fun i => Iff.rfl
  have hzero : (ArrayWrite.parentPath 0).Inside :=
    show 0 < chainfsMaxPath by decide
  have hone : (ArrayWrite.parentPath 1).Inside :=
    show 1 < chainfsMaxPath by decide
  unfold mkdirSplitWrites SplitFits afterSlash beforeSlash
  match lastSlash path with
  | none => simp [hname, writesInside_cons, hzero]
  | some 0 => simp [hname, writesInside_cons, hzero, hone]
  | some (k + 1) =>
      dsimp only
      rw [writesInside_append, hname, hparent, and_comm]

/-- The copies of a path overflow where the model stops with a fault. -/
theorem splitParent_ok_iff :
    (∃ split, splitParent path = .ok split) ↔ SplitFits path := by
  have hcopy : ∀ (parent : ParentPath) cs, (∃ split,
      (copyName cs).map (fun name => (parent, name)) = .ok split) ↔
        cs.length ≤ 31 := by
    intro parent cs
    unfold copyName
    by_cases hshort : cs.length < 32
    · rw [if_pos hshort]
      exact iff_of_true ⟨_, rfl⟩ (by omega)
    · rw [if_neg hshort]
      refine iff_of_false ?_ (by omega)
      rintro ⟨_, hok⟩
      cases hok
  unfold splitParent SplitFits afterSlash beforeSlash
  match hslash : lastSlash path with
  | none => simp [hcopy]
  | some 0 => simp [hcopy]
  | some (k + 1) =>
      have hmem := List.mem_of_find?_eq_some hslash
      rw [List.mem_reverse, List.mem_range] at hmem
      dsimp only
      rw [List.length_take, Nat.min_eq_left (by omega)]
      by_cases hshort : k + 1 < chainfsMaxPath
      · rw [if_pos hshort, hcopy]
        exact (and_iff_left (show k + 1 ≤ 255 from Nat.le_of_lt_succ hshort)).symm
      · rw [if_neg hshort]
        refine iff_of_false ?_ ?_
        · rintro ⟨_, hok⟩
          cases hok
        · rintro ⟨-, hle⟩
          exact hshort (Nat.lt_succ_of_le hle)

theorem writeParentWrites_inside (parent : ParentPath) :
    WritesInside (writeParentWrites parent) := by
  cases parent with
  | current => exact writesInside_nil
  | root => exact writesInside_nil
  | path chars => exact splitPathWrites_inside chars

theorem mkdirParentWrites_inside (parent : ParentPath) :
    WritesInside (mkdirParentWrites parent) := by
  cases parent with
  | current => exact writesInside_nil
  | root => exact splitPathWrites_inside [slash]
  | path chars => exact splitPathWrites_inside chars

theorem writeFileWrites_inside (s : ChainFS) (path : List UInt8)
    (data : Memory) (size : ℕ) :
    WritesInside (writeFileWrites s path data size) ↔ SplitFits path := by
  have hfind : WritesInside (findFileWrites path) := by
    unfold findFileWrites
    by_cases hslash : slash ∈ path
    · rw [if_pos hslash]
      exact splitPathWrites_inside path
    · rw [if_neg hslash]
      exact writesInside_nil
  have hentry : ∀ k ≤ 30, WritesInside (loopWrites .entryName k) :=
    fun k hk => loopWrites_inside (n := 30) (fun i => Iff.rfl) hk
  rw [writeFileWrites, writesInside_append, writesInside_append,
    writeSplitWrites_inside]
  refine ⟨fun h => h.1.2, fun hfits => ⟨⟨hfind, hfits⟩, ?_⟩⟩
  cases splitParent path with
  | error fault => exact writesInside_nil
  | ok split =>
      obtain ⟨parent, fileName⟩ := split
      refine writesInside_append.mpr ⟨writeParentWrites_inside parent, ?_⟩
      cases chainfsWriteFile s path data size with
      | error fault => exact writesInside_nil
      | ok r =>
          by_cases hcode : r.2 = 0
          · dsimp only
            rw [if_pos hcode]
            exact writesInside_append.mpr
              ⟨hentry 30 le_rfl, hentry _ (by omega)⟩
          · dsimp only
            rw [if_neg hcode]
            exact writesInside_nil

theorem mkdirParent_state (s : ChainFS) (parent : ParentPath) :
    ∃ m, (mkdirParent s parent).1 = { s with sectorBuffer := m } := by
  have hsector : ∀ chars, ∃ m,
      (directorySector s chars).1 = { s with sectorBuffer := m } := by
    intro chars
    obtain ⟨⟨m, hstate⟩, -⟩ := resolvePath_searched s chars
    unfold directorySector
    cases hresolve : chainfsResolvePath s chars with
    | mk s₁ found =>
        rw [hresolve] at hstate
        cases hstate
        cases found with
        | none => exact ⟨m, rfl⟩
        | some f =>
            by_cases htype : f.entry.type ≠ chainfsTypeDir
            · simp only [if_pos htype]
              exact ⟨m, rfl⟩
            · simp only [if_neg htype]
              exact ⟨m, rfl⟩
  cases parent with
  | current => exact ⟨s.sectorBuffer, rfl⟩
  | root => exact hsector [slash]
  | path chars => exact hsector chars

theorem findInDirectory_buffer (s : ChainFS) (m : Memory) (dir : ℕ)
    (name : List UInt8) :
    (chainfsFindInDirectory { s with sectorBuffer := m } dir name).2 =
      (chainfsFindInDirectory s dir name).2 := by
  obtain ⟨m₁, hfind₁⟩ :=
    findInDirectory_eq { s with sectorBuffer := m } dir name
  obtain ⟨m₂, hfind₂⟩ := findInDirectory_eq s dir name
  rw [hfind₁, hfind₂]
  rfl

theorem findFreeFileEntry_buffer (s : ChainFS) (m : Memory) :
    (chainfsFindFreeFileEntry { s with sectorBuffer := m }).2 =
      (chainfsFindFreeFileEntry s).2 := by
  by_cases hmagic : s.magic = chainfsMagic
  · obtain ⟨m₁, hfree₁⟩ :=
      @findFreeFileEntry_eq { s with sectorBuffer := m } hmagic
    obtain ⟨m₂, hfree₂⟩ := findFreeFileEntry_eq hmagic
    rw [hfree₁, hfree₂]
    rfl
  · have hmagic' : ({ s with sectorBuffer := m } : ChainFS).magic ≠
        chainfsMagic := hmagic
    unfold chainfsFindFreeFileEntry
    rw [if_pos hmagic, if_pos hmagic']

theorem mkdirEntryWrites_inside {parent : ParentPath} {dirName : List UInt8}
    (hsplit : splitParent path = .ok (parent, dirName)) :
    WritesInside (mkdirEntryWrites s parent dirName) ↔
      (MkdirStores s path → dirName.length ≤ 29) := by
  have hname : WritesInside (strcpyWrites .entryName 0 dirName) ↔
      dirName.length ≤ 29 := strcpyWrites_fits fun i => Iff.rfl
  have hstores : MkdirStores s path ↔ ∃ parentBlock slot,
      (mkdirParent s parent).2 = some parentBlock ∧
        (chainfsFindInDirectory s parentBlock dirName).2 = none ∧
        (chainfsFindFreeFileEntry s).2 = .ok slot := by
    simp only [MkdirStores, hsplit, Except.ok.injEq, Prod.mk.injEq]
    constructor
    · rintro ⟨_, _, parentBlock, slot, ⟨rfl, rfl⟩, hrest⟩
      exact ⟨parentBlock, slot, hrest⟩
    · rintro ⟨parentBlock, slot, hrest⟩
      exact ⟨parent, dirName, parentBlock, slot, ⟨rfl, rfl⟩, hrest⟩
  rw [hstores]
  unfold mkdirEntryWrites
  obtain ⟨m, hstate⟩ := mkdirParent_state s parent
  cases hparent : mkdirParent s parent with
  | mk s₁ parentBlock =>
      rw [hparent] at hstate
      cases hstate
      cases parentBlock with
      | none =>
          refine iff_of_true writesInside_nil ?_
          rintro ⟨_, _, hnone, -⟩
          cases hnone
      | some parentBlock =>
          have hfind := findInDirectory_buffer s m parentBlock dirName
          obtain ⟨⟨m₂, hstate₂⟩, -⟩ := findInDirectory_searched
            { s with sectorBuffer := m } parentBlock dirName
          cases hfound : chainfsFindInDirectory { s with sectorBuffer := m }
              parentBlock dirName with
          | mk s₂ found =>
              rw [hfound] at hfind hstate₂
              cases hstate₂
              have hfree := findFreeFileEntry_buffer s m₂
              cases found with
              | some f =>
                  dsimp only
                  rw [hfound]
                  refine iff_of_true writesInside_nil ?_
                  rintro ⟨_, _, hsome, hnone, -⟩
                  cases hsome
                  rw [← hfind] at hnone
                  cases hnone
              | none =>
                  dsimp only
                  rw [hfound]
                  cases hslot : chainfsFindFreeFileEntry
                      { s with sectorBuffer := m₂ } with
                  | mk s₃ slot =>
                      rw [hslot] at hfree
                      dsimp only
                      rw [hslot]
                      cases slot with
                      | error code =>
                          refine iff_of_true writesInside_nil ?_
                          rintro ⟨_, _, -, -, hok⟩
                          rw [← hfree] at hok
                          cases hok
                      | ok slot =>
                          refine hname.trans ⟨fun hlen _ => hlen, ?_⟩
                          intro hlen
                          exact hlen
                            ⟨parentBlock, slot, rfl, hfind.symm, hfree.symm⟩

theorem splitParent_afterSlash {parent : ParentPath}
    (h : splitParent path = .ok (parent, name)) : name = afterSlash path := by
  unfold splitParent at h
  unfold afterSlash
  match hslash : lastSlash path with
  | none =>
      rw [hslash] at h
      exact (copyName_inv h).2
  | some 0 =>
      rw [hslash] at h
      exact (copyName_inv h).2
  | some (k + 1) =>
      simp only [hslash] at h
      by_cases hshort : k + 1 < chainfsMaxPath
      · rw [if_pos hshort] at h
        exact (copyName_inv h).2
      · rw [if_neg hshort] at h
        cases h

theorem mkdirWrites_inside (s : ChainFS) (path : List UInt8) :
    WritesInside (mkdirWrites s path) ↔
      SplitFits path ∧
        (MkdirStores s path → (afterSlash path).length ≤ 29) := by
  rw [mkdirWrites, writesInside_append, mkdirSplitWrites_inside]
  refine and_congr_right fun _ => ?_
  cases hsplit : splitParent path with
  | error fault =>
      refine iff_of_true writesInside_nil ?_
      rintro ⟨parent, dirName, -, -, hok, -⟩
      rw [hsplit] at hok
      cases hok
  | ok split =>
      obtain ⟨parent, dirName⟩ := split
      dsimp only
      rw [writesInside_append, and_iff_right (mkdirParentWrites_inside parent),
        mkdirEntryWrites_inside hsplit, splitParent_afterSlash hsplit]

/-! ## The current path -/

theorem topWrites_inside : WritesInside (topWrites temp) := by
  unfold topWrites
  by_cases hempty : temp = []
  · rw [if_pos hempty, strcpyWrites_inside (n := 256) fun i => Iff.rfl]
    decide
  · rw [if_neg hempty]
    exact writesInside_nil

theorem passWrites_inside : WritesInside (passWrites name temp) ↔
    temp.length + (name.length + 1) ≤ 255 := by
  have hnew : ∀ k cs, WritesInside (strcpyWrites .newName k cs) ↔
      k + cs.length < 256 :=
    fun k cs => strcpyWrites_inside fun i => Iff.rfl
  have htemp : ∀ cs, WritesInside (strcpyWrites .tempPath 0 cs) ↔
      0 + cs.length < 256 :=
    fun cs => strcpyWrites_inside fun i => Iff.rfl
  have hzero : (ArrayWrite.newName 0).Inside :=
    show 0 < chainfsMaxPath by decide
  rw [passWrites, writesInside_append, writesInside_append, writesInside_cons,
    hnew, hnew, htemp, and_iff_right hzero, List.length_append,
    List.length_cons]
  omega

theorem currentPathLoopWrites_none (fuel : ℕ) (h : s.up idx = none) :
    currentPathLoopWrites s (fuel + 1) idx temp = topWrites temp := by
  rw [currentPathLoopWrites]
  by_cases htop : idx = s.rootDirBlock ∨ idx = 0xFFFFFFFF
  · rw [if_pos htop]
  · have hfile : s.totalFiles ≤ idx := by
      have hcases := up_none.mp h
      tauto
    rw [if_neg htop, readEntryByIndex_none hfile]

theorem currentPathLoopWrites_buffer (s : ChainFS) (m : Memory)
    (fuel idx : ℕ) (temp : List UInt8) :
    currentPathLoopWrites { s with sectorBuffer := m } fuel idx temp =
      currentPathLoopWrites s fuel idx temp := by
  cases fuel with
  | zero => rfl
  | succ fuel =>
      rw [currentPathLoopWrites, currentPathLoopWrites]
      by_cases hfile : s.totalFiles ≤ idx
      · rw [readEntryByIndex_none hfile,
          @readEntryByIndex_none { s with sectorBuffer := m } idx hfile]
        rfl
      · have hread : readEntryByIndex { s with sectorBuffer := m } idx =
            readEntryByIndex s idx := by
          unfold readEntryByIndex
          rw [if_neg hfile, if_neg (by exact hfile)]
          rfl
        rw [hread]
        rfl

theorem currentPathLoopWrites_some {parent : ℕ} (fuel : ℕ)
    (h : s.up idx = some parent) :
    currentPathLoopWrites s (fuel + 1) idx temp =
      passWrites (entryOf s.disk idx).nameString temp ++
        currentPathLoopWrites s fuel parent
          (slash :: (entryOf s.disk idx).nameString ++ temp) := by
  obtain ⟨hfile, rfl⟩ := up_some h
  obtain ⟨m, hread⟩ := readEntryByIndex_some hfile
  rw [currentPathLoopWrites, if_neg (up_some_inner h), hread]
  dsimp only
  rw [currentPathLoopWrites_buffer]
  rfl

theorem currentPathLoopWrites_inside (fuel : ℕ) (h : Walk s.up idx visited)
    (hfits : (pathText s.disk temp visited).length ≤ 255) :
    WritesInside (currentPathLoopWrites s fuel idx temp) := by
  induction visited generalizing idx temp fuel with
  | nil =>
      cases fuel with
      | zero => exact writesInside_nil
      | succ fuel =>
          cases h with
          | stop hstop =>
              rw [currentPathLoopWrites_none fuel hstop]
              exact topWrites_inside
  | cons j visited ih =>
      cases fuel with
      | zero => exact writesInside_nil
      | succ fuel =>
          cases h with
          | pass hpass rest =>
              have hrest : (pathText s.disk
                  (slash :: (entryOf s.disk j).nameString ++ temp)
                  visited).length ≤ 255 := hfits
              have hlong := length_le_pathText s.disk
                (slash :: (entryOf s.disk j).nameString ++ temp) visited
              rw [List.length_append, List.length_cons] at hlong
              rw [currentPathLoopWrites_some fuel hpass]
              exact writesInside_append.mpr
                ⟨passWrites_inside.mpr (by omega), ih fuel rest hrest⟩

/-- If all iterations write inside then there are only finitely many, since
each makes the path longer. -/
theorem walk_of_writesInside (htemp : temp.length ≤ 255)
    (hinside : ∀ fuel, WritesInside (currentPathLoopWrites s fuel idx temp)) :
    ∃ visited, Walk s.up idx visited ∧
      (pathText s.disk temp visited).length ≤ 255 := by
  induction hroom : 255 - temp.length using Nat.strong_induction_on
    generalizing idx temp with
  | _ room ih =>
      cases hup : s.up idx with
      | none => exact ⟨[], .stop hup, htemp⟩
      | some parent =>
          let newName := slash :: (entryOf s.disk idx).nameString ++ temp
          have hlen : newName.length =
              (entryOf s.disk idx).nameString.length + 1 + temp.length := by
            simp only [newName, List.length_append, List.length_cons]
          have hpass : temp.length +
              ((entryOf s.disk idx).nameString.length + 1) ≤ 255 := by
            have hfirst := hinside 1
            rw [currentPathLoopWrites_some 0 hup] at hfirst
            exact passWrites_inside.mp (writesInside_append.mp hfirst).1
          have hrest : ∀ fuel,
              WritesInside (currentPathLoopWrites s fuel parent newName) := by
            intro fuel
            have hnext := hinside (fuel + 1)
            rw [currentPathLoopWrites_some fuel hup] at hnext
            exact (writesInside_append.mp hnext).2
          obtain ⟨visited, hwalk, hfits⟩ :=
            ih (255 - newName.length) (by omega) (by omega) hrest rfl
          exact ⟨idx :: visited, .pass hup hwalk, hfits⟩

theorem currentPathFits_iff : CurrentPathFits s ↔ ∃ visited,
    Walk s.up s.currentDirBlock visited ∧
      (pathText s.disk [] visited).length ≤ 255 := by
  constructor
  · rintro ⟨fuel, visited, hwalk, hsum⟩
    refine ⟨visited, parentWalk_iff.mp ⟨fuel, hwalk⟩, ?_⟩
    rwa [length_pathText, List.length_nil, Nat.zero_add]
  · rintro ⟨visited, hwalk, hlen⟩
    obtain ⟨fuel, hfuel⟩ := parentWalk_iff.mpr hwalk
    rw [length_pathText, List.length_nil, Nat.zero_add] at hlen
    exact ⟨fuel, visited, hfuel, hlen⟩

theorem currentPathWrites_inside (s : ChainFS) :
    (∀ fuel, WritesInside (currentPathWrites s fuel)) ↔
      CurrentPathFits s := by
  rw [currentPathFits_iff]
  by_cases hroot : s.currentDirBlock = s.rootDirBlock
  · refine iff_of_true ?_
      ⟨[], .stop (up_none.mpr (Or.inl hroot)), Nat.zero_le 255⟩
    intro fuel
    rw [currentPathWrites, if_pos hroot]
    exact writesInside_nil
  · have hzero : (ArrayWrite.tempPath 0).Inside :=
      show 0 < chainfsMaxPath by decide
    simp only [currentPathWrites, if_neg hroot, writesInside_cons,
      and_iff_right hzero]
    constructor
    · exact walk_of_writesInside (Nat.zero_le 255)
    · rintro ⟨visited, hwalk, hlen⟩ fuel
      exact currentPathLoopWrites_inside fuel hwalk hlen

theorem currentPathLoop_walk {fuel : ℕ} {r : ChainFS × List UInt8}
    (htemp : temp.length ≤ 255)
    (h : currentPathLoop s fuel idx temp = .ok r) :
    ∃ visited, Walk s.up idx visited ∧
      (pathText s.disk temp visited).length ≤ 255 := by
  induction fuel generalizing s idx temp with
  | zero => cases h
  | succ fuel ih =>
      cases hup : s.up idx with
      | none => exact ⟨[], .stop hup, htemp⟩
      | some parent =>
          obtain ⟨m, hloop⟩ := @currentPathLoop_some s idx temp parent fuel hup
          rw [hloop] at h
          by_cases hshort : (slash :: (entryOf s.disk idx).nameString ++
              temp).length < chainfsMaxPath
          · rw [if_pos hshort] at h
            obtain ⟨visited, hwalk, hfits⟩ :=
              ih (s := { s with sectorBuffer := m })
                (Nat.le_of_lt_succ hshort) h
            exact ⟨idx :: visited, .pass hup hwalk, hfits⟩
          · rw [if_neg hshort] at h
            cases h

/-- `chainfs_get_current_path` returns where it writes inside. -/
theorem getCurrentPath_ok_iff (s : ChainFS) (bufferSize : ℕ) :
    (∃ r, chainfsGetCurrentPath s bufferSize = .ok r) ↔
      CurrentPathFits s := by
  rw [currentPathFits_iff]
  unfold chainfsGetCurrentPath
  by_cases hroot : s.currentDirBlock = s.rootDirBlock
  · rw [if_pos hroot]
    exact iff_of_true ⟨_, rfl⟩
      ⟨[], .stop (up_none.mpr (Or.inl hroot)), Nat.zero_le 255⟩
  · rw [if_neg hroot]
    constructor
    · rintro ⟨r, hok⟩
      cases hloop : currentPathLoop s (chainfsMaxPath + 1)
          s.currentDirBlock [] with
      | error fault =>
          rw [hloop] at hok
          cases hok
      | ok r => exact currentPathLoop_walk (Nat.zero_le 255) hloop
    · rintro ⟨visited, hwalk, hfits⟩
      have hfuel : chainfsMaxPath <
          chainfsMaxPath + 1 + ([] : List UInt8).length := by simp
      obtain ⟨m, hloop⟩ :=
        currentPathLoop_eq hwalk (Nat.lt_succ_of_le hfits) hfuel
      rw [hloop]
      exact ⟨_, rfl⟩

/-- In every state and for every argument, `chainfs_resolve_path` writes
inside its array, and the other three exactly if the names have room. -/
theorem path_writes_inside_iff (s : ChainFS) (path : CString) (data : Memory)
    (size : ℕ) :
    (WritesInside (writeFileWrites s path.chars data size) ↔
      SplitFits path.chars) ∧
    (WritesInside (mkdirWrites s path.chars) ↔ SplitFits path.chars ∧
      (MkdirStores s path.chars → (afterSlash path.chars).length ≤ 29)) ∧
    WritesInside (resolvePathWrites path.chars) ∧
    ((∀ fuel, WritesInside (currentPathWrites s fuel)) ↔
      CurrentPathFits s) :=
  ⟨writeFileWrites_inside s path.chars data size,
    mkdirWrites_inside s path.chars, splitPathWrites_inside path.chars,
    currentPathWrites_inside s⟩

/-- `chainfs_mkdir` copies a name of 32 characters, and its terminator, into
`dir_name[32]`; the terminator of a name of 30 falls behind the name of the
entry. -/
theorem long_names_outside : Formatted 20 8 smallDisk ∧
    ArrayWrite.dirName 32 ∈ mkdirWrites smallDisk (List.replicate 32 97) ∧
    ArrayWrite.entryName 30 ∈ mkdirWrites smallDisk (List.replicate 30 97) ∧
    ¬ WritesInside (mkdirWrites smallDisk (List.replicate 32 97)) ∧
    ¬ WritesInside (mkdirWrites smallDisk (List.replicate 30 97)) := by
  have hdir : ArrayWrite.dirName 32 ∈
      mkdirWrites smallDisk (List.replicate 32 97) := by decide +kernel
  have hentry : ArrayWrite.entryName 30 ∈
      mkdirWrites smallDisk (List.replicate 30 97) := by decide +kernel
  refine ⟨smallDisk_formatted, hdir, hentry, ?_, ?_⟩
  · exact fun hinside => absurd (hinside _ hdir) (Nat.lt_irrefl 32)
  · exact fun hinside => absurd (hinside _ hentry) (Nat.lt_irrefl 30)

end Otsos
