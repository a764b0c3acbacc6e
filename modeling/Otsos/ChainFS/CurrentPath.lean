import Mathlib.Algebra.GroupWithZero.Nat
import Otsos.ChainFS.TableEdits
import Otsos.Lib.Walks

/-!
# The current path

`chainfs_get_current_path` goes up from the current directory, by the table
indices stored as parents, and puts the names in front of each other.  The
entries passed are read without a look at their status, so they may have been
removed and their slots given to other entries.
-/

namespace Otsos

open Lib

variable {g : Geometry} {s : ChainFS} {idx : ℕ} {temp : List UInt8}
  {visited : List ℕ}

def ChainFS.totalFiles (s : ChainFS) : ℕ := sbTotalFiles s.superblock

/-- `none` is the code `-1`. -/
def readEntryByIndex (s : ChainFS) (index : ℕ) : ChainFS × Option FileEntry :=
  if s.totalFiles ≤ index then (s, none)
  else
    let s := pataReadSector s (1 + index / entriesPerBlock)
    (s, some (entryAt s.sectorBuffer (index % entriesPerBlock)))

/-- The bytes of a `u32` field. -/
def wordBytes (v : ℕ) : List UInt8 :=
  (List.range 4).map fun i => UInt8.ofNat (v / 256 ^ i)

/-- The C string at `entry.name`.  A name without terminator runs on into the
fields behind it; the reserved bytes, which no call writes, end it. -/
def FileEntry.nameString (e : FileEntry) : List UInt8 :=
  (e.name ++ wordBytes e.size ++ wordBytes e.startBlock ++
    wordBytes e.parentBlock ++ e.reserved).takeWhile (· ≠ 0)

/-- The loop of `chainfs_get_current_path`.  Every iteration makes the path
longer, up to the size of `new_name[256]`, which bounds their number. -/
def currentPathLoop (s : ChainFS) :
    ℕ → ℕ → List UInt8 → Except Fault (ChainFS × List UInt8)
  | 0, _, _ => .error .hang
  | fuel + 1, currentIdx, tempPath =>
      if currentIdx = s.rootDirBlock ∨ currentIdx = 0xFFFFFFFF then
        .ok (s, tempPath)
      else
        match readEntryByIndex s currentIdx with
        | (s, none) => .ok (s, tempPath)
        | (s, some entry) =>
            let newName := slash :: entry.nameString ++ tempPath
            if newName.length < chainfsMaxPath then
              currentPathLoop s fuel entry.parentBlock newName
            else .error .overflow

/-- The string returned; `none` is the null pointer. -/
def chainfsGetCurrentPath (s : ChainFS) (bufferSize : ℕ) :
    Except Fault (ChainFS × Option (List UInt8)) :=
  if s.currentDirBlock = s.rootDirBlock then
    .ok (s, if 2 ≤ bufferSize then some [slash] else none)
  else
    match currentPathLoop s (chainfsMaxPath + 1) s.currentDirBlock [] with
    | .error fault => .error fault
    | .ok (s, tempPath) =>
        let tempPath := if tempPath = [] then [slash] else tempPath
        .ok (s, if tempPath.length < bufferSize then some tempPath else none)

/-- The table indices that the loop reads; `none` if it has not ended after
`fuel` iterations. -/
def parentWalk (s : ChainFS) : ℕ → ℕ → Option (List ℕ)
  | 0, _ => none
  | fuel + 1, currentIdx =>
      if currentIdx = s.rootDirBlock ∨ currentIdx = 0xFFFFFFFF then some []
      else
        match readEntryByIndex s currentIdx with
        | (_, none) => some []
        | (s, some entry) =>
            (parentWalk s fuel entry.parentBlock).map (currentIdx :: ·)

/-! ## The walk -/

/-- The loop leaves the entry for its parent. -/
def ChainFS.up (s : ChainFS) (idx : ℕ) : Option ℕ :=
  if idx = s.rootDirBlock ∨ idx = 0xFFFFFFFF ∨ s.totalFiles ≤ idx then none
  else some (parentOf s.disk idx)

theorem up_none : s.up idx = none ↔
    idx = s.rootDirBlock ∨ idx = 0xFFFFFFFF ∨ s.totalFiles ≤ idx := by
  unfold ChainFS.up
  by_cases hstop : idx = s.rootDirBlock ∨ idx = 0xFFFFFFFF ∨
      s.totalFiles ≤ idx
  · simp [hstop]
  · simp [hstop]

theorem up_some {parent : ℕ} (h : s.up idx = some parent) :
    idx < s.totalFiles ∧ parent = parentOf s.disk idx := by
  unfold ChainFS.up at h
  by_cases hstop : idx = s.rootDirBlock ∨ idx = 0xFFFFFFFF ∨
      s.totalFiles ≤ idx
  · rw [if_pos hstop] at h
    cases h
  · rw [if_neg hstop, Option.some.injEq] at h
    rw [not_or, not_or, Nat.not_le] at hstop
    exact ⟨hstop.2.2, h.symm⟩

theorem up_some_inner {parent : ℕ} (h : s.up idx = some parent) :
    ¬ (idx = s.rootDirBlock ∨ idx = 0xFFFFFFFF) := by
  intro htop
  rw [up_none.mpr (by tauto)] at h
  cases h

theorem readEntryByIndex_none (h : s.totalFiles ≤ idx) :
    readEntryByIndex s idx = (s, none) :=
  if_pos h

theorem readEntryByIndex_some (h : idx < s.totalFiles) :
    ∃ m, readEntryByIndex s idx =
      ({ s with sectorBuffer := m }, some (entryOf s.disk idx)) := by
  unfold readEntryByIndex
  rw [if_neg (Nat.not_le.mpr h)]
  exact ⟨_, rfl⟩

theorem parentWalk_eq (s : ChainFS) (fuel idx : ℕ) :
    parentWalk s fuel idx = walkFrom s.up fuel idx := by
  induction fuel generalizing s idx with
  | zero => rfl
  | succ fuel ih =>
      rw [parentWalk, walkFrom]
      by_cases htop : idx = s.rootDirBlock ∨ idx = 0xFFFFFFFF
      · have hup : s.up idx = none := up_none.mpr (by tauto)
        rw [if_pos htop, hup]
      · rw [if_neg htop]
        by_cases hfile : s.totalFiles ≤ idx
        · have hup : s.up idx = none := up_none.mpr (by tauto)
          rw [readEntryByIndex_none hfile, hup]
        · obtain ⟨m, hread⟩ := readEntryByIndex_some (Nat.not_le.mp hfile)
          have hup : s.up idx = some (parentOf s.disk idx) := by
            unfold ChainFS.up
            rw [if_neg (by tauto)]
          rw [hread, hup]
          simp only [ih]
          rfl

theorem parentWalk_iff :
    (∃ fuel, parentWalk s fuel idx = some visited) ↔
      Walk s.up idx visited := by
  simp only [parentWalk_eq]
  exact walkFrom_iff

/-! ## The text -/

/-- The names of the entries passed, each behind a `'/'`, the last entry
first. -/
def pathText (d : ℕ → Memory) (temp : List UInt8) (visited : List ℕ) :
    List UInt8 :=
  visited.foldl (fun temp idx => slash :: (entryOf d idx).nameString ++ temp)
    temp

theorem length_pathText (d : ℕ → Memory) (temp : List UInt8)
    (visited : List ℕ) :
    (pathText d temp visited).length = temp.length +
      (visited.map fun idx => (entryOf d idx).nameString.length + 1).sum := by
  induction visited generalizing temp with
  | nil => rfl
  | cons idx visited ih =>
      rw [pathText, List.foldl_cons]
      refine (ih _).trans ?_
      simp only [List.length_append, List.length_cons, List.map_cons,
        List.sum_cons]
      omega

theorem length_le_pathText (d : ℕ → Memory) (temp : List UInt8)
    (visited : List ℕ) :
    temp.length + visited.length ≤ (pathText d temp visited).length := by
  rw [length_pathText]
  induction visited with
  | nil => exact Nat.le_refl _
  | cons idx visited ih =>
      simp only [List.length_cons, List.map_cons, List.sum_cons]
      omega

theorem currentPathLoop_none (fuel : ℕ) (h : s.up idx = none) :
    currentPathLoop s (fuel + 1) idx temp = .ok (s, temp) := by
  rw [currentPathLoop]
  by_cases htop : idx = s.rootDirBlock ∨ idx = 0xFFFFFFFF
  · rw [if_pos htop]
  · have hfile : s.totalFiles ≤ idx := by
      have hcases := up_none.mp h
      tauto
    rw [if_neg htop, readEntryByIndex_none hfile]

theorem currentPathLoop_some {parent : ℕ} (fuel : ℕ)
    (h : s.up idx = some parent) :
    ∃ m, currentPathLoop s (fuel + 1) idx temp =
      if (slash :: (entryOf s.disk idx).nameString ++ temp).length <
          chainfsMaxPath then
        currentPathLoop { s with sectorBuffer := m } fuel parent
          (slash :: (entryOf s.disk idx).nameString ++ temp)
      else .error .overflow := by
  obtain ⟨hfile, rfl⟩ := up_some h
  obtain ⟨m, hread⟩ := readEntryByIndex_some hfile
  refine ⟨m, ?_⟩
  rw [currentPathLoop, if_neg (up_some_inner h), hread]
  rfl

/-- A loop whose walk ends builds the text if that fits. -/
theorem currentPathLoop_eq {fuel : ℕ} (h : Walk s.up idx visited)
    (hfits : (pathText s.disk temp visited).length < chainfsMaxPath)
    (hfuel : chainfsMaxPath < fuel + temp.length) :
    ∃ m, currentPathLoop s fuel idx temp =
      .ok ({ s with sectorBuffer := m }, pathText s.disk temp visited) := by
  induction visited generalizing s idx temp fuel with
  | nil =>
      have hlen : temp.length < chainfsMaxPath := hfits
      obtain ⟨fuel, rfl⟩ : ∃ k, fuel = k + 1 := ⟨fuel - 1, by omega⟩
      cases h with
      | stop hstop => exact ⟨s.sectorBuffer, currentPathLoop_none fuel hstop⟩
  | cons j visited ih =>
      have hlen := length_le_pathText s.disk temp (j :: visited)
      rw [List.length_cons] at hlen
      obtain ⟨fuel, rfl⟩ : ∃ k, fuel = k + 1 := ⟨fuel - 1, by omega⟩
      cases h with
      | pass hpass rest =>
          let newName := slash :: (entryOf s.disk j).nameString ++ temp
          have hnew : temp.length + 1 ≤ newName.length := by
            simp only [newName, List.length_append, List.length_cons]
            omega
          have hlong := length_le_pathText s.disk newName visited
          have hrest : (pathText s.disk newName visited).length <
              chainfsMaxPath := hfits
          obtain ⟨m, hloop⟩ := @currentPathLoop_some s j temp _ fuel hpass
          rw [hloop, if_pos (show newName.length < chainfsMaxPath by omega)]
          exact ih (s := { s with sectorBuffer := m }) rest hrest
            (show chainfsMaxPath < fuel + newName.length by omega)

end Otsos
