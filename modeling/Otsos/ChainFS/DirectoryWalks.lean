import Otsos.ChainFS.PathResolution
import Otsos.ChainFS.UniqueNames

/-!
# The directory a path ends in

A path whose components are all kept is a walk through directories, and a
lookup of the last name in the directory reached.  A call that stores an entry
for the path finds the same directory, but may record another number for it.
-/

namespace Otsos

open Lib

variable {g : Geometry} {s : ChainFS} {d d' : ℕ → Memory}
  {path name c : List UInt8} {dir k k' parentBlock : ℕ}
  {cs : List (List UInt8)} {e : TableEdit} {parent : ParentPath}

/-- The directory that the components lead to. -/
def walkDirs (g : Geometry) (d : ℕ → Memory) (dir : ℕ) :
    List (List UInt8) → Option ℕ
  | [] => some dir
  | c :: cs =>
      match lookup g d dir c with
      | none => none
      | some idx =>
          if (entryOf d idx).type ≠ chainfsTypeDir then none
          else walkDirs g d idx cs

theorem walkDirs_cons :
    walkDirs g d dir (c :: cs) = some k ↔
      ∃ idx, lookup g d dir c = some idx ∧
        (entryOf d idx).type = chainfsTypeDir ∧
        walkDirs g d idx cs = some k := by
  rw [walkDirs]
  cases hlookup : lookup g d dir c with
  | none => simp
  | some idx =>
      by_cases htype : (entryOf d idx).type = chainfsTypeDir <;> simp [htype]

theorem walkTable_concat :
    walkTable g d dir (cs ++ [c]) =
      (walkDirs g d dir cs).bind fun idx => lookup g d idx c := by
  induction cs generalizing dir with
  | nil =>
      rw [List.nil_append, walkTable, walkDirs, Option.bind_some]
      cases lookup g d dir c <;> rfl
  | cons x cs ih =>
      rw [List.cons_append, walkTable, walkDirs]
      cases lookup g d dir x with
      | none => rfl
      | some idx =>
          dsimp only
          rw [if_neg (by simp)]
          by_cases htype : (entryOf d idx).type ≠ chainfsTypeDir
          · rw [if_pos htype, if_pos htype]
            rfl
          · rw [if_neg htype, if_neg htype]
            exact ih

/-- The walk of the code, where it ends in a directory. -/
theorem walkDirs_of_walkTable (hwalk : walkTable g d dir cs = some k)
    (htype : (entryOf d k).type = chainfsTypeDir) :
    walkDirs g d dir cs = some k := by
  induction cs generalizing dir with
  | nil => cases hwalk
  | cons c cs ih =>
      rw [walkTable] at hwalk
      cases hlookup : lookup g d dir c with
      | none => simp [hlookup] at hwalk
      | some idx =>
          simp only [hlookup] at hwalk
          by_cases hlast : cs = []
          · rw [if_pos hlast, Option.some.injEq] at hwalk
            subst hwalk hlast
            exact walkDirs_cons.mpr ⟨_, hlookup, htype, rfl⟩
          · rw [if_neg hlast] at hwalk
            by_cases hdir : (entryOf d idx).type ≠ chainfsTypeDir
            · rw [if_pos hdir] at hwalk
              cases hwalk
            · rw [if_neg hdir] at hwalk
              exact walkDirs_cons.mpr
                ⟨idx, hlookup, not_not.mp hdir, ih hwalk⟩

/-! ## The paths that create -/

/-- A path of 1 to 16 components with at most 29 characters each, and no
`'/'` at its end. -/
structure CreatablePath (path : List UInt8) : Prop where
  nonempty : pathComponents path ≠ []
  count : (pathComponents path).length ≤ 16
  short : ∀ c ∈ pathComponents path, c.length ≤ 29
  noTrailing : path.getLast? ≠ some slash

instance (path : List UInt8) : Decidable (CreatablePath path) :=
  decidable_of_iff (pathComponents path ≠ [] ∧
      (pathComponents path).length ≤ 16 ∧
      (∀ c ∈ pathComponents path, c.length ≤ 29) ∧
      path.getLast? ≠ some slash)
    ⟨fun h => ⟨h.1, h.2.1, h.2.2.1, h.2.2.2⟩,
      fun h => ⟨h.1, h.2, h.3, h.4⟩⟩

/-- The components before the last. -/
def dirComponents (path : List UInt8) : List (List UInt8) :=
  (pathComponents path).dropLast

def lastName (path : List UInt8) : List UInt8 :=
  (pathComponents path).getLastD []

theorem CreatablePath.components (h : CreatablePath path) :
    pathComponents path = dirComponents path ++ [lastName path] := by
  rw [dirComponents, lastName, List.getLastD_eq_getLast?,
    List.getLast?_eq_some_getLast h.nonempty, Option.getD_some,
    List.dropLast_append_getLast]

theorem CreatablePath.lastName_mem (h : CreatablePath path) :
    lastName path ∈ pathComponents path := by
  rw [h.components]
  exact List.mem_append_right _ List.mem_cons_self

theorem CreatablePath.lastName_short (h : CreatablePath path) :
    (lastName path).length ≤ 29 :=
  h.short _ h.lastName_mem

theorem CreatablePath.splitPath_eq (h : CreatablePath path) :
    splitPath path = dirComponents path ++ [lastName path] := by
  rw [splitPath_eq_components h.count, h.components]
  intro c hc
  exact (h.short c hc).trans (by omega)

theorem CreatablePath.cases (h : CreatablePath path) :
    (slash ∉ path ∧ dirComponents path = [] ∧ lastName path = path) ∨
      ∃ dir name, path = dir ++ slash :: name ∧ slash ∉ name ∧
        dirComponents path = pathComponents dir ∧ lastName path = name := by
  rcases path_cases path with hnone | ⟨dir, name, hname, hpath⟩
  · left
    have hne : path ≠ [] := by
      rintro rfl
      exact h.nonempty rfl
    refine ⟨hnone, ?_, ?_⟩
    · rw [dirComponents, pathComponents_single hnone hne]
      rfl
    · rw [lastName, pathComponents_single hnone hne]
      rfl
  · right
    have hne : name ≠ [] := by
      rintro rfl
      apply h.noTrailing
      rw [hpath]
      simp
    refine ⟨dir, name, hpath, hname, ?_, ?_⟩
    · rw [dirComponents, hpath, pathComponents_append hname hne,
        List.dropLast_concat]
    · rw [lastName, hpath, pathComponents_append hname hne]
      simp

/-! ## What such a path denotes -/

/-- The directory in which a path is looked up. -/
def ChainFS.lastDir (g : Geometry) (s : ChainFS) (path : List UInt8) :
    Option ℕ :=
  walkDirs g s.disk (startDirectory s path) (dirComponents path)

/-- The slot that a path denotes. -/
def ChainFS.denoted (g : Geometry) (s : ChainFS) (path : List UInt8) :
    Option ℕ :=
  (s.lastDir g path).bind fun dir => lookup g s.disk dir (lastName path)

theorem CreatablePath.resolve_eq (h : CreatablePath path)
    (hmounted : Mounted g s) :
    s.resolve g path = (s.denoted g path).map .slot := by
  have hsplit := h.splitPath_eq
  rw [hmounted.resolve_walk (by simp [hsplit]), hsplit, walkTable_concat]
  rfl

theorem CreatablePath.find_eq (h : CreatablePath path)
    (hmounted : Mounted g s) :
    s.find g path = (s.denoted g path).map .slot := by
  by_cases hslash : slash ∈ path
  · rw [ChainFS.find, findTable, if_pos hslash]
    exact h.resolve_eq hmounted
  · rcases h.cases with ⟨-, hdirs, hlast⟩ | ⟨dir, name, hpath, -⟩
    · have hhead : ¬ path.head? = some slash :=
        fun heq => hslash (List.mem_of_head? heq)
      rw [ChainFS.find, findTable, if_neg hslash, ChainFS.denoted,
        ChainFS.lastDir, hdirs, hlast, startDirectory, if_neg hhead]
      rfl
    · exact absurd (by rw [hpath]; simp) hslash

/-! ## The parent that is stored -/

/-- The directory part of the path, if it has one other than `"/"`, is the
entry 1: the only one whose index is also its sector. -/
def StoresLookedUp (g : Geometry) (s : ChainFS) (path : List UInt8) : Prop :=
  ∀ dir name, splitParent path = .ok (.path dir, name) →
    ∀ idx, s.resolve g dir = some (.slot idx) → idx = 1

/-- What is before the last slash resolves to the end of a walk. -/
theorem CreatablePath.walk_dir {dir last : List UInt8}
    (hpath : CreatablePath (dir ++ slash :: last))
    (hdirs : dirComponents (dir ++ slash :: last) = pathComponents dir)
    (h : Mounted g s) (hresolve : s.resolve g dir = some (.slot idx)) :
    walkTable g s.disk (startDirectory s dir) (pathComponents dir) =
      some idx := by
  have hshort : ∀ c ∈ pathComponents dir, c.length ≤ 30 := by
    intro c hc
    have hmem : c ∈ pathComponents (dir ++ slash :: last) := by
      rw [hpath.components, hdirs]
      exact List.mem_append_left _ hc
    exact (hpath.short c hmem).trans (by omega)
  have hcount : (pathComponents dir).length ≤ 16 := by
    have hall := hpath.count
    rw [hpath.components, hdirs, List.length_append] at hall
    omega
  by_cases hroot : splitPath dir = [] ∧ dir.head? = some slash
  · rw [ChainFS.resolve, resolveTable, if_pos hroot] at hresolve
    cases hresolve
  · rw [h.resolve_walk hroot, splitPath_eq_components hcount hshort]
      at hresolve
    obtain ⟨j, hwalk, heq⟩ := Option.map_eq_some_iff.mp hresolve
    cases heq
    exact hwalk

/-- A call that stores an entry names it by the last component.  It stores the
directory in which the path is looked up exactly under the condition. -/
theorem DiskInvariant.parent_stored (h : DiskInvariant g s)
    (hpath : CreatablePath path)
    (hsplit : splitParent path = .ok (parent, name))
    (hparent : writeParentId g s.disk s.currentDirBlock parent =
        some parentBlock ∨
      mkdirParentId g s.disk s.currentDirBlock parent = some parentBlock) :
    name = lastName path ∧ ∃ dir, s.lastDir g path = some dir ∧
      (parentBlock = dir ↔ StoresLookedUp g s path) := by
  rcases hpath.cases with
    ⟨hnone, hdirs, hlast⟩ | ⟨dir, last, rfl, hlast, hdirs, hname⟩
  · rw [splitParent_current hnone] at hsplit
    obtain ⟨rfl, hcopied⟩ := copyName_inv hsplit
    have hhead : ¬ path.head? = some slash :=
      fun heq => hnone (List.mem_of_head? heq)
    have hcurrent : s.currentDirBlock = parentBlock := by
      rcases hparent with hparent | hparent <;>
        exact Option.some.inj hparent
    refine ⟨hcopied.trans hlast.symm, parentBlock, ?_, iff_of_true rfl ?_⟩
    · rw [ChainFS.lastDir, hdirs, startDirectory, if_neg hhead, hcurrent]
      rfl
    · intro dir name hsplit'
      rw [splitParent_current hnone] at hsplit'
      cases (copyName_inv hsplit').1
  · by_cases hempty : dir = []
    · subst hempty
      rw [List.nil_append] at *
      rw [splitParent_root hlast] at hsplit
      obtain ⟨rfl, hcopied⟩ := copyName_inv hsplit
      have hroot : parentBlock = 0 := by
        rcases hparent with hparent | hparent
        · exact (Option.some.inj hparent).symm
        · rw [mkdirParentId, dirSector_slash h] at hparent
          cases hparent
      refine ⟨hcopied.trans hname.symm, parentBlock, ?_, iff_of_true rfl ?_⟩
      · rw [ChainFS.lastDir, hdirs, startDirectory, if_pos (by simp),
          h.mounted.root, hroot]
        rfl
      · intro dir name hsplit'
        rw [splitParent_root hlast] at hsplit'
        cases (copyName_inv hsplit').1
    · obtain ⟨rfl, hcopied⟩ := splitParent_path_inv hlast hempty hsplit
      refine ⟨hcopied.trans hname.symm, ?_⟩
      have hsector : dirSector g s.disk s.currentDirBlock dir =
          some parentBlock := by
        rcases hparent with hparent | hparent <;> exact hparent
      obtain ⟨t, hresolve, htype, rfl⟩ := dirSector_some hsector
      obtain ⟨idx, rfl, -⟩ := h.directory_slot hresolve htype
      have hwalk := hpath.walk_dir hdirs h.mounted hresolve
      refine ⟨idx, ?_, ?_⟩
      · rw [ChainFS.lastDir, hdirs]
        have hhead : (dir ++ slash :: last).head? = dir.head? := by
          cases dir with
          | nil => exact absurd rfl hempty
          | cons c dir => rfl
        rw [startDirectory, hhead]
        exact walkDirs_of_walkTable hwalk htype
      · show 1 + idx / 8 = idx ↔ _
        constructor
        · intro hindex dir' name' hsplit' idx' hresolve'
          obtain ⟨hdir, -⟩ := splitParent_path_inv hlast hempty hsplit'
          cases hdir
          rw [hresolve] at hresolve'
          cases hresolve'
          omega
        · intro hone
          have hindex := hone dir name hsplit idx hresolve
          omega

/-! ## Walks after an edit -/

theorem Edited.lookup_kept (h : Edited g d d' e) (hc : c.length ≤ 57)
    (hbefore : lookup g d dir c ≠ some e.slot)
    (hafter : testSlot (slotMatches dir c) d' e.slot = false) :
    lookup g d' dir c = lookup g d dir c := by
  have hother : ∀ j < g.slots, j ≠ e.slot →
      testSlot (slotMatches dir c) d' j = testSlot (slotMatches dir c) d j :=
    fun j hj hne => (h.other j hj hne).matches_eq hc
  cases hlookup : lookup g d dir c with
  | none =>
      refine firstSlot_none.mpr fun j hj => ?_
      by_cases hslot : j = e.slot
      · rw [hslot, hafter]
      · rw [hother j hj hslot]
        exact firstSlot_none.mp hlookup j hj
  | some k =>
      obtain ⟨hk, htest, hfirst⟩ := firstSlot_some hlookup
      have hne : k ≠ e.slot := fun heq => hbefore (by rw [hlookup, heq])
      refine firstSlot_eq_some hk (by rw [hother k hk hne, htest]) ?_
      intro j hj
      by_cases hslot : j = e.slot
      · rw [hslot, hafter]
      · rw [hother j (by omega) hslot]
        exact hfirst j hj

theorem Edited.lookup_stored (h : Edited g d d' e) (hc : c.length ≤ 57)
    (hbefore : ∀ j, lookup g d dir c = some j → j = e.slot)
    (hafter : testSlot (slotMatches dir c) d' e.slot = true) :
    lookup g d' dir c = some e.slot := by
  refine firstSlot_eq_some h.inside hafter ?_
  intro j hj
  have hinside := h.inside
  rw [(h.other j (by omega) (by omega)).matches_eq hc]
  cases hlookup : lookup g d dir c with
  | none => exact firstSlot_none.mp hlookup j (by omega)
  | some k =>
      have hfirst := (firstSlot_some hlookup).2.2
      rw [hbefore k hlookup] at hfirst
      exact hfirst j hj

/-- A directory keeps its place in the walks, unless the edit puts another
entry under its key. -/
theorem Edited.walkDirs_kept (h : Edited g d d' e)
    (hcs : ∀ c ∈ cs, c.length ≤ 57) (hold : ¬ LiveDir g d e.slot)
    (hkey : ∀ dir, ∀ c ∈ cs, ∀ j, lookup g d dir c = some j →
      (entryOf d j).type = chainfsTypeDir →
      testSlot (slotMatches dir c) d' e.slot = false)
    (hwalk : walkDirs g d dir cs = some k) :
    walkDirs g d' dir cs = some k := by
  induction cs generalizing dir with
  | nil => exact hwalk
  | cons c cs ih =>
      obtain ⟨j, hlookup, htype, hrest⟩ := walkDirs_cons.mp hwalk
      obtain ⟨hj, hone, -⟩ := lookup_some hlookup
      have hne : j ≠ e.slot := by
        rintro rfl
        exact hold ⟨⟨hj, hone⟩, htype⟩
      have hsame := h.lookup_kept (hcs c List.mem_cons_self)
        (by rw [hlookup]; exact fun heq => hne (Option.some.inj heq))
        (hkey dir c List.mem_cons_self j hlookup htype)
      refine walkDirs_cons.mpr ⟨j, hsame.trans hlookup, ?_, ?_⟩
      · rw [(h.other j hj hne).entryOf_eq, htype]
      · refine ih (fun x hx => hcs x (List.mem_cons_of_mem c hx)) ?_ hrest
        exact fun dir x hx => hkey dir x (List.mem_cons_of_mem c hx)

/-- Where the slot holds no directory, before and after, a walk that still
ends ends where it did. -/
theorem Edited.walkDirs_unique (h : Edited g d d' e)
    (hcs : ∀ c ∈ cs, c.length ≤ 57) (hold : ¬ LiveDir g d e.slot)
    (hnew : ¬ LiveDir g d' e.slot) (hwalk : walkDirs g d dir cs = some k)
    (hwalk' : walkDirs g d' dir cs = some k') : k' = k := by
  induction cs generalizing dir with
  | nil =>
      cases hwalk
      cases hwalk'
      rfl
  | cons c cs ih =>
      have hc := hcs c List.mem_cons_self
      obtain ⟨i, hi, htype, hrest⟩ := walkDirs_cons.mp hwalk
      obtain ⟨j, hj, htype', hrest'⟩ := walkDirs_cons.mp hwalk'
      obtain ⟨hilt, htesti, hfirsti⟩ := firstSlot_some hi
      obtain ⟨hjlt, htestj, hfirstj⟩ := firstSlot_some hj
      have hine : i ≠ e.slot := by
        rintro rfl
        exact hold ⟨⟨hilt, (lookup_some hi).2.1⟩, htype⟩
      have hjne : j ≠ e.slot := by
        rintro rfl
        exact hnew ⟨⟨hjlt, (lookup_some hj).2.1⟩, htype'⟩
      -- each of the two is a match on both disks, so neither is before the other
      rw [← (h.other i hilt hine).matches_eq hc] at htesti
      rw [(h.other j hjlt hjne).matches_eq hc] at htestj
      have heq : j = i := by
        rcases Nat.lt_trichotomy j i with hlt | heq | hlt
        · rw [hfirsti j hlt] at htestj
          cases htestj
        · exact heq
        · rw [hfirstj i hlt] at htesti
          cases htesti
      subst heq
      exact ih (fun x hx => hcs x (List.mem_cons_of_mem c hx)) hrest hrest'

end Otsos
