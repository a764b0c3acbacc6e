import Otsos.ChainFS.Paths
import Otsos.ChainFS.StoredNames

/-!
# What a path denotes

The meaning of a path is a chain of live entries, one for each of its non-empty
components, each the first of its name in the directory before it.  The code
follows the components that `split_path` keeps, so the two agree where it keeps
them all.
-/

namespace Otsos

open Lib

variable {g : Geometry} {s : ChainFS} {d : ℕ → Memory}
  {path c : List UInt8} {dir idx j k : ℕ} {cs : List (List UInt8)}

/-! ## The meaning of a path -/

/-- The slot holds a live entry of the directory with the name `c`; a name has
at most 30 characters. -/
def Named (d : ℕ → Memory) (dir : ℕ) (c : List UInt8) (idx : ℕ) : Prop :=
  (entryOf d idx).status = 1 ∧ (entryOf d idx).parentBlock = dir ∧
    c.length ≤ 30 ∧
    strcmpEq (d (1 + idx / 8)) (sizeofFileEntry * (idx % 8) + 2) c = true

/-- The slot is the first of the name in the directory. -/
def FirstNamed (g : Geometry) (d : ℕ → Memory) (dir : ℕ) (c : List UInt8)
    (idx : ℕ) : Prop :=
  idx < g.slots ∧ Named d dir c idx ∧ ∀ j < idx, ¬ Named d dir c j

/-- The components lead from the directory to the slot, through directories. -/
inductive Leads (g : Geometry) (d : ℕ → Memory) :
    ℕ → List (List UInt8) → ℕ → Prop
  | last {dir : ℕ} {c : List UInt8} {idx : ℕ}
      (hfirst : FirstNamed g d dir c idx) : Leads g d dir [c] idx
  | next {dir : ℕ} {c : List UInt8} {cs : List (List UInt8)} {k idx : ℕ}
      (hfirst : FirstNamed g d dir c k)
      (hdir : (entryOf d k).type = chainfsTypeDir)
      (hrest : Leads g d k cs idx) : Leads g d dir (c :: cs) idx

/-- The directory in which a path starts. -/
def startDirectory (s : ChainFS) (path : List UInt8) : ℕ :=
  if path.head? = some slash then s.rootDirBlock else s.currentDirBlock

theorem Mounted.resolvePath_result (h : Mounted g s) (path : List UInt8) :
    (chainfsResolvePath s path).2 =
      (s.resolve g path).map (Target.found s.disk) := by
  obtain ⟨m, hresolve⟩ := h.resolvePath_eq path
  rw [hresolve]
  rfl

theorem Mounted.resolve_walk (h : Mounted g s)
    (hkept : ¬ (splitPath path = [] ∧ path.head? = some slash)) :
    s.resolve g path =
      (walkTable g s.disk (startDirectory s path) (splitPath path)).map
        .slot := by
  simp only [ChainFS.resolve, resolveTable, startDirectory, h.root, if_neg hkept]

theorem Leads.short (h : Leads g d dir cs idx) : ∀ c ∈ cs, c.length ≤ 30 := by
  induction h with
  | last hfirst =>
      intro c hc
      rw [List.mem_singleton.mp hc]
      exact hfirst.2.1.2.2.1
  | next hfirst hdir hrest ih =>
      intro c hc
      rcases List.mem_cons.mp hc with rfl | hc
      · exact hfirst.2.1.2.2.1
      · exact ih c hc

theorem pathComponents_no_nul (hnul : 0 ∉ path) :
    ∀ c ∈ pathComponents path, 0 ∉ c := by
  have hsplit : ∀ (p : List UInt8), 0 ∉ p → ∀ c ∈ p.splitOn slash, 0 ∉ c := by
    intro p
    induction p with
    | nil => simp
    | cons x p ih =>
        intro hp c hc
        rw [List.mem_cons, not_or] at hp
        rw [splitOn_cons] at hc
        by_cases hx : x = slash
        · rw [if_pos hx] at hc
          rcases List.mem_cons.mp hc with rfl | hc
          · simp
          · exact ih hp.2 c hc
        · rw [if_neg hx] at hc
          cases hrest : p.splitOn slash with
          | nil => simp [hrest] at hc
          | cons y ys =>
              rw [hrest] at hc ih
              rcases List.mem_cons.mp hc with rfl | hc
              · rw [List.mem_cons, not_or]
                exact ⟨hp.1, ih hp.2 y List.mem_cons_self⟩
              · exact ih hp.2 c (List.mem_cons_of_mem y hc)
  intro c hc
  exact hsplit path hnul c (List.mem_of_mem_filter hc)

/-- The path denotes the root directory for the four calls that take it. -/
structure RootDenoted (g : Geometry) (s : ChainFS) (path : List UInt8) :
    Prop where
  resolves : (chainfsResolvePath s path).2 =
      some ⟨entryAt (s.disk 1) 0, 1, 0⟩ ∧
    (entryAt (s.disk 1) 0).type = chainfsTypeDir
  chdir : ∃ s', chainfsChdir s path = (s', 0) ∧
    s'.currentDirBlock = s.rootDirBlock
  listDir : ∀ maxFiles, g.slots ≤ maxFiles →
    (chainfsListDir s path maxFiles).2 =
      some (dirEntries g s.disk s.rootDirBlock)
  mkdir : ∀ name : CString, name.chars ≠ [] → name.chars.length ≤ 29 →
    slash ∉ name.chars →
    (chainfsFindInDirectory s s.rootDirBlock name.chars).2 = none →
    (∃ slot, (chainfsFindFreeFileEntry s).2 = .ok slot) →
    ∃ s', chainfsMkdir s (slash :: name.chars) = .ok (s', 0)

theorem splitPath_slashes (n : ℕ) :
    splitPath (List.replicate n slash) = [] := by
  have hsplit : ∀ c ∈ (List.replicate n slash).splitOn slash, c = [] := by
    induction n with
    | zero => simp
    | succ n ih =>
        intro c hc
        rw [List.replicate_succ, splitOn_cons, if_pos rfl] at hc
        rcases List.mem_cons.mp hc with rfl | hc
        · rfl
        · exact ih c hc
  rw [splitPath_eq, List.filter_eq_nil_iff.mpr]
  · rfl
  · intro c hc
    rw [hsplit c hc]
    decide

/-- Resolution takes the sector `root_dir_block` for the root's entry. -/
theorem resolvePath_slashes (s : ChainFS) (n : ℕ) :
    chainfsResolvePath s (List.replicate (n + 1) slash) =
      (pataReadSector s s.rootDirBlock,
        some ⟨entryAt (s.disk s.rootDirBlock) 0, s.rootDirBlock, 0⟩) := by
  have hhead : (List.replicate (n + 1) slash).head? = some slash := by
    rw [List.replicate_succ, List.head?_cons]
  unfold chainfsResolvePath
  simp only [splitPath_slashes, hhead, and_self, if_true, pataReadSector]

/-- In no state whatsoever: the entry of the root lies in the sector 1, and no
sector number is the index of the first entry of its sector. -/
theorem root_never_denoted (g : Geometry) (s : ChainFS) (n : ℕ) :
    ¬ RootDenoted g s (List.replicate (n + 1) slash) := by
  intro h
  obtain ⟨hresolves, hdir⟩ := h.resolves
  rw [resolvePath_slashes, Option.some.injEq, Found.mk.injEq] at hresolves
  have hroot : s.rootDirBlock = 1 := hresolves.2.1
  obtain ⟨s', hchdir, hcurrent⟩ := h.chdir
  unfold chainfsChdir at hchdir
  rw [resolvePath_slashes] at hchdir
  dsimp only at hchdir
  rw [hroot, if_neg (not_not.mpr hdir), Prod.mk.injEq] at hchdir
  have hindex : s'.currentDirBlock = entryIndex 1 0 := by
    rw [← hchdir.1]
  rw [hindex, hroot] at hcurrent
  exact absurd hcurrent (by decide)

/-- On the disk just formatted, `chainfs_chdir` to the root fails. -/
theorem chdir_root_fails :
    (chainfsChdir smallDisk [47]).2 = -1 ∧
      ¬ RootDenoted (formatGeometry 20 8) smallDisk [47] := by
  refine ⟨by decide +kernel, ?_⟩
  intro h
  obtain ⟨s', hchdir, -⟩ := h.chdir
  have hfails : (chainfsChdir smallDisk [47]).2 = -1 := by decide +kernel
  rw [hchdir] at hfails
  cases hfails

/-- In every reachable state the root cannot be entered, listed or extended by
its path. -/
theorem DiskInvariant.root_calls_fail (h : DiskInvariant g s) (n maxFiles : ℕ)
    {name : List UInt8} (hname : slash ∉ name) :
    (chainfsChdir s (List.replicate (n + 1) slash)).2 = -1 ∧
      (chainfsListDir s (List.replicate (n + 1) slash) maxFiles).2 = none ∧
      ∀ s', chainfsMkdir s (slash :: name) ≠ .ok (s', 0) := by
  have hnotDir : (entryAt (s.disk 0) 0).type ≠ chainfsTypeDir :=
    h.disk.rootBlock.1
  have hsector : ∀ n, dirSector g s.disk s.currentDirBlock
      (List.replicate (n + 1) slash) = none := by
    intro n
    have htarget : resolveTable g s.disk s.currentDirBlock
        (List.replicate (n + 1) slash) = some .rootBlock := by
      rw [resolveTable, if_pos]
      rw [List.replicate_succ, List.head?_cons, ← List.replicate_succ]
      exact ⟨splitPath_slashes _, rfl⟩
    rw [dirSector, htarget]
    exact if_pos hnotDir
  refine ⟨?_, ?_, ?_⟩
  · unfold chainfsChdir
    rw [resolvePath_slashes, h.mounted.root]
    dsimp only
    rw [if_pos hnotDir]
  · rw [h.mounted.listDir_eq, List.replicate_succ]
    dsimp only
    rw [← List.replicate_succ, hsector]
    rfl
  · intro s' hmkdir
    have hresult := h.mounted.mkdir_result h.heap (slash :: name)
    rw [hmkdir] at hresult
    cases hresult with
    | made plan s' hplan hcontrol hheap hdisk =>
        obtain ⟨parent, hsplit, hparent, -⟩ := mkdirPlan_some hplan
        rw [splitParent_root hname] at hsplit
        cases hcopy : copyName name with
        | error fault =>
            rw [hcopy] at hsplit
            cases hsplit
        | ok dirName =>
            rw [hcopy] at hsplit
            cases hsplit
            have hroot := hsector 0
            rw [show mkdirParentId g s.disk s.currentDirBlock .root =
              dirSector g s.disk s.currentDirBlock [slash] from rfl] at hparent
            rw [show List.replicate (0 + 1) slash = [slash] from rfl,
              hparent] at hroot
            cases hroot

end Otsos
