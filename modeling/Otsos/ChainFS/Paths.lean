import Mathlib.Data.List.Find
import Otsos.ChainFS.Operations

/-!
# Paths and their components

`split_path` keeps, of the components between the slashes, the first sixteen
that have between 1 and 30 characters.
-/

namespace Otsos

variable {path component : List UInt8} {components : List (List UInt8)}

/-- The non-empty components of a path. -/
def pathComponents (path : List UInt8) : List (List UInt8) :=
  (path.splitOn slash).filter (· ≠ [])

/-- A component that `split_path` keeps. -/
def kept (component : List UInt8) : Bool :=
  decide (0 < component.length ∧ component.length < 31)

theorem keepComponent_eq :
    keepComponent component components =
      components ++ [component].filter kept := by
  unfold keepComponent
  by_cases hkeep : 0 < component.length ∧ component.length < 31
  · rw [if_pos hkeep, List.filter_cons_of_pos (by simpa [kept] using hkeep),
      List.filter_nil]
  · rw [if_neg hkeep, List.filter_cons_of_neg (by simpa [kept] using hkeep),
      List.filter_nil, List.append_nil]

theorem splitOn_cons (c : UInt8) :
    (c :: path).splitOn slash =
      if c = slash then [] :: path.splitOn slash
      else (path.splitOn slash).modifyHead (c :: ·) := by
  simpa using @List.splitOn_cons_eq_if_modifyHead UInt8 _ slash c path

theorem splitPathFrom_eq (hlen : components.length ≤ 16) :
    splitPathFrom path component components =
      (components ++ ((path.splitOn slash).modifyHead
        (component ++ ·)).filter kept).take 16 := by
  induction path generalizing component components with
  | nil =>
      rw [splitPathFrom]
      by_cases hfull : 16 ≤ components.length
      · rw [if_pos hfull, show (16 : ℕ) = components.length by omega,
          List.take_left]
      · have hone := List.length_filter_le kept [component]
        rw [if_neg hfull, keepComponent_eq]
        simp only [List.splitOn_nil, List.modifyHead_cons, List.append_nil]
        rw [List.take_of_length_le]
        simp only [List.length_append, List.length_singleton] at hone ⊢
        omega
  | cons c path ih =>
      rw [splitPathFrom, splitOn_cons]
      by_cases hfull : 16 ≤ components.length
      · rw [if_pos hfull, show (16 : ℕ) = components.length by omega,
          List.take_left]
      · rw [if_neg hfull]
        by_cases hc : c = slash
        · have hone := List.length_filter_le kept [component]
          rw [if_pos hc, if_pos hc, ih, keepComponent_eq]
          · simp only [List.modifyHead_cons, List.append_nil,
              List.nil_append]
            rw [show component :: path.splitOn slash =
              [component] ++ path.splitOn slash from rfl, List.filter_append,
              ← List.append_assoc]
            cases path.splitOn slash <;> rfl
          · rw [keepComponent_eq]
            simp only [List.length_append, List.length_singleton] at hone ⊢
            omega
        · rw [if_neg hc, if_neg hc, ih hlen, List.modifyHead_modifyHead]
          congr 3
          simp [Function.comp_def]

theorem splitPath_eq :
    splitPath path = ((path.splitOn slash).filter kept).take 16 := by
  have hid : ∀ cs : List (List UInt8),
      cs.modifyHead (([] : List UInt8) ++ ·) = cs := by
    intro cs
    cases cs <;> rfl
  unfold splitPath
  by_cases hhead : path.head? = some slash
  · cases path with
    | nil => cases hhead
    | cons c path =>
        rw [List.head?_cons, Option.some.injEq] at hhead
        rw [if_pos (by rw [List.head?_cons, hhead]), List.tail_cons,
          splitPathFrom_eq (Nat.zero_le _), hid, List.nil_append,
          splitOn_cons, if_pos hhead, List.filter_cons_of_neg (by simp [kept])]
  · rw [if_neg hhead, splitPathFrom_eq (Nat.zero_le _), hid, List.nil_append]

/-- The components of a path, those that are too long and those after the
sixteenth left out. -/
theorem splitPath_components :
    splitPath path =
      ((pathComponents path).filter fun c => c.length < 31).take 16 := by
  rw [splitPath_eq, pathComponents, List.filter_filter]
  congr 2
  funext c
  rw [Bool.eq_iff_iff]
  simp [kept, List.length_pos_iff, and_comm]

theorem splitPath_noSlash (h : slash ∉ path) :
    splitPath path = keepComponent path [] := by
  have hone := List.length_filter_le kept [path]
  rw [splitPath_eq, List.splitOn_eq_singleton h, keepComponent_eq,
    List.nil_append, List.take_of_length_le]
  rw [List.length_singleton] at hone
  omega

theorem splitPath_eq_components (hcount : (pathComponents path).length ≤ 16)
    (hshort : ∀ c ∈ pathComponents path, c.length ≤ 30) :
    splitPath path = pathComponents path := by
  rw [splitPath_components, List.filter_eq_self.mpr]
  · exact List.take_of_length_le hcount
  · intro c hc
    have hlen := hshort c hc
    simp only [decide_eq_true_eq]
    omega

theorem pathComponents_single (h : slash ∉ path) (hne : path ≠ []) :
    pathComponents path = [path] := by
  rw [pathComponents, List.splitOn_eq_singleton h,
    List.filter_cons_of_pos (by simpa using hne), List.filter_nil]

theorem pathComponents_append {name : List UInt8} (h : slash ∉ name)
    (hne : name ≠ []) :
    pathComponents (path ++ slash :: name) = pathComponents path ++ [name] := by
  rw [← pathComponents_single h hne, pathComponents, pathComponents,
    pathComponents, List.splitOn_append_cons_self, List.filter_append]

/-! ## The last name -/

theorem lastSlash_concat (c : UInt8) :
    lastSlash (path ++ [c]) =
      if c = slash then some path.length else lastSlash path := by
  unfold lastSlash
  rw [List.length_append, List.length_singleton, List.range_succ,
    List.reverse_append, List.reverse_singleton, List.singleton_append,
    List.find?_cons]
  have hlast : (path ++ [c])[path.length]? = some c := by simp
  rw [hlast]
  by_cases hc : c = slash
  · simp [hc]
  · rw [if_neg hc, show (some c == some slash) = false by simpa using hc]
    dsimp only
    apply List.find?_congr
    intro i hi
    rw [List.mem_reverse, List.mem_range] at hi
    rw [List.getElem?_append_left hi]

theorem lastSlash_none (h : slash ∉ path) : lastSlash path = none := by
  induction path using List.reverseRecOn with
  | nil => rfl
  | append_singleton path c ih =>
      rw [List.mem_append, not_or, List.mem_singleton] at h
      rw [lastSlash_concat, if_neg (Ne.symm h.2), ih h.1]

theorem lastSlash_append {name : List UInt8} (h : slash ∉ name) :
    lastSlash (path ++ slash :: name) = some path.length := by
  induction name using List.reverseRecOn with
  | nil => rw [lastSlash_concat, if_pos rfl]
  | append_singleton name c ih =>
      rw [List.mem_append, not_or, List.mem_singleton] at h
      rw [← List.cons_append, ← List.append_assoc, lastSlash_concat,
        if_neg (Ne.symm h.2), ih h.1]

theorem path_cases (path : List UInt8) :
    slash ∉ path ∨ ∃ dir name, slash ∉ name ∧ path = dir ++ slash :: name := by
  induction path using List.reverseRecOn with
  | nil => exact Or.inl (by simp)
  | append_singleton path c ih =>
      by_cases hc : c = slash
      · exact Or.inr ⟨path, [], by simp, by rw [hc]⟩
      · rcases ih with hnone | ⟨dir, name, hname, rfl⟩
        · left
          rw [List.mem_append, not_or, List.mem_singleton]
          exact ⟨hnone, Ne.symm hc⟩
        · refine Or.inr ⟨dir, name ++ [c], ?_, by simp⟩
          rw [List.mem_append, not_or, List.mem_singleton]
          exact ⟨hname, Ne.symm hc⟩

theorem splitParent_current (h : slash ∉ path) :
    splitParent path = (copyName path).map fun name => (.current, name) := by
  rw [splitParent, lastSlash_none h]

theorem splitParent_root {name : List UInt8} (h : slash ∉ name) :
    splitParent (slash :: name) =
      (copyName name).map fun name => (.root, name) := by
  have hlast := @lastSlash_append [] name h
  rw [List.nil_append, List.length_nil] at hlast
  rw [splitParent, hlast]
  rfl

theorem splitParent_path {dir name : List UInt8} (h : slash ∉ name)
    (hdir : dir ≠ []) (hshort : dir.length < chainfsMaxPath) :
    splitParent (dir ++ slash :: name) =
      (copyName name).map fun name => (.path dir, name) := by
  obtain ⟨k, hk⟩ : ∃ k, dir.length = k + 1 :=
    ⟨dir.length - 1, by have := List.length_pos_of_ne_nil hdir; omega⟩
  rw [splitParent, lastSlash_append h, hk]
  dsimp only
  rw [if_pos (by omega), ← hk, List.take_left,
    show k + 2 = dir.length + 1 by omega, List.drop_append,
    List.drop_of_length_le (by omega), List.nil_append,
    show dir.length + 1 - dir.length = 1 by omega]
  rfl

theorem copyName_inv {name copied : List UInt8} {parent parent' : ParentPath}
    (h : (copyName name).map (fun n => (parent, n)) = .ok (parent', copied)) :
    parent' = parent ∧ copied = name := by
  unfold copyName at h
  by_cases hshort : name.length < 32
  · rw [if_pos hshort] at h
    cases h
    exact ⟨rfl, rfl⟩
  · rw [if_neg hshort] at h
    cases h

theorem splitParent_path_inv {dir name fileName : List UInt8}
    {parent : ParentPath} (hname : slash ∉ name) (hdir : dir ≠ [])
    (h : splitParent (dir ++ slash :: name) = .ok (parent, fileName)) :
    parent = .path dir ∧ fileName = name := by
  by_cases hshort : dir.length < chainfsMaxPath
  · rw [splitParent_path hname hdir hshort] at h
    exact copyName_inv h
  · obtain ⟨k, hk⟩ : ∃ k, dir.length = k + 1 :=
      ⟨dir.length - 1, by have := List.length_pos_of_ne_nil hdir; omega⟩
    rw [splitParent, lastSlash_append hname, hk] at h
    dsimp only at h
    rw [if_neg (by omega)] at h
    cases h

end Otsos
