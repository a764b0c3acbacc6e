import Mathlib.Tactic.Common

/-!
# Trees given by a parent function

Some of the nodes are live and some of the live ones may have children.  The
parents make them a tree when every live node but the root hangs under a node
that may have children, and following the parents leads to the root.
-/

namespace Lib

variable {ι : Type*} {live live' inner inner' : ι → Prop}
  {parent parent' : ι → ι} {root i j : ι}

/-- Following the parents from `i` through live nodes reaches the root. -/
inductive Rooted (live : ι → Prop) (parent : ι → ι) (root : ι) : ι → Prop
  | root : Rooted live parent root root
  | child (i : ι) (hlive : live i) (hparent : Rooted live parent root
      (parent i)) : Rooted live parent root i

theorem Rooted.parent_ne (h : Rooted live parent root i) (hi : i ≠ root) :
    parent i ≠ i := by
  induction h with
  | root => exact absurd rfl hi
  | child i hlive hparent ih =>
      intro heq
      rw [heq] at ih
      exact ih hi heq

structure ParentTree (live inner : ι → Prop) (parent : ι → ι)
    (root : ι) : Prop where
  parents : ∀ i, live i → i ≠ root → inner (parent i)
  rooted : ∀ i, live i → Rooted live parent root i

theorem ParentTree.root_inner (h : ParentTree live inner parent root)
    (hinner : ∀ i, inner i → live i) (hi : inner i) : inner root := by
  have hpath := h.rooted i (hinner i hi)
  induction hpath with
  | root => exact hi
  | child i hlive _ ih =>
      by_cases hroot : i = root
      · rw [← hroot]
        exact hi
      · exact ih (h.parents i hlive hroot)

theorem Rooted.congr (h : Rooted live parent root i)
    (hlive : ∀ i, live i → live' i)
    (hparent : ∀ i, live i → parent' i = parent i) :
    Rooted live' parent' root i := by
  induction h with
  | root => exact .root
  | child i hi _ ih =>
      rw [← hparent i hi] at ih
      exact .child i (hlive i hi) ih

theorem ParentTree.congr (h : ParentTree live inner parent root)
    (hlive : ∀ i, live' i ↔ live i) (hinner : ∀ i, inner i → inner' i)
    (hparent : ∀ i, live i → parent' i = parent i) :
    ParentTree live' inner' parent' root := by
  refine ⟨?_, ?_⟩
  · intro i hi hroot
    have hold := (hlive i).mp hi
    rw [hparent i hold]
    exact hinner _ (h.parents i hold hroot)
  · intro i hi
    exact (h.rooted i ((hlive i).mp hi)).congr
      (fun j hj => (hlive j).mpr hj) hparent

/-- A path to the root that avoids `j` survives a change of `j`. -/
theorem Rooted.edit (h : Rooted live parent root i)
    (hlive : ∀ i, i ≠ j → live i → live' i)
    (hparent : ∀ i, i ≠ j → live i → parent' i = parent i)
    (hvacant : ∀ i, live i → parent i ≠ j) (hi : i ≠ j) :
    Rooted live' parent' root i := by
  induction h with
  | root => exact .root
  | child i hold _ ih =>
      refine .child i (hlive i hi hold) ?_
      rw [hparent i hi hold]
      exact ih (hvacant i hold)

/-- The node `j`, not the root, is changed. -/
structure NodeEdit (live live' inner inner' : ι → Prop)
    (parent parent' : ι → ι) (root j : ι) : Prop where
  notRoot : j ≠ root
  live_iff : ∀ i, i ≠ j → (live' i ↔ live i)
  inner_iff : ∀ i, i ≠ j → (inner' i ↔ inner i)
  parent_eq : ∀ i, i ≠ j → live i → parent' i = parent i

/-- A node without children can be given to a parent, or taken away. -/
theorem ParentTree.edit (h : ParentTree live inner parent root)
    (hedit : NodeEdit live live' inner inner' parent parent' root j)
    (hvacant : ∀ i, live i → parent i ≠ j)
    (hinner : ∀ i, inner i → live i)
    (hnode : live' j → inner (parent' j) ∧ parent' j ≠ j) :
    ParentTree live' inner' parent' root := by
  have hpath : ∀ i, live i → i ≠ j → Rooted live' parent' root i := by
    intro i hi hne
    exact (h.rooted i hi).edit (fun k hk => (hedit.live_iff k hk).mpr)
      hedit.parent_eq hvacant hne
  refine ⟨?_, ?_⟩
  · intro i hi hroot
    by_cases hne : i = j
    · subst hne
      obtain ⟨hin, hself⟩ := hnode hi
      exact (hedit.inner_iff _ hself).mpr hin
    · have hold := (hedit.live_iff i hne).mp hi
      rw [hedit.parent_eq i hne hold, hedit.inner_iff _ (hvacant i hold)]
      exact h.parents i hold hroot
  · intro i hi
    by_cases hne : i = j
    · subst hne
      obtain ⟨hin, hself⟩ := hnode hi
      exact .child i hi (hpath _ (hinner _ hin) hself)
    · exact hpath i ((hedit.live_iff i hne).mp hi) hne

/-- If a change of one node leaves a tree then the node hangs under another
one, and nothing hangs under it unless it may have children. -/
theorem ParentTree.edit_inv (h : ParentTree live inner parent root)
    (h' : ParentTree live' inner' parent' root)
    (hedit : NodeEdit live live' inner inner' parent parent' root j)
    (hinner : ∀ i, inner i → live i) (hroot : ¬ live root ∨ parent root ≠ j)
    (hchange : ¬ inner' j ∨ ¬ live j) :
    (∀ i, live i → parent i ≠ j) ∧
      (live' j → inner (parent' j) ∧ parent' j ≠ j) := by
  constructor
  · intro i hi heq
    by_cases hiroot : i = root
    · subst hiroot
      rcases hroot with hdead | hne
      · exact hdead hi
      · exact hne heq
    · have hin := h.parents i hi hiroot
      rw [heq] at hin
      rcases hchange with hleaf | hdead
      · have hne : i ≠ j := by
          intro hij
          subst hij
          exact (h.rooted i hi).parent_ne hiroot heq
        have hin' := h'.parents i ((hedit.live_iff i hne).mpr hi) hiroot
        rw [hedit.parent_eq i hne hi, heq] at hin'
        exact hleaf hin'
      · exact hdead (hinner j hin)
  · intro hj
    have hself := (h'.rooted j hj).parent_ne hedit.notRoot
    exact ⟨(hedit.inner_iff _ hself).mp (h'.parents j hj hedit.notRoot), hself⟩

end Lib
