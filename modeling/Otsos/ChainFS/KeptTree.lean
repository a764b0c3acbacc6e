import Otsos.Lib.ApartChains
import Otsos.ChainFS.FlatDirectory
import Otsos.ChainFS.NamedTree
import Otsos.ChainFS.PartialWrites

/-!
# What a disk keeps of a tree

The names that are not lost are in the table, each file with a chain that no
other shares.  The map may have blocks in use that belong to none of them: the
invariant asks less than the exact account of the blocks, and so survives calls
that are cut short.
-/

namespace Otsos

open Lib

variable {g : Geometry} {d d' : ℕ → Memory} {chain : ℕ → List ℕ}
  {t t' : NamedTree} {bs : List ℕ} {idx j : ℕ} {key : TreeKey}
  {n : Option Node} {bytes c : List UInt8} {e : TableEdit}

/-- The slot holds a file with the chain and the contents. -/
structure FileHeld (g : Geometry) (d : ℕ → Memory) (bs : List ℕ) (idx : ℕ)
    (bytes : List UInt8) : Prop where
  type : (entryOf d idx).type = chainfsTypeFile
  start : bs.head? = some (entryOf d idx).startBlock
  length : bs.length = fileBlocks (entryOf d idx).size
  holds : Holds g d bs idx bytes

def HoldsNode (g : Geometry) (d : ℕ → Memory) (bs : List ℕ) (idx : ℕ) :
    Option Node → Prop
  | none => False
  | some (.file bytes) => FileHeld g d bs idx bytes
  | some (.directory i) => (entryOf d idx).type = chainfsTypeDir ∧ i = idx

theorem FileHeld.size_le (h : FileHeld g d bs idx bytes) :
    (entryOf d idx).size ≤ 512 * bs.length := by
  rw [h.length]
  exact fileBlocks_le _

theorem HoldsNode.directory (h : HoldsNode g d bs idx n)
    (hdir : (entryOf d idx).type = chainfsTypeDir) :
    n = some (.directory idx) := by
  match n, h with
  | some (.file bytes), h =>
      have hfile := h.type
      rw [hdir] at hfile
      exact absurd hfile (by decide)
  | some (.directory i), h => rw [h.2]

theorem HoldsNode.file (h : HoldsNode g d bs idx n)
    (hnot : (entryOf d idx).type ≠ chainfsTypeDir) :
    ∃ bytes, n = some (.file bytes) ∧ FileHeld g d bs idx bytes := by
  match n, h with
  | some (.file bytes), h => exact ⟨bytes, rfl, h⟩
  | some (.directory i), h => exact absurd h.1 hnot

theorem HoldsNode.congr (h : HoldsNode g d bs idx n)
    (hentry : entryOf d' idx = entryOf d idx)
    (hsame : ∀ b ∈ bs, d' (g.dataStart + b) = d (g.dataStart + b)) :
    HoldsNode g d' bs idx n := by
  match n, h with
  | some (.file bytes), h =>
      refine ⟨?_, ?_, ?_, h.holds.congr hentry hsame h.size_le⟩
      · rw [hentry]
        exact h.type
      · rw [hentry]
        exact h.start
      · rw [hentry]
        exact h.length
  | some (.directory i), h =>
      refine ⟨?_, h.2⟩
      rw [hentry]
      exact h.1

/-- The disk holds the names of the tree that are not lost. -/
structure KeptTree (g : Geometry) (d : ℕ → Memory) (chain : ℕ → List ℕ)
    (t : NamedTree) : Prop where
  terminated : NamesTerminated g d
  unique : NamesUnique g d
  apart : ApartChains (mapLink g d) chainfsEofMarker g.dataBlocks g.Mapped
    chain
  root : LiveDir g d 0
  rootParent : parentOf d 0 = 0xFFFFFFFF
  parents : ∀ j, LiveEntry g d j → j ≠ 0 → LiveDir g d (parentOf d j)
  lost : ∀ key ∈ t.lost, LiveDir g d key.1
  holds : ∀ j, LiveEntry g d j → entryKey d j ∉ t.lost →
    HoldsNode g d (chain j) j (t.node (entryKey d j))
  absent : ∀ key ∉ t.lost, (∀ j, LiveEntry g d j → entryKey d j ≠ key) →
    t.node key = none

namespace KeptTree

theorem lookup_none (h : KeptTree g d chain t) (hnul : 0 ∉ key.2)
    (hlost : key ∉ t.lost) (hnone : lookup g d key.1 key.2 = none) :
    t.node key = none :=
  h.absent key hlost ((h.terminated.lookup_none_iff hnul).mp hnone)

theorem lookup_some (h : KeptTree g d chain t) (hnul : 0 ∉ key.2)
    (hsome : lookup g d key.1 key.2 = some j) :
    LiveEntry g d j ∧ entryKey d j = key :=
  h.terminated.lookup_key hnul hsome

theorem lookup_holds (h : KeptTree g d chain t) (hnul : 0 ∉ key.2)
    (hlost : key ∉ t.lost) (hsome : lookup g d key.1 key.2 = some j) :
    HoldsNode g d (chain j) j (t.node key) := by
  obtain ⟨hlive, hkey⟩ := h.lookup_some hnul hsome
  have hholds := h.holds j hlive
  rw [hkey] at hholds
  exact hholds hlost

theorem lookup_eq_none_iff (h : KeptTree g d chain t) (hnul : 0 ∉ key.2)
    (hlost : key ∉ t.lost) :
    lookup g d key.1 key.2 = none ↔ t.node key = none := by
  refine ⟨h.lookup_none hnul hlost, ?_⟩
  intro hnode
  cases hlookup : lookup g d key.1 key.2 with
  | none => rfl
  | some j =>
      have hholds := h.lookup_holds hnul hlost hlookup
      rw [hnode] at hholds
      exact absurd hholds id

theorem fileChain (h : KeptTree g d chain t) (hwrap : g.NoWrap)
    (hheld : FileHeld g d (chain j) j bytes) :
    FileChain g d j (chain j) := by
  refine ⟨?_, h.apart.links j, h.apart.nodup j, ?_⟩
  · rw [List.headD_eq_head?_getD, hheld.start]
    rfl
  · intro b hb
    obtain ⟨hmapped, hrange⟩ := h.apart.inside j b hb
    exact ⟨hmapped, hrange, hwrap b hrange hmapped⟩

/-- A block of another chain is in use and not in this one. -/
theorem kept_block (h : KeptTree g d chain t) {b : ℕ}
    (hb : ∃ i ≠ j, b ∈ chain i) :
    g.Mapped b ∧ mapLink g d b ≠ 0 ∧ b ∉ chain j := by
  obtain ⟨i, hij, hb⟩ := hb
  refine ⟨(h.apart.inside i b hb).1, h.apart.used (by decide) hb, ?_⟩
  intro hbj
  exact hij (h.apart.disjoint i j b hb hbj)

/-- Which directory is entered does not matter to the disk. -/
theorem enter (h : KeptTree g d chain t) (idx : ℕ) :
    KeptTree g d chain (t.enter idx) :=
  ⟨h.terminated, h.unique, h.apart, h.root, h.rootParent, h.parents, h.lost,
    h.holds, h.absent⟩

/-! ## Calls that were cut short -/

theorem of_sameTable {chain' : ℕ → List ℕ} (h : KeptTree g d chain t)
    (hsame : SameTable g d d')
    (hapart : ApartChains (mapLink g d') chainfsEofMarker g.dataBlocks
      g.Mapped chain')
    (hmore : ∀ key, key ∈ t.lost → key ∈ t'.lost)
    (hlost : ∀ key ∈ t'.lost, LiveDir g d key.1)
    (hnode : ∀ key ∉ t'.lost, t'.node key = t.node key)
    (hkept : ∀ j, LiveEntry g d j → entryKey d j ∉ t'.lost →
      chain' j = chain j ∧ ∀ b ∈ chain j,
        d' (g.dataStart + b) = d (g.dataStart + b)) :
    KeptTree g d' chain' t' := by
  have hentries : ∀ j < g.slots, entryOf d' j = entryOf d j :=
    fun j hj => (hsame j hj).entryOf_eq
  have hlive : ∀ j, LiveEntry g d' j ↔ LiveEntry g d j := by
    intro j
    by_cases hj : j < g.slots
    · exact LiveEntry.congr (hentries j hj)
    · simp [LiveEntry, hj]
  have hkeys : ∀ j, LiveEntry g d j → entryKey d' j = entryKey d j := by
    intro j hj
    simp only [entryKey, parentOf, hentries j hj.1]
  have hdirs : ∀ j, LiveDir g d j → LiveDir g d' j :=
    fun j hj => (LiveDir.congr (hentries j hj.1.1)).mpr hj
  refine ⟨?_, ?_, hapart, hdirs 0 h.root, ?_, ?_, ?_, ?_, ?_⟩
  · intro j hj hone
    rw [hentries j hj] at hone
    exact (h.terminated j hj hone).congr (hsame j hj)
  · exact UniqueKeys.congr h.unique hlive hkeys
  · rw [parentOf, hentries 0 h.root.1.1]
    exact h.rootParent
  · intro j hj hne
    rw [hlive] at hj
    rw [parentOf, hentries j hj.1]
    exact hdirs _ (h.parents j hj hne)
  · exact fun key hkey => hdirs _ (hlost key hkey)
  · intro j hj
    rw [hlive] at hj
    rw [hkeys j hj]
    intro hnot
    obtain ⟨hchain, hdata⟩ := hkept j hj hnot
    rw [hchain, hnode _ hnot]
    exact (h.holds j hj fun hl => hnot (hmore _ hl)).congr
      (hentries j hj.1) hdata
  · intro key hkey hnone
    rw [hnode key hkey]
    apply h.absent key fun hl => hkey (hmore _ hl)
    intro j hj heq
    exact hnone j ((hlive j).mpr hj) ((hkeys j hj).trans heq)

theorem undisturbed (h : KeptTree g d chain t)
    (hpart : Undisturbed g (fun b => ∃ j, b ∈ chain j) d d') :
    KeptTree g d' chain t := by
  refine h.of_sameTable hpart.sameTable ⟨?_, h.apart.increasing,
    h.apart.inside, h.apart.disjoint⟩ (fun _ hkey => hkey) h.lost
    (fun _ _ => rfl) ?_
  · intro j
    exact (h.apart.links j).congr fun b hb => hpart.links b ⟨j, hb⟩
  · intro j _ _
    exact ⟨rfl, fun b hb => hpart.contents b ⟨j, hb⟩⟩

/-- Of a file that was being replaced or deleted nothing is known. -/
theorem given_up (h : KeptTree g d chain t)
    (hpart : Undisturbed g (fun b => ∃ j ≠ idx, b ∈ chain j) d d')
    (hkey : LiveEntry g d idx → entryKey d idx = key)
    (hdir : LiveDir g d key.1) :
    KeptTree g d' (Function.update chain idx [])
      { t with lost := insert key t.lost } := by
  refine h.of_sameTable hpart.sameTable
    (h.apart.drop fun j hj b hb => hpart.links b ⟨j, hj, hb⟩)
    (fun _ hlost => Set.mem_insert_of_mem _ hlost) ?_ (fun _ _ => rfl) ?_
  · intro key' hlost
    rcases Set.mem_insert_iff.mp hlost with rfl | hlost
    · exact hdir
    · exact h.lost key' hlost
  · intro j hj hnot
    have hne : j ≠ idx := by
      rintro rfl
      exact hnot (Set.mem_insert_iff.mpr (Or.inl (hkey hj)))
    exact ⟨Function.update_of_ne hne _ _,
      fun b hb => hpart.contents b ⟨j, hne, hb⟩⟩

/-- What is known of a name may be forgotten. -/
theorem forget (h : KeptTree g d chain t) (hdir : LiveDir g d key.1)
    (hnode : ∀ key' ≠ key, t'.node key' = t.node key')
    (hlost : t'.lost = insert key t.lost) : KeptTree g d chain t' := by
  refine h.of_sameTable (SameTable.of_disk rfl) h.apart ?_ ?_ ?_
    fun _ _ _ => ⟨rfl, fun _ _ => rfl⟩
  · intro key' hkey'
    rw [hlost]
    exact Set.mem_insert_of_mem _ hkey'
  · intro key' hkey'
    rw [hlost] at hkey'
    rcases Set.mem_insert_iff.mp hkey' with rfl | hkey'
    · exact hdir
    · exact h.lost key' hkey'
  · intro key' hkey'
    apply hnode
    rintro rfl
    exact hkey' (hlost ▸ Set.mem_insert _ _)

end KeptTree

/-! ## Edits of one slot -/

/-- The edit is about one name, which no other slot has, and the slot is no
directory before. -/
structure NameEdit (g : Geometry) (d d' : ℕ → Memory) (e : TableEdit)
    (key : TreeKey) : Prop where
  edited : Edited g d d' e
  file : ¬ LiveDir g d e.slot
  before : LiveEntry g d e.slot → entryKey d e.slot = key
  after : LiveEntry g d' e.slot → entryKey d' e.slot = key
  alone : ∀ j ≠ e.slot, LiveEntry g d j → entryKey d j ≠ key

namespace NameEdit

theorem liveDir (h : NameEdit g d d' e key) (hdir : LiveDir g d j) :
    LiveDir g d' j := by
  have hne : j ≠ e.slot := by
    rintro rfl
    exact h.file hdir
  exact (LiveDir.congr (h.edited.other j hdir.1.1 hne).entryOf_eq).mpr hdir

theorem liveEntry_iff (h : NameEdit g d d' e key) (hne : j ≠ e.slot) :
    LiveEntry g d' j ↔ LiveEntry g d j := by
  by_cases hj : j < g.slots
  · exact LiveEntry.congr (h.edited.other j hj hne).entryOf_eq
  · simp [LiveEntry, hj]

theorem entryKey_eq (h : NameEdit g d d' e key) (hne : j ≠ e.slot)
    (hlive : LiveEntry g d j) : entryKey d' j = entryKey d j := by
  simp only [entryKey, parentOf,
    (h.edited.other j hlive.1 hne).entryOf_eq]

theorem unique (h : NameEdit g d d' e key) (hunique : NamesUnique g d) :
    NamesUnique g d' := by
  refine (hunique.change_iff h.edited).mpr fun hlive j hne hj => ?_
  rw [h.after hlive]
  exact h.alone j hne hj

end NameEdit

/-- The slot of the name is edited, and the tree says of the name what the slot
holds now. -/
theorem KeptTree.edited (h : KeptTree g d chain t)
    (hedit : NameEdit g d d' e key)
    (hapart : ApartChains (mapLink g d') chainfsEofMarker g.dataBlocks
      g.Mapped (Function.update chain e.slot bs))
    (hdata : ∀ j ≠ e.slot, ∀ b ∈ chain j,
      d' (g.dataStart + b) = d (g.dataStart + b))
    (hparent : LiveEntry g d' e.slot → LiveDir g d (parentOf d' e.slot))
    (hnode : ∀ key' ≠ key, t'.node key' = t.node key')
    (hlost : t'.lost = t.lost) (hself : key ∉ t.lost →
      (LiveEntry g d' e.slot → HoldsNode g d' bs e.slot (t'.node key)) ∧
        (¬ LiveEntry g d' e.slot → t'.node key = none)) :
    KeptTree g d' (Function.update chain e.slot bs) t' := by
  refine ⟨h.terminated.edited hedit.edited, hedit.unique h.unique, hapart,
    hedit.liveDir h.root, ?_, ?_, ?_, ?_, ?_⟩
  · have hne : 0 ≠ e.slot := fun heq => hedit.file (heq ▸ h.root)
    rw [parentOf, (hedit.edited.other 0 h.root.1.1 hne).entryOf_eq]
    exact h.rootParent
  · intro j hj hne
    by_cases hslot : j = e.slot
    · rw [hslot] at hj ⊢
      exact hedit.liveDir (hparent hj)
    · have hj' := (hedit.liveEntry_iff hslot).mp hj
      rw [parentOf, (hedit.edited.other j hj.1 hslot).entryOf_eq]
      exact hedit.liveDir (h.parents j hj' hne)
  · intro key' hkey'
    rw [hlost] at hkey'
    exact hedit.liveDir (h.lost key' hkey')
  · intro j hj
    rw [hlost]
    by_cases hslot : j = e.slot
    · rw [hslot] at hj ⊢
      rw [hedit.after hj, Function.update_self]
      exact fun hnot => (hself hnot).1 hj
    · have hj' := (hedit.liveEntry_iff hslot).mp hj
      rw [hedit.entryKey_eq hslot hj', Function.update_of_ne hslot,
        hnode _ (hedit.alone j hslot hj')]
      intro hnot
      exact (h.holds j hj' hnot).congr
        (hedit.edited.other j hj.1 hslot).entryOf_eq (hdata j hslot)
  · intro key' hnot hnone
    rw [hlost] at hnot
    by_cases heq : key' = key
    · rw [heq] at hnot hnone ⊢
      exact (hself hnot).2 fun hlive => hnone _ hlive (hedit.after hlive)
    · rw [hnode key' heq]
      apply h.absent key' hnot
      intro j hj hkey
      by_cases hslot : j = e.slot
      · rw [hslot] at hj hkey
        exact heq (hkey.symm.trans (hedit.before hj))
      · refine hnone j ((hedit.liveEntry_iff hslot).mpr hj) ?_
        rw [hedit.entryKey_eq hslot hj]
        exact hkey

end Otsos
