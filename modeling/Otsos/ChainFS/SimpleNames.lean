import Mathlib.Data.List.Nodup
import Otsos.ChainFS.Accounts
import Otsos.ChainFS.Paths
import Otsos.ChainFS.Runs

/-!
# Calls on names in the current directory

For a name without `'/'` every call works on one slot of the table.  The
invariant of such runs says that the blocks are accounted for and that file
contents went to the data area only; each call keeps it, and says what it did
to the slots and the contents of the other files.
-/

namespace Otsos

open Lib

variable {g : Geometry} {s s' : ChainFS} {d d' : ℕ → Memory}
  {chain : ℕ → List ℕ} {idx size parent : ℕ} {name : CString}
  {data : Memory} {bs : List ℕ}

/-- A name of 1 to 29 characters without `'/'`. -/
structure SimpleName (name : CString) : Prop where
  nonempty : name.chars ≠ []
  short : name.chars.length ≤ 29
  noSlash : slash ∉ name.chars

instance (name : CString) : Decidable (SimpleName name) :=
  decidable_of_iff (name.chars ≠ [] ∧ name.chars.length ≤ 29 ∧
      slash ∉ name.chars)
    ⟨fun h => ⟨h.1, h.2.1, h.2.2⟩, fun h => ⟨h.1, h.2, h.3⟩⟩

theorem SimpleName.splitParent_eq (h : SimpleName name) :
    splitParent name.chars = .ok (.current, name.chars) := by
  have hshort := h.short
  simp only [splitParent, lastSlash_none h.noSlash, copyName,
    if_pos (show name.chars.length < 32 by omega)]
  rfl

theorem SimpleName.splitPath_eq (h : SimpleName name) :
    splitPath name.chars = [name.chars] := by
  have hshort := h.short
  have hpos := List.length_pos_of_ne_nil h.nonempty
  rw [splitPath_noSlash h.noSlash, keepComponent, if_pos (by omega),
    List.nil_append]

theorem SimpleName.find_eq (h : SimpleName name) :
    s.find g name.chars =
      (lookup g s.disk s.currentDirBlock name.chars).map .slot := by
  rw [ChainFS.find, findTable, if_neg h.noSlash]

theorem SimpleName.resolve_eq (h : SimpleName name) :
    s.resolve g name.chars =
      (lookup g s.disk s.currentDirBlock name.chars).map .slot := by
  have hhead : ¬ name.chars.head? = some slash := by
    intro heq
    exact h.noSlash (List.mem_of_head? heq)
  rw [ChainFS.resolve, resolveTable, if_neg (by simp [hhead]), if_neg hhead,
    h.splitPath_eq, walkTable]
  cases lookup g s.disk s.currentDirBlock name.chars <;> rfl

theorem lookup_some {dir : ℕ} {chars : List UInt8}
    (h : lookup g d dir chars = some idx) :
    idx < g.slots ∧ (entryOf d idx).status = 1 ∧
      (entryOf d idx).parentBlock = dir := by
  obtain ⟨hidx, htest, -⟩ := firstSlot_some h
  simp only [testSlot, slotMatches, Bool.and_eq_true, beq_iff_eq] at htest
  exact ⟨hidx, htest.1.1, htest.1.2⟩

theorem freeSlot_some (h : freeSlot g d = some idx) :
    idx < g.slots ∧ (entryOf d idx).status = 0 := by
  obtain ⟨hidx, htest, -⟩ := firstSlot_some h
  simp only [testSlot, slotFree, beq_iff_eq] at htest
  exact ⟨hidx, htest⟩

/-! ## The invariant -/

structure FsInvariant (g : Geometry) (s : ChainFS) (chain : ℕ → List ℕ) :
    Prop where
  mounted : Mounted g s
  noWrap : g.NoWrap
  heap : HeapReady s.heap
  current : s.currentDirBlock < 2 ^ 32
  accounts : Accounted g s.disk chain fun _ => True
  log : ∀ sector ∈ s.dataWrites,
    g.dataStart ≤ sector ∧ sector < g.dataStart + g.dataBlocks

theorem FsInvariant.of_unchanged (h : FsInvariant g s chain)
    (hsame : Unchanged s s') : FsInvariant g s' chain := by
  refine ⟨hsame.control.mounted h.mounted, h.noWrap, hsame.heap, ?_, ?_, ?_⟩
  · rw [hsame.control.current]
    exact h.current
  · rw [hsame.disk]
    exact h.accounts
  · rw [hsame.log]
    exact h.log

theorem FsInvariant.withHeap {heap : Heap} (h : FsInvariant g s chain)
    (hready : HeapReady heap) :
    FsInvariant g { s with heap := heap } chain :=
  ⟨h.mounted.of_same rfl rfl, h.noWrap, hready, h.current, h.accounts, h.log⟩

theorem FsInvariant.withBuffer (h : FsInvariant g s chain) (m : Memory) :
    FsInvariant g { s with sectorBuffer := m } chain :=
  h.of_unchanged (Unchanged.of_buffer h.heap m)

theorem formatRootSector_zero {x : ℕ} (hx : 44 ≤ x) :
    formatRootSector x = 0 := by
  simp only [formatRootSector]
  rw [Memory.store_outside _ _ (by omega), Memory.store_outside _ _ (by omega),
    Memory.store_outside _ _ (by omega), Memory.set_other _ _ (by omega),
    Memory.set_other _ _ (by omega), Memory.set_other _ _ (by omega),
    Memory.set_other _ _ (by omega)]
  rfl

theorem formatRootSector_root :
    (entryAt formatRootSector 0).status = 1 ∧
      (entryAt formatRootSector 0).type = chainfsTypeDir ∧
      (entryAt formatRootSector 0).startBlock = 0 ∧
      (entryAt formatRootSector 0).parentBlock = 0xFFFFFFFF := by
  refine ⟨?_, ?_, ?_, ?_⟩
  · simp only [entryAt, formatRootSector]
    rw [Memory.store_outside _ _ (by omega),
      Memory.store_outside _ _ (by omega),
      Memory.store_outside _ _ (by omega), Memory.set_other _ _ (by omega),
      Memory.set_other _ _ (by omega), Memory.set_other _ _ (by omega)]
    exact Memory.set_same _ _ _
  · simp only [entryAt, formatRootSector]
    rw [Memory.store_outside _ _ (by omega),
      Memory.store_outside _ _ (by omega),
      Memory.store_outside _ _ (by omega), Memory.set_other _ _ (by omega),
      Memory.set_other _ _ (by omega)]
    exact Memory.set_same _ _ _
  · simp (disch := omega) only [entryAt, formatRootSector, Nat.mul_zero,
      Nat.zero_add, Memory.load_store_disjoint, Memory.load_store_same,
      Nat.zero_mod]
  · simp only [entryAt, formatRootSector]
    exact Memory.load_store_same _ _ _ _

theorem formatRootSector_size :
    (entryAt formatRootSector 0).size = 0 := by
  simp (disch := omega) only [entryAt, formatRootSector, Nat.mul_zero,
    Nat.zero_add, Memory.load_store_disjoint, Memory.load_store_same,
    Nat.zero_mod]

theorem FreshDisk.entries {totalBlocks maxFiles : ℕ}
    (h : FreshDisk totalBlocks maxFiles d)
    (hidx : idx < (formatGeometry totalBlocks maxFiles).slots) :
    (idx = 0 → entryOf d idx = entryAt formatRootSector 0) ∧
      (idx ≠ 0 → (entryOf d idx).status = 0) := by
  have hsector := Geometry.slot_sector _ hidx
  simp only [formatGeometry] at hsector
  by_cases hone : idx / 8 = 0
  · have hroot := h.root (by omega)
    have hfirst : entryOf d idx = entryAt formatRootSector (idx % 8) := by
      rw [entryOf, hone, hroot]
    rw [hfirst]
    refine ⟨fun hzero => by rw [hzero], ?_⟩
    intro hne
    apply formatRootSector_zero
    unfold sizeofFileEntry
    omega
  · refine ⟨fun hzero => absurd (by rw [hzero]) hone, ?_⟩
    intro _
    have hzero := h.zero (1 + idx / 8) (by omega) (by omega) (by omega)
    rw [entryOf, hzero]
    rfl

theorem zeroSector_load (a : ℕ) : zeroSector.load a 4 = 0 := by
  have hdigits := Memory.load_of_digits (m := zeroSector)
    (a := a) (n := 4) (v := 0) (fun i _ => by simp [zeroSector])
  rwa [Nat.zero_mod] at hdigits

theorem FreshDisk.mapLink_zero {totalBlocks maxFiles b : ℕ}
    (h : FreshDisk totalBlocks maxFiles d)
    (hb : (formatGeometry totalBlocks maxFiles).Mapped b) :
    mapLink (formatGeometry totalBlocks maxFiles) d b = 0 := by
  simp only [Geometry.Mapped, formatGeometry] at hb
  have hzero := h.zero (1 + formatTableBlocks maxFiles + b / 128) (by omega)
    (by omega) (by omega)
  simp only [mapLink, formatGeometry, hzero]
  exact zeroSector_load _

theorem FreshDisk.accounted {totalBlocks maxFiles : ℕ}
    (h : FreshDisk totalBlocks maxFiles d) :
    Accounted (formatGeometry totalBlocks maxFiles) d (fun _ => [])
      fun _ => True := by
  have hdir : ∀ j < (formatGeometry totalBlocks maxFiles).slots,
      (entryOf d j).status = 1 → (entryOf d j).type = chainfsTypeDir := by
    intro j hj hone
    obtain ⟨hroot, hother⟩ := h.entries hj
    by_cases hzero : j = 0
    · rw [hroot hzero]
      exact formatRootSector_root.2.1
    · rw [hother hzero] at hone
      exact absurd hone (by decide)
  have hnone : ∀ j,
      ¬ LiveFile (formatGeometry totalBlocks maxFiles) d j := by
    rintro j ⟨hj, hone, hfile⟩
    rw [hdir j hj hone] at hfile
    exact absurd hfile (by decide)
  refine ⟨?_, ?_, ?_, fun _ _ _ => rfl, ?_⟩
  · exact ChainTable.empty fun b hb => h.mapLink_zero hb
  · intro j _ hlive
    exact absurd hlive (hnone j)
  · intro j _ hlive
    exact absurd hlive (hnone j)
  · intro j hj _ hone
    exact Or.inr (hdir j hj hone)

theorem Formatted.invariant {totalBlocks maxFiles : ℕ}
    (h : Formatted totalBlocks maxFiles s)
    (hwrap : (formatGeometry totalBlocks maxFiles).NoWrap) :
    FsInvariant (formatGeometry totalBlocks maxFiles) s fun _ => [] := by
  obtain ⟨hfresh, -, -, hcurrent, hlog, hready⟩ := h.fresh
  refine ⟨h.mounted, hwrap, hready, ?_, hfresh.accounted, ?_⟩
  · rw [hcurrent]
    omega
  · rw [hlog]
    simp

end Otsos
