import Otsos.ChainFS.TableEdits

/-!
# Tables filled from the front

Entries are stored in the first free slot.  As long as none is removed, the
slots in use are the first ones of the table.
-/

namespace Otsos

open Lib

variable {g : Geometry} {s : ChainFS} {d d' : ℕ → Memory} {idx n : ℕ}
  {e : TableEdit}

/-- The first `n` slots are in use and the others are free. -/
structure Filled (g : Geometry) (d : ℕ → Memory) (n : ℕ) : Prop where
  inside : n ≤ g.slots
  used : ∀ idx < n, (entryOf d idx).status = 1
  free : ∀ idx < g.slots, n ≤ idx → (entryOf d idx).status = 0

theorem Filled.live_iff (h : Filled g d n) : LiveEntry g d idx ↔ idx < n := by
  constructor
  · rintro ⟨hidx, hone⟩
    by_contra hfree
    rw [h.free idx hidx (by omega)] at hone
    exact absurd hone (by decide)
  · intro hlt
    exact ⟨hlt.trans_le h.inside, h.used idx hlt⟩

theorem Filled.freeSlot_eq (h : Filled g d n) (hroom : n < g.slots) :
    freeSlot g d = some n := by
  refine firstSlot_eq_some hroom ?_ ?_
  · exact beq_iff_eq.mpr (h.free n hroom le_rfl)
  · intro j hj
    rw [← Bool.not_eq_true]
    intro hzero
    have hone := h.used j hj
    rw [show (entryOf d j).status = 0 from beq_iff_eq.mp hzero] at hone
    exact absurd hone (by decide)

theorem Filled.slot_eq (h : Filled g d n) (hfree : freeSlot g d = some idx) :
    idx = n := by
  obtain ⟨hidx, hzero⟩ := freeSlot_some hfree
  have hroom : n < g.slots := by
    by_contra hfull
    have hone := h.used idx (by omega)
    rw [hzero] at hone
    exact absurd hone (by decide)
  rw [h.freeSlot_eq hroom] at hfree
  exact (Option.some.inj hfree).symm

theorem Filled.same (h : Filled g d n) (hsame : SameTable g d d') :
    Filled g d' n := by
  refine ⟨h.inside, ?_, ?_⟩
  · intro j hj
    rw [(hsame j (hj.trans_le h.inside)).entryOf_eq]
    exact h.used j hj
  · intro j hj hn
    rw [(hsame j hj).entryOf_eq]
    exact h.free j hj hn

theorem Filled.stored (h : Filled g d n) (hedited : Edited g d d' e)
    (hslot : e.slot = n) (hone : (entryOf d' n).status = 1) :
    Filled g d' (n + 1) := by
  have hinside := hedited.inside
  rw [hslot] at hinside
  refine ⟨hinside, ?_, ?_⟩
  · intro j hj
    by_cases hlast : j = n
    · rw [hlast, hone]
    · rw [(hedited.other j (by omega) (by omega)).entryOf_eq]
      exact h.used j (by omega)
  · intro j hj hn
    rw [(hedited.other j hj (by omega)).entryOf_eq]
    exact h.free j hj (by omega)

theorem Filled.over (h : Filled g d n) (hedited : Edited g d d' e)
    (hslot : e.slot < n) (hone : (entryOf d' e.slot).status = 1) :
    Filled g d' n := by
  refine ⟨h.inside, ?_, ?_⟩
  · intro j hj
    by_cases hsame : j = e.slot
    · rw [hsame, hone]
    · rw [(hedited.other j (hj.trans_le h.inside) hsame).entryOf_eq]
      exact h.used j hj
  · intro j hj hn
    rw [(hedited.other j hj (by omega)).entryOf_eq]
    exact h.free j hj hn

/-- A format leaves the root entry, if there is a table. -/
theorem Formatted.filled {totalBlocks maxFiles : ℕ}
    (h : Formatted totalBlocks maxFiles s) :
    Filled (formatGeometry totalBlocks maxFiles) s.disk
      (min 1 (formatGeometry totalBlocks maxFiles).slots) := by
  obtain ⟨hfresh, -⟩ := h.fresh
  refine ⟨Nat.min_le_right _ _, ?_, ?_⟩
  · intro j hj
    rw [(hfresh.entries (by omega)).1 (by omega)]
    exact formatRootSector_root.1
  · intro j hj hone
    exact (hfresh.entries hj).2 (by omega)

end Otsos
