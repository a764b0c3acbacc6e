import Otsos.ChainFS.Layout

/-!
# Writing one entry

The mutators read a table sector, change one entry in the buffer and write the
sector back.  On the disk this is an update of one slot: no other slot and no
sector outside the table changes.
-/

namespace Otsos

open Lib

variable {g : Geometry} {d d' : ℕ → Memory} {m m' : Memory}
  {i j idx size start parent dir : ℕ} {name fileName : List UInt8}

/-! ## Entries in a sector -/

/-- The bytes of two entries agree. -/
def SameBytes (m : Memory) (i : ℕ) (m' : Memory) (j : ℕ) : Prop :=
  ∀ off < sizeofFileEntry,
    m' (sizeofFileEntry * j + off) = m (sizeofFileEntry * i + off)

theorem SameBytes.word (h : SameBytes m i m' j) {off n : ℕ}
    (hoff : off + n ≤ sizeofFileEntry) :
    m'.load (sizeofFileEntry * j + off) n =
      m.load (sizeofFileEntry * i + off) n := by
  apply Memory.load_congr_shift
  intro k hk
  rw [Nat.add_assoc, Nat.add_assoc]
  exact h (off + k) (by omega)

theorem SameBytes.entryAt_eq (h : SameBytes m i m' j) :
    entryAt m' j = entryAt m i := by
  have hchars : ∀ off n, off + n ≤ sizeofFileEntry →
      (List.range n).map (fun k => m' (sizeofFileEntry * j + off + k)) =
        (List.range n).map fun k => m (sizeofFileEntry * i + off + k) := by
    intro off n hoff
    apply List.map_congr_left
    intro k hk
    have hk := List.mem_range.mp hk
    simp only [Nat.add_assoc]
    exact h (off + k) (by omega)
  have hstatus := h 0 (by decide)
  simp only [Nat.add_zero] at hstatus
  simp only [entryAt, hstatus, h 1 (by decide), hchars 2 30 (by decide),
    h.word (show 32 + 4 ≤ sizeofFileEntry by decide),
    h.word (show 36 + 4 ≤ sizeofFileEntry by decide),
    h.word (show 40 + 4 ≤ sizeofFileEntry by decide), hchars 44 16 (by decide)]

theorem SameBytes.slotMatches_eq (h : SameBytes m i m' j)
    (hname : name.length ≤ 57) :
    slotMatches dir name m' j = slotMatches dir name m i := by
  have hstatus := h 0 (by decide)
  simp only [Nat.add_zero] at hstatus
  have hchars : strcmpEq m' (sizeofFileEntry * j + 2) name =
      strcmpEq m (sizeofFileEntry * i + 2) name := by
    apply strcmpEq_congr
    intro k hk
    simp only [Nat.add_assoc]
    exact h (2 + k) (by unfold sizeofFileEntry; omega)
  simp only [slotMatches, hstatus, hchars,
    h.word (show 40 + 4 ≤ sizeofFileEntry by decide)]

/-- A change of one entry of a sector. -/
def EditsEntry (edit : Memory → ℕ → Memory) : Prop :=
  ∀ m i x, x < sizeofFileEntry * i ∨
    sizeofFileEntry * i + sizeofFileEntry ≤ x → edit m i x = m x

theorem EditsEntry.other {edit : Memory → ℕ → Memory}
    (h : EditsEntry edit) (hij : j ≠ i) : SameBytes m j (edit m i) j := by
  intro off hoff
  apply h m i
  unfold sizeofFileEntry at hoff ⊢
  omega

theorem setStatus_edits (v : UInt8) :
    EditsEntry fun m i => setStatus m i v := by
  intro m i x hx
  unfold sizeofFileEntry at hx
  apply m.set_other v
  unfold sizeofFileEntry
  omega

theorem setFileEntry_edits (fileName : List UInt8)
    (size start parent : ℕ) :
    EditsEntry fun m i => setFileEntry m i fileName size start parent := by
  intro m i x hx
  have hlen : (fileName.take 29).length ≤ 29 := List.length_take_le 29 _
  simp only [setFileEntry, sizeofFileEntry] at hx ⊢
  rw [Memory.store_outside _ _ (by omega), Memory.store_outside _ _ (by omega),
    Memory.store_outside _ _ (by omega), copyChars_outside _ (by omega),
    copyBytes_outside _ _ (by omega), Memory.set_other _ _ (by omega),
    Memory.set_other _ _ (by omega)]

theorem setDirEntry_edits {dirName : List UInt8} (parent : ℕ)
    (hname : dirName.length < 32) :
    EditsEntry fun m i => setDirEntry m i dirName parent := by
  intro m i x hx
  simp only [setDirEntry, strcpy_eq, sizeofFileEntry] at hx ⊢
  rw [Memory.store_outside _ _ (by omega), Memory.store_outside _ _ (by omega),
    Memory.store_outside _ _ (by omega),
    copyChars_outside _ (by simp only [List.length_append,
      List.length_singleton]; omega),
    Memory.set_other _ _ (by omega), Memory.set_other _ _ (by omega)]

/-! ## What the edits write -/

theorem setStatus_status (v : UInt8) :
    (entryAt (setStatus m i v) i).status = v :=
  m.set_same (sizeofFileEntry * i) v

theorem setFileEntry_status :
    (entryAt (setFileEntry m i fileName size start parent) i).status = 1 := by
  have hlen : (fileName.take 29).length ≤ 29 := List.length_take_le 29 _
  simp only [entryAt, setFileEntry]
  rw [Memory.store_outside _ _ (by omega), Memory.store_outside _ _ (by omega),
    Memory.store_outside _ _ (by omega), copyChars_outside _ (by omega),
    copyBytes_outside _ _ (by omega), Memory.set_other _ _ (by omega),
    Memory.set_same]

theorem setFileEntry_type :
    (entryAt (setFileEntry m i fileName size start parent) i).type =
      chainfsTypeFile := by
  have hlen : (fileName.take 29).length ≤ 29 := List.length_take_le 29 _
  simp only [entryAt, setFileEntry]
  rw [Memory.store_outside _ _ (by omega), Memory.store_outside _ _ (by omega),
    Memory.store_outside _ _ (by omega), copyChars_outside _ (by omega),
    copyBytes_outside _ _ (by omega), Memory.set_same]

theorem setFileEntry_size (hsize : size < 2 ^ 32) :
    (entryAt (setFileEntry m i fileName size start parent) i).size =
      size := by
  simp (disch := omega) only [entryAt, setFileEntry,
    Memory.load_store_disjoint, Memory.load_store_same]
  exact Nat.mod_eq_of_lt hsize

theorem setFileEntry_start (hstart : start < 2 ^ 32) :
    (entryAt (setFileEntry m i fileName size start parent) i).startBlock =
      start := by
  simp (disch := omega) only [entryAt, setFileEntry,
    Memory.load_store_disjoint, Memory.load_store_same]
  exact Nat.mod_eq_of_lt hstart

theorem setFileEntry_parent (hparent : parent < 2 ^ 32) :
    (entryAt (setFileEntry m i fileName size start parent) i).parentBlock =
      parent := by
  simp only [entryAt, setFileEntry, Memory.load_store_same]
  exact Nat.mod_eq_of_lt hparent

theorem setFileEntry_name (hname : fileName.length ≤ 29) :
    strcmpEq (setFileEntry m i fileName size start parent)
      (sizeofFileEntry * i + 2) fileName = true := by
  have htake : fileName.take 29 = fileName := List.take_of_length_le hname
  rw [strcmpEq_iff]
  simp only [setFileEntry, htake]
  constructor
  · intro k hk
    rw [Memory.store_outside _ _ (by omega),
      Memory.store_outside _ _ (by omega),
      Memory.store_outside _ _ (by omega)]
    exact copyChars_inside _ hk
  · rw [Memory.store_outside _ _ (by omega),
      Memory.store_outside _ _ (by omega),
      Memory.store_outside _ _ (by omega), copyChars_outside _ (by omega)]
    exact copyBytes_inside _ _ (by omega)

theorem setDirEntry_status :
    (entryAt (setDirEntry m i name parent) i).status = 1 := by
  simp only [entryAt, setDirEntry, strcpy_eq]
  rw [Memory.store_outside _ _ (by omega), Memory.store_outside _ _ (by omega),
    Memory.store_outside _ _ (by omega), copyChars_outside _ (by omega),
    Memory.set_other _ _ (by omega), Memory.set_same]

theorem setDirEntry_type :
    (entryAt (setDirEntry m i name parent) i).type = chainfsTypeDir := by
  simp only [entryAt, setDirEntry, strcpy_eq]
  rw [Memory.store_outside _ _ (by omega), Memory.store_outside _ _ (by omega),
    Memory.store_outside _ _ (by omega), copyChars_outside _ (by omega),
    Memory.set_same]

theorem setDirEntry_size :
    (entryAt (setDirEntry m i name parent) i).size = 0 := by
  simp (disch := omega) only [entryAt, setDirEntry,
    Memory.load_store_disjoint, Memory.load_store_same, Nat.zero_mod]

theorem setDirEntry_start :
    (entryAt (setDirEntry m i name parent) i).startBlock = 0 := by
  simp (disch := omega) only [entryAt, setDirEntry,
    Memory.load_store_disjoint, Memory.load_store_same, Nat.zero_mod]

theorem setDirEntry_parent (hparent : parent < 2 ^ 32) :
    (entryAt (setDirEntry m i name parent) i).parentBlock = parent := by
  simp only [entryAt, setDirEntry, Memory.load_store_same]
  exact Nat.mod_eq_of_lt hparent

/-- Which names an entry answers to, once one is known. -/
theorem slotMatches_iff (hname : 0 ∉ name) (hfile : 0 ∉ fileName)
    (hstatus : (entryAt m i).status = 1)
    (hchars : strcmpEq m (sizeofFileEntry * i + 2) fileName = true) :
    slotMatches dir name m i = true ↔
      (entryAt m i).parentBlock = dir ∧ name = fileName := by
  have hstatus' : m (sizeofFileEntry * i) = 1 := hstatus
  simp only [slotMatches, hstatus', Bool.and_eq_true, beq_iff_eq,
    strcmpEq_iff_eq hfile hname hchars, true_and]
  rfl

/-! ## Slots on the disk -/

/-- The disk after editing one slot. -/
def editSlot (d : ℕ → Memory) (idx : ℕ) (edit : Memory → ℕ → Memory) :
    ℕ → Memory :=
  Function.update d (1 + idx / 8) (edit (d (1 + idx / 8)) (idx % 8))

/-- The slot `idx` holds the same bytes on both disks. -/
def SameSlot (d d' : ℕ → Memory) (idx : ℕ) : Prop :=
  SameBytes (d (1 + idx / 8)) (idx % 8) (d' (1 + idx / 8)) (idx % 8)

theorem SameSlot.of_sector (h : d' (1 + idx / 8) = d (1 + idx / 8)) :
    SameSlot d d' idx := by
  intro off _
  rw [h]

theorem SameSlot.entryOf_eq (h : SameSlot d d' idx) :
    entryOf d' idx = entryOf d idx :=
  h.entryAt_eq

theorem SameSlot.matches_eq (h : SameSlot d d' idx)
    (hname : name.length ≤ 57) :
    testSlot (slotMatches dir name) d' idx =
      testSlot (slotMatches dir name) d idx :=
  h.slotMatches_eq hname

theorem editSlot_other {edit : Memory → ℕ → Memory}
    (hedit : EditsEntry edit) (hj : j ≠ idx) :
    SameSlot d (editSlot d idx edit) j := by
  by_cases hsector : 1 + j / 8 = 1 + idx / 8
  · unfold SameSlot editSlot
    rw [hsector, Function.update_self]
    exact hedit.other (by omega)
  · exact SameSlot.of_sector (Function.update_of_ne hsector _ _)

theorem editSlot_sector {edit : Memory → ℕ → Memory} {sector : ℕ}
    (hsector : sector ≠ 1 + idx / 8) :
    editSlot d idx edit sector = d sector :=
  Function.update_of_ne hsector _ _

theorem editSlot_zero (edit : Memory → ℕ → Memory) :
    editSlot d idx edit 0 = d 0 :=
  editSlot_sector (by omega)

theorem entryOf_editSlot (edit : Memory → ℕ → Memory) :
    entryOf (editSlot d idx edit) idx =
      entryAt (edit (d (1 + idx / 8)) (idx % 8)) (idx % 8) := by
  simp only [entryOf, editSlot, Function.update_self]

theorem testSlot_editSlot (test : Memory → ℕ → Bool)
    (edit : Memory → ℕ → Memory) :
    testSlot test (editSlot d idx edit) idx =
      test (edit (d (1 + idx / 8)) (idx % 8)) (idx % 8) := by
  simp only [testSlot, editSlot, Function.update_self]

theorem Geometry.slot_sector (g : Geometry) (hidx : idx < g.slots) :
    1 ≤ 1 + idx / 8 ∧ 1 + idx / 8 < 1 + g.table := by
  simp only [Geometry.slots] at hidx
  omega

end Otsos
