import Otsos.ChainFS.Calls

/-!
# Accounting for the blocks

Every block in use belongs to the chain of one live file, and the chain has the
blocks its size asks for.  While a call works on one slot the account of that
slot is open; the lemmas below open it, let the chain be released or assigned,
and close it again.
-/

namespace Otsos

open Lib

variable {g : Geometry} {s : ChainFS} {d d' : ℕ → Memory}
  {chain : ℕ → List ℕ} {P Q : ℕ → Prop} {idx size parent : ℕ}
  {fileName : List UInt8} {data : Memory}

/-- The slot holds a file that exists. -/
def LiveFile (g : Geometry) (d : ℕ → Memory) (idx : ℕ) : Prop :=
  idx < g.slots ∧ (entryOf d idx).status = 1 ∧
    (entryOf d idx).type = chainfsTypeFile

/-- The blocks of a file, counted without overflow. -/
def fileBlocks (size : ℕ) : ℕ := max 1 ((size + 511) / 512)

/-- The slots satisfying `P` are accounted for by `chain`. -/
structure Accounted (g : Geometry) (d : ℕ → Memory) (chain : ℕ → List ℕ)
    (P : ℕ → Prop) : Prop where
  table : ChainTable (mapLink g d) chainfsEofMarker g.dataBlocks g.Mapped
    chain
  start : ∀ idx, P idx → LiveFile g d idx →
    (chain idx).head? = some (entryOf d idx).startBlock
  length : ∀ idx, P idx → LiveFile g d idx →
    (chain idx).length = fileBlocks (entryOf d idx).size
  dead : ∀ idx, P idx → ¬ LiveFile g d idx → chain idx = []
  types : ∀ idx < g.slots, P idx → (entryOf d idx).status = 1 →
    (entryOf d idx).type = chainfsTypeFile ∨
      (entryOf d idx).type = chainfsTypeDir

theorem LiveFile.congr (hentry : entryOf d' idx = entryOf d idx) :
    LiveFile g d' idx ↔ LiveFile g d idx := by
  simp only [LiveFile, hentry]

/-- Only the entries and the map matter. -/
theorem Accounted.congr (h : Accounted g d chain P)
    (hentries : ∀ j < g.slots, P j → entryOf d' j = entryOf d j)
    (hmap : ∀ b, g.Mapped b → mapLink g d' b = mapLink g d b) :
    Accounted g d' chain P := by
  have hlive : ∀ j, P j → (LiveFile g d' j ↔ LiveFile g d j) := by
    intro j hj
    by_cases hslot : j < g.slots
    · exact LiveFile.congr (hentries j hslot hj)
    · simp [LiveFile, hslot]
  refine ⟨h.table.congr hmap, ?_, ?_, ?_, ?_⟩
  · intro j hj hlivej
    rw [hentries j hlivej.1 hj]
    exact h.start j hj ((hlive j hj).mp hlivej)
  · intro j hj hlivej
    rw [hentries j hlivej.1 hj]
    exact h.length j hj ((hlive j hj).mp hlivej)
  · intro j hj hdead
    exact h.dead j hj fun hl => hdead ((hlive j hj).mpr hl)
  · intro j hslot hj
    rw [hentries j hslot hj]
    exact h.types j hslot hj

theorem Accounted.release (h : Accounted g d chain fun _ => True) (idx : ℕ)
    (hentries : ∀ j < g.slots, entryOf d' j = entryOf d j)
    (hmap : ∀ b, g.Mapped b →
      mapLink g d' b = unlinkAll (mapLink g d) (chain idx) b) :
    Accounted g d' (Function.update chain idx []) (· ≠ idx) := by
  refine ⟨(h.table.release idx).congr hmap, ?_, ?_, ?_, ?_⟩
  · intro j hj hlive
    rw [Function.update_of_ne hj, hentries j hlive.1]
    exact h.start j trivial ((LiveFile.congr (hentries j hlive.1)).mp hlive)
  · intro j hj hlive
    rw [Function.update_of_ne hj, hentries j hlive.1]
    exact h.length j trivial ((LiveFile.congr (hentries j hlive.1)).mp hlive)
  · intro j hj hdead
    rw [Function.update_of_ne hj]
    apply h.dead j trivial
    intro hl
    exact hdead ((LiveFile.congr (hentries j hl.1)).mpr hl)
  · intro j hslot _
    rw [hentries j hslot]
    exact h.types j hslot trivial

theorem Accounted.open_ (h : Accounted g d chain fun _ => True) (idx : ℕ) :
    Accounted g d chain (· ≠ idx) :=
  ⟨h.table, fun j _ => h.start j trivial, fun j _ => h.length j trivial,
    fun j _ => h.dead j trivial, fun j hslot _ => h.types j hslot trivial⟩

theorem Accounted.close (h : Accounted g d chain (· ≠ idx))
    (hstart : LiveFile g d idx →
      (chain idx).head? = some (entryOf d idx).startBlock ∧
        (chain idx).length = fileBlocks (entryOf d idx).size)
    (hdead : ¬ LiveFile g d idx → chain idx = [])
    (htype : (entryOf d idx).status = 1 →
      (entryOf d idx).type = chainfsTypeFile ∨
        (entryOf d idx).type = chainfsTypeDir) :
    Accounted g d chain fun _ => True := by
  refine ⟨h.table, ?_, ?_, ?_, ?_⟩
  · intro j _ hlive
    by_cases hj : j = idx
    · subst hj
      exact (hstart hlive).1
    · exact h.start j hj hlive
  · intro j _ hlive
    by_cases hj : j = idx
    · subst hj
      exact (hstart hlive).2
    · exact h.length j hj hlive
  · intro j _ hnot
    by_cases hj : j = idx
    · subst hj
      exact hdead hnot
    · exact h.dead j hj hnot
  · intro j hslot _
    by_cases hj : j = idx
    · subst hj
      exact htype
    · exact h.types j hslot hj

/-! ## The edits of a call -/

theorem mapLink_table {sector b : ℕ} {m : Memory}
    (hsector : sector < 1 + g.table) :
    mapLink g (Function.update d sector m) b = mapLink g d b := by
  apply mapLink_congr
  apply Function.update_of_ne
  omega

theorem mapLink_editSlot {edit : Memory → ℕ → Memory} {b : ℕ}
    (hidx : idx < g.slots) :
    mapLink g (editSlot d idx edit) b = mapLink g d b :=
  mapLink_table (g.slot_sector hidx).2

theorem SameOutsideMap.entryOf_eq (h : SameOutsideMap g d d')
    (hidx : idx < g.slots) : entryOf d' idx = entryOf d idx := by
  have hsector := g.slot_sector hidx
  exact (SameSlot.of_sector (h _ (Or.inl (by omega)))).entryOf_eq

theorem Written.table_sector {bs : List ℕ} {off sector : ℕ}
    (h : Written g d d' data size off bs) (hsector : sector < 1 + g.table) :
    d' sector = d sector := by
  apply h.other _ (Or.inl hsector)
  intro b _ heq
  simp only [Geometry.dataStart] at heq
  omega

theorem Written.entryOf_eq {bs : List ℕ} {off : ℕ}
    (h : Written g d d' data size off bs) (hidx : idx < g.slots) :
    entryOf d' idx = entryOf d idx := by
  have hsector := g.slot_sector hidx
  exact (SameSlot.of_sector (h.table_sector (by omega))).entryOf_eq

theorem blocksNeeded_eq (hsize : size ≤ 2 ^ 32 - 512) :
    blocksNeeded size = fileBlocks size := by
  have hwrap : wrap32 (size + chainfsBlockSize - 1) = size + 511 := by
    unfold chainfsBlockSize
    exact wrap32_of_lt (by omega)
  unfold blocksNeeded fileBlocks
  rw [hwrap]
  unfold chainfsBlockSize
  by_cases hzero : (size + 511) / 512 = 0
  · simp only [if_pos hzero]
    omega
  · simp only [if_neg hzero]
    omega

theorem allocated_spec (husable : AllocatedUsable g d size)
    (hroom : blocksNeeded size ≤ (freeBlocks g d).length) :
    (allocated g d size).length = blocksNeeded size ∧
      ((allocated g d size).head? =
        some ((allocated g d size).headD 0)) ∧
      (allocated g d size).headD 0 < 2 ^ 32 := by
  have hlen : (allocated g d size).length = blocksNeeded size := by
    simp only [allocated, List.length_take]
    omega
  have hpos := (blocksNeeded_bounds size).1
  refine ⟨hlen, ?_, ?_⟩
  · cases hbs : allocated g d size with
    | nil =>
        rw [hbs] at hlen
        simp at hlen
        omega
    | cons b bs => rfl
  · refine headD_lt (fun b hb => ?_) (by omega)
    have hlt := (husable b hb).lt_eof
    unfold chainfsEofMarker at hlt
    omega

theorem Accounted.store (h : Accounted g d chain (· ≠ idx))
    (husable : AllocatedUsable g d size) (fileName : List UInt8) (parent : ℕ)
    (hidx : idx < g.slots) (hnone : chain idx = [])
    (hsize : size ≤ 2 ^ 32 - 512)
    (hroom : blocksNeeded size ≤ (freeBlocks g d).length)
    (hwritten : Written g d d' data size 0 (allocated g d size)) :
    Accounted g (editSlot d' idx fun m i => setFileEntry m i fileName size
        ((allocated g d size).headD 0) parent)
      (Function.update chain idx (allocated g d size)) fun _ => True := by
  obtain ⟨hlen, hhead, hstart⟩ := allocated_spec husable hroom
  have hmap : ∀ b, g.Mapped b →
      mapLink g (editSlot d' idx fun m i => setFileEntry m i fileName size
        ((allocated g d size).headD 0) parent) b =
        linkAll (mapLink g d) chainfsEofMarker (allocated g d size) b := by
    intro b hb
    rw [mapLink_editSlot hidx, hwritten.links b hb]
  have hentries : ∀ j < g.slots, j ≠ idx →
      entryOf (editSlot d' idx fun m i => setFileEntry m i fileName size
        ((allocated g d size).headD 0) parent) j = entryOf d j := by
    intro j hslot hj
    rw [(editSlot_other (setFileEntry_edits _ _ _ _) hj).entryOf_eq,
      hwritten.entryOf_eq hslot]
  have hassigned := h.table.assign (i := idx)
    (show chainfsEofMarker ≠ 0 by decide) hnone (allocated_sorted g d size)
    (fun b hb => (freeBlocks_spec hb).2.2)
    (fun b hb => ⟨(freeBlocks_spec hb).2.1, (freeBlocks_spec hb).1⟩)
  have hopen : Accounted g (editSlot d' idx fun m i =>
        setFileEntry m i fileName size ((allocated g d size).headD 0) parent)
      (Function.update chain idx (allocated g d size)) (· ≠ idx) := by
    refine ⟨hassigned.congr hmap, ?_, ?_, ?_, ?_⟩
    · intro j hj hlive
      rw [Function.update_of_ne hj, hentries j hlive.1 hj]
      exact h.start j hj
        ((LiveFile.congr (hentries j hlive.1 hj)).mp hlive)
    · intro j hj hlive
      rw [Function.update_of_ne hj, hentries j hlive.1 hj]
      exact h.length j hj
        ((LiveFile.congr (hentries j hlive.1 hj)).mp hlive)
    · intro j hj hdead
      rw [Function.update_of_ne hj]
      apply h.dead j hj
      intro hl
      exact hdead ((LiveFile.congr (hentries j hl.1 hj)).mpr hl)
    · intro j hslot hj
      rw [hentries j hslot hj]
      exact h.types j hslot hj
  apply hopen.close
  · intro _
    rw [Function.update_self, entryOf_editSlot, setFileEntry_start hstart,
      setFileEntry_size (by omega), hlen, blocksNeeded_eq hsize]
    exact ⟨hhead, rfl⟩
  · intro hdead
    refine absurd ⟨hidx, ?_, ?_⟩ hdead
    · rw [entryOf_editSlot, setFileEntry_status]
    · rw [entryOf_editSlot, setFileEntry_type]
  · intro _
    left
    rw [entryOf_editSlot, setFileEntry_type]

/-- The open slot is left empty or gets a directory. -/
theorem Accounted.edit {edit : Memory → ℕ → Memory}
    (h : Accounted g d chain (· ≠ idx)) (hidx : idx < g.slots)
    (hnone : chain idx = []) (hedit : EditsEntry edit)
    (hstatus : (entryOf (editSlot d idx edit) idx).status = 1 →
      (entryOf (editSlot d idx edit) idx).type = chainfsTypeDir) :
    Accounted g (editSlot d idx edit) chain fun _ => True := by
  have hopen : Accounted g (editSlot d idx edit) chain (· ≠ idx) := by
    apply h.congr
    · intro j _ hj
      exact (editSlot_other hedit hj).entryOf_eq
    · intro b _
      exact mapLink_editSlot hidx
  apply hopen.close
  · rintro ⟨-, hone, hfile⟩
    rw [hstatus hone] at hfile
    exact absurd hfile (by decide)
  · intro _
    exact hnone
  · intro hone
    exact Or.inr (hstatus hone)

end Otsos
