import Otsos.ChainFS.BlockMapSound

/-!
# A flat directory is a map from names to contents

As long as no directory is created, the files are read back as if they were
kept in a finite map: a successful write sets a name, a delete clears it, and
nothing else changes what is read.
-/

namespace Otsos

open Lib

variable {g : Geometry} {s s' s₀ : ChainFS} {d d' : ℕ → Memory}
  {chain : ℕ → List ℕ} {idx size : ℕ} {name other : CString}
  {data : Memory} {bs : List ℕ} {call : FsCall} {code : ℤ}
  {hist : List (FsCall × ℤ)}

/-! ## The map -/

/-- The files of a directory and their contents. -/
abbrev NameMap := List UInt8 → Option (List UInt8)

namespace NameMap

def empty : NameMap := fun _ => none

/-- What a call with its code does to the map. -/
def step (files : NameMap) : FsCall → ℤ → NameMap
  | .writeFile name data size, code =>
      if code = 0 then
        Function.update files name.chars (some ((List.range size).map data))
      else files
  | .deleteFile name, _ => Function.update files name.chars none
  | _, _ => files

/-- The map after a history of calls. -/
def after (hist : List (FsCall × ℤ)) : NameMap :=
  hist.foldl (fun files entry => files.step entry.1 entry.2) empty

theorem after_append (hist : List (FsCall × ℤ)) (call : FsCall) (code : ℤ) :
    after (hist ++ [(call, code)]) = (after hist).step call code := by
  simp only [after, List.foldl_append, List.foldl_cons, List.foldl_nil]

end NameMap

/-- Writes, deletes and reads on simple names; a write over an existing file
succeeds. -/
def FlatArguments : FsCall → Prop
  | .writeFile name _ size => SimpleName name ∧ size ≤ 2 ^ 32 - 512
  | .deleteFile name => SimpleName name
  | .readFile name _ _ => SimpleName name
  | _ => False

def FlatCall : StepCondition := fun s call code =>
  FlatArguments call ∧ OverwriteSucceeds s call code

instance : (call : FsCall) → Decidable (FlatArguments call)
  | .writeFile name _ size => inferInstanceAs
      (Decidable (SimpleName name ∧ size ≤ 2 ^ 32 - 512))
  | .deleteFile name => inferInstanceAs (Decidable (SimpleName name))
  | .readFile name _ _ => inferInstanceAs (Decidable (SimpleName name))
  | .mkdir _ | .rmdir _ | .chdir _ | .listDir _ _ | .init =>
      inferInstanceAs (Decidable False)

instance (s : ChainFS) (call : FsCall) (code : ℤ) :
    Decidable (FlatCall s call code) :=
  inferInstanceAs (Decidable (_ ∧ _))

/-- `chainfs_read_file` fails, or fills the buffer with a prefix of the
content and leaves the rest of it alone. -/
def ReadsAs (s : ChainFS) (name : CString) : Option (List UInt8) → Prop
  | none => ∀ buffer n, (chainfsReadFile s name.chars buffer n).2 = none
  | some bytes => ∀ buffer n, ∃ buffer',
      (chainfsReadFile s name.chars buffer n).2 =
          some (buffer', min n bytes.length) ∧
        (∀ i < min n bytes.length, bytes[i]? = some (buffer' i)) ∧
        ∀ i, min n bytes.length ≤ i → buffer' i = buffer i

/-! ## Slots and contents -/

/-- The slot answers to a name in the root directory. -/
def Answers (d : ℕ → Memory) (idx : ℕ) (name : List UInt8) : Prop :=
  testSlot (slotMatches 0 name) d idx = true

theorem Answers.status {name : List UInt8} (h : Answers d idx name) :
    (entryOf d idx).status = 1 ∧ (entryOf d idx).parentBlock = 0 := by
  simp only [Answers, testSlot, slotMatches, Bool.and_eq_true,
    beq_iff_eq] at h
  exact h.1

theorem Answers.name_unique (h : Answers d idx name.chars)
    (h' : Answers d idx other.chars) : other.chars = name.chars := by
  simp only [Answers, testSlot, slotMatches, Bool.and_eq_true] at h h'
  exact strcmpEq_unique other.terminated name.terminated h'.2 h.2

theorem Answers.congr (hsame : SameSlot d d' idx) (hname : SimpleName name) :
    Answers d' idx name.chars ↔ Answers d idx name.chars := by
  have hshort := hname.short
  rw [Answers, hsame.matches_eq (by omega), Answers]

/-- At most one slot answers to each name. -/
def UniqueNames (g : Geometry) (d : ℕ → Memory) : Prop :=
  ∀ name, SimpleName name → ∀ i < g.slots, ∀ j < g.slots,
    Answers d i name.chars → Answers d j name.chars → i = j

theorem lookup_of_answers (hidx : idx < g.slots)
    (hanswers : Answers d idx name.chars)
    (honly : ∀ j < g.slots, Answers d j name.chars → j = idx) :
    lookup g d 0 name.chars = some idx := by
  apply firstSlot_eq_some hidx hanswers
  intro j hj
  rw [← Bool.not_eq_true]
  intro htest
  have heq := honly j (by omega) htest
  omega

theorem answers_of_lookup (h : lookup g d 0 name.chars = some idx) :
    idx < g.slots ∧ Answers d idx name.chars :=
  ⟨(firstSlot_some h).1, (firstSlot_some h).2.1⟩

theorem lookup_none :
    lookup g d 0 name.chars = none ↔
      ∀ j < g.slots, ¬ Answers d j name.chars := by
  simp only [lookup, firstSlot_none, Answers, Bool.not_eq_true]

/-- The file in the slot, with the chain `bs`, has the given content. -/
structure Holds (g : Geometry) (d : ℕ → Memory) (bs : List ℕ) (idx : ℕ)
    (bytes : List UInt8) : Prop where
  length : (entryOf d idx).size = bytes.length
  bytes : ∀ i < bytes.length, bytes[i]? = some (chainByte g d bs i)

theorem chainByte_congr {i : ℕ}
    (hsame : ∀ b ∈ bs, d' (g.dataStart + b) = d (g.dataStart + b))
    (hi : i < 512 * bs.length) :
    chainByte g d' bs i = chainByte g d bs i := by
  have hlt : i / 512 < bs.length := by omega
  have hmem : bs.getD (i / 512) 0 ∈ bs := by
    rw [List.getD_eq_getElem?_getD, List.getElem?_eq_getElem hlt,
      Option.getD_some]
    exact List.getElem_mem hlt
  simp only [chainByte, hsame _ hmem]

theorem Holds.congr {bytes : List UInt8} (h : Holds g d bs idx bytes)
    (hentry : entryOf d' idx = entryOf d idx)
    (hsame : ∀ b ∈ bs, d' (g.dataStart + b) = d (g.dataStart + b))
    (hsize : (entryOf d idx).size ≤ 512 * bs.length) :
    Holds g d' bs idx bytes := by
  have hlength := h.length
  refine ⟨by rw [hentry, hlength], ?_⟩
  intro i hi
  rw [chainByte_congr hsame (by omega)]
  exact h.bytes i hi

/-! ## The invariant -/

/-- The table and the data area hold the map `files`. -/
structure FlatInvariant (g : Geometry) (s : ChainFS) (chain : ℕ → List ℕ)
    (files : NameMap) : Prop where
  fs : FsInvariant g s chain
  current : s.currentDirBlock = 0
  plain : ∀ j < g.slots, (entryOf s.disk j).status = 1 →
    (entryOf s.disk j).parentBlock = 0 →
      (entryOf s.disk j).type = chainfsTypeFile
  unique : UniqueNames g s.disk
  absent : ∀ name, SimpleName name →
    lookup g s.disk 0 name.chars = none → files name.chars = none
  present : ∀ name, SimpleName name → ∀ idx,
    lookup g s.disk 0 name.chars = some idx →
      ∃ bytes, files name.chars = some bytes ∧
        Holds g s.disk (chain idx) idx bytes

variable {files : NameMap}

theorem FlatInvariant.of_unchanged (h : FlatInvariant g s chain files)
    (hsame : Unchanged s s') : FlatInvariant g s' chain files := by
  have hdisk := hsame.disk
  refine ⟨h.fs.of_unchanged hsame, ?_, ?_, ?_, ?_, ?_⟩
  · rw [hsame.control.current]
    exact h.current
  · rw [hdisk]
    exact h.plain
  · rw [hdisk]
    exact h.unique
  · rw [hdisk]
    exact h.absent
  · rw [hdisk]
    exact h.present

theorem FlatInvariant.withHeap {heap : Heap}
    (h : FlatInvariant g s chain files) (hready : HeapReady heap) :
    FlatInvariant g { s with heap := heap } chain files :=
  ⟨h.fs.withHeap hready, h.current, h.plain, h.unique, h.absent, h.present⟩

theorem FlatInvariant.withBuffer (h : FlatInvariant g s chain files)
    (m : Memory) :
    FlatInvariant g { s with sectorBuffer := m } chain files :=
  h.of_unchanged (Unchanged.of_buffer h.fs.heap m)

theorem FlatInvariant.live (h : FlatInvariant g s chain files)
    (hlookup : lookup g s.disk 0 name.chars = some idx) :
    LiveFile g s.disk idx := by
  obtain ⟨hidx, hanswers⟩ := answers_of_lookup hlookup
  obtain ⟨hstatus, hparent⟩ := hanswers.status
  exact ⟨hidx, hstatus, h.plain idx hidx hstatus hparent⟩

theorem FlatInvariant.not_directory (h : FlatInvariant g s chain files)
    (idx : ℕ)
    (hlookup : lookup g s.disk s.currentDirBlock name.chars = some idx) :
    (entryOf s.disk idx).type ≠ chainfsTypeDir := by
  rw [h.current] at hlookup
  rw [(h.live hlookup).2.2]
  decide

theorem FsInvariant.size_le (h : FsInvariant g s chain)
    (hlive : LiveFile g s.disk idx) :
    (entryOf s.disk idx).size ≤ 512 * (chain idx).length := by
  rw [h.accounts.length idx trivial hlive]
  exact fileBlocks_le _

theorem Formatted.flat {totalBlocks maxFiles : ℕ}
    (h : Formatted totalBlocks maxFiles s)
    (hwrap : (formatGeometry totalBlocks maxFiles).NoWrap) :
    FlatInvariant (formatGeometry totalBlocks maxFiles) s (fun _ => [])
      .empty := by
  obtain ⟨hfresh, -, -, hcurrent, -, -⟩ := h.fresh
  have hparent : ∀ j < (formatGeometry totalBlocks maxFiles).slots,
      (entryOf s.disk j).status = 1 →
      (entryOf s.disk j).parentBlock ≠ 0 := by
    intro j hj hone
    obtain ⟨hroot, hother⟩ := hfresh.entries hj
    by_cases hzero : j = 0
    · rw [hroot hzero, formatRootSector_root.2.2.2]
      decide
    · rw [hother hzero] at hone
      exact absurd hone (by decide)
  have hnone : ∀ (name : CString) (j : ℕ),
      j < (formatGeometry totalBlocks maxFiles).slots →
      ¬ Answers s.disk j name.chars := by
    intro name j hj hanswers
    exact hparent j hj hanswers.status.1 hanswers.status.2
  refine ⟨h.invariant hwrap, hcurrent, ?_, ?_, ?_, ?_⟩
  · intro j hj hone hzero
    exact absurd hzero (hparent j hj hone)
  · intro name _ i hi _ _ hanswers
    exact absurd hanswers (hnone name i hi)
  · intro _ _ _
    rfl
  · intro name _ idx hlookup
    obtain ⟨hidx, hanswers⟩ := answers_of_lookup hlookup
    exact absurd hanswers (hnone name idx hidx)

/-! ## Reading -/

theorem FlatInvariant.readsAs (h : FlatInvariant g s chain files)
    (hname : SimpleName name) : ReadsAs s name (files name.chars) := by
  have hfind := hname.find_eq (g := g) (s := s)
  rw [h.current] at hfind
  cases hlookup : lookup g s.disk 0 name.chars with
  | none =>
      rw [h.absent name hname hlookup]
      intro buffer n
      obtain ⟨m, hread⟩ := h.fs.mounted.readFile_eq name.chars buffer n
      rw [hread, hfind, hlookup]
      rfl
  | some idx =>
      obtain ⟨bytes, hbytes, hholds⟩ := h.present name hname idx hlookup
      have hlive := h.live hlookup
      rw [hbytes]
      intro buffer n
      rw [hlookup, Option.map_some] at hfind
      obtain ⟨m, buffer', hread, hin, hout⟩ :=
        h.fs.mounted.readFile_chain hfind
          (h.fs.accounts.chain_head hlive).symm
          (h.fs.accounts.table.links idx) h.fs.chain_usable buffer n
      rw [heldBytes_of_le (h.fs.size_le hlive), hholds.length,
        Nat.min_comm] at hread hin hout
      refine ⟨buffer', by rw [hread], ?_, hout⟩
      intro i hi
      rw [hin i hi]
      exact hholds.bytes i (by omega)

/-! ## Storing and removing -/

/-- Only the slot `idx` changes, and it answers to no name but this one; no
other slot had the name. -/
structure NameChanged (g : Geometry) (d d' : ℕ → Memory) (idx : ℕ)
    (name : CString) : Prop where
  slots : ∀ j < g.slots, j ≠ idx → SameSlot d d' j
  before : ∀ other : CString, Answers d idx other.chars →
    other.chars = name.chars
  after : ∀ other : CString, Answers d' idx other.chars →
    other.chars = name.chars
  only : ∀ j < g.slots, j ≠ idx → ¬ Answers d j name.chars

theorem NameChanged.answers_iff {j : ℕ} (h : NameChanged g d d' idx name)
    (hother : SimpleName other) (hj : j < g.slots) (hne : j ≠ idx) :
    Answers d' j other.chars ↔ Answers d j other.chars :=
  Answers.congr (h.slots j hj hne) hother

theorem NameChanged.eq_slot {j : ℕ} (h : NameChanged g d d' idx name)
    (hname : SimpleName name) (hj : j < g.slots)
    (hanswers : Answers d' j name.chars) : j = idx := by
  by_contra hne
  exact h.only j hj hne ((h.answers_iff hname hj hne).mp hanswers)

theorem NameChanged.lookup_other (h : NameChanged g d d' idx name)
    (hother : SimpleName other) (hne : other.chars ≠ name.chars) :
    lookup g d' 0 other.chars = lookup g d 0 other.chars := by
  apply firstSlot_congr
  intro j hj
  rw [Bool.eq_iff_iff]
  by_cases hji : j = idx
  · subst hji
    exact iff_of_false (fun hans => hne (h.after other hans))
      (fun hans => hne (h.before other hans))
  · exact h.answers_iff hother hj hji

theorem NameChanged.uniqueNames (h : NameChanged g d d' idx name)
    (hname : SimpleName name) (hunique : UniqueNames g d) :
    UniqueNames g d' := by
  intro other hother i hi j hj hansi hansj
  by_cases heq : other.chars = name.chars
  · rw [heq] at hansi hansj
    rw [h.eq_slot hname hi hansi, h.eq_slot hname hj hansj]
  · have hii : i ≠ idx := by
      rintro rfl
      exact heq (h.after other hansi)
    have hji : j ≠ idx := by
      rintro rfl
      exact heq (h.after other hansj)
    rw [h.answers_iff hother hi hii] at hansi
    rw [h.answers_iff hother hj hji] at hansj
    exact hunique other hother i hi j hj hansi hansj

/-- The other files keep their contents. -/
theorem FlatInvariant.present_other {j : ℕ}
    (h : FlatInvariant g s chain files)
    (hchanged : NameChanged g s.disk s'.disk idx name)
    (hsectors : ∀ j ≠ idx, ∀ b ∈ chain j,
      s'.disk (g.dataStart + b) = s.disk (g.dataStart + b))
    (hother : SimpleName other) (hne : other.chars ≠ name.chars)
    (hsome : lookup g s'.disk 0 other.chars = some j) :
    j ≠ idx ∧ ∃ bytes, files other.chars = some bytes ∧
      Holds g s'.disk (chain j) j bytes := by
  rw [hchanged.lookup_other hother hne] at hsome
  obtain ⟨bytes, hbytes, hholds⟩ := h.present other hother j hsome
  have hji : j ≠ idx := by
    rintro rfl
    exact hne (hchanged.before other (answers_of_lookup hsome).2)
  have hlive := h.live hsome
  have hentry := (hchanged.slots j hlive.1 hji).entryOf_eq
  exact ⟨hji, bytes, hbytes,
    hholds.congr hentry (hsectors j hji) (h.fs.size_le hlive)⟩

theorem FlatInvariant.nameChanged_stored (h : FlatInvariant g s chain files)
    (hname : SimpleName name)
    (hstored : FileStored g s s' chain idx name.chars data size 0 bs)
    (hslot : lookup g s.disk 0 name.chars = some idx ∨
      lookup g s.disk 0 name.chars = none ∧ freeSlot g s.disk = some idx) :
    NameChanged g s.disk s'.disk idx name := by
  refine ⟨hstored.slots, ?_, ?_, ?_⟩
  · intro other hanswers
    rcases hslot with hlookup | ⟨-, hfree⟩
    · exact (answers_of_lookup hlookup).2.name_unique hanswers
    · have hstatus := hanswers.status.1
      rw [(freeSlot_some hfree).2] at hstatus
      exact absurd hstatus (by decide)
  · intro other hanswers
    exact ((hstored.answers 0 _ other.terminated).mp hanswers).2
  · intro j hj hne hanswers
    rcases hslot with hlookup | ⟨hnone, -⟩
    · obtain ⟨hidx, hself⟩ := answers_of_lookup hlookup
      exact hne (h.unique name hname j hj idx hidx hanswers hself)
    · exact lookup_none.mp hnone j hj hanswers

theorem FlatInvariant.stored (h : FlatInvariant g s chain files)
    (hname : SimpleName name)
    (hstored : FileStored g s s' chain idx name.chars data size 0 bs)
    (hslot : lookup g s.disk 0 name.chars = some idx ∨
      lookup g s.disk 0 name.chars = none ∧ freeSlot g s.disk = some idx) :
    FlatInvariant g s' (Function.update chain idx bs)
      (Function.update files name.chars
        (some ((List.range size).map data))) := by
  have hchanged := h.nameChanged_stored hname hstored hslot
  have hself : lookup g s'.disk 0 name.chars = some idx := by
    refine lookup_of_answers hstored.slot ?_ ?_
    · exact (hstored.answers 0 _ name.terminated).mpr ⟨rfl, rfl⟩
    · exact fun j hj hanswers => hchanged.eq_slot hname hj hanswers
  refine ⟨hstored.invariant, hstored.current.trans h.current, ?_,
    hchanged.uniqueNames hname h.unique, ?_, ?_⟩
  · intro j hj
    by_cases hji : j = idx
    · subst hji
      intro _ _
      exact hstored.type
    · rw [(hstored.slots j hj hji).entryOf_eq]
      exact h.plain j hj
  · intro other hother hnone
    by_cases hne : other.chars = name.chars
    · rw [hne, hself] at hnone
      cases hnone
    · rw [hchanged.lookup_other hother hne] at hnone
      rw [Function.update_of_ne hne]
      exact h.absent other hother hnone
  · intro other hother j hsome
    by_cases hne : other.chars = name.chars
    · rw [hne, hself] at hsome
      cases hsome
      rw [hne, Function.update_self, Function.update_self]
      refine ⟨_, rfl, ?_, ?_⟩
      · rw [hstored.length, List.length_map, List.length_range]
      · intro i hi
        rw [List.length_map, List.length_range] at hi
        rw [hstored.bytes i hi]
        simp [hi]
    · obtain ⟨hji, hpresent⟩ :=
        h.present_other hchanged hstored.others hother hne hsome
      rw [Function.update_of_ne hne, Function.update_of_ne hji]
      exact hpresent

theorem FlatInvariant.nameChanged_cleared (h : FlatInvariant g s chain files)
    (hname : SimpleName name)
    (hcleared : SlotCleared g s s' chain idx)
    (hlookup : lookup g s.disk 0 name.chars = some idx) :
    NameChanged g s.disk s'.disk idx name := by
  obtain ⟨hidx, hself⟩ := answers_of_lookup hlookup
  refine ⟨hcleared.slots, fun other => hself.name_unique, ?_, ?_⟩
  · intro other hanswers
    have hstatus := hanswers.status.1
    rw [hcleared.status] at hstatus
    exact absurd hstatus (by decide)
  · intro j hj hne hanswers
    exact hne (h.unique name hname j hj idx hidx hanswers hself)

theorem FlatInvariant.cleared (h : FlatInvariant g s chain files)
    (hname : SimpleName name)
    (hcleared : SlotCleared g s s' chain idx)
    (hlookup : lookup g s.disk 0 name.chars = some idx) :
    FlatInvariant g s' (Function.update chain idx [])
      (Function.update files name.chars none) := by
  have hchanged := h.nameChanged_cleared hname hcleared hlookup
  have hnone : lookup g s'.disk 0 name.chars = none := by
    rw [lookup_none]
    intro j hj hanswers
    have hstatus := hanswers.status.1
    rw [hchanged.eq_slot hname hj hanswers, hcleared.status] at hstatus
    exact absurd hstatus (by decide)
  refine ⟨hcleared.invariant, hcleared.current.trans h.current, ?_,
    hchanged.uniqueNames hname h.unique, ?_, ?_⟩
  · intro j hj
    by_cases hji : j = idx
    · subst hji
      intro hone
      rw [hcleared.status] at hone
      exact absurd hone (by decide)
    · rw [(hcleared.slots j hj hji).entryOf_eq]
      exact h.plain j hj
  · intro other hother hlookup'
    by_cases hne : other.chars = name.chars
    · rw [hne, Function.update_self]
    · rw [hchanged.lookup_other hother hne] at hlookup'
      rw [Function.update_of_ne hne]
      exact h.absent other hother hlookup'
  · intro other hother j hsome
    by_cases hne : other.chars = name.chars
    · rw [hne, hnone] at hsome
      cases hsome
    · obtain ⟨hji, hpresent⟩ := h.present_other hchanged
        (fun _ _ _ _ => hcleared.others _ (Nat.le_add_right _ _)) hother hne
        hsome
      rw [Function.update_of_ne hne, Function.update_of_ne hji]
      exact hpresent

/-! ## Runs -/

theorem FlatInvariant.delete_absent (h : FlatInvariant g s chain files)
    (hname : SimpleName name)
    (hnone : lookup g s.disk 0 name.chars = none) :
    Function.update files name.chars none = files := by
  rw [← h.absent name hname hnone, Function.update_eq_self]

theorem FlatInvariant.step (h : FlatInvariant g s chain files)
    (hcall : FlatCall s call code) (hexec : s.exec call = .ok (s', code)) :
    ∃ chain', FlatInvariant g s' chain' (files.step call code) := by
  obtain ⟨hargs, hover⟩ := hcall
  cases call with
  | writeFile name data size =>
      obtain ⟨hname, hsize⟩ := hargs
      obtain ⟨s₁, code₁, hwrite, houtcome⟩ :=
        h.fs.writeFile_simple hname data hsize h.not_directory
      simp only [ChainFS.exec, hwrite] at hexec
      cases hexec
      cases houtcome with
      | failed hnew hsame => exact ⟨chain, h.of_unchanged hsame⟩
      | lost idx hold =>
          have hzero := hover (hname.exists_of_lookup h.fs.mounted hold)
          exact absurd hzero (by decide)
      | stored idx bs hslot hstored =>
          rw [h.current] at hslot hstored
          exact ⟨_, h.stored hname hstored hslot⟩
  | deleteFile name =>
      rcases h.fs.deleteFile_simple hargs h.not_directory with
        ⟨hnone, s₁, hdelete, hsame⟩ | ⟨idx, s₁, hlookup, hdelete, hcleared⟩
      · simp only [ChainFS.exec, hdelete] at hexec
        cases hexec
        rw [h.current] at hnone
        refine ⟨chain, ?_⟩
        simp only [NameMap.step]
        rw [h.delete_absent hargs hnone]
        exact h.of_unchanged hsame
      · simp only [ChainFS.exec, hdelete] at hexec
        cases hexec
        rw [h.current] at hlookup
        exact ⟨_, h.cleared hargs hcleared hlookup⟩
  | readFile name buffer bufferSize =>
      obtain ⟨m, hread⟩ :=
        h.fs.mounted.readFile_state name.chars buffer bufferSize
      simp only [ChainFS.exec] at hexec
      cases hresult : chainfsReadFile s name.chars buffer bufferSize with
      | mk s₁ out =>
          rw [hresult] at hexec hread
          simp only at hread
          subst hread
          cases out <;> cases hexec <;> exact ⟨chain, h.withBuffer m⟩
  | mkdir path => exact absurd hargs id
  | rmdir path => exact absurd hargs id
  | chdir path => exact absurd hargs id
  | listDir path maxFiles => exact absurd hargs id
  | init => exact absurd hargs id

theorem FlatInvariant.returns (h : FlatInvariant g s chain files)
    (hargs : FlatArguments call) :
    ∃ s' code, s.exec call = .ok (s', code) := by
  apply h.fs.simple_returns
  have hnot : ∀ name, SimpleName name → ¬ DenotesDirectory s name.chars := by
    intro name hname
    rw [h.fs.mounted.denotesDirectory_iff, hname.find_eq]
    rintro ⟨t, ht, htype⟩
    obtain ⟨idx, hlookup, rfl⟩ := Option.map_eq_some_iff.mp ht
    exact h.not_directory idx hlookup htype
  cases call with
  | writeFile name data size => exact ⟨hargs.1, hargs.2, hnot name hargs.1⟩
  | deleteFile name => exact ⟨hargs, hnot name hargs⟩
  | readFile name buffer bufferSize => exact hargs
  | mkdir path => exact absurd hargs id
  | rmdir path => exact absurd hargs id
  | chdir path => exact absurd hargs id
  | listDir path maxFiles => exact absurd hargs id
  | init => exact absurd hargs id

theorem FlatInvariant.run (h : FlatInvariant g s₀ chain .empty)
    (hrun : FsRun FlatCall s₀ hist s) :
    ∃ chain', FlatInvariant g s chain' (.after hist) := by
  induction hrun with
  | start => exact ⟨chain, h⟩
  | step before ready meets returns ih =>
      obtain ⟨chain', hinv⟩ := ih
      rw [NameMap.after_append]
      exact (hinv.withHeap ready).step meets returns

/-- The call may change what `name` reads. -/
def FsCall.Sets : FsCall → ℤ → List UInt8 → Prop
  | .writeFile name _ _, code, chars => code = 0 ∧ chars = name.chars
  | .deleteFile name, _, chars => chars = name.chars
  | _, _, _ => False

theorem NameMap.step_other {chars : List UInt8}
    (h : ¬ call.Sets code chars) : files.step call code chars = files chars := by
  cases call with
  | writeFile name data size =>
      by_cases hzero : code = 0
      · simp only [NameMap.step, if_pos hzero]
        exact Function.update_of_ne (fun heq => h ⟨hzero, heq⟩) _ _
      · simp only [NameMap.step, if_neg hzero]
  | deleteFile name => exact Function.update_of_ne h _ _
  | _ => rfl

/-- Every name reads as the history says, the next call returns, and a call
leaves alone what the names it does not set read. -/
theorem flatDirectory_refines {totalBlocks maxFiles : ℕ}
    (hformat : Formatted totalBlocks maxFiles s₀)
    (hfits : 1 + formatTableBlocks maxFiles +
      formatMapBlocks totalBlocks maxFiles ≤ totalBlocks)
    (hrun : FsRun FlatCall s₀ hist s) :
    (∀ name, SimpleName name →
      ReadsAs s name (NameMap.after hist name.chars)) ∧
    ∀ heap call, HeapReady heap → FlatArguments call →
      ∃ s' code, { s with heap := heap }.exec call = .ok (s', code) ∧
        (OverwriteSucceeds { s with heap := heap } call code →
          ∀ name, SimpleName name → ¬ call.Sets code name.chars →
            ReadsAs s' name (NameMap.after hist name.chars)) := by
  have hstart := hformat.flat
    (formatGeometry_noWrap totalBlocks maxFiles hformat.1 hfits)
  obtain ⟨chain, hinv⟩ := hstart.run hrun
  refine ⟨fun name hname => hinv.readsAs hname, ?_⟩
  intro heap call hready hargs
  have hheap := hinv.withHeap hready
  obtain ⟨s', code, hexec⟩ := hheap.returns hargs
  refine ⟨s', code, hexec, ?_⟩
  intro hover name hname hother
  obtain ⟨chain', hnext⟩ := hheap.step ⟨hargs, hover⟩ hexec
  have hreads := hnext.readsAs hname
  rwa [NameMap.step_other hother] at hreads

/-- Two files; one is removed, the other written over. -/
def flatCalls : List FsCall :=
  [.writeFile ⟨[97], by decide⟩ (fun _ => 1) 2,
    .writeFile ⟨[98], by decide⟩ (fun _ => 1) 5,
    .deleteFile ⟨[97], by decide⟩,
    .writeFile ⟨[98], by decide⟩ (fun _ => 2) 3]

theorem flatDirectory_refines_smallDisk : ∃ s,
    FsRun FlatCall smallDisk (flatCalls.zip [0, 0, 0, 0]) s ∧
      ReadsAs s ⟨[97], by decide⟩ none ∧
      ReadsAs s ⟨[98], by decide⟩ (some [2, 2, 2]) := by
  have hcodes : (smallDisk.checkRun (fun s call code =>
        decide (FlatCall s call code)) (initHeap unbootedHeap)
      flatCalls).map Prod.fst = some [0, 0, 0, 0] := by
    decide +kernel
  have hremoved : NameMap.after (flatCalls.zip [0, 0, 0, 0]) [97] =
      none := by
    decide +kernel
  have hkept : NameMap.after (flatCalls.zip [0, 0, 0, 0]) [98] =
      some [2, 2, 2] := by
    decide +kernel
  obtain ⟨codes, s, hrun, heq⟩ :=
    checkRun_run blankDrive_ready (fun _ _ _ => of_decide_eq_true) hcodes
  simp only at heq
  subst heq
  have hreads :=
    (flatDirectory_refines smallDisk_formatted (by decide) hrun).1
  refine ⟨s, hrun, ?_, ?_⟩
  · rw [← hremoved]
    exact hreads ⟨[97], by decide⟩ (by decide)
  · rw [← hkept]
    exact hreads ⟨[98], by decide⟩ (by decide)

end Otsos
