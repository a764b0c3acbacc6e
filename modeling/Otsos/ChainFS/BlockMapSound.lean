import Otsos.ChainFS.SimpleCalls

/-!
# Soundness of the block map

On names in the current directory, as long as no file operation is aimed at a
directory and no overwrite fails, the map records the chains of the files that
exist and nothing else.
-/

namespace Otsos

open Lib

variable {g : Geometry} {s s' s₀ : ChainFS} {chain : ℕ → List ℕ}
  {call : FsCall} {code : ℤ} {hist : List (FsCall × ℤ)}

/-- The name is found and its entry has the type of a directory. -/
def DenotesDirectory (s : ChainFS) (path : List UInt8) : Prop :=
  ∃ f, (chainfsFindFile s path).2 = some f ∧ f.entry.type = chainfsTypeDir

/-- The name is found. -/
def FileExists (s : ChainFS) (path : List UInt8) : Prop :=
  (chainfsFindFile s path).2 ≠ none

/-- Calls on simple names, with files told from directories by the caller. -/
def SimpleArguments (s : ChainFS) : FsCall → Prop
  | .writeFile name _ size =>
      SimpleName name ∧ size ≤ 2 ^ 32 - 512 ∧ ¬ DenotesDirectory s name.chars
  | .deleteFile name => SimpleName name ∧ ¬ DenotesDirectory s name.chars
  | .readFile name _ _ => SimpleName name
  | .mkdir path => SimpleName path
  | .rmdir path => SimpleName path
  | .chdir path => SimpleName path
  | .listDir _ _ => False
  | .init => False

/-- A write over an existing file succeeds. -/
def OverwriteSucceeds (s : ChainFS) : FsCall → ℤ → Prop
  | .writeFile name _ _, code => FileExists s name.chars → code = 0
  | _, _ => True

instance (s : ChainFS) (path : List UInt8) :
    Decidable (DenotesDirectory s path) :=
  decidable_of_iff
    ((chainfsFindFile s path).2.any (·.entry.type == chainfsTypeDir))
    (by simp [DenotesDirectory, Option.any_eq_true])

instance (s : ChainFS) (path : List UInt8) : Decidable (FileExists s path) :=
  decidable_of_iff ((chainfsFindFile s path).2.isSome)
    (by simp [FileExists, Option.isSome_iff_ne_none])

instance (s : ChainFS) : (call : FsCall) → Decidable (SimpleArguments s call)
  | .writeFile name _ size => inferInstanceAs (Decidable (SimpleName name ∧
      size ≤ 2 ^ 32 - 512 ∧ ¬ DenotesDirectory s name.chars))
  | .deleteFile name => inferInstanceAs (Decidable (SimpleName name ∧
      ¬ DenotesDirectory s name.chars))
  | .readFile name _ _ => inferInstanceAs (Decidable (SimpleName name))
  | .mkdir path => inferInstanceAs (Decidable (SimpleName path))
  | .rmdir path => inferInstanceAs (Decidable (SimpleName path))
  | .chdir path => inferInstanceAs (Decidable (SimpleName path))
  | .listDir _ _ => inferInstanceAs (Decidable False)
  | .init => inferInstanceAs (Decidable False)

instance (s : ChainFS) : (call : FsCall) → (code : ℤ) →
    Decidable (OverwriteSucceeds s call code)
  | .writeFile name _ _, code =>
      inferInstanceAs (Decidable (FileExists s name.chars → code = 0))
  | .deleteFile _, _ | .readFile _ _ _, _ | .mkdir _, _ | .rmdir _, _
  | .chdir _, _ | .listDir _ _, _ | .init, _ =>
      inferInstanceAs (Decidable True)

def SimpleCall : StepCondition := fun s call code =>
  SimpleArguments s call ∧ OverwriteSucceeds s call code

instance (s : ChainFS) (call : FsCall) (code : ℤ) :
    Decidable (SimpleCall s call code) :=
  inferInstanceAs (Decidable (_ ∧ _))

/-- `chain` lists the blocks of each file, and the map says so. -/
structure BlockMapSound (g : Geometry) (s : ChainFS)
    (chain : ℕ → List ℕ) : Prop where
  start : ∀ idx, LiveFile g s.disk idx →
    (chain idx).head? = some (entryOf s.disk idx).startBlock
  links : ∀ idx, Links (mapLink g s.disk) chainfsEofMarker (chain idx)
  increasing : ∀ idx, (chain idx).Pairwise (· < ·)
  inside : ∀ idx, ∀ b ∈ chain idx, b < s.blockCount - s.dataAreaStart
  length : ∀ idx, LiveFile g s.disk idx →
    (chain idx).length = fileBlocks (entryOf s.disk idx).size
  disjoint : ∀ i j b, b ∈ chain i → b ∈ chain j → i = j
  exact : ∀ b < 128 * g.map, mapLink g s.disk b ≠ 0 ↔
    ∃ idx, LiveFile g s.disk idx ∧ b ∈ chain idx
  writes : ∀ sector ∈ s.dataWrites,
    s.dataAreaStart ≤ sector ∧ sector < s.blockCount

theorem Mounted.denotesDirectory_iff (h : Mounted g s) {path : List UInt8} :
    DenotesDirectory s path ↔ ∃ t, s.find g path = some t ∧
      (t.found s.disk).entry.type = chainfsTypeDir := by
  obtain ⟨m, hfind⟩ := h.findFile_eq path
  unfold DenotesDirectory ChainFS.find
  rw [hfind]
  constructor
  · rintro ⟨f, hf, htype⟩
    obtain ⟨t, ht, rfl⟩ := Option.map_eq_some_iff.mp hf
    exact ⟨t, ht, htype⟩
  · rintro ⟨t, ht, htype⟩
    exact ⟨_, by rw [ht]; rfl, htype⟩

theorem Mounted.fileExists_iff (h : Mounted g s) {path : List UInt8} :
    FileExists s path ↔ s.find g path ≠ none := by
  obtain ⟨m, hfind⟩ := h.findFile_eq path
  unfold FileExists ChainFS.find
  rw [hfind]
  simp

theorem SimpleName.not_directory {name : CString} (hname : SimpleName name)
    (h : Mounted g s) (hnot : ¬ DenotesDirectory s name.chars) (idx : ℕ)
    (hlookup : lookup g s.disk s.currentDirBlock name.chars = some idx) :
    (entryOf s.disk idx).type ≠ chainfsTypeDir := by
  intro htype
  apply hnot
  rw [h.denotesDirectory_iff]
  exact ⟨.slot idx, by rw [hname.find_eq, hlookup]; rfl, htype⟩

theorem SimpleName.exists_of_lookup {name : CString} {idx : ℕ}
    (hname : SimpleName name) (h : Mounted g s)
    (hlookup : lookup g s.disk s.currentDirBlock name.chars = some idx) :
    FileExists s name.chars := by
  rw [h.fileExists_iff, hname.find_eq, hlookup]
  simp

theorem FsInvariant.blockMapSound (h : FsInvariant g s chain)
    (hfits : g.dataStart ≤ g.total) (htotal : g.total < 2 ^ 32) :
    BlockMapSound g s chain := by
  have hblocks : g.dataBlocks = s.blockCount - s.dataAreaStart := by
    rw [h.mounted.blockCount, h.mounted.start, Geometry.dataBlocks,
      sub32_of_le htotal hfits]
  refine ⟨fun idx => h.accounts.start idx trivial, h.accounts.table.links,
    h.accounts.table.increasing, ?_,
    fun idx => h.accounts.length idx trivial, h.accounts.table.disjoint, ?_,
    ?_⟩
  · intro idx b hb
    rw [← hblocks]
    exact (h.accounts.table.inside idx b hb).2
  · intro b hb
    rw [h.accounts.table.exact b (by simp only [Geometry.Mapped]; omega)]
    constructor
    · rintro ⟨idx, hmem⟩
      refine ⟨idx, ?_, hmem⟩
      by_contra hdead
      rw [h.dead_chain hdead] at hmem
      simp at hmem
    · rintro ⟨idx, -, hmem⟩
      exact ⟨idx, hmem⟩
  · intro sector hsector
    have hlog := h.log sector hsector
    rw [hblocks, h.mounted.blockCount, h.mounted.start] at hlog
    rw [h.mounted.blockCount, h.mounted.start]
    omega

theorem FsInvariant.simple_step (h : FsInvariant g s chain)
    (hcall : SimpleCall s call code)
    (hexec : s.exec call = .ok (s', code)) :
    ∃ chain', FsInvariant g s' chain' := by
  obtain ⟨hargs, hover⟩ := hcall
  cases call with
  | writeFile name data size =>
      obtain ⟨hname, hsize, hnotDir⟩ := hargs
      obtain ⟨s₁, code₁, hwrite, houtcome⟩ := h.writeFile_simple hname
        data hsize (hname.not_directory h.mounted hnotDir)
      simp only [ChainFS.exec, hwrite] at hexec
      cases hexec
      cases houtcome with
      | failed hnew hsame => exact ⟨chain, h.of_unchanged hsame⟩
      | lost idx hold =>
          have hzero := hover
            (hname.exists_of_lookup h.mounted hold)
          exact absurd hzero (by decide)
      | stored idx bs hslot hstored => exact ⟨_, hstored.invariant⟩
  | deleteFile name =>
      obtain ⟨hname, hnotDir⟩ := hargs
      rcases h.deleteFile_simple hname
          (hname.not_directory h.mounted hnotDir) with
        ⟨-, s₁, hdelete, hsame⟩ | ⟨idx, s₁, -, hdelete, hcleared⟩
      · simp only [ChainFS.exec, hdelete] at hexec
        cases hexec
        exact ⟨chain, h.of_unchanged hsame⟩
      · simp only [ChainFS.exec, hdelete] at hexec
        cases hexec
        exact ⟨_, hcleared.invariant⟩
  | readFile name buffer bufferSize =>
      have hread := h.readFile_simple name buffer bufferSize
      simp only [ChainFS.exec] at hexec
      cases hresult : chainfsReadFile s name.chars buffer bufferSize with
      | mk s₁ out =>
          rw [hresult] at hexec hread
          cases out <;> cases hexec <;> exact ⟨chain, hread⟩
  | mkdir path =>
      obtain ⟨s₁, code₁, hmkdir, hinv⟩ := h.mkdir_simple hargs
      simp only [ChainFS.exec, hmkdir] at hexec
      cases hexec
      exact ⟨chain, hinv⟩
  | rmdir path =>
      have hrmdir := h.rmdir_simple hargs
      simp only [ChainFS.exec, Except.ok.injEq] at hexec
      rw [hexec] at hrmdir
      exact ⟨chain, hrmdir⟩
  | chdir path =>
      have hchdir := h.chdir_simple hargs
      simp only [ChainFS.exec, Except.ok.injEq] at hexec
      rw [hexec] at hchdir
      exact ⟨chain, hchdir⟩
  | listDir path maxFiles => exact absurd hargs id
  | init => exact absurd hargs id

/-- No call hangs or overflows. -/
theorem FsInvariant.simple_returns (h : FsInvariant g s chain)
    (hargs : SimpleArguments s call) :
    ∃ s' code, s.exec call = .ok (s', code) := by
  cases call with
  | writeFile name data size =>
      obtain ⟨hname, hsize, hnotDir⟩ := hargs
      obtain ⟨s₁, code₁, hwrite, -⟩ := h.writeFile_simple hname
        data hsize (hname.not_directory h.mounted hnotDir)
      exact ⟨s₁, code₁, hwrite⟩
  | deleteFile name =>
      obtain ⟨hname, hnotDir⟩ := hargs
      rcases h.deleteFile_simple hname
          (hname.not_directory h.mounted hnotDir) with
        ⟨-, s₁, hdelete, -⟩ | ⟨idx, s₁, -, hdelete, -⟩
      · exact ⟨s₁, -1, hdelete⟩
      · exact ⟨s₁, 0, hdelete⟩
  | readFile name buffer bufferSize =>
      simp only [ChainFS.exec]
      cases chainfsReadFile s name.chars buffer bufferSize with
      | mk s₁ out =>
          cases out with
          | none => exact ⟨s₁, -1, rfl⟩
          | some r => exact ⟨s₁, 0, rfl⟩
  | mkdir path =>
      obtain ⟨s₁, code₁, hmkdir, -⟩ := h.mkdir_simple hargs
      exact ⟨s₁, code₁, hmkdir⟩
  | rmdir path => exact ⟨_, _, rfl⟩
  | chdir path => exact ⟨_, _, rfl⟩
  | listDir path maxFiles => exact absurd hargs id
  | init => exact absurd hargs id

theorem FsInvariant.simple_run (h : FsInvariant g s₀ chain)
    (hrun : FsRun SimpleCall s₀ hist s) :
    ∃ chain', FsInvariant g s chain' := by
  refine hrun.invariant (I := fun s => ∃ chain', FsInvariant g s chain')
    ⟨chain, h⟩ ?_ ?_
  · rintro s heap ⟨chain', hinv⟩ hready
    exact ⟨chain', hinv.withHeap hready⟩
  · rintro s call s' code ⟨chain', hinv⟩ _ hcall hexec
    exact hinv.simple_step hcall hexec

/-- The map is sound after every call, and the next call returns. -/
theorem blockMap_sound {totalBlocks maxFiles : ℕ}
    (hformat : Formatted totalBlocks maxFiles s₀)
    (hfits : 1 + formatTableBlocks maxFiles +
      formatMapBlocks totalBlocks maxFiles ≤ totalBlocks)
    (hrun : FsRun SimpleCall s₀ hist s) :
    (∃ chain,
      BlockMapSound (formatGeometry totalBlocks maxFiles) s chain) ∧
    ∀ heap call, HeapReady heap →
      SimpleArguments { s with heap := heap } call →
        ∃ s' code, { s with heap := heap }.exec call = .ok (s', code) := by
  have hstart := hformat.invariant
    (formatGeometry_noWrap totalBlocks maxFiles hformat.1 hfits)
  obtain ⟨chain, hinv⟩ := hstart.simple_run hrun
  refine ⟨⟨chain, hinv.blockMapSound hfits hformat.1⟩, ?_⟩
  intro heap call hready hargs
  exact (hinv.withHeap hready).simple_returns hargs

theorem blockMap_sound_smallDisk : ∃ hist s chain,
    FsRun SimpleCall smallDisk hist s ∧ hist.map Prod.snd = [0, 0, 0, 0] ∧
      BlockMapSound (formatGeometry 20 8) s chain := by
  have hcodes : (smallDisk.checkRun (fun s call code =>
        decide (SimpleCall s call code)) (initHeap unbootedHeap)
      [.writeFile ⟨[97], by decide⟩ (fun _ => 1) 700,
        .writeFile ⟨[98], by decide⟩ (fun _ => 2) 0,
        .deleteFile ⟨[97], by decide⟩,
        .writeFile ⟨[99], by decide⟩ (fun _ => 3) 1100]).map Prod.fst =
      some [0, 0, 0, 0] := by
    decide +kernel
  obtain ⟨codes, s, hrun, heq⟩ :=
    checkRun_run blankDrive_ready (fun _ _ _ => of_decide_eq_true) hcodes
  cases heq
  obtain ⟨chain, hsound⟩ :=
    (blockMap_sound smallDisk_formatted (by decide) hrun).1
  exact ⟨_, s, chain, hrun, rfl, hsound⟩

end Otsos
