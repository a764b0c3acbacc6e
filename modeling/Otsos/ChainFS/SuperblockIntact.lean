import Otsos.ChainFS.Effects
import Otsos.ChainFS.Runs

/-!
# The superblock between formats

Every sector that a call writes lies in the table, the map or the data area,
except one: a path that starts with `'/'` and has no component resolves to the
first entry of the sector zero, and a write or a delete of such a path edits
the superblock.
-/

namespace Otsos

open Lib

variable {g : Geometry} {s s' s₀ s₁ : ChainFS} {d : ℕ → Memory}
  {path : List UInt8} {data : Memory} {size sector : ℕ} {bs : List ℕ}
  {super : Memory} {call : FsCall} {code : ℤ}
  {hist : List (FsCall × ℤ)}

/-- A path from the root without a component that `split_path` keeps. -/
def NamesRootBlock (path : List UInt8) : Prop :=
  path.head? = some slash ∧ splitPath path = []

instance (path : List UInt8) : Decidable (NamesRootBlock path) :=
  inferInstanceAs (Decidable (_ ∧ _))

theorem resolve_rootBlock (h : s.resolve g path = some .rootBlock) :
    NamesRootBlock path := by
  simp only [ChainFS.resolve, resolveTable] at h
  by_cases hroot : splitPath path = [] ∧ path.head? = some slash
  · exact ⟨hroot.2, hroot.1⟩
  · rw [if_neg hroot] at h
    obtain ⟨idx, -, heq⟩ := Option.map_eq_some_iff.mp h
    cases heq

theorem find_rootBlock (h : s.find g path = some .rootBlock) :
    NamesRootBlock path := by
  simp only [ChainFS.find, findTable] at h
  by_cases hslash : slash ∈ path
  · rw [if_pos hslash] at h
    exact resolve_rootBlock h
  · rw [if_neg hslash] at h
    obtain ⟨idx, -, heq⟩ := Option.map_eq_some_iff.mp h
    cases heq

/-! ## What storing a file leaves alone -/

theorem Mounted.writeBlockMapEntry_frame (h : Mounted g s) (b v : ℕ)
    (hlow : sector < 1 + g.table) :
    (chainfsWriteBlockMapEntry s b v).1.disk sector = s.disk sector := by
  by_cases hb : g.Mapped b
  · obtain ⟨m, hwrite⟩ := h.writeBlockMapEntry_eq (v := v) hb
    rw [hwrite]
    exact setLink_outside hb _ (Or.inl hlow)
  · unfold chainfsWriteBlockMapEntry mapEntriesPerBlock
    rw [h.map, if_pos (Nat.not_lt.mp hb)]

theorem Mounted.writeChain_frame (h : Mounted g s) (data : Memory)
    (remaining off : ℕ) (hlow : sector < 1 + g.table)
    (hbs : ∀ b ∈ bs, wrap32 (g.dataStart + b) ≠ sector) :
    (writeChain s data bs remaining off).disk sector = s.disk sector := by
  induction bs generalizing s remaining off with
  | nil => rfl
  | cons b bs ih =>
      rw [writeChain]
      simp only [transfer_eq, pataWriteSector]
      generalize copyBytes zeroSector 0 data off (min remaining 512) = block
      have hreal : wrap32 (s.dataAreaStart + b) ≠ sector := by
        rw [h.start]
        exact hbs b List.mem_cons_self
      generalize wrap32 (s.dataAreaStart + b) = realSector at hreal ⊢
      let s₁ : ChainFS := { s with
        disk := Function.update s.disk realSector block
        sectorBuffer := block
        dataWrites := realSector :: s.dataWrites }
      have hs₁ : Mounted g s₁ := h.of_same rfl rfl
      have hdata : s₁.disk sector = s.disk sector :=
        Function.update_of_ne hreal.symm _ _
      have hmap := hs₁.writeBlockMapEntry_frame b
        (bs.headD chainfsEofMarker) hlow
      have hcontrol := writeBlockMapEntry_control s₁ b
        (bs.headD chainfsEofMarker)
      have hdisk := ih (hcontrol.mounted hs₁)
        (remaining - min remaining 512) (off + min remaining 512)
        fun c hc => hbs c (List.mem_cons_of_mem b hc)
      exact hdisk.trans (hmap.trans hdata)

/-- Storing a file leaves every low sector alone but that of the entry, unless
the number of a data sector wraps to it. -/
theorem Mounted.storeFile_frame (h : Mounted g s) {slot : ℕ × ℕ}
    {fileName : List UInt8} {parent : ℕ} (hlow : sector < 1 + g.table)
    (hslot : sector ≠ slot.1)
    (hbs : ∀ b ∈ allocated g s.disk size,
      wrap32 (g.dataStart + b) ≠ sector)
    (hstore : storeFile s slot fileName data size parent =
      .ok (s', code)) : s'.disk sector = s.disk sector := by
  unfold storeFile at hstore
  cases hkmalloc : kmalloc s.heap (blocksNeeded size * 4) with
  | none =>
      rw [hkmalloc] at hstore
      cases hstore
  | some r =>
      obtain ⟨heap, ptr⟩ := r
      rw [hkmalloc] at hstore
      dsimp only at hstore
      by_cases hptr : ptr = 0
      · rw [if_pos hptr] at hstore
        cases hstore
        rfl
      · have hs₁ : Mounted g { s with heap := heap } := h.of_same rfl rfl
        obtain ⟨m, hfind⟩ := hs₁.findFreeBlocks_eq (blocksNeeded size)
        rw [if_neg hptr] at hstore
        simp only [hfind] at hstore
        by_cases hroom : blocksNeeded size ≤ (freeBlocks g s.disk).length
        · have hs₂ : Mounted g
              { s with
                heap := heap
                sectorBuffer := m } := h.of_same rfl rfl
          have hdisk := hs₂.writeChain_frame data size 0 hlow hbs
          unfold allocated at hdisk
          simp only [if_pos hroom, ne_eq, not_true_eq_false, if_false,
            Except.ok.injEq, Prod.mk.injEq] at hstore
          rw [← hstore.1]
          exact (Function.update_of_ne hslot _ _).trans hdisk
        · simp only [if_neg hroom] at hstore
          cases hstore
          rfl

/-! ## The superblock -/

/-- The superblock on the disk and the one in memory are `super`. -/
structure SuperblockIntact (g : Geometry) (super : Memory) (s : ChainFS) :
    Prop where
  mounted : Mounted g s
  memory : s.superblock = super
  disk : s.disk 0 = super

theorem SuperblockIntact.of_frame (h : SuperblockIntact g super s)
    (hcontrol : SameControl s s') (hdisk : s'.disk 0 = s.disk 0) :
    SuperblockIntact g super s' :=
  ⟨hcontrol.mounted h.mounted, hcontrol.superblock.trans h.memory,
    hdisk.trans h.disk⟩

theorem Formatted.superblockIntact {totalBlocks maxFiles : ℕ}
    (h : Formatted totalBlocks maxFiles s) :
    SuperblockIntact (formatGeometry totalBlocks maxFiles)
      (formatSuperblock totalBlocks maxFiles) s := by
  obtain ⟨hfresh, hsuper, -⟩ := h.fresh
  exact ⟨h.mounted, hsuper, hfresh.super⟩

/-- Mounting an intact disk sets everything as it is, but for the current
directory. -/
theorem SuperblockIntact.init (h : SuperblockIntact g super s) :
    chainfsInit s =
      ({ s with
        currentDirBlock := 0
        sectorBuffer := s.disk 0 }, 0) := by
  have hsame : s.disk 0 = s.superblock := h.disk.trans h.memory.symm
  have hstart : wrap32 (1 + s.fileTableBlockCount + s.blockMapBlockCount) =
      s.dataAreaStart := by
    have hsmall := g.small
    rw [h.mounted.table, h.mounted.map, h.mounted.start, Geometry.dataStart,
      wrap32_of_lt (by omega)]
  have hroot := h.mounted.root
  have hmagic := h.mounted.magic
  simp only [ChainFS.fileTableBlockCount, ChainFS.blockMapBlockCount,
    ChainFS.rootDirBlock, ChainFS.magic] at hstart hroot hmagic
  rw [chainfsInit_eq (by rw [hsame, hmagic]), hsame, hstart, hroot]

/-- The path of the call does not name the root block; mutators that refuse it
themselves may be given any path. -/
def FsCall.SparesRootBlock : FsCall → Prop
  | .writeFile path _ _ => ¬ NamesRootBlock path.chars
  | .deleteFile path => ¬ NamesRootBlock path.chars
  | _ => True

instance : (call : FsCall) → Decidable call.SparesRootBlock
  | .writeFile _ _ _ | .deleteFile _ => inferInstanceAs (Decidable (¬ _))
  | .readFile _ _ _ | .mkdir _ | .rmdir _ | .chdir _ | .listDir _ _
  | .init => inferInstanceAs (Decidable True)

/-- The call takes no data block whose sector number wraps around to zero. -/
def SparesSectorZero (g : Geometry) (s : ChainFS) : FsCall → Prop
  | .writeFile path _ size =>
      TakesSectors g s path.chars size (wrap32 · ≠ 0)
  | _ => True

/-- Writes and deletes spare the root block, and no data sector that a write
takes has the number zero. -/
def SparesSuperblock (g : Geometry) : StepCondition := fun s call _ =>
  call.SparesRootBlock ∧ SparesSectorZero g s call

theorem Geometry.NoWrap.sparesSectorZero (h : g.NoWrap) (s : ChainFS)
    (call : FsCall) : SparesSectorZero g s call := by
  cases call with
  | writeFile path data size =>
      unfold SparesSectorZero
      refine (h.takesSectors s path.chars size).imp fun n hle hlt => ?_
      unfold Geometry.dataStart at hle
      rw [wrap32_of_lt hlt]
      omega
  | _ => trivial

theorem slot_sector_ne {t : Target} (h : t ≠ .rootBlock) :
    (0 : ℕ) ≠ t.position.1 := by
  cases t with
  | rootBlock => exact absurd rfl h
  | slot idx =>
      show 0 ≠ 1 + idx / 8
      omega

theorem writePlan_target {plan : WritePlan} (hpath : ¬ NamesRootBlock path)
    (hplan : writePlan g s path = .ok (some plan)) :
    plan.target ≠ .rootBlock := by
  intro hroot
  unfold writePlan at hplan
  cases hsplit : splitParent path with
  | error fault => simp [hsplit] at hplan
  | ok split =>
      obtain ⟨parent, fileName⟩ := split
      simp only [hsplit] at hplan
      cases hparent : writeParentId g s.disk s.currentDirBlock parent with
      | none => simp [hparent] at hplan
      | some parentBlock =>
          simp only [hparent] at hplan
          cases hfind : s.find g path with
          | some t =>
              simp only [hfind] at hplan
              cases hfreed : released g s.disk
                  (t.found s.disk).entry.startBlock with
              | none => simp [hfreed] at hplan
              | some freed =>
                  simp only [hfreed, Except.ok.injEq,
                    Option.some.injEq] at hplan
                  subst hplan
                  simp only at hroot
                  subst hroot
                  exact hpath (find_rootBlock hfind)
          | none =>
              simp only [hfind] at hplan
              cases hfree : freeSlot g s.disk with
              | none => simp [hfree] at hplan
              | some idx =>
                  simp only [hfree, Except.ok.injEq,
                    Option.some.injEq] at hplan
                  subst hplan
                  cases hroot

theorem SuperblockIntact.of_unchanged (h : SuperblockIntact g super s)
    (hsame : Unchanged s s') : SuperblockIntact g super s' :=
  h.of_frame hsame.control (congrFun hsame.disk 0)

theorem SuperblockIntact.prepared {freed : List ℕ}
    (h : SuperblockIntact g super s) (hprepared : Prepared g s freed s₁) :
    SuperblockIntact g super s₁ :=
  h.of_frame hprepared.control (hprepared.outside 0 (Or.inl (by omega)))

theorem SuperblockIntact.writeFile
    (h : SuperblockIntact g super s)
    (hready : HeapReady s.heap) (hpath : ¬ NamesRootBlock path)
    (htakes : TakesSectors g s path size (wrap32 · ≠ 0))
    (hexec : chainfsWriteFile s path data size = .ok (s', code)) :
    SuperblockIntact g super s' := by
  have hresult := h.mounted.writeFile_result hready path data size
  rw [hexec] at hresult
  cases hresult with
  | rejected s' hplan hsame => exact h.of_unchanged hsame
  | full plan s₁ s' hplan hprepared hroom hsame =>
      exact (h.prepared hprepared).of_unchanged hsame
  | stored plan s₁ s' hplan hprepared hroom hstored hcontrol hstore =>
      have h₁ := h.prepared hprepared
      refine h₁.of_frame hcontrol ?_
      exact h₁.mounted.storeFile_frame (by omega)
        (slot_sector_ne (writePlan_target hpath hplan))
        (fun b hb => htakes.allocated hplan hprepared hroom hb) hstore

theorem SuperblockIntact.deleteFile
    (h : SuperblockIntact g super s) (hready : HeapReady s.heap)
    (hpath : ¬ NamesRootBlock path)
    (hexec : chainfsDeleteFile s path = .ok (s', code)) :
    SuperblockIntact g super s' := by
  have hresult := h.mounted.deleteFile_result hready path
  rw [hexec] at hresult
  cases hresult with
  | missing s' hfind hsame => exact h.of_unchanged hsame
  | cleared t freed s₁ s' hfind hfreed hprepared hcontrol hheap hdisk =>
      have htarget : t ≠ .rootBlock := by
        rintro rfl
        exact hpath (find_rootBlock hfind)
      have hzero := hprepared.outside 0 (Or.inl (by omega))
      refine h.of_frame (hprepared.control.trans hcontrol) ?_
      rw [hdisk, editTarget, Function.update_of_ne (slot_sector_ne htarget)]
      exact hzero

theorem SuperblockIntact.step (h : SuperblockIntact g super s)
    (hready : HeapReady s.heap) (hcall : SparesSuperblock g s call code)
    (hexec : s.exec call = .ok (s', code)) :
    SuperblockIntact g super s' := by
  cases call with
  | writeFile path data size =>
      exact h.writeFile hready hcall.1 hcall.2 hexec
  | deleteFile path => exact h.deleteFile hready hcall.1 hexec
  | readFile path buffer n =>
      exact h.of_unchanged (exec_unchanged h.mounted hready
        (Or.inl ⟨path, buffer, n, rfl⟩) hexec)
  | listDir path n =>
      exact h.of_unchanged (exec_unchanged h.mounted hready
        (Or.inr ⟨path, n, rfl⟩) hexec)
  | mkdir path =>
      have hresult := h.mounted.mkdir_result hready path.chars
      rw [show chainfsMkdir s path.chars = .ok (s', code) from hexec]
        at hresult
      cases hresult with
      | rejected s' hplan hsame => exact h.of_unchanged hsame
      | made plan s' hplan hcontrol hheap hdisk =>
          refine h.of_frame hcontrol ?_
          rw [hdisk, editSlot_zero]
  | rmdir path =>
      have hresult := h.mounted.rmdir_result hready path.chars
      rw [show chainfsRmdir s path.chars = (s', code)
        from Except.ok.inj hexec] at hresult
      cases hresult with
      | rejected s' hnone hsame => exact h.of_unchanged hsame
      | removed idx s' htarget hcontrol hheap hdisk =>
          refine h.of_frame hcontrol ?_
          rw [hdisk, editSlot_zero]
  | chdir path =>
      have hresult := h.mounted.chdir_result hready path.chars
      rw [show chainfsChdir s path.chars = (s', code)
        from Except.ok.inj hexec] at hresult
      cases hresult with
      | rejected s' hsame => exact h.of_unchanged hsame
      | moved t s' htarget hdir hsuper hstart hcurrent hdisk hheap =>
          exact ⟨h.mounted.of_same hsuper hstart, hsuper.trans h.memory,
            (congrFun hdisk 0).trans h.disk⟩
  | init =>
      simp only [ChainFS.exec, Except.ok.injEq, h.init] at hexec
      cases hexec
      exact ⟨h.mounted.of_same rfl rfl, h.memory, h.disk⟩

theorem SuperblockIntact.run (h : SuperblockIntact g super s₀)
    (hrun : FsRun (SparesSuperblock g) s₀ hist s) :
    SuperblockIntact g super s := by
  refine hrun.invariant h ?_ ?_
  · intro s heap hs _
    exact ⟨hs.mounted.of_same rfl rfl, hs.memory, hs.disk⟩
  · intro s call s' code hs hready hspares hexec
    exact hs.step hready hspares hexec

/-- In a run that spares the root block the superblock stays what the format
wrote, and mounting again finds the same disk. -/
theorem superblock_intact {totalBlocks maxFiles : ℕ}
    (hformat : Formatted totalBlocks maxFiles s₀)
    (hrun : FsRun (SparesSuperblock (formatGeometry totalBlocks maxFiles)) s₀
      hist s) :
    s.disk 0 = s₀.disk 0 ∧ s.superblock = s.disk 0 ∧
      chainfsInit s =
        ({ s with
          superblock := s₀.superblock
          dataAreaStart := s₀.dataAreaStart
          currentDirBlock := s₀.currentDirBlock
          sectorBuffer := s.disk 0 }, 0) := by
  have hstart := hformat.superblockIntact
  have hcurrent : s₀.currentDirBlock = 0 := hformat.fresh.2.2.2.1
  have hinv := hstart.run hrun
  refine ⟨hinv.disk.trans hstart.disk.symm,
    hinv.memory.trans hinv.disk.symm, ?_⟩
  rw [hinv.init, hcurrent, hstart.memory, ← hinv.memory,
    hstart.mounted.start, ← hinv.mounted.start]

theorem superblock_intact_smallDisk : ∃ hist s,
    FsRun (SparesSuperblock (formatGeometry 20 8)) smallDisk hist s ∧
      hist.map Prod.snd = [0, 0, -1] ∧ s.disk 0 = smallDisk.disk 0 := by
  have hcodes : (smallDisk.checkRun (fun _ call _ =>
        decide call.SparesRootBlock) (initHeap unbootedHeap)
      [.writeFile ⟨[47, 97], by decide⟩ (fun _ => 1) 3,
        .deleteFile ⟨[47, 47, 97], by decide⟩,
        .mkdir ⟨[47], by decide⟩]).map Prod.fst = some [0, 0, -1] := by
    decide +kernel
  obtain ⟨codes, s, hrun, heq⟩ :=
    checkRun_run (P := SparesSuperblock (formatGeometry 20 8))
      blankDrive_ready (fun s call _ htest => ⟨of_decide_eq_true htest,
        smallDisk_noWrap.sparesSectorZero s call⟩) hcodes
  cases heq
  exact ⟨_, s, hrun, rfl, (superblock_intact smallDisk_formatted hrun).1⟩

/-- Once a file uses the block zero, deleting `"/"` clears the first byte of
the superblock, and the disk cannot be mounted again. -/
theorem superblock_deleted : ∃ hist s, FsRun AnyCall smallDisk hist s ∧
    hist.map Prod.snd = [0, 0] ∧ s.disk 0 ≠ smallDisk.disk 0 ∧
      (chainfsInit s).2 = -1 := by
  have hcodes : (smallDisk.checkRun (fun _ _ _ => true)
      (initHeap unbootedHeap)
      [.writeFile ⟨[97], by decide⟩ (fun _ => 1) 3,
        .deleteFile ⟨[47], by decide⟩]).map
        (fun r => (r.1, r.2.disk 0 0, (chainfsInit r.2).2)) =
      some ([0, 0], 0, -1) := by
    decide +kernel
  obtain ⟨codes, s, hrun, heq⟩ := checkRun_any hcodes
  simp only [Prod.mk.injEq] at heq
  obtain ⟨rfl, hbyte, hinit⟩ := heq
  refine ⟨_, s, hrun, rfl, ?_, hinit⟩
  intro hsame
  rw [hsame] at hbyte
  exact absurd hbyte (by decide +kernel)

end Otsos
