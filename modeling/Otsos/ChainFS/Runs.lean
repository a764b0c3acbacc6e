import Otsos.Heap.Guarantees
import Otsos.ChainFS.Calls

/-!
# Runs of file system calls

A run starts from a formatted disk and makes calls in any order; between two
calls the rest of the kernel may use the heap.  What the callers promise, or
what a result assumes of the steps, is a parameter.
-/

namespace Otsos

open Lib

variable {g : Geometry} {s s' : ChainFS}

inductive FsCall where
  | writeFile (filename : CString) (data : Memory) (size : ℕ)
  | deleteFile (filename : CString)
  | readFile (filename : CString) (buffer : Memory) (bufferSize : ℕ)
  | mkdir (path : CString)
  | rmdir (path : CString)
  | chdir (path : CString)
  | listDir (path : CString) (maxFiles : ℕ)
  | init

/-- One call, with its code. -/
def ChainFS.exec (s : ChainFS) : FsCall → Except Fault (ChainFS × ℤ)
  | .writeFile filename data size =>
      chainfsWriteFile s filename.chars data size
  | .deleteFile filename => chainfsDeleteFile s filename.chars
  | .readFile filename buffer bufferSize =>
      match chainfsReadFile s filename.chars buffer bufferSize with
      | (s, none) => .ok (s, -1)
      | (s, some _) => .ok (s, 0)
  | .mkdir path => chainfsMkdir s path.chars
  | .rmdir path => .ok (chainfsRmdir s path.chars)
  | .chdir path => .ok (chainfsChdir s path.chars)
  | .listDir path maxFiles =>
      match chainfsListDir s path.chars maxFiles with
      | (s, none) => .ok (s, -1)
      | (s, some _) => .ok (s, 0)
  | .init => .ok (chainfsInit s)

theorem exec_unchanged {call : FsCall} {code : ℤ} (h : Mounted g s)
    (hready : HeapReady s.heap)
    (hcall : (∃ path buffer n, call = .readFile path buffer n) ∨
      ∃ path n, call = .listDir path n)
    (hexec : s.exec call = .ok (s', code)) : Unchanged s s' := by
  rcases hcall with ⟨path, buffer, n, rfl⟩ | ⟨path, n, rfl⟩
  · obtain ⟨m, hread⟩ := h.readFile_state path.chars buffer n
    simp only [ChainFS.exec] at hexec
    cases hresult : chainfsReadFile s path.chars buffer n with
    | mk s₂ out =>
        rw [hresult] at hexec hread
        simp only at hread
        subst hread
        cases out <;> cases hexec <;> exact Unchanged.of_buffer hready m
  · obtain ⟨m, hlist⟩ := h.listDir_state path.chars n
    simp only [ChainFS.exec] at hexec
    cases hresult : chainfsListDir s path.chars n with
    | mk s₂ out =>
        rw [hresult] at hexec hlist
        simp only at hlist
        subst hlist
        cases out <;> cases hexec <;> exact Unchanged.of_buffer hready m

/-- A condition on a step: the state, the call and the code it returns. -/
def StepCondition := ChainFS → FsCall → ℤ → Prop

/-- Runs from `s₀` with the calls made so far and their codes. -/
inductive FsRun (P : StepCondition) (s₀ : ChainFS) :
    List (FsCall × ℤ) → ChainFS → Prop
  | start : FsRun P s₀ [] s₀
  | step {hist : List (FsCall × ℤ)} {s s' : ChainFS} {heap : Heap}
      {call : FsCall} {code : ℤ} (before : FsRun P s₀ hist s)
      (ready : HeapReady heap) (meets : P { s with heap := heap } call code)
      (returns : { s with heap := heap }.exec call = .ok (s', code)) :
      FsRun P s₀ (hist ++ [(call, code)]) s'

/-- Every call is allowed. -/
def AnyCall : StepCondition := fun _ _ _ => True

/-- A run whose steps meet a condition meets what follows from it. -/
theorem FsRun.weaken {P Q : StepCondition} {s₀ : ChainFS}
    {hist : List (FsCall × ℤ)} (hrun : FsRun P s₀ hist s)
    (h : ∀ s call code, P s call code → Q s call code) :
    FsRun Q s₀ hist s := by
  induction hrun with
  | start => exact .start
  | step before ready meets returns ih =>
      exact ih.step ready (h _ _ _ meets) returns

theorem FsRun.invariant {P : StepCondition} {I : ChainFS → Prop}
    {s₀ : ChainFS} {hist : List (FsCall × ℤ)} (hrun : FsRun P s₀ hist s)
    (hstart : I s₀)
    (hheap : ∀ s heap, I s → HeapReady heap → I { s with heap := heap })
    (hstep : ∀ s call s' code, I s → HeapReady s.heap → P s call code →
      s.exec call = .ok (s', code) → I s') : I s := by
  induction hrun with
  | start => exact hstart
  | step before ready meets returns ih =>
      have hs := hheap _ _ ih ready
      exact hstep _ _ _ _ hs ready meets returns

/-- Makes the calls one after the other, each on the same heap, as long as the
test passes; the codes and the last state. -/
def ChainFS.checkRun (test : ChainFS → FsCall → ℤ → Bool) (heap : Heap)
    (s : ChainFS) : List FsCall → Option (List ℤ × ChainFS)
  | [] => some ([], s)
  | call :: calls =>
      match { s with heap := heap }.exec call with
      | .error _ => none
      | .ok (s', code) =>
          if test { s with heap := heap } call code then
            (s'.checkRun test heap calls).map fun r => (code :: r.1, r.2)
          else none

theorem FsRun.of_checkRun {P : StepCondition}
    {test : ChainFS → FsCall → ℤ → Bool} {s₀ : ChainFS}
    {hist : List (FsCall × ℤ)} {heap : Heap} {calls : List FsCall}
    {codes : List ℤ} (hrun : FsRun P s₀ hist s) (hready : HeapReady heap)
    (htest : ∀ s call code, test s call code = true → P s call code)
    (hcheck : s.checkRun test heap calls = some (codes, s')) :
    FsRun P s₀ (hist ++ calls.zip codes) s' := by
  induction calls generalizing s hist codes with
  | nil =>
      cases hcheck
      simpa using hrun
  | cons call calls ih =>
      rw [ChainFS.checkRun] at hcheck
      cases hexec : { s with heap := heap }.exec call with
      | error fault => simp [hexec] at hcheck
      | ok r =>
          obtain ⟨s₁, code⟩ := r
          rw [hexec] at hcheck
          by_cases hmeets : test { s with heap := heap } call code = true
          · simp only [if_pos hmeets] at hcheck
            obtain ⟨⟨codes₁, s₂⟩, hrest, heq⟩ :=
              Option.map_eq_some_iff.mp hcheck
            cases heq
            have hnext := ih
              (hrun.step hready (htest _ _ _ hmeets) hexec) hrest
            rwa [List.append_assoc, List.singleton_append] at hnext
          · simp [if_neg hmeets] at hcheck

/-- A computed result of such calls is that of a run. -/
theorem checkRun_run {P : StepCondition} {test : ChainFS → FsCall → ℤ → Bool}
    {s₀ : ChainFS} {heap : Heap} {calls : List FsCall} {α : Type*}
    {f : List ℤ × ChainFS → α} {v : α} (hready : HeapReady heap)
    (htest : ∀ s call code, test s call code = true → P s call code)
    (hcheck : (s₀.checkRun test heap calls).map f = some v) :
    ∃ codes s, FsRun P s₀ (calls.zip codes) s ∧ f (codes, s) = v := by
  obtain ⟨⟨codes, s⟩, hcheck, heq⟩ := Option.map_eq_some_iff.mp hcheck
  have hrun := FsRun.start.of_checkRun hready htest hcheck
  exact ⟨codes, s, hrun, heq⟩

/-- What is known of the result of a call holds of a state and a code. -/
theorem evaluated_call {r : Except Fault (ChainFS × ℤ)} {α : Type*}
    {f : ChainFS × ℤ → α} {v : α} (h : r.map f = .ok v) :
    ∃ s code, r = .ok (s, code) ∧ f (s, code) = v := by
  cases r with
  | error fault => cases h
  | ok r => exact ⟨r.1, r.2, rfl, Except.ok.inj h⟩

/-- `s` is what a successful format leaves, on any disk and from any state of
the driver, with a heap on which every call returns. -/
def Formatted (totalBlocks maxFiles : ℕ) (s : ChainFS) : Prop :=
  totalBlocks < 2 ^ 32 ∧ maxFiles < 2 ^ 32 ∧ ∃ s₀ : ChainFS,
    HeapReady s₀.heap ∧ s₀.dataWrites = [] ∧
      chainfsFormat s₀ totalBlocks maxFiles = (s, 0)

/-! ## The formatted disk -/

theorem formatTableBlocks_lt (maxFiles : ℕ) :
    8 * formatTableBlocks maxFiles ≤ 2 ^ 32 ∧
      formatTableBlocks maxFiles < 2 ^ 29 := by
  have hmod : wrap32 (maxFiles + entriesPerBlock - 1) < 2 ^ 32 :=
    Nat.mod_lt _ (by omega)
  unfold formatTableBlocks
  unfold entriesPerBlock at *
  omega

theorem formatMapBlocks_lt (totalBlocks maxFiles : ℕ) :
    formatMapBlocks totalBlocks maxFiles < 2 ^ 25 := by
  have hmod : wrap32 (sub32 (sub32 totalBlocks 1)
      (formatTableBlocks maxFiles) + mapEntriesPerBlock - 1) < 2 ^ 32 :=
    Nat.mod_lt _ (by omega)
  simp only [formatMapBlocks]
  unfold mapEntriesPerBlock at *
  omega

/-- The geometry that a format records. -/
def formatGeometry (totalBlocks maxFiles : ℕ) : Geometry where
  total := totalBlocks
  table := formatTableBlocks maxFiles
  map := formatMapBlocks totalBlocks maxFiles
  addressable := (formatTableBlocks_lt maxFiles).1
  small := by
    have htable := (formatTableBlocks_lt maxFiles).2
    have hmap := formatMapBlocks_lt totalBlocks maxFiles
    omega

/-- `chainfs_format` does not check that the table fits on the disk.  Up to 126
sectors more are still harmless: the subtraction of the number of blocks wraps,
and the rounding up to whole sectors of the map wraps back. -/
theorem formatGeometry_noWrap_iff {totalBlocks maxFiles : ℕ}
    (htotal : totalBlocks < 2 ^ 32) :
    (formatGeometry totalBlocks maxFiles).NoWrap ↔
      formatTableBlocks maxFiles ≤ totalBlocks + 126 ∨ totalBlocks = 0 := by
  have htable := (formatTableBlocks_lt maxFiles).2
  simp only [Geometry.NoWrap, Geometry.Mapped, Geometry.dataBlocks,
    Geometry.dataStart, formatGeometry, formatMapBlocks]
  generalize formatTableBlocks maxFiles = M at htable ⊢
  unfold mapEntriesPerBlock wrap32 sub32
  generalize hblocks : ((totalBlocks + (2 ^ 32 - 1)) % 2 ^ 32 +
    (2 ^ 32 - M)) % 2 ^ 32 = dataBlocks
  constructor
  · intro h
    by_contra hlarge
    -- the last data block has a map entry
    have hlast := h (totalBlocks + (2 ^ 32 - 1) - M -
      (dataBlocks + 128 - 1) % 2 ^ 32 / 128 - 1) (by omega) (by omega)
    omega
  · intro hsmall b hb hmapped
    omega

theorem formatGeometry_noWrap (totalBlocks maxFiles : ℕ)
    (htotal : totalBlocks < 2 ^ 32)
    (hfits : 1 + formatTableBlocks maxFiles +
      formatMapBlocks totalBlocks maxFiles ≤ totalBlocks) :
    (formatGeometry totalBlocks maxFiles).NoWrap := by
  refine (formatGeometry_noWrap_iff htotal).mpr (Or.inl ?_)
  omega

/-- What a format leaves on the disk. -/
structure FreshDisk (totalBlocks maxFiles : ℕ) (d : ℕ → Memory) : Prop where
  super : d 0 = formatSuperblock totalBlocks maxFiles
  root : 1 ≤ formatTableBlocks maxFiles → d 1 = formatRootSector
  zero : ∀ sector, 1 ≤ sector →
    sector < 1 + formatTableBlocks maxFiles +
      formatMapBlocks totalBlocks maxFiles →
    (sector = 1 → formatTableBlocks maxFiles = 0) → d sector = zeroSector

theorem writeSectors_eq (s : ChainFS) (first n : ℕ) :
    writeSectors s first n = { s with
      disk := fun sector =>
        if first ≤ sector ∧ sector < first + n then s.sectorBuffer
        else s.disk sector } := by
  induction n generalizing s first with
  | zero =>
      have hdisk : (fun sector =>
          if first ≤ sector ∧ sector < first + 0 then s.sectorBuffer
          else s.disk sector) = s.disk := by
        funext sector
        rw [if_neg (by omega)]
      rw [writeSectors, hdisk]
  | succ n ih =>
      rw [writeSectors, ih]
      simp only [pataWriteSector]
      congr 1
      funext sector
      by_cases hfirst : sector = first
      · subst hfirst
        rw [if_neg (by omega), Function.update_self, if_pos (by omega)]
      · rw [Function.update_of_ne hfirst]
        by_cases hin : first + 1 ≤ sector ∧ sector < first + 1 + n
        · rw [if_pos hin, if_pos (by omega)]
        · rw [if_neg hin, if_neg (by omega)]

theorem formatSuperblock_fields (totalBlocks maxFiles : ℕ)
    (htotal : totalBlocks < 2 ^ 32) :
    sbMagic (formatSuperblock totalBlocks maxFiles) = chainfsMagic ∧
    sbBlockCount (formatSuperblock totalBlocks maxFiles) = totalBlocks ∧
    sbFileTableBlockCount (formatSuperblock totalBlocks maxFiles) =
      formatTableBlocks maxFiles ∧
    sbBlockMapBlockCount (formatSuperblock totalBlocks maxFiles) =
      formatMapBlocks totalBlocks maxFiles ∧
    sbRootDirBlock (formatSuperblock totalBlocks maxFiles) = 0 := by
  have htable := (formatTableBlocks_lt maxFiles).2
  have hmap := formatMapBlocks_lt totalBlocks maxFiles
  have hword : ∀ n, n < 2 ^ 32 → n % 256 ^ 4 = n :=
    fun n hn => Nat.mod_eq_of_lt hn
  refine ⟨?_, ?_, ?_, ?_, ?_⟩
  · simp (disch := omega) only [sbMagic, formatSuperblock,
      Memory.load_store_disjoint, Memory.load_store_same]
    exact hword _ (by decide)
  · simp (disch := omega) only [sbBlockCount, formatSuperblock,
      Memory.load_store_disjoint, Memory.load_store_same]
    exact hword _ htotal
  · simp (disch := omega) only [sbFileTableBlockCount, formatSuperblock,
      Memory.load_store_disjoint, Memory.load_store_same]
    exact hword _ (by omega)
  · simp (disch := omega) only [sbBlockMapBlockCount, formatSuperblock,
      Memory.load_store_disjoint, Memory.load_store_same]
    exact hword _ (by omega)
  · simp only [sbRootDirBlock, formatSuperblock, Memory.load_store_same,
      Nat.zero_mod]

/-- The disk at the end of `chainfs_format`. -/
def formattedDisk (d : ℕ → Memory) (totalBlocks maxFiles : ℕ) :
    ℕ → Memory := fun sector =>
  let M := formatTableBlocks maxFiles
  let N := formatMapBlocks totalBlocks maxFiles
  if 1 + M ≤ sector ∧ sector < 1 + M + N then zeroSector
  else if 2 ≤ sector ∧ sector < 1 + M then zeroSector
  else if sector = 1 then formatRootSector
  else if sector = 0 then formatSuperblock totalBlocks maxFiles
  else d sector

theorem formattedDisk_fresh (d : ℕ → Memory) (totalBlocks maxFiles : ℕ) :
    FreshDisk totalBlocks maxFiles
      (formattedDisk d totalBlocks maxFiles) := by
  constructor
  · simp [formattedDisk]
  · intro hM
    simp only [formattedDisk]
    rw [if_neg (by omega), if_neg (by omega), if_pos trivial]
  · intro sector hlow hhigh hone
    simp only [formattedDisk]
    by_cases hmap : 1 + formatTableBlocks maxFiles ≤ sector
    · rw [if_pos ⟨hmap, hhigh⟩]
    · rw [if_neg (by omega), if_pos (by omega)]

theorem chainfsInit_eq (hmagic : sbMagic (s.disk 0) = chainfsMagic) :
    chainfsInit s =
      ({ s with
        superblock := s.disk 0
        dataAreaStart := wrap32 (1 + sbFileTableBlockCount (s.disk 0) +
          sbBlockMapBlockCount (s.disk 0))
        currentDirBlock := sbRootDirBlock (s.disk 0)
        sectorBuffer := s.disk 0 }, 0) := by
  unfold chainfsInit
  exact if_neg (not_not.mpr hmagic)

theorem chainfsFormat_eq (s : ChainFS) {totalBlocks maxFiles : ℕ}
    (htotal : totalBlocks < 2 ^ 32) :
    chainfsFormat s totalBlocks maxFiles =
      ({ s with
        disk := formattedDisk s.disk totalBlocks maxFiles
        superblock := formatSuperblock totalBlocks maxFiles
        dataAreaStart := 1 + formatTableBlocks maxFiles +
          formatMapBlocks totalBlocks maxFiles
        currentDirBlock := 0
        sectorBuffer := formatSuperblock totalBlocks maxFiles }, 0) := by
  have htable := (formatTableBlocks_lt maxFiles).2
  have hmap := formatMapBlocks_lt totalBlocks maxFiles
  obtain ⟨hmagic, -, hM, hN, hroot⟩ :=
    formatSuperblock_fields totalBlocks maxFiles htotal
  have hsuper := (formattedDisk_fresh s.disk totalBlocks maxFiles).super
  generalize hsb : formatSuperblock totalBlocks maxFiles = sb at *
  generalize hMdef : formatTableBlocks maxFiles = M at *
  generalize hNdef : formatMapBlocks totalBlocks maxFiles = N at *
  have hw₁ : wrap32 (1 + M) = 1 + M := wrap32_of_lt (by omega)
  have hw₂ : wrap32 (1 + M + N) = 1 + M + N := wrap32_of_lt (by omega)
  have hdisk : (fun sector =>
      if 1 + M ≤ sector ∧ sector < 1 + M + (1 + M + N - (1 + M)) then
        zeroSector
      else if 2 ≤ sector ∧ sector < 2 + (1 + M - 2) then zeroSector
      else Function.update (Function.update s.disk 0 sb) 1 formatRootSector
        sector) = formattedDisk s.disk totalBlocks maxFiles := by
    funext sector
    simp only [formattedDisk, hsb, hMdef, hNdef]
    refine if_congr (by omega) rfl (if_congr (by omega) rfl ?_)
    by_cases hone : sector = 1
    · rw [if_pos hone, hone, Function.update_self]
    · rw [if_neg hone, Function.update_of_ne hone]
      by_cases hzero : sector = 0
      · rw [if_pos hzero, hzero, Function.update_self]
      · rw [if_neg hzero, Function.update_of_ne hzero]
  simp only [chainfsFormat, hsb, hMdef, hNdef, hw₁, hw₂, writeSectors_eq,
    pataWriteSector, hdisk]
  rw [chainfsInit_eq (by simp only [hsuper, hmagic])]
  simp only [hsuper, hM, hN, hroot, hw₂]

/-- A driver before `chainfs_init`, over a disk of zeros. -/
def blankDrive : ChainFS :=
  ⟨fun _ => zeroSector, zeroSector, 0, 0, zeroSector,
    initHeap unbootedHeap, []⟩

theorem blankDrive_ready : HeapReady blankDrive.heap :=
  ⟨_, initHeap_invariant unbootedHeap⟩

theorem noNul_a : (0 : UInt8) ∉ [97] := by decide
theorem noNul_b : (0 : UInt8) ∉ [98] := by decide
theorem noNul_d : (0 : UInt8) ∉ [100] := by decide
theorem noNul_x : (0 : UInt8) ∉ [120] := by decide

/-- The blank drive formatted for 20 sectors and 8 files. -/
def smallDisk : ChainFS := (chainfsFormat blankDrive 20 8).1

/-- A computed result of any calls is that of a run. -/
theorem checkRun_any {test : ChainFS → FsCall → ℤ → Bool} {s₀ : ChainFS}
    {calls : List FsCall} {α : Type*} {f : List ℤ × ChainFS → α} {v : α}
    (hcheck : (s₀.checkRun test (initHeap unbootedHeap) calls).map f =
      some v) :
    ∃ codes s, FsRun AnyCall s₀ (calls.zip codes) s ∧ f (codes, s) = v :=
  checkRun_run blankDrive_ready (fun _ _ _ _ => trivial) hcheck

theorem smallDisk_noWrap : (formatGeometry 20 8).NoWrap :=
  formatGeometry_noWrap 20 8 (by decide) (by decide)

theorem smallDisk_formatted : Formatted 20 8 smallDisk := by
  refine ⟨by decide, by decide, blankDrive, blankDrive_ready, rfl, ?_⟩
  rw [smallDisk, chainfsFormat_eq _ (by decide)]

theorem Formatted.fresh {totalBlocks maxFiles : ℕ}
    (h : Formatted totalBlocks maxFiles s) :
    FreshDisk totalBlocks maxFiles s.disk ∧
      s.superblock = formatSuperblock totalBlocks maxFiles ∧
      s.dataAreaStart = 1 + formatTableBlocks maxFiles +
        formatMapBlocks totalBlocks maxFiles ∧
      s.currentDirBlock = 0 ∧ s.dataWrites = [] ∧ HeapReady s.heap := by
  obtain ⟨htotal, -, s₀, hready, hlog, hformat⟩ := h
  rw [chainfsFormat_eq s₀ htotal] at hformat
  cases hformat
  exact ⟨formattedDisk_fresh _ _ _, rfl, rfl, rfl, hlog, hready⟩

theorem chainfsFormat_mounted (s : ChainFS) {totalBlocks maxFiles : ℕ}
    (htotal : totalBlocks < 2 ^ 32) :
    Mounted (formatGeometry totalBlocks maxFiles)
      (chainfsFormat s totalBlocks maxFiles).1 := by
  obtain ⟨hmagic, hcount, hM, hN, hroot⟩ :=
    formatSuperblock_fields totalBlocks maxFiles htotal
  rw [chainfsFormat_eq s htotal]
  exact ⟨hmagic, hcount, hM, hN, hroot, rfl⟩

theorem Formatted.mounted {totalBlocks maxFiles : ℕ}
    (h : Formatted totalBlocks maxFiles s) :
    Mounted (formatGeometry totalBlocks maxFiles) s := by
  obtain ⟨htotal, -, s₀, -, -, hformat⟩ := h
  have hmounted := @chainfsFormat_mounted s₀ totalBlocks maxFiles htotal
  rwa [hformat] at hmounted

end Otsos
