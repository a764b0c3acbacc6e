import Otsos.ChainFS.Reachable

/-!
# What a failed write loses

A write over an existing entry gives its blocks back before it knows whether
the new content finds room.  If it does not, the entry still names its first
block, but the blocks are free.
-/

namespace Otsos

open Lib

variable {g : Geometry} {s s' s₀ s₁ : ChainFS} {d d' : ℕ → Memory}
  {path : List UInt8} {data : Memory} {idx size start : ℕ}
  {hist : List (FsCall × ℤ)} {t : Target}

/-- The blocks reached from `start` along the links. -/
inductive OnChain (g : Geometry) (d : ℕ → Memory) (start : ℕ) : ℕ → Prop
  | first (hne : start ≠ chainfsEofMarker) : OnChain g d start start
  | next {b : ℕ} (before : OnChain g d start b) (hmapped : g.Mapped b)
      (hne : mapLink g d b ≠ chainfsEofMarker) :
      OnChain g d start (mapLink g d b)

/-- The target is an entry of type file: a live one of the table, or that of
the root block. -/
def IsFile (g : Geometry) (d : ℕ → Memory) : Target → Prop
  | .slot idx => LiveFile g d idx
  | .rootBlock => (entryAt (d 0) 0).type = chainfsTypeFile

/-- `chainfs_read_file` finds a file at the path. -/
def ReadableFile (s : ChainFS) (path : List UInt8) : Prop :=
  ∃ f, (chainfsFindFile s path).2 = some f ∧
    f.entry.type = chainfsTypeFile

/-- Every file reads as before, and none of their blocks was freed. -/
structure LosesNothing (g : Geometry) (s s' : ChainFS) : Prop where
  reads : ∀ path, ReadableFile s path → ∀ buffer n,
    (chainfsReadFile s' path buffer n).2 =
      (chainfsReadFile s path buffer n).2
  blocks : ∀ t, IsFile g s.disk t → ∀ b,
    OnChain g s.disk (t.found s.disk).entry.startBlock b → g.Mapped b →
      mapLink g s.disk b ≠ 0 → mapLink g s'.disk b ≠ 0

/-- A failure of the write loses nothing. -/
def FailsSafely (g : Geometry) (s : ChainFS) (path : List UInt8)
    (data : Memory) (size : ℕ) : Prop :=
  ∀ s' code, chainfsWriteFile s path data size = .ok (s', code) →
    code ≠ 0 → LosesNothing g s s'

/-- The write gets as far as giving back a block in use of some file, and then
there is no room. -/
def OverwriteLoses (g : Geometry) (s : ChainFS) (path : List UInt8)
    (size : ℕ) : Prop :=
  ∃ plan, writePlan g s path = .ok (some plan) ∧
    ¬ RoomAfter g s plan.freed size ∧
    ∃ t b, IsFile g s.disk t ∧
      OnChain g s.disk (t.found s.disk).entry.startBlock b ∧
      b ∈ plan.freed ∧ mapLink g s.disk b ≠ 0

/-! ## What a read depends on -/

theorem firstSlot_of_sectors {test : Memory → ℕ → Bool}
    (h : ∀ sector, sector < 1 + g.table → d' sector = d sector) :
    firstSlot g test d' = firstSlot g test d := by
  apply firstSlot_congr
  intro idx hidx
  simp only [testSlot, h _ (g.slot_sector hidx).2]

theorem walkTable_of_sectors {dir : ℕ} {cs : List (List UInt8)}
    (h : ∀ sector, sector < 1 + g.table → d' sector = d sector) :
    walkTable g d' dir cs = walkTable g d dir cs := by
  induction cs generalizing dir with
  | nil => rfl
  | cons c cs ih =>
      have hlookup : lookup g d' dir c = lookup g d dir c :=
        firstSlot_of_sectors h
      rw [walkTable, walkTable, hlookup]
      cases hfirst : lookup g d dir c with
      | none => rfl
      | some idx =>
          have hentry : entryOf d' idx = entryOf d idx := by
            have hsector := (g.slot_sector (lookup_some hfirst).1).2
            exact (SameSlot.of_sector (h _ hsector)).entryOf_eq
          simp only [hentry, ih]

theorem find_of_sectors (hcurrent : s'.currentDirBlock = s.currentDirBlock)
    (h : ∀ sector, sector < 1 + g.table → s'.disk sector = s.disk sector) :
    s'.find g path = s.find g path := by
  simp only [ChainFS.find, findTable, resolveTable, lookup, hcurrent,
    firstSlot_of_sectors h, walkTable_of_sectors h]

theorem found_of_sectors (hvalid : t.Valid g)
    (h : ∀ sector, sector < 1 + g.table → d' sector = d sector) :
    t.found d' = t.found d := by
  cases t with
  | rootBlock => simp only [Target.found, h 0 (by omega)]
  | slot idx =>
      have hentry : entryOf d' idx = entryOf d idx :=
        (SameSlot.of_sector (h _ (g.slot_sector hvalid).2)).entryOf_eq
      simp only [Target.found, foundAt, hentry]

/-- The loop of a read depends on the links and the data sectors of the chain. -/
theorem Mounted.readChain_congr (h : Mounted g s) (h' : Mounted g s')
    (husable : ∀ b, OnChain g s.disk start b → g.Usable b)
    (hlinks : ∀ b, OnChain g s.disk start b →
      mapLink g s'.disk b = mapLink g s.disk b)
    (hdata : ∀ b, OnChain g s.disk start b →
      s'.disk (g.dataStart + b) = s.disk (g.dataStart + b))
    (buffer : Memory) (n fuel remaining copied : ℕ) {current : ℕ}
    (hcurrent : current = chainfsEofMarker ∨
      OnChain g s.disk start current) :
    (readChain s' buffer n fuel remaining copied current).2 =
      (readChain s buffer n fuel remaining copied current).2 := by
  -- the sector buffers change from step to step, the disks do not
  suffices hsuffices : ∀ m m',
      (readChain { s' with sectorBuffer := m' } buffer n fuel remaining
        copied current).2 =
      (readChain { s with sectorBuffer := m } buffer n fuel remaining copied
        current).2 from hsuffices s.sectorBuffer s'.sectorBuffer
  induction fuel generalizing buffer remaining copied current with
  | zero => exact fun _ _ => rfl
  | succ fuel ih =>
      intro m m'
      rw [readChain, readChain]
      by_cases hrun : 0 < remaining ∧ current ≠ chainfsEofMarker ∧
          copied < n
      · have hon : OnChain g s.disk start current :=
          hcurrent.resolve_left hrun.2.1
        have hu := husable current hon
        have hsector : wrap32 (s.dataAreaStart + current) =
            g.dataStart + current := by rw [h.start, hu.sector]
        have hsector' : wrap32 (s'.dataAreaStart + current) =
            g.dataStart + current := by rw [h'.start, hu.sector]
        rw [if_pos hrun, if_pos hrun]
        simp only [pataReadSector, hsector, hsector', hdata current hon,
          transfer_eq]
        generalize s.disk (g.dataStart + current) = block
        generalize (if n < wrap32 (copied + min remaining 512) then
          n - copied else min remaining 512) = k
        have hs : ∀ m, Mounted g { s with sectorBuffer := m } :=
          fun m => h.of_same rfl rfl
        have hs' : ∀ m, Mounted g { s' with sectorBuffer := m } :=
          fun m => h'.of_same rfl rfl
        obtain ⟨m₁, hread⟩ := (hs block).readBlockMapEntry_eq hu.mapped
        obtain ⟨m₂, hread'⟩ := (hs' block).readBlockMapEntry_eq hu.mapped
        rw [hlinks current hon] at hread'
        rw [hread, hread']
        by_cases hmore : 0 < remaining - k
        · rw [if_pos hmore, if_pos hmore]
          refine ih _ _ _ ?_ m₁ m₂
          by_cases heof : mapLink g s.disk current = chainfsEofMarker
          · exact Or.inl heof
          · exact Or.inr (hon.next hu.mapped heof)
        · rw [if_neg hmore, if_neg hmore]
      · rw [if_neg hrun, if_neg hrun]

theorem Geometry.Usable.zero {b : ℕ} (h : g.Usable b) : g.Usable 0 := by
  obtain ⟨hmapped, hrange, haddr⟩ := h
  simp only [Geometry.Mapped] at hmapped
  exact ⟨by simp only [Geometry.Mapped]; omega, by omega, by omega⟩

theorem DiskOk.chain_usable (h : DiskOk g d) (hstart : g.Usable start)
    {b : ℕ} (hon : OnChain g d start b) : g.Usable b := by
  induction hon with
  | first hne => exact hstart
  | @next b before hmapped hne ih =>
      rcases h.links b hmapped with hzero | heof | husable
      · rw [hzero]
        exact ih.zero
      · exact absurd heof hne
      · exact husable

theorem DiskOk.file_start (h : DiskOk g d) (hfile : IsFile g d t) :
    g.Usable (t.found d).entry.startBlock := by
  cases t with
  | rootBlock => exact h.rootBlock.2 hfile
  | slot idx =>
      obtain ⟨hidx, hone, htype⟩ := hfile
      rcases h.entries idx hidx hone with ⟨-, husable⟩ | ⟨hdir, -, -⟩
      · exact husable
      · rw [htype] at hdir
        exact absurd hdir (by decide)

theorem Mounted.readable_target (h : Mounted g s)
    (hreadable : ReadableFile s path) :
    ∃ t, s.find g path = some t ∧ IsFile g s.disk t := by
  obtain ⟨m, hfind⟩ := h.findFile_eq path
  obtain ⟨f, hf, htype⟩ := hreadable
  rw [hfind] at hf
  obtain ⟨t, ht, rfl⟩ := Option.map_eq_some_iff.mp hf
  refine ⟨t, ht, ?_⟩
  cases t with
  | rootBlock => exact htype
  | slot idx =>
      obtain ⟨hidx, hone⟩ := find_slot (s := s) ht
      exact ⟨hidx, hone, htype⟩

/-- Nothing is lost where the sectors outside the map and the used links of
every file are as before. -/
theorem DiskInvariant.losesNothing (h : DiskInvariant g s)
    (hcontrol : SameControl s s')
    (hout : SameOutsideMap g s.disk s'.disk)
    (hlinks : ∀ t, IsFile g s.disk t → ∀ b,
      OnChain g s.disk (t.found s.disk).entry.startBlock b →
        mapLink g s'.disk b = mapLink g s.disk b) :
    LosesNothing g s s' := by
  have h' := hcontrol.mounted h.mounted
  have hlow : ∀ sector, sector < 1 + g.table →
      s'.disk sector = s.disk sector :=
    fun sector hsector => hout sector (Or.inl hsector)
  refine ⟨?_, ?_⟩
  · intro path hreadable buffer n
    obtain ⟨t, hfind, hfile⟩ := h.mounted.readable_target hreadable
    have hfind' : s'.find g path = some t := by
      rw [find_of_sectors hcontrol.current hlow, hfind]
    have hstart := h.disk.file_start hfile
    obtain ⟨m, hread⟩ := h.mounted.readFile_eq path buffer n
    obtain ⟨m', hread'⟩ := h'.readFile_eq path buffer n
    rw [hread, hread', hfind, hfind']
    dsimp only
    rw [found_of_sectors (find_valid hfind) hlow]
    have hs : Mounted g { s with sectorBuffer := m } :=
      h.mounted.of_same rfl rfl
    have hs' : Mounted g { s' with sectorBuffer := m' } :=
      h'.of_same rfl rfl
    have hchain := hs.readChain_congr hs'
      (fun b hb => h.disk.chain_usable hstart hb)
      (hlinks t hfile) (fun b _ => hout _ (Or.inr (Nat.le_add_right _ _)))
      buffer n ((t.found s.disk).entry.size + 1) (t.found s.disk).entry.size
      0 (Or.inr (.first (Nat.ne_of_lt hstart.lt_eof)))
    rw [hchain]
  · intro t hfile b hon _ hused
    rwa [hlinks t hfile b hon]

/-! ## The two directions -/

theorem DiskInvariant.failsSafely (h : DiskInvariant g s)
    (hnot : ¬ OverwriteLoses g s path size) :
    FailsSafely g s path data size := by
  intro s' code hwrite hcode
  have hresult := h.mounted.writeFile_result h.heap path data size
  rw [hwrite] at hresult
  cases hresult with
  | rejected s' hplan hsame =>
      apply h.losesNothing hsame.control
      · rw [hsame.disk]
        exact SameOutsideMap.refl _ _
      · intro t _ b _
        rw [hsame.disk]
  | full plan s₁ s' hplan hprepared hroom hsame =>
      apply h.losesNothing (hprepared.control.trans hsame.control)
      · rw [hsame.disk]
        exact hprepared.outside
      · intro t hfile b hon
        rw [hsame.disk, hprepared.links]
        by_cases hmem : b ∈ plan.freed
        · have hfree : mapLink g s.disk b = 0 := by
            by_contra hused
            exact hnot ⟨plan, hplan, hroom, t, b, hfile, hon, hmem, hused⟩
          rw [unlinkAll_mem hmem, hfree]
        · exact unlinkAll_not_mem hmem
  | stored plan s₁ s' hplan hprepared hroom hstored =>
      exact absurd rfl hcode

theorem DiskInvariant.not_failsSafely (h : DiskInvariant g s)
    (hloses : OverwriteLoses g s path size) :
    ¬ FailsSafely g s path data size := by
  intro hsafe
  obtain ⟨plan, hplan, hroom, t, b, hfile, hon, hmem, hused⟩ := hloses
  have hmapped := (h.disk.chain_usable (h.disk.file_start hfile) hon).mapped
  have hresult := h.mounted.writeFile_result h.heap path data size
  generalize hwrite : chainfsWriteFile s path data size = r at hresult
  cases hresult with
  | fault fault hp => simp [hp] at hplan
  | rejected s' hp => simp [hp] at hplan
  | full plan' s₁ s' hp hprepared _ hsame =>
      rw [hp] at hplan
      cases hplan
      have hblocks := (hsafe s' (-1) hwrite (by decide)).blocks t hfile b hon
        hmapped hused
      rw [hsame.disk, hprepared.links] at hblocks
      exact hblocks (unlinkAll_mem hmem)
  | stored plan' s₁ s' hp _ hroom' =>
      rw [hp] at hplan
      cases hplan
      exact hroom hroom'

/-- Writing over a file whose first block is in use, without room for the new
content, loses that block. -/
theorem DiskInvariant.overwrite_loses {plan : WritePlan}
    (h : DiskInvariant g s) (hfind : s.find g path = some t)
    (hfile : IsFile g s.disk t)
    (hused : mapLink g s.disk (t.found s.disk).entry.startBlock ≠ 0)
    (hplan : writePlan g s path = .ok (some plan))
    (hroom : ¬ RoomAfter g s plan.freed size) :
    OverwriteLoses g s path size := by
  have hstart := h.disk.file_start hfile
  have hne : (t.found s.disk).entry.startBlock ≠ chainfsEofMarker :=
    Nat.ne_of_lt hstart.lt_eof
  obtain ⟨-, -, -, ⟨hfound, hfreed⟩ | ⟨hnone, -⟩⟩ := writePlan_some hplan
  · rw [hfind, Option.some.injEq] at hfound
    refine ⟨plan, hplan, hroom, t, _, hfile, .first hne, ?_, hused⟩
    rw [← hfound] at hfreed
    unfold released at hfreed
    rw [releaseWalk_visit] at hfreed
    · obtain ⟨cs, -, hcs⟩ := Option.map_eq_some_iff.mp hfreed
      rw [← hcs]
      exact List.mem_cons_self
    · rw [← Bool.not_eq_true, Geometry.mapped_iff, not_or, not_not]
      exact ⟨hne, hstart.mapped⟩
  · rw [hfind] at hnone
    cases hnone

/-- A failed write loses nothing exactly when it has not given back a block of
a file. -/
theorem failed_write_safe_iff {totalBlocks maxFiles : ℕ}
    (hformat : Formatted totalBlocks maxFiles s₀)
    (hrun : FsRun (UnwrappedCall (formatGeometry totalBlocks maxFiles)) s₀
      hist s) (path : CString) (data : Memory) (size : ℕ) :
    FailsSafely (formatGeometry totalBlocks maxFiles) s path.chars data
        size ↔
      ¬ OverwriteLoses (formatGeometry totalBlocks maxFiles) s path.chars
        size := by
  have hinv := hformat.diskInvariant.run hrun
  constructor
  · intro hsafe hloses
    exact hinv.not_failsSafely hloses hsafe
  · exact hinv.failsSafely

theorem not_overwriteLoses (h : s.find g path = none) :
    ¬ OverwriteLoses g s path size := by
  rintro ⟨plan, hplan, -, t, b, -, -, hmem, -⟩
  obtain ⟨-, -, -, ⟨hfind, -⟩ | ⟨-, hfreed, -⟩⟩ := writePlan_some hplan
  · rw [h] at hfind
    cases hfind
  · rw [hfreed] at hmem
    cases hmem

/-- A new file of 9000 bytes beside one of 3, on a disk with room for 8704. -/
theorem failed_write_safe_iff_smallDisk : ∃ hist s s',
    FsRun (UnwrappedCall (formatGeometry 20 8)) smallDisk hist s ∧
      hist.map Prod.snd = [0, 0] ∧
      chainfsWriteFile s [98] (fun _ => 2) 9000 = .ok (s', -1) ∧
      LosesNothing (formatGeometry 20 8) s s' := by
  have hcodes : (smallDisk.checkRun (fun _ _ _ => true)
      (initHeap unbootedHeap)
      [.writeFile ⟨[97], by decide⟩ (fun _ => 1) 3,
        .mkdir ⟨[100], by decide⟩]).map
          (fun r => (r.1, r.2.find (formatGeometry 20 8) [98],
            decide ((chainfsWriteFile r.2 [98] (fun _ => 2) 9000).map
              Prod.snd = .ok (-1)))) = some ([0, 0], none, true) := by
    decide +kernel
  obtain ⟨codes, s, hrun, heq⟩ := smallDisk_run hcodes
  simp only [Prod.mk.injEq, decide_eq_true_eq] at heq
  obtain ⟨rfl, hfind, hwrite⟩ := heq
  obtain ⟨s', code, hresult, rfl⟩ := evaluated_call hwrite
  refine ⟨_, s, s', hrun, rfl, hresult, ?_⟩
  exact (failed_write_safe_iff smallDisk_formatted hrun ⟨[98], by decide⟩
    (fun _ => 2) 9000).mpr (not_overwriteLoses hfind) s' (-1) hresult
      (by decide)

/-- Writing 9000 bytes over a file of 3 bytes on a disk with room for 8704
fails and frees the block of the old version. -/
theorem failed_write_frees : ∃ hist s,
    FsRun AnyCall smallDisk hist s ∧ hist.map Prod.snd = [0] ∧
      ¬ FailsSafely (formatGeometry 20 8) s [97] (fun _ => 2) 9000 := by
  have hcodes : (smallDisk.checkRun (fun _ _ _ => true)
      (initHeap unbootedHeap)
      [.writeFile ⟨[97], by decide⟩ (fun _ => 1) 3]).map
        (fun r => (r.1, decide ((entryOf r.2.disk 1).status = 1 ∧
          (entryOf r.2.disk 1).type = chainfsTypeFile ∧
          (entryOf r.2.disk 1).startBlock = 0),
          mapLink (formatGeometry 20 8) r.2.disk 0,
          (chainfsWriteFile r.2 [97] (fun _ => 2) 9000).map fun r' =>
            (r'.2, mapLink (formatGeometry 20 8) r'.1.disk 0))) =
      some ([0], true, chainfsEofMarker, .ok (-1, 0)) := by
    decide +kernel
  obtain ⟨codes, s, hrun, heq⟩ := checkRun_any hcodes
  simp only [Prod.mk.injEq, decide_eq_true_eq] at heq
  obtain ⟨rfl, ⟨hstatus, htype, hstart⟩, hused, hwrite⟩ := heq
  refine ⟨_, s, hrun, rfl, ?_⟩
  intro hsafe
  obtain ⟨s', code, hresult, heq⟩ := evaluated_call hwrite
  obtain ⟨rfl, hfreed⟩ := Prod.mk.inj heq
  have hlost := (hsafe s' (-1) hresult (by decide)).blocks (.slot 1)
    ⟨by decide, hstatus, htype⟩ 0
  have hfirst : (Target.found s.disk (.slot 1)).entry.startBlock = 0 :=
    hstart
  rw [hfirst, hused] at hlost
  exact hlost (.first (by decide)) (by decide) (by decide) hfreed

end Otsos
