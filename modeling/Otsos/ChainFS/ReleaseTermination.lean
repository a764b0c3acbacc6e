import Otsos.ChainFS.Reachable
import Otsos.Lib.ReleaseWalks

/-!
# When the release of a chain ends

The links on the disk always increase, so the loop of
`chainfs_free_block_chain` ends if the links lead from its first block to the
end marker, and then it frees no block twice; otherwise it comes to the block
zero a second time and stays there.
-/

namespace Otsos

open Lib

variable {g : Geometry} {s s' s₀ s₁ : ChainFS} {d d' : ℕ → Memory}
  {path : List UInt8} {data : Memory} {idx size fuel b n : ℕ}
  {bs freed : List ℕ} {t : Target} {call : FsCall} {code : ℤ}
  {hist : List (FsCall × ℤ)}

/-- How often the body of the loop of `chainfs_free_block_chain` is entered,
the entry that leaves it by `break` included. -/
def freeChainIterations (s : ChainFS) : ℕ → ℕ → Option ℕ
  | 0, _ => none
  | fuel + 1, current =>
      if current = chainfsEofMarker then some 0
      else
        match chainfsReadBlockMapEntry s current with
        | (_, none) => some 1
        | (s, some next) =>
            (freeChainIterations
              (chainfsWriteBlockMapEntry s current chainfsFreeBlock).1 fuel
              next).map (· + 1)

/-- The state in which a call reaches the loop, if it does, and the block the
loop starts from. -/
def ChainFS.releases (s : ChainFS) : FsCall → Option (ChainFS × ℕ)
  | .deleteFile filename =>
      match chainfsFindFile s filename.chars with
      | (s, found) => found.map fun f => (s, f.entry.startBlock)
  | .writeFile filename _ _ =>
      match chainfsFindFile s filename.chars with
      | (s, found) =>
          match splitParent filename.chars with
          | .error _ => none
          | .ok (parent, _) =>
              match writeParent s parent with
              | (_, none) => none
              | (s, some _) => found.map fun f => (s, f.entry.startBlock)
  | _ => none

/-- If the call reaches the loop, the loop ends within as many iterations as
there are map entries. -/
def ReleaseEnds (s : ChainFS) (call : FsCall) : Prop :=
  ∀ s₁ b, s.releases call = some (s₁, b) →
    ∃ fuel n, freeChainIterations s₁ fuel b = some n ∧
      n ≤ mapEntriesPerBlock * s₁.blockMapBlockCount

/-- If the call reaches the loop, the map has entries, and its links lead from
the first block to the end marker. -/
def ReleasesWayToEnd (g : Geometry) (s : ChainFS) (call : FsCall) : Prop :=
  ∀ s₁ b, s.releases call = some (s₁, b) →
    g.map ≠ 0 ∧ ReachesEnd (mapLink g s.disk) chainfsEofMarker b

theorem freeChainIterations_isSome (s : ChainFS) (fuel b : ℕ) :
    (freeChainIterations s fuel b).isSome =
      (freeChainWalk s fuel b).isSome := by
  induction fuel generalizing s b with
  | zero => rfl
  | succ fuel ih =>
      rw [freeChainIterations, freeChainWalk]
      by_cases heof : b = chainfsEofMarker
      · rw [if_pos heof, if_pos heof]
        rfl
      · rw [if_neg heof, if_neg heof]
        cases hread : chainfsReadBlockMapEntry s b with
        | mk s₁ link =>
            cases link with
            | none => rfl
            | some next =>
                simp only [Option.isSome_map]
                exact ih _ _

theorem exec_hangs (hreleases : s.releases call = some (s₁, b))
    (hnever : ∀ fuel, freeChainIterations s₁ fuel b = none) :
    s.exec call = .error .hang := by
  have hnone : chainfsFreeBlockChain s₁ b = none := by
    rw [← Option.not_isSome_iff_eq_none, chainfsFreeBlockChain,
      ← freeChainIterations_isSome, hnever]
    exact Bool.false_ne_true
  cases call with
  | deleteFile path =>
      simp only [ChainFS.releases] at hreleases
      simp only [ChainFS.exec, chainfsDeleteFile]
      cases hfind : chainfsFindFile s path.chars with
      | mk s₂ found =>
          rw [hfind] at hreleases
          obtain ⟨f, rfl, heq⟩ := Option.map_eq_some_iff.mp hreleases
          cases heq
          simp only [hnone]
  | writeFile path data size =>
      simp only [ChainFS.releases] at hreleases
      simp only [ChainFS.exec, chainfsWriteFile]
      cases hfind : chainfsFindFile s path.chars with
      | mk s₂ found =>
          rw [hfind] at hreleases
          dsimp only at hreleases ⊢
          cases hsplit : splitParent path.chars with
          | error fault => simp [hsplit] at hreleases
          | ok split =>
              obtain ⟨parent, name⟩ := split
              rw [hsplit] at hreleases
              dsimp only at hreleases ⊢
              cases hparent : writeParent s₂ parent with
              | mk s₃ parentBlock =>
                  rw [hparent] at hreleases
                  cases parentBlock with
                  | none => cases hreleases
                  | some parentBlock =>
                      obtain ⟨f, rfl, heq⟩ :=
                        Option.map_eq_some_iff.mp hreleases
                      cases heq
                      simp only [targetSlot, hnone]
  | _ => cases hreleases

/-! ## The invariant -/

/-- The links increase, and an entry in the root block has a first block that
a file may use, or none. -/
structure ChainsIncrease (g : Geometry) (d : ℕ → Memory) : Prop where
  links : Increasing (mapLink g d) chainfsEofMarker g.mapped
  rootBlock : (entryAt (d 0) 0).startBlock = 0 ∨
    g.Usable (entryAt (d 0) 0).startBlock

theorem ChainsIncrease.release (h : ChainsIncrease g d)
    (hout : SameOutsideMap g d d')
    (hlinks : mapLink g d' = unlinkAll (mapLink g d) freed) :
    ChainsIncrease g d' := by
  refine ⟨?_, ?_⟩
  · rw [hlinks]
    exact h.links.unlinkAll
  · rw [hout 0 (Or.inl (by omega))]
    exact h.rootBlock

theorem ChainsIncrease.written {off : ℕ} (h : ChainsIncrease g d)
    (hwritten : Written g d d' data size off bs)
    (hbs : ∀ b ∈ bs, g.Usable b) (hsorted : bs.Pairwise (· < ·)) :
    ChainsIncrease g d' := by
  refine ⟨?_, ?_⟩
  · refine Increasing.congr ?_
      fun b hb => hwritten.links b (Geometry.mapped_iff.mp hb)
    intro b hb
    rcases @linkAll_increasing (mapLink g d) chainfsEofMarker b bs hsorted
      with hold | heof | ⟨hlt, hmem⟩
    · rw [hold]
      exact h.links b hb
    · exact Or.inr (Or.inl heof)
    · exact Or.inr (Or.inr
        ⟨hlt, Geometry.mapped_iff.mpr (hbs _ hmem).mapped⟩)
  · rw [hwritten.table_sector (by omega)]
    exact h.rootBlock

theorem ChainsIncrease.editTarget {edit : Memory → ℕ → Memory}
    (h : ChainsIncrease g d) (hvalid : t.Valid g)
    (hroot : t = .rootBlock → (entryAt (edit (d 0) 0) 0).startBlock = 0 ∨
      g.Usable (entryAt (edit (d 0) 0) 0).startBlock) :
    ChainsIncrease g (editTarget d t edit) := by
  cases t with
  | slot idx =>
      rw [editTarget_slot]
      refine ⟨h.links.congr fun b _ => ?_, ?_⟩
      · rw [mapLink_editSlot hvalid]
      · rw [editSlot_zero]
        exact h.rootBlock
  | rootBlock =>
      refine ⟨h.links.congr fun b _ => mapLink_congr ?_, ?_⟩
      · apply Function.update_of_ne
        show 1 + g.table + b / 128 ≠ 0
        omega
      · have hself : Otsos.editTarget d .rootBlock edit 0 = edit (d 0) 0 :=
          Function.update_self _ _ _
        rw [hself]
        exact hroot rfl

theorem DiskInvariant.chainsIncrease_write (h : DiskInvariant g s)
    (hchains : ChainsIncrease g s.disk)
    (htakes : TakesSectors g s path size (· < 2 ^ 32))
    (hexec : chainfsWriteFile s path data size = .ok (s', code)) :
    ChainsIncrease g s'.disk := by
  have hresult := h.mounted.writeFile_result h.heap path data size
  rw [hexec] at hresult
  cases hresult with
  | rejected s' hplan hsame =>
      rw [hsame.disk]
      exact hchains
  | full plan s₁ s' hplan hprepared hroom hsame =>
      rw [hsame.disk]
      exact hchains.release hprepared.outside hprepared.links
  | stored plan s₁ s' hplan hprepared hroom hstored =>
      have husable := htakes.usable hplan hprepared hroom
      rw [← hprepared.hasRoom_iff] at hroom
      obtain ⟨d, hwritten, hdisk⟩ := (hstored husable).disk
      obtain ⟨-, hhead, hstart⟩ := allocated_spec husable hroom.2
      have hchains₁ := hchains.release hprepared.outside hprepared.links
      have hd := hchains₁.written hwritten husable (allocated_sorted _ _ _)
      rw [show s'.disk = editTarget d plan.target fun m i => setFileEntry m i
        plan.fileName size ((allocated g s₁.disk size).headD 0) plan.parent
        from hdisk]
      refine hd.editTarget (writePlan_valid hplan) fun _ => Or.inr ?_
      rw [setFileEntry_start hstart]
      exact husable _ (List.mem_of_mem_head? hhead)

theorem DiskInvariant.chainsIncrease_delete (h : DiskInvariant g s)
    (hchains : ChainsIncrease g s.disk)
    (hexec : chainfsDeleteFile s path = .ok (s', code)) :
    ChainsIncrease g s'.disk := by
  have hresult := h.mounted.deleteFile_result h.heap path
  rw [hexec] at hresult
  cases hresult with
  | missing s' hfind hsame =>
      rw [hsame.disk]
      exact hchains
  | cleared t freed s₁ s' hfind hfreed hprepared hcontrol hheap hdisk =>
      have hchains₁ := hchains.release hprepared.outside hprepared.links
      rw [hdisk]
      refine hchains₁.editTarget (find_valid hfind) fun _ => ?_
      rw [setStatus_start]
      exact hchains₁.rootBlock

theorem DiskInvariant.chainsIncrease_step (h : DiskInvariant g s)
    (hchains : ChainsIncrease g s.disk)
    (hcall : UnwrappedCall g s call code)
    (hexec : s.exec call = .ok (s', code)) : ChainsIncrease g s'.disk := by
  cases call with
  | writeFile path data size =>
      exact h.chainsIncrease_write hchains hcall hexec
  | deleteFile path => exact h.chainsIncrease_delete hchains hexec
  | mkdir path =>
      have hresult := h.mounted.mkdir_result h.heap path.chars
      rw [show chainfsMkdir s path.chars = .ok (s', code) from hexec]
        at hresult
      cases hresult with
      | rejected s' hplan hsame =>
          rw [hsame.disk]
          exact hchains
      | made plan s' hplan hcontrol hheap hdisk =>
          obtain ⟨parent, -, -, -, hfree⟩ := mkdirPlan_some hplan
          rw [hdisk, ← editTarget_slot]
          exact hchains.editTarget (t := .slot plan.slot)
            (freeSlot_some hfree).1 fun heq => by cases heq
  | rmdir path =>
      have hresult := h.mounted.rmdir_result h.heap path.chars
      rw [show chainfsRmdir s path.chars = (s', code)
        from Except.ok.inj hexec] at hresult
      cases hresult with
      | rejected s' hnone hsame =>
          rw [hsame.disk]
          exact hchains
      | removed idx s' htarget hcontrol hheap hdisk =>
          rw [hdisk, ← editTarget_slot]
          exact hchains.editTarget (t := .slot idx)
            (resolve_slot htarget.1).1 fun heq => by cases heq
  | readFile path buffer n =>
      rw [(exec_unchanged h.mounted h.heap
        (Or.inl ⟨path, buffer, n, rfl⟩) hexec).disk]
      exact hchains
  | listDir path n =>
      rw [(exec_unchanged h.mounted h.heap
        (Or.inr ⟨path, n, rfl⟩) hexec).disk]
      exact hchains
  | chdir path =>
      have hresult := h.mounted.chdir_result h.heap path.chars
      rw [show chainfsChdir s path.chars = (s', code)
        from Except.ok.inj hexec] at hresult
      cases hresult with
      | rejected s' hsame =>
          rw [hsame.disk]
          exact hchains
      | moved t s' htarget hdir hsuper hstart hcurrent hdisk hheap =>
          rw [hdisk]
          exact hchains
  | init =>
      rw [h.init_disk hexec]
      exact hchains

theorem DiskInvariant.chainsIncrease_run (h : DiskInvariant g s₀)
    (hchains : ChainsIncrease g s₀.disk)
    (hrun : FsRun (UnwrappedCall g) s₀ hist s) :
    ChainsIncrease g s.disk := by
  induction hrun with
  | start => exact hchains
  | step before ready meets returns ih =>
      exact ((h.run before).withHeap ready).chainsIncrease_step ih
        meets returns

theorem formatSuperblock_start (totalBlocks maxFiles : ℕ) :
    (entryAt (formatSuperblock totalBlocks maxFiles) 0).startBlock = 0 := by
  simp (disch := omega) only [entryAt, formatSuperblock,
    Memory.load_store_disjoint]
  exact zeroSector_load _

theorem Formatted.chainsIncrease {totalBlocks maxFiles : ℕ}
    (h : Formatted totalBlocks maxFiles s) :
    ChainsIncrease (formatGeometry totalBlocks maxFiles) s.disk := by
  obtain ⟨hfresh, -⟩ := h.fresh
  refine ⟨?_, Or.inl ?_⟩
  · intro b hb
    exact Or.inl (hfresh.mapLink_zero (Geometry.mapped_iff.mp hb))
  · rw [hfresh.super]
    exact formatSuperblock_start totalBlocks maxFiles

/-! ## The loop -/

theorem Mounted.freeChainIterations_links (h : Mounted g s)
    (hlinks : Links (mapLink g s.disk) chainfsEofMarker bs)
    (hnodup : bs.Nodup) (heof : chainfsEofMarker ∉ bs)
    (hmapped : ∀ b ∈ bs, g.Mapped b) :
    freeChainIterations s (bs.length + 1) (bs.headD chainfsEofMarker) =
      some bs.length := by
  induction bs generalizing s with
  | nil => rfl
  | cons b bs ih =>
      obtain ⟨hb, hnodup⟩ := List.nodup_cons.mp hnodup
      rw [List.mem_cons, not_or] at heof
      have hin := hmapped b List.mem_cons_self
      obtain ⟨m₁, hread⟩ := h.readBlockMapEntry_eq hin
      have hmounted : Mounted g { s with sectorBuffer := m₁ } :=
        h.of_same rfl rfl
      obtain ⟨m₂, hwrite⟩ :=
        hmounted.writeBlockMapEntry_eq (v := chainfsFreeBlock) hin
      have hlink : mapLink g (setLink g s.disk b chainfsFreeBlock) =
          Function.update (mapLink g s.disk) b 0 :=
        mapLink_setLink (by decide)
      have hrest := ih
        (s := { s with
          disk := setLink g s.disk b chainfsFreeBlock
          sectorBuffer := m₂ })
        (h.of_same rfl rfl) (by
          rw [hlink]
          refine hlinks.2.congr fun c hc => Function.update_of_ne ?_ _ _
          rintro rfl
          exact hb hc)
        hnodup heof.2 fun c hc => hmapped c (List.mem_cons_of_mem b hc)
      rw [List.headD_cons, List.length_cons, freeChainIterations,
        if_neg (Ne.symm heof.1), hread]
      simp only [hwrite, hlinks.1, hrest, Option.map_some]

theorem Mounted.freeChainIterations_unmapped (h : Mounted g s)
    (hmap : g.map = 0) (hb : b ≠ chainfsEofMarker)
    (hsome : freeChainIterations s fuel b = some n) : n = 1 := by
  have hout : ¬ g.Mapped b := by
    simp only [Geometry.Mapped, hmap]
    omega
  cases fuel with
  | zero => cases hsome
  | succ fuel =>
      rw [freeChainIterations, if_neg hb, h.readBlockMapEntry_none hout]
        at hsome
      exact (Option.some.inj hsome).symm

/-- The loop runs on the disk of the call, from the first block of an entry. -/
theorem Mounted.releases_target (h : Mounted g s)
    (hreleases : s.releases call = some (s₁, b)) :
    ∃ m path t, s₁ = { s with sectorBuffer := m } ∧
      s.find g path = some t ∧ b = (t.found s.disk).entry.startBlock := by
  cases call with
  | deleteFile path =>
      obtain ⟨m, hfind⟩ := h.findFile_eq path.chars
      simp only [ChainFS.releases, hfind] at hreleases
      obtain ⟨f, hf, heq⟩ := Option.map_eq_some_iff.mp hreleases
      obtain ⟨t, ht, rfl⟩ := Option.map_eq_some_iff.mp hf
      cases heq
      exact ⟨m, path.chars, t, rfl, ht, rfl⟩
  | writeFile path data size =>
      obtain ⟨m, hfind⟩ := h.findFile_eq path.chars
      have hmounted : Mounted g { s with sectorBuffer := m } :=
        h.of_same rfl rfl
      simp only [ChainFS.releases, hfind] at hreleases
      cases hsplit : splitParent path.chars with
      | error fault => simp [hsplit] at hreleases
      | ok split =>
          obtain ⟨parent, name⟩ := split
          obtain ⟨m', hparent⟩ := hmounted.writeParent_eq parent
          simp only [hsplit, hparent] at hreleases
          cases hid : writeParentId g s.disk s.currentDirBlock parent with
          | none => simp [hid] at hreleases
          | some parentBlock =>
              simp only [hid] at hreleases
              obtain ⟨f, hf, heq⟩ := Option.map_eq_some_iff.mp hreleases
              obtain ⟨t, ht, rfl⟩ := Option.map_eq_some_iff.mp hf
              cases heq
              exact ⟨m', path.chars, t, rfl, ht, rfl⟩
  | _ => cases hreleases

theorem DiskInvariant.start_cases (h : DiskInvariant g s)
    (hchains : ChainsIncrease g s.disk) (hfind : s.find g path = some t) :
    (t.found s.disk).entry.startBlock = 0 ∨
      g.Usable (t.found s.disk).entry.startBlock := by
  cases t with
  | rootBlock => exact hchains.rootBlock
  | slot idx =>
      obtain ⟨hidx, hone⟩ := find_slot hfind
      rcases h.disk.entries idx hidx hone with ⟨-, husable⟩ | ⟨-, hstart, -⟩
      · exact Or.inr husable
      · exact Or.inl hstart

/-- The loop ends in time if and only if there are map entries and the links
lead from the first block to the end marker. -/
theorem DiskInvariant.releaseEnds_iff (h : DiskInvariant g s)
    (hchains : ChainsIncrease g s.disk)
    (hbig : 128 * g.map ≤ chainfsEofMarker) (call : FsCall) :
    ReleaseEnds s call ↔ ReleasesWayToEnd g s call := by
  refine forall_congr' fun s₁ => forall_congr' fun b => imp_congr_right ?_
  intro hreleases
  obtain ⟨m, path, t, rfl, hfind, rfl⟩ := h.mounted.releases_target hreleases
  have hmounted : Mounted g { s with sectorBuffer := m } :=
    h.mounted.of_same rfl rfl
  have hstart := h.start_cases hchains hfind
  generalize (t.found s.disk).entry.startBlock = start at hstart
  have hentries : mapEntriesPerBlock * ChainFS.blockMapBlockCount
      { s with sectorBuffer := m } = 128 * g.map := by
    rw [hmounted.map]
    rfl
  rw [hentries]
  by_cases hmap : g.map = 0
  · -- no map entries: one iteration, which is one too many
    refine iff_of_false ?_ fun hway => hway.1 hmap
    rintro ⟨fuel, n, hsome, hn⟩
    have hne : start ≠ chainfsEofMarker := by
      rcases hstart with rfl | husable
      · decide
      · exact husable.lt_eof.ne
    have hone := hmounted.freeChainIterations_unmapped hmap hne hsome
    omega
  · have hzero : g.mapped 0 = true := by
      rw [Geometry.mapped_iff, Geometry.Mapped]
      omega
    have hin : g.mapped start = true := by
      rcases hstart with rfl | husable
      · exact hzero
      · exact Geometry.mapped_iff.mpr husable.mapped
    have hlimit : ∀ c, g.mapped c = true → c < 128 * g.map := by
      intro c hc
      have hmapped := Geometry.mapped_iff.mp hc
      simp only [Geometry.Mapped] at hmapped
      omega
    have hends := hchains.links.releaseWalk_ends_iff hlimit hbig hin hzero
    constructor
    · rintro ⟨fuel, n, hsome, -⟩
      refine ⟨hmap, hends.mp ⟨fuel, ?_⟩⟩
      obtain ⟨d, m', hwalk, -, -⟩ := hmounted.freeChainWalk_eq fuel start
      have hisSome := freeChainIterations_isSome
        { s with sectorBuffer := m } fuel start
      rw [hsome, hwalk, Option.isSome_map] at hisSome
      exact Option.isSome_iff_exists.mp hisSome.symm
    · rintro ⟨-, hreach⟩
      obtain ⟨bs, hlinks, rfl, hnodup, heof, hall⟩ :=
        hchains.links.way hzero hin hreach
      have hmapped : ∀ b ∈ bs, g.Mapped b :=
        fun b hb => Geometry.mapped_iff.mp (hall b hb)
      exact ⟨_, _, hmounted.freeChainIterations_links hlinks hnodup heof
        hmapped, length_le_of_mapped hnodup hmapped⟩

theorem formatGeometry_map_le (totalBlocks maxFiles : ℕ) :
    128 * (formatGeometry totalBlocks maxFiles).map ≤ chainfsEofMarker := by
  have hmap := formatMapBlocks_lt totalBlocks maxFiles
  show 128 * formatMapBlocks totalBlocks maxFiles ≤ 0xFFFFFFFF
  omega

/-- In any state of any run in which no write takes a block whose sector number
wraps, for the next call. -/
theorem release_ends_iff {totalBlocks maxFiles : ℕ}
    (h : Formatted totalBlocks maxFiles s₀)
    (hrun : FsRun (UnwrappedCall (formatGeometry totalBlocks maxFiles)) s₀
      hist s) (call : FsCall) :
    ReleaseEnds s call ↔
      ReleasesWayToEnd (formatGeometry totalBlocks maxFiles) s call := by
  have hinv := h.diskInvariant
  exact (hinv.run hrun).releaseEnds_iff
    (hinv.chainsIncrease_run h.chainsIncrease hrun)
    (formatGeometry_map_le totalBlocks maxFiles) call

/-- The deletion of a file of two blocks. -/
theorem release_ends_iff_smallDisk : ∃ s,
    FsRun (UnwrappedCall (formatGeometry 20 8)) smallDisk
      ([FsCall.writeFile ⟨[97], by decide⟩ (fun _ => 1) 700].zip [0]) s ∧
      (s.releases (.deleteFile ⟨[97], by decide⟩)).map Prod.snd = some 0 ∧
      ReleaseEnds s (.deleteFile ⟨[97], by decide⟩) := by
  have hcodes : (smallDisk.checkRun (fun _ _ _ => true)
      (initHeap unbootedHeap)
      [.writeFile ⟨[97], by decide⟩ (fun _ => 1) 700]).map
        (fun r => (r.1,
          (r.2.releases (.deleteFile ⟨[97], by decide⟩)).map Prod.snd,
          mapLink (formatGeometry 20 8) r.2.disk 0,
          mapLink (formatGeometry 20 8) r.2.disk 1)) =
      some ([0], some 0, 1, chainfsEofMarker) := by
    decide +kernel
  obtain ⟨codes, s, hrun, heq⟩ := smallDisk_run hcodes
  simp only [Prod.mk.injEq] at heq
  obtain ⟨rfl, hreleases, hfirst, hsecond⟩ := heq
  refine ⟨s, hrun, hreleases,
    (release_ends_iff smallDisk_formatted hrun _).mpr ?_⟩
  intro s₁ b hb
  rw [hb] at hreleases
  cases hreleases
  refine ⟨by decide, .step ?_⟩
  rw [hfirst]
  refine .step ?_
  rw [hsecond]
  exact .done

/-- Deleting the first directory of a disk without files: its first block is
the block zero, whose link is zero. -/
theorem release_of_directory : ∃ s,
    FsRun AnyCall smallDisk
      ([FsCall.mkdir ⟨[100], by decide⟩].zip [0]) s ∧
      ¬ ReleaseEnds s (.deleteFile ⟨[100], by decide⟩) := by
  have hcodes : (smallDisk.checkRun (fun _ _ _ => true)
      (initHeap unbootedHeap) [.mkdir ⟨[100], by decide⟩]).map
        (fun r => (r.1,
          (r.2.releases (.deleteFile ⟨[100], by decide⟩)).map Prod.snd,
          mapLink (formatGeometry 20 8) r.2.disk 0)) =
      some ([0], some 0, 0) := by
    decide +kernel
  obtain ⟨codes, s, hrun, heq⟩ := checkRun_any hcodes
  simp only [Prod.mk.injEq] at heq
  obtain ⟨rfl, hreleases, hzero⟩ := heq
  refine ⟨s, hrun, ?_⟩
  obtain ⟨⟨s₁, b⟩, hreleases, rfl⟩ := Option.map_eq_some_iff.mp hreleases
  have hinv := smallDisk_formatted.diskInvariant
  have hunwrapped := smallDisk_noWrap.unwrapped_run hrun
  rw [(hinv.run hunwrapped).releaseEnds_iff
    (hinv.chainsIncrease_run smallDisk_formatted.chainsIncrease hunwrapped)
    (formatGeometry_map_le 20 8)]
  intro hway
  exact not_reachesEnd_self hzero (by decide) (hway s₁ _ hreleases).2

end Otsos
