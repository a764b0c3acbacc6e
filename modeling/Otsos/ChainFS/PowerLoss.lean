import Otsos.ChainFS.FormatLayout
import Otsos.ChainFS.TreeCalls

/-!
# Runs with power losses

The power may fail after any of the writes of a call, and `chainfs_init` mounts
the disk that is left.  Nothing repairs it, and nothing needs to: a call writes
the entry of its file last, so that the names stand for what they stood for
before or after the call.  Only the contents of a file that was being replaced
or deleted have no such promise, since its chain is freed first.
-/

namespace Otsos

open Lib

variable {g : Geometry} {s s' s₀ booted : ChainFS} {d : ℕ → Memory}
  {chain : ℕ → List ℕ} {t t' t₀ : NamedTree} {name : CString}
  {data : Memory} {size idx : ℕ} {call : FsCall} {code : ℤ}
  {lost : Set TreeKey} {hist : List FsEvent} {n : Option Node}

/-- The name of a file that the call would replace or delete. -/
def ChainFS.endangered (s : ChainFS) : FsCall → Set TreeKey
  | .writeFile name _ _ | .deleteFile name =>
      {key | key = (s.currentDirBlock, name.chars) ∧
        FileExists s name.chars}
  | _ => ∅

/-- The caller uses simple names that are not lost, and tells files from
directories.  `chainfs_rmdir` is left out, which removes directories that are
not empty. -/
def Careful (lost : Set TreeKey) (s : ChainFS) : FsCall → Prop
  | .writeFile name _ size =>
      (SimpleName name ∧ (s.currentDirBlock, name.chars) ∉ lost) ∧
        ¬ DenotesDirectory s name.chars ∧ size ≤ 2 ^ 32 - 512
  | .deleteFile name =>
      (SimpleName name ∧ (s.currentDirBlock, name.chars) ∉ lost) ∧
        ¬ DenotesDirectory s name.chars
  | .mkdir name | .chdir name =>
      SimpleName name ∧ (s.currentDirBlock, name.chars) ∉ lost
  | .rmdir _ => False
  | .readFile _ _ _ | .listDir _ _ | .init => True

/-- Calls in any order, each of which returns or is cut short by a power loss,
with the names that are lost.  Between two calls the rest of the kernel may use
the heap. -/
inductive CrashRun (s₀ : ChainFS) :
    List FsEvent → Set TreeKey → ChainFS → Prop
  | start : CrashRun s₀ [] ∅ s₀
  | call {hist lost s s' heap call code} (before : CrashRun s₀ hist lost s)
      (ready : HeapReady heap)
      (careful : Careful lost { s with heap := heap } call)
      (returns : { s with heap := heap }.exec call = .ok (s', code)) :
      CrashRun s₀ (hist ++ [.call call code])
        (if code = 0 then lost
          else lost ∪ { s with heap := heap }.endangered call) s'
  | powerLoss {hist lost s heap call d booted}
      (before : CrashRun s₀ hist lost s) (ready : HeapReady heap)
      (careful : Careful lost { s with heap := heap } call)
      (torn : Torn s.disk ({ s with heap := heap }.sectorWrites call) d)
      (disk : booted.disk = d) (booted_ready : HeapReady booted.heap) :
      CrashRun s₀ (hist ++ [.powerLoss call])
        (lost ∪ { s with heap := heap }.endangered call)
        (chainfsInit booted).1

/-! ## One call -/

theorem TreeState.knownName (h : TreeState g s chain t)
    (hname : SimpleName name ∧ (s.currentDirBlock, name.chars) ∉ t.lost) :
    KnownName t name := by
  refine ⟨hname.1, ?_⟩
  rw [NamedTree.key, ← h.current]
  exact hname.2

theorem TreeState.endangered_eq (h : TreeState g s chain t)
    (hcareful : Careful t.lost s call) :
    s.endangered call = t.endangered call := by
  have hfile : ∀ name, KnownName t name →
      {key | key = (s.currentDirBlock, name.chars) ∧
        FileExists s name.chars} =
      {key | key = t.key name ∧ t.node key ≠ none} := by
    intro name hname
    have hexists : FileExists s name.chars ↔
        t.node (t.key name) ≠ none := by
      rw [h.mounted.fileExists_iff, hname.simple.find_eq, ne_eq,
        Option.map_eq_none_iff, h.lookup_none_iff hname]
    ext key
    simp only [Set.mem_ofPred_eq, hexists, h.current]
    refine and_congr_right ?_
    rintro rfl
    rfl
  cases call with
  | writeFile name data size => exact hfile name (h.knownName hcareful.1)
  | deleteFile name => exact hfile name (h.knownName hcareful.1)
  | _ => rfl

theorem TreeState.step (h : TreeState g s chain t)
    (hcareful : Careful t.lost s call)
    (hexec : s.exec call = .ok (s', code)) :
    ∃ chain' t', TreeState g s' chain' t' ∧ t.Step (.call call code) t' := by
  have hquiet : t.endangered call = ∅ → Unchanged s s' →
      t.Succeeds call t → t.Refuses call →
      ∃ chain' t', TreeState g s' chain' t' ∧
        t.Step (.call call code) t' := by
    intro hsafe hsame hsucceeds hrefuses
    refine ⟨chain, t, h.of_unchanged hsame, ?_⟩
    by_cases hzero : code = 0
    · rw [hzero]
      exact .done hsucceeds
    · have hfailed := NamedTree.Step.failed hzero hrefuses
      rwa [risk_of_safe hsafe] at hfailed
  cases call with
  | writeFile name data size =>
      exact h.writeFile (h.knownName hcareful.1) hcareful.2.1 hcareful.2.2
        hexec
  | deleteFile name =>
      exact h.deleteFile (h.knownName hcareful.1) hcareful.2 hexec
  | readFile name buffer n =>
      exact hquiet rfl (exec_unchanged h.mounted h.heap
        (Or.inl ⟨name, buffer, n, rfl⟩) hexec) .readFile trivial
  | mkdir name => exact h.mkdir (h.knownName hcareful) hexec
  | rmdir name => exact absurd hcareful id
  | chdir name =>
      exact h.chdir (h.knownName hcareful) (Except.ok.inj hexec)
  | listDir path n =>
      exact hquiet rfl (exec_unchanged h.mounted h.heap
        (Or.inr ⟨path, n, rfl⟩) hexec) .listDir trivial
  | init =>
      have hinit : SuperblockIntact g s.superblock s :=
        ⟨h.mounted, rfl, h.super⟩
      have hrestart := h.restart rfl h.heap
      have heq : chainfsInit s = (s', code) := Except.ok.inj hexec
      have hcode : code = 0 := by
        rw [hinit.init] at heq
        cases heq
        rfl
      rw [heq] at hrestart
      rw [hcode]
      exact ⟨chain, _, hrestart, .done .init⟩

theorem TreeState.returns (h : TreeState g s chain t)
    (hcareful : Careful t.lost s call) :
    ∃ s' code, s.exec call = .ok (s', code) := by
  cases call with
  | writeFile name data size =>
      exact h.writeFile_returns (h.knownName hcareful.1) hcareful.2.1 data
        size
  | deleteFile name =>
      exact h.deleteFile_returns (h.knownName hcareful.1) hcareful.2
  | readFile name buffer n =>
      simp only [ChainFS.exec]
      rcases chainfsReadFile s name.chars buffer n with ⟨s', - | r⟩ <;>
        exact ⟨_, _, rfl⟩
  | mkdir name => exact h.mkdir_returns (h.knownName hcareful)
  | rmdir name => exact absurd hcareful id
  | chdir name => exact ⟨_, _, rfl⟩
  | listDir path n =>
      simp only [ChainFS.exec]
      rcases chainfsListDir s path.chars n with ⟨s', - | r⟩ <;>
        exact ⟨_, _, rfl⟩
  | init => exact ⟨_, _, rfl⟩

/-! ## A call that is cut short -/

theorem TreeState.forget (h : TreeState g s chain (t.put name n)) :
    TreeState g s chain { t with lost := insert (t.key name) t.lost } := by
  refine h.of_control ⟨rfl, rfl, rfl⟩ h.heap rfl rfl h.entered
    (h.kept.forget h.entered ?_ rfl)
  intro key hne
  exact (NamedTree.put_other hne).symm

/-- The disk that the power loss left is one of a state that the tree after it
describes. -/
def LeavesTree (g : Geometry) (d : ℕ → Memory) (t : NamedTree)
    (call : FsCall) : Prop :=
  ∃ s chain t', s.disk = d ∧ TreeState g s chain t' ∧
    t.Step (.powerLoss call) (t'.enter 0)

theorem TreeState.leaves_undone (h : TreeState g s chain (t.risk call))
    (hdisk : s.disk = d) : LeavesTree g d t call :=
  ⟨s, chain, t.risk call, hdisk, h, .undone⟩

theorem TreeState.leaves_nothing (h : TreeState g s chain t)
    (hsafe : t.endangered call = ∅) (hdisk : d = s.disk) :
    LeavesTree g d t call := by
  rw [← risk_of_safe hsafe] at h
  exact h.leaves_undone hdisk.symm

/-- All the writes were made. -/
theorem TreeState.leaves_all (h : TreeState g s chain t)
    (hcareful : Careful t.lost s call)
    (hdisk : d = afterWrites s.disk (s.sectorWrites call)) :
    LeavesTree g d t call := by
  obtain ⟨s', code, hexec⟩ := h.returns hcareful
  rw [sectorWrites_disk hexec] at hdisk
  obtain ⟨chain', t', hnext, hstep⟩ := h.step hcareful hexec
  cases hstep with
  | failed nonzero refuses => exact hnext.leaves_undone hdisk.symm
  | done succeeds =>
      by_cases hsafe : t.endangered call = ∅
      · exact ⟨s', chain', t', hdisk.symm, hnext, .finished succeeds hsafe⟩
      · -- The old contents are gone, and the new state promises less.
        have hrisk : TreeState g s' chain' (t.risk call) := by
          cases succeeds with
          | @writeFile name data size =>
              rw [risk_of_present (Or.inl ⟨data, size, rfl⟩)
                fun hnone => hsafe (risk_of_absent
                  (Or.inl ⟨data, size, rfl⟩) hnone).1]
              exact hnext.forget
          | deleteFile present =>
              rw [risk_of_present (Or.inr rfl) present]
              exact hnext.forget
          | _ => exact absurd rfl hsafe
        exact hrisk.leaves_undone hdisk.symm

theorem TreeState.leaves_untouched (h : TreeState g s chain t)
    (hsafe : t.endangered call = ∅)
    (hpart : Undisturbed g (fun b => ∃ j, b ∈ chain j) s.disk d) :
    LeavesTree g d t call := by
  have hstate : TreeState g { s with disk := d } chain t :=
    h.undisturbed ⟨rfl, rfl, rfl⟩ h.heap hpart
  exact hstate.leaves_nothing hsafe rfl

theorem TreeState.leaves_given_up (h : TreeState g s chain t)
    (hcall : (∃ data size, call = .writeFile name data size) ∨
      call = .deleteFile name)
    (hsome : t.node (t.key name) ≠ none)
    (hold : lookup g s.disk s.currentDirBlock name.chars = some idx)
    (hpart : Undisturbed g (fun b => ∃ j ≠ idx, b ∈ chain j) s.disk d) :
    LeavesTree g d t call := by
  have hstate : TreeState g { s with disk := d } _ _ :=
    h.given_up hold ⟨rfl, rfl, rfl⟩ h.heap hpart
  rw [← risk_of_present hcall hsome] at hstate
  exact hstate.leaves_undone rfl

theorem TreeState.torn_writeFile (h : TreeState g s chain t)
    (hcareful : Careful t.lost s (.writeFile name data size))
    (htorn : Torn s.disk (writeFileSectors s name.chars data size) d) :
    LeavesTree g d t (.writeFile name data size) := by
  have hname := h.knownName hcareful.1
  cases hlookup : lookup g s.disk s.currentDirBlock name.chars with
  | none =>
      have hsafe := (risk_of_absent (Or.inl ⟨data, size, rfl⟩)
        ((h.lookup_none_iff hname).mp hlookup)).1
      have hkept : ∀ b, (∃ j, b ∈ chain j) →
          g.Mapped b ∧ mapLink g s.disk b ≠ 0 := by
        rintro b ⟨j, hb⟩
        exact ⟨(h.kept.apart.inside j b hb).1,
          h.kept.apart.used (by decide) hb⟩
      rcases h.mounted.torn_write_new h.noWrap hname.simple hlookup hkept
        htorn with hpart | hall
      · exact h.leaves_untouched hsafe hpart
      · exact h.leaves_all hcareful hall
  | some idx =>
      obtain ⟨bytes, hnode, hheld⟩ :=
        h.lookup_file hname hcareful.2.1 hlookup
      rcases h.mounted.torn_write_over h.noWrap hname.simple hlookup
        (h.kept.fileChain h.noWrap hheld) (fun b => h.kept.kept_block)
        htorn with hpart | hall
      · exact h.leaves_given_up (Or.inl ⟨data, size, rfl⟩)
          (by simp [hnode]) hlookup hpart
      · exact h.leaves_all hcareful hall

theorem TreeState.torn_deleteFile (h : TreeState g s chain t)
    (hcareful : Careful t.lost s (.deleteFile name))
    (htorn : Torn s.disk (deleteFileSectors s name.chars) d) :
    LeavesTree g d t (.deleteFile name) := by
  have hname := h.knownName hcareful.1
  cases hlookup : lookup g s.disk s.currentDirBlock name.chars with
  | none =>
      have hsafe := (risk_of_absent (Or.inr rfl)
        ((h.lookup_none_iff hname).mp hlookup)).1
      rw [h.mounted.deleteFileSectors_missing hname.simple hlookup,
        torn_nil] at htorn
      exact h.leaves_nothing hsafe htorn
  | some idx =>
      obtain ⟨bytes, hnode, hheld⟩ := h.lookup_file hname hcareful.2 hlookup
      have hnot : ∀ b ∈ chain idx, ¬ ∃ j ≠ idx, b ∈ chain j := by
        rintro b hb ⟨j, hne, hbj⟩
        exact hne (h.kept.apart.disjoint j idx b hbj hb)
      rcases h.mounted.torn_delete hname.simple hlookup
        (h.kept.fileChain h.noWrap hheld) hnot htorn with hpart | hall
      · exact h.leaves_given_up (Or.inr rfl) (by simp [hnode]) hlookup hpart
      · exact h.leaves_all hcareful hall

theorem TreeState.torn (h : TreeState g s chain t)
    (hcareful : Careful t.lost s call)
    (htorn : Torn s.disk (s.sectorWrites call) d) :
    LeavesTree g d t call := by
  cases call with
  | writeFile name data size => exact h.torn_writeFile hcareful htorn
  | deleteFile name => exact h.torn_deleteFile hcareful htorn
  | mkdir name =>
      rcases torn_single (length_mkdirSectors s name.chars) htorn with
        hnone | hall
      · exact h.leaves_nothing rfl hnone
      · exact h.leaves_all hcareful hall
  | rmdir name => exact absurd hcareful id
  | readFile | chdir | listDir | init =>
      exact h.leaves_nothing rfl (torn_nil.mp htorn)

theorem TreeState.powerLoss (h : TreeState g s chain t)
    (hcareful : Careful t.lost s call)
    (htorn : Torn s.disk (s.sectorWrites call) d) (hdisk : booted.disk = d)
    (hready : HeapReady booted.heap) :
    ∃ chain' t', TreeState g (chainfsInit booted).1 chain' t' ∧
      t.Step (.powerLoss call) t' := by
  obtain ⟨s₁, chain', t', hs₁, hstate, hstep⟩ := h.torn hcareful htorn
  exact ⟨chain', t'.enter 0,
    hstate.restart (hdisk.trans hs₁.symm) hready, hstep⟩

/-! ## Runs -/

theorem CrashRun.tree (hrun : CrashRun s₀ hist lost s)
    (hstart : TreeState g s₀ chain t₀) (hlost : t₀.lost = ∅) :
    ∃ chain t, TreeState g s chain t ∧ t₀.Run hist t ∧ t.lost = lost := by
  induction hrun with
  | start => exact ⟨chain, t₀, hstart, .start, hlost⟩
  | call before ready careful returns ih =>
      obtain ⟨chain₁, t, hstate, hbefore, rfl⟩ := ih
      have hheap := hstate.withHeap ready
      obtain ⟨chain₂, t', hnext, hstep⟩ := hheap.step careful returns
      refine ⟨chain₂, t', hnext, hbefore.step hstep, ?_⟩
      rw [hstep.lost_call, hheap.endangered_eq careful]
  | powerLoss before ready careful torn disk booted_ready ih =>
      obtain ⟨chain₁, t, hstate, hbefore, rfl⟩ := ih
      have hheap := hstate.withHeap ready
      obtain ⟨chain₂, t', hnext, hstep⟩ :=
        hheap.powerLoss careful torn disk booted_ready
      refine ⟨chain₂, t', hnext, hbefore.step hstep, ?_⟩
      rw [hstep.lost_powerLoss, hheap.endangered_eq careful]

theorem Formatted.treeState {totalBlocks maxFiles : ℕ}
    (h : Formatted totalBlocks maxFiles s)
    (htable : 1 ≤ formatTableBlocks maxFiles)
    (hwrap : (formatGeometry totalBlocks maxFiles).NoWrap) :
    TreeState (formatGeometry totalBlocks maxFiles) s (fun _ => [])
      NamedTree.formatted := by
  obtain ⟨hfresh, -, -, hcurrent, -, hready⟩ := h.fresh
  have hlt := (formatTableBlocks_lt maxFiles).2
  have hzero : 0 < (formatGeometry totalBlocks maxFiles).slots := by
    simp only [Geometry.slots, formatGeometry]
    omega
  have hroot := (hfresh.entries hzero).1 rfl
  obtain ⟨hstatus, htype, -, hparent⟩ := formatRootSector_root
  rw [← hroot] at hstatus htype hparent
  have hlive : LiveDir (formatGeometry totalBlocks maxFiles) s.disk 0 :=
    ⟨⟨hzero, hstatus⟩, htype⟩
  have hkey : entryKey s.disk 0 = NamedTree.rootKey := by
    rw [entryKey, parentOf, hparent, hroot, formatRootSector_name]
    rfl
  refine ⟨h.mounted, hwrap, ?_, hready, h.superblockIntact.disk.trans
    h.superblockIntact.memory.symm, hcurrent, hlive, ⟨h.namesTerminated, ?_,
      hfresh.accounted.table.apart, hlive, hparent, ?_, ?_, ?_, ?_⟩⟩
  · simp only [Geometry.slots, formatGeometry]
    omega
  · intro i j hi hj _
    rw [h.live_root hi, h.live_root hj]
  · intro j hj hne
    exact absurd (h.live_root hj) hne
  · exact fun _ hlost => absurd hlost (Set.notMem_empty _)
  · intro j hj _
    rw [h.live_root hj, hkey, NamedTree.formatted_root]
    exact ⟨htype, rfl⟩
  · intro key _ hnone
    apply NamedTree.formatted_other
    rintro rfl
    exact hnone 0 hlive.1 hkey

/-! ## Reading -/

/-- What the calls find under the names that are not lost is in the tree. -/
structure ReadsTree (s : ChainFS) (t : NamedTree) : Prop where
  current : s.currentDirBlock = t.current
  absent : ∀ name, KnownName t name → t.node (t.key name) = none →
    ReadsAs s name none
  file : ∀ name bytes, KnownName t name →
    t.node (t.key name) = some (.file bytes) → ReadsAs s name (some bytes)
  directory : ∀ name idx, KnownName t name →
    t.node (t.key name) = some (.directory idx) →
    (chainfsChdir s name.chars).2 = 0 ∧
      (chainfsChdir s name.chars).1.currentDirBlock = idx

theorem TreeState.reads_absent (h : TreeState g s chain t)
    (hname : KnownName t name) (hnone : t.node (t.key name) = none) :
    ReadsAs s name none := by
  intro buffer size
  obtain ⟨m, hread⟩ := h.mounted.readFile_eq name.chars buffer size
  rw [hread, hname.simple.find_eq, (h.lookup_none_iff hname).mpr hnone]
  rfl

theorem TreeState.reads_file {bytes : List UInt8}
    (h : TreeState g s chain t) (hname : KnownName t name)
    (hnode : t.node (t.key name) = some (.file bytes)) :
    ReadsAs s name (some bytes) := by
  cases hlookup : lookup g s.disk s.currentDirBlock name.chars with
  | none =>
      rw [h.lookup_none_iff hname, hnode] at hlookup
      cases hlookup
  | some idx =>
      have hheld := h.lookup_holds hname hlookup
      rw [hnode] at hheld
      have hchain := h.kept.fileChain h.noWrap hheld
      have hfind := hname.simple.find_eq (g := g) (s := s)
      rw [hlookup, Option.map_some] at hfind
      intro buffer size
      obtain ⟨m, buffer', hread, hin, hout⟩ :=
        h.mounted.readFile_chain hfind hchain.start hchain.links
          hchain.usable buffer size
      rw [heldBytes_of_le hheld.size_le, hheld.holds.length,
        Nat.min_comm] at hread hin hout
      refine ⟨buffer', by rw [hread], ?_, hout⟩
      intro i hi
      rw [hin i hi]
      exact hheld.holds.bytes i (by omega)

theorem TreeState.reads (h : TreeState g s chain t) : ReadsTree s t := by
  refine ⟨h.current, fun _ => h.reads_absent, fun _ _ => h.reads_file, ?_⟩
  intro name idx hname hnode
  rcases h.chdir_cases hname with
    ⟨s₁, hchdir, hsame, hnot⟩ | ⟨idx', m, hnode', hlive, hchdir⟩
  · exact absurd hnode (hnot idx)
  · rw [hnode'] at hnode
    cases hnode
    rw [hchdir]
    exact ⟨rfl, rfl⟩

/-- Whatever calls were cut short: the history is one of the tree, each call
that was cut short done or undone, all names but the lost ones read as the tree
says, and the next call returns. -/
theorem tree_survives_power_losses {totalBlocks maxFiles : ℕ}
    (hformat : Formatted totalBlocks maxFiles s₀)
    (htable : 1 ≤ formatTableBlocks maxFiles)
    (hfits : 1 + formatTableBlocks maxFiles +
      formatMapBlocks totalBlocks maxFiles ≤ totalBlocks)
    (hrun : CrashRun s₀ hist lost s) :
    (∃ t, NamedTree.formatted.Run hist t ∧ t.lost = lost ∧
        ReadsTree s t) ∧
      ∀ heap call, HeapReady heap →
        Careful lost { s with heap := heap } call →
          ∃ s' code, { s with heap := heap }.exec call = .ok (s', code) := by
  have hstart := hformat.treeState htable
    (formatGeometry_noWrap totalBlocks maxFiles hformat.1 hfits)
  obtain ⟨chain, t, hstate, hhist, rfl⟩ := hrun.tree hstart rfl
  refine ⟨⟨t, hhist, rfl, hstate.reads⟩, ?_⟩
  intro heap call hready hcareful
  exact (hstate.withHeap hready).returns hcareful

/-- One file is stored; the power fails after the first sector of another. -/
theorem tree_survives_power_losses_smallDisk : ∃ lost s,
    CrashRun smallDisk
        [.call (.writeFile ⟨[97], by decide⟩ (fun _ => 1) 2) 0,
          .powerLoss (.writeFile ⟨[98], by decide⟩ (fun _ => 2) 5)] lost s ∧
      ReadsAs s ⟨[97], by decide⟩ (some [1, 1]) := by
  have hready : HeapReady (initHeap unbootedHeap) :=
    ⟨_, initHeap_invariant unbootedHeap⟩
  have hfirst : ({ smallDisk with heap := initHeap unbootedHeap }.exec
      (.writeFile ⟨[97], by decide⟩ (fun _ => 1) 2)).map
        (fun r : ChainFS × ℤ => (r.2, decide (DenotesDirectory
          { r.1 with heap := initHeap unbootedHeap } [98]))) =
      .ok (0, false) := by
    decide +kernel
  obtain ⟨s, code, hexec, heq⟩ := evaluated_call hfirst
  simp only [Prod.mk.injEq, decide_eq_false_iff_not] at heq
  obtain ⟨rfl, hfile⟩ := heq
  have hcall := @CrashRun.call smallDisk [] ∅ smallDisk s _
    (.writeFile ⟨[97], by decide⟩ (fun _ => 1) 2) 0 .start hready
    ⟨⟨by decide, Set.notMem_empty _⟩, by decide +kernel, by decide⟩ hexec
  rw [if_pos rfl] at hcall
  have hrun := @CrashRun.powerLoss smallDisk _ _ s _
    (.writeFile ⟨[98], by decide⟩ (fun _ => 2) 5) _
    { blankDrive with disk := _ } hcall hready
    ⟨⟨by decide, Set.notMem_empty _⟩, hfile, by decide⟩ ⟨1, rfl⟩ rfl
    blankDrive_ready
  refine ⟨_, _, hrun, ?_⟩
  obtain ⟨⟨t, hhist, hlost, hreads⟩, -⟩ :=
    tree_survives_power_losses smallDisk_formatted (by decide) (by decide)
      hrun
  rw [NamedTree.run_snoc] at hhist
  obtain ⟨t₂, hhist, hsecond⟩ := hhist
  rw [NamedTree.run_snoc] at hhist
  obtain ⟨t₁, hhist, hdone⟩ := hhist
  obtain rfl := NamedTree.run_nil.mp hhist
  refine hreads.file ⟨[97], by decide⟩ [1, 1] ⟨by decide, ?_⟩ ?_
  · rw [hlost]
    rintro (hempty | ⟨hkey, -⟩)
    · exact hempty
    · have hnames : ([97] : List UInt8) = [98] := congrArg Prod.snd hkey
      exact absurd hnames (by decide)
  · cases hdone with
    | failed nonzero => exact absurd rfl nonzero
    | done succeeds =>
        cases succeeds
        cases hsecond with
        | undone => rfl
        | finished succeeds =>
            cases succeeds
            rfl

end Otsos
