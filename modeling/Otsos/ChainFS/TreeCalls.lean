import Otsos.ChainFS.KeptTree

/-!
# The calls on a kept tree

A call on a name of the current directory that returns has done to the tree
what its code says.
-/

namespace Otsos

open Lib

variable {g : Geometry} {s s' s₁ : ChainFS} {d d' : ℕ → Memory}
  {chain : ℕ → List ℕ} {t t' : NamedTree} {name : CString} {data : Memory}
  {size idx j : ℕ} {code : ℤ} {freed bs : List ℕ} {kept : ℕ → Prop}
  {plan : WritePlan}

structure TreeState (g : Geometry) (s : ChainFS) (chain : ℕ → List ℕ)
    (t : NamedTree) : Prop where
  mounted : Mounted g s
  noWrap : g.NoWrap
  small : g.slots < 2 ^ 32
  heap : HeapReady s.heap
  super : s.disk 0 = s.superblock
  current : s.currentDirBlock = t.current
  entered : LiveDir g s.disk t.current
  kept : KeptTree g s.disk chain t

/-- The caller knows the name: it is simple, and nothing happened to it that
left it uncertain. -/
structure KnownName (t : NamedTree) (name : CString) : Prop where
  simple : SimpleName name
  known : t.key name ∉ t.lost

theorem TreeState.current_lt (h : TreeState g s chain t) :
    t.current < 2 ^ 32 := by
  have haddr := g.addressable
  have hlt := h.entered.1.1
  simp only [Geometry.slots] at hlt
  omega

/-! ## Names -/

theorem TreeState.lookup_eq (h : TreeState g s chain t)
    (name : CString) :
    lookup g s.disk s.currentDirBlock name.chars =
      lookup g s.disk (t.key name).1 (t.key name).2 := by
  rw [h.current]
  rfl

theorem TreeState.lookup_none_iff (h : TreeState g s chain t)
    (hname : KnownName t name) :
    lookup g s.disk s.currentDirBlock name.chars = none ↔
      t.node (t.key name) = none := by
  rw [h.lookup_eq]
  exact h.kept.lookup_eq_none_iff name.terminated hname.known

theorem TreeState.lookup_some (h : TreeState g s chain t)
    (hsome : lookup g s.disk s.currentDirBlock name.chars = some idx) :
    LiveEntry g s.disk idx ∧ entryKey s.disk idx = t.key name := by
  rw [h.lookup_eq] at hsome
  exact h.kept.lookup_some name.terminated hsome

theorem TreeState.lookup_holds (h : TreeState g s chain t)
    (hname : KnownName t name)
    (hsome : lookup g s.disk s.currentDirBlock name.chars = some idx) :
    HoldsNode g s.disk (chain idx) idx (t.node (t.key name)) := by
  rw [h.lookup_eq] at hsome
  exact h.kept.lookup_holds name.terminated hname.known hsome

/-- What a name that is no directory's stands for. -/
theorem TreeState.lookup_file (h : TreeState g s chain t)
    (hname : KnownName t name)
    (hnotDir : ¬ DenotesDirectory s name.chars)
    (hsome : lookup g s.disk s.currentDirBlock name.chars = some idx) :
    ∃ bytes, t.node (t.key name) = some (.file bytes) ∧
      FileHeld g s.disk (chain idx) idx bytes := by
  exact (h.lookup_holds hname hsome).file
    (hname.simple.not_directory h.mounted hnotDir idx hsome)

theorem TreeState.alone (h : TreeState g s chain t)
    (hslot : lookup g s.disk s.currentDirBlock name.chars = some idx ∨
      lookup g s.disk s.currentDirBlock name.chars = none) :
    ∀ j ≠ idx, LiveEntry g s.disk j → entryKey s.disk j ≠ t.key name := by
  intro j hne hlive hkey
  rcases hslot with hsome | hnone
  · obtain ⟨hlive', hkey'⟩ := h.lookup_some hsome
    exact hne (h.kept.unique j idx hlive hlive' (hkey.trans hkey'.symm))
  · rw [h.lookup_eq] at hnone
    exact (h.kept.terminated.lookup_none_iff name.terminated).mp hnone j
      hlive hkey

/-! ## States with the same disk -/

theorem TreeState.of_control (h : TreeState g s chain t)
    {chain' : ℕ → List ℕ} (hcontrol : SameControl s s')
    (hheap : HeapReady s'.heap) (hsuper : s'.disk 0 = s.disk 0)
    (hcurrent : t'.current = t.current)
    (hentered : LiveDir g s'.disk t.current)
    (hkept : KeptTree g s'.disk chain' t') :
    TreeState g s' chain' t' := by
  refine ⟨hcontrol.mounted h.mounted, h.noWrap, h.small, hheap, ?_, ?_, ?_,
    hkept⟩
  · rw [hsuper, hcontrol.superblock]
    exact h.super
  · rw [hcontrol.current, hcurrent]
    exact h.current
  · rw [hcurrent]
    exact hentered

theorem TreeState.of_unchanged (h : TreeState g s chain t)
    (hsame : Unchanged s s') : TreeState g s' chain t := by
  have hdisk := hsame.disk
  refine h.of_control hsame.control hsame.heap ?_ rfl ?_ ?_
  · rw [hdisk]
  · rw [hdisk]
    exact h.entered
  · rw [hdisk]
    exact h.kept

theorem TreeState.withHeap {heap : Heap}
    (h : TreeState g s chain t) (hready : HeapReady heap) :
    TreeState g { s with heap := heap } chain t :=
  h.of_control ⟨rfl, rfl, rfl⟩ hready rfl rfl h.entered h.kept

/-- The power came back over this disk. -/
theorem TreeState.restart (h : TreeState g s chain t)
    (hdisk : s'.disk = s.disk) (hready : HeapReady s'.heap) :
    TreeState g (chainfsInit s').1 chain (t.enter 0) := by
  have hintact : SuperblockIntact g s.superblock
      { s with
        heap := s'.heap
        dataWrites := s'.dataWrites } :=
    ⟨h.mounted.of_same rfl rfl, rfl, h.super⟩
  have hinit := hintact.init
  have hmagic : sbMagic (s.disk 0) = chainfsMagic := by
    rw [h.super]
    exact h.mounted.magic
  have hsame : (chainfsInit s').1 = (chainfsInit { s with
      heap := s'.heap
      dataWrites := s'.dataWrites }).1 := by
    rw [@chainfsInit_eq s' (hdisk ▸ hmagic), @chainfsInit_eq { s with
      heap := s'.heap
      dataWrites := s'.dataWrites } hmagic, hdisk]
  rw [hsame, hinit]
  exact ⟨h.mounted.of_same rfl rfl, h.noWrap, h.small, hready, h.super, rfl,
    h.kept.root, h.kept.enter 0⟩

theorem Undisturbed.super (h : Undisturbed g kept d d') : d' 0 = d 0 :=
  h.table 0 (by omega)

theorem Undisturbed.liveDir (h : Undisturbed g kept d d')
    (hdir : LiveDir g d j) : LiveDir g d' j :=
  (LiveDir.congr (h.sameTable j hdir.1.1).entryOf_eq).mpr hdir

/-- Nothing happened to the tree. -/
theorem TreeState.undisturbed (h : TreeState g s chain t)
    (hcontrol : SameControl s s') (hheap : HeapReady s'.heap)
    (hpart : Undisturbed g (fun b => ∃ j, b ∈ chain j) s.disk s'.disk) :
    TreeState g s' chain t :=
  h.of_control hcontrol hheap hpart.super rfl (hpart.liveDir h.entered)
    (h.kept.undisturbed hpart)

/-- A file was given up. -/
theorem TreeState.given_up (h : TreeState g s chain t)
    (hold : lookup g s.disk s.currentDirBlock name.chars = some idx)
    (hcontrol : SameControl s s') (hheap : HeapReady s'.heap)
    (hpart : Undisturbed g (fun b => ∃ j ≠ idx, b ∈ chain j) s.disk
      s'.disk) :
    TreeState g s' (Function.update chain idx [])
      { t with lost := insert (t.key name) t.lost } := by
  refine h.of_control hcontrol hheap hpart.super rfl
    (hpart.liveDir h.entered)
    (h.kept.given_up hpart (fun _ => (h.lookup_some hold).2) h.entered)

/-! ## Writing -/

theorem Prepared.undisturbed (h : Prepared g s freed s₁)
    (hnot : ∀ b, kept b → b ∉ freed) :
    Undisturbed g kept s.disk s₁.disk := by
  refine ⟨fun sector hsector => h.outside sector (Or.inl hsector), ?_, ?_⟩
  · intro b hb
    rw [h.links, unlinkAll_not_mem (hnot b hb)]
  · intro b _
    exact h.outside _ (Or.inr (Nat.le_add_right _ _))

theorem SimpleName.plan_cases (hname : SimpleName name)
    (hplan : writePlan g s name.chars = .ok (some plan)) :
    plan.fileName = name.chars ∧ plan.parent = s.currentDirBlock ∧
      ∃ idx, plan.target = .slot idx ∧
        ((lookup g s.disk s.currentDirBlock name.chars = some idx ∧
            released g s.disk (entryOf s.disk idx).startBlock =
              some plan.freed) ∨
          (lookup g s.disk s.currentDirBlock name.chars = none ∧
            plan.freed = [] ∧ freeSlot g s.disk = some idx)) := by
  obtain ⟨parent, hsplit, hparent, hcases⟩ := writePlan_some hplan
  rw [hname.splitParent_eq, Except.ok.injEq, Prod.mk.injEq] at hsplit
  obtain ⟨rfl, hfile⟩ := hsplit
  rw [hname.find_eq] at hcases
  refine ⟨hfile.symm, (Option.some.inj hparent).symm, ?_⟩
  rcases hcases with ⟨hfind, hfreed⟩ | ⟨hfind, hnone, idx, hfree, htarget⟩
  · obtain ⟨idx, hlookup, htarget⟩ := Option.map_eq_some_iff.mp hfind
    rw [← htarget] at hfreed
    exact ⟨idx, htarget.symm, Or.inl ⟨hlookup, hfreed⟩⟩
  · exact ⟨idx, htarget, Or.inr ⟨Option.map_eq_none_iff.mp hfind, hnone,
      hfree⟩⟩

/-- The blocks that a write frees are those of the file it replaces, and no
other file's. -/
theorem TreeState.freed_blocks (h : TreeState g s chain t)
    (hname : KnownName t name) (hnotDir : ¬ DenotesDirectory s name.chars)
    (hslot : (lookup g s.disk s.currentDirBlock name.chars = some idx ∧
        released g s.disk (entryOf s.disk idx).startBlock = some freed) ∨
      (lookup g s.disk s.currentDirBlock name.chars = none ∧ freed = [] ∧
        freeSlot g s.disk = some idx)) :
    ∀ j ≠ idx, ∀ b ∈ chain j, b ∉ freed := by
  intro j hne b hb
  rcases hslot with ⟨hold, hfreed⟩ | ⟨-, rfl, -⟩
  · obtain ⟨bytes, -, hheld⟩ := h.lookup_file hname hnotDir hold
    rw [(h.kept.fileChain h.noWrap hheld).released] at hfreed
    cases hfreed
    exact (h.kept.kept_block ⟨j, hne, hb⟩).2.2
  · exact List.not_mem_nil

/-- The stored file is where the tree expects it. -/
theorem TreeState.stored (h : TreeState g s chain t)
    (hname : KnownName t name) (hnotDir : ¬ DenotesDirectory s name.chars)
    (hsize : size ≤ 2 ^ 32 - 512)
    (hslot : (lookup g s.disk s.currentDirBlock name.chars = some idx ∧
        released g s.disk (entryOf s.disk idx).startBlock = some freed) ∨
      (lookup g s.disk s.currentDirBlock name.chars = none ∧ freed = [] ∧
        freeSlot g s.disk = some idx))
    (hprepared : Prepared g s freed s₁) (hroom : HasRoom g s₁ size)
    (hstored : Stored g s₁ s' (slotOf idx) name.chars data size
      s.currentDirBlock) :
    ∃ chain', TreeState g s' chain'
      (t.put name (some (.file ((List.range size).map data)))) := by
  have hfreed := h.freed_blocks hname hnotDir hslot
  have hother : Undisturbed g (fun b => ∃ j ≠ idx, b ∈ chain j) s.disk
      s₁.disk := by
    apply hprepared.undisturbed
    rintro b ⟨j, hne, hb⟩
    exact hfreed j hne b hb
  have hfresh : ∀ j ≠ idx, ∀ b ∈ chain j,
      b ∉ allocated g s₁.disk size := by
    intro j hne b hb hmem
    apply h.kept.apart.used (by decide) hb
    rw [← hother.links b ⟨j, hne, hb⟩]
    exact (freeBlocks_spec hmem).2.2
  have hidx : idx < g.slots := by
    rcases hslot with ⟨hold, -⟩ | ⟨-, -, hfree⟩
    · exact (h.lookup_some hold).1.1
    · exact (freeSlot_some hfree).1
  obtain ⟨d, hwritten, hdisk⟩ := hstored.disk_eq
  have hcur : s.currentDirBlock < 2 ^ 32 := by
    rw [h.current]
    exact h.current_lt
  have hedited : Edited g s.disk s'.disk
      (.file idx name.chars size s.currentDirBlock) :=
    Edited.of_editSlot _ hidx (setFileEntry_edits _ _ _ _)
      ((SameTable.of_outside hprepared.outside).trans
        (SameTable.of_written hwritten)) hdisk
  obtain ⟨hlive, hkey⟩ := hedited.file_key name.terminated hcur
  rw [List.take_of_length_le hname.simple.short, h.current] at hkey
  obtain ⟨-, htype, hparentOf⟩ := hedited.file_fields hcur
  have hedit : NameEdit g s.disk s'.disk
      (.file idx name.chars size s.currentDirBlock) (t.key name) := by
    refine ⟨hedited, ?_, ?_, fun _ => hkey, ?_⟩
    · rintro ⟨hliveIdx, hdir⟩
      rcases hslot with ⟨hold, -⟩ | ⟨-, -, hfree⟩
      · exact hname.simple.not_directory h.mounted hnotDir idx hold hdir
      · exact not_liveEntry_of_free hfree hliveIdx
    · intro hliveIdx
      rcases hslot with ⟨hold, -⟩ | ⟨-, -, hfree⟩
      · exact (h.lookup_some hold).2
      · exact absurd hliveIdx (not_liveEntry_of_free hfree)
    · exact h.alone (hslot.imp (fun hold => hold.1) fun hnew => hnew.1)
  have htable := (g.slot_sector hidx).2
  have hlinks : ∀ j ≠ idx, ∀ b ∈ chain j,
      mapLink g s'.disk b = mapLink g s.disk b := by
    intro j hne b hb
    rw [hdisk, editSlot, mapLink_table htable, hwritten.links b
      (h.kept.apart.inside j b hb).1, linkAll_not_mem (hfresh j hne b hb),
      hother.links b ⟨j, hne, hb⟩]
  have hdata : ∀ j ≠ idx, ∀ b ∈ chain j,
      s'.disk (g.dataStart + b) = s.disk (g.dataStart + b) := by
    intro j hne b hb
    have hle : g.dataStart ≤ g.dataStart + b := Nat.le_add_right _ _
    rw [hdisk, editSlot, disk_table_sector htable hle, hwritten.other _
      (Or.inr hle), hother.contents b ⟨j, hne, hb⟩]
    intro c hc heq
    have hcb : b = c := by omega
    exact hfresh j hne b hb (hcb ▸ hc)
  have hlen : size ≤ 512 * (allocated g s₁.disk size).length := by
    rw [hroom.length_allocated, blocksNeeded_eq hsize]
    exact fileBlocks_le size
  obtain ⟨hstart, hfield⟩ := hstored.entry (h.noWrap.allocatedUsable _ _) hroom
    (by omega)
  have hheld : FileHeld g s'.disk (allocated g s₁.disk size) idx
      ((List.range size).map data) := by
    refine ⟨htype, ?_, ?_, ?_, ?_⟩
    · have hpos := (blocksNeeded_bounds size).1
      have hlength := hroom.length_allocated
      rw [show (entryOf s'.disk idx).startBlock = _ from hstart]
      cases hbs : allocated g s₁.disk size with
      | nil =>
          rw [hbs, List.length_nil] at hlength
          omega
      | cons b bs => rfl
    · rw [show (entryOf s'.disk idx).size = size from hfield,
        hroom.length_allocated, blocksNeeded_eq hsize]
    · rw [List.length_map, List.length_range]
      exact hfield
    · intro i hi
      rw [List.length_map, List.length_range] at hi
      rw [hstored.chainByte_eq htable (by rwa [heldBytes_of_le hlen])]
      simp [hi]
  refine ⟨_, h.of_control (hprepared.control.trans hstored.control)
    hstored.heap ?_ rfl (hedit.liveDir h.entered)
    (h.kept.edited hedit (h.kept.apart.exchange hlinks
      (hstored.links (h.noWrap.allocatedUsable _ _) htable)
      (allocated_sorted g s₁.disk size)
      (fun b hb => ⟨(freeBlocks_spec hb).2.1, (freeBlocks_spec hb).1⟩) hfresh)
      hdata (fun _ => ?_) (fun _ => NamedTree.put_other) rfl
      fun _ => ⟨fun _ => ?_, fun hdead => absurd hlive hdead⟩)⟩
  · rw [hdisk, editSlot_zero, hwritten.table_sector (by omega),
      hother.super]
  · show LiveDir g s.disk (parentOf s'.disk idx)
    rw [show parentOf s'.disk idx = _ from hparentOf, h.current]
    exact h.entered
  · rw [NamedTree.put_self]
    exact hheld

theorem risk_of_absent {call : FsCall}
    (hcall : (∃ data size, call = .writeFile name data size) ∨
      call = .deleteFile name)
    (hnone : t.node (t.key name) = none) :
    t.endangered call = ∅ ∧ t.risk call = t := by
  have hempty : t.endangered call = ∅ := by
    rcases hcall with ⟨data, size, rfl⟩ | rfl
    all_goals
      refine Set.eq_empty_of_forall_notMem ?_
      rintro key ⟨rfl, hne⟩
      exact hne hnone
  refine ⟨hempty, ?_⟩
  rw [NamedTree.risk, hempty, Set.union_empty]

theorem risk_of_present {call : FsCall}
    (hcall : (∃ data size, call = .writeFile name data size) ∨
      call = .deleteFile name)
    (hsome : t.node (t.key name) ≠ none) :
    t.risk call = { t with lost := insert (t.key name) t.lost } := by
  have hone : t.endangered call = {t.key name} := by
    rcases hcall with ⟨data, size, rfl⟩ | rfl
    all_goals
      ext key
      rw [Set.mem_singleton_iff]
      refine ⟨fun h => h.1, ?_⟩
      rintro rfl
      exact ⟨rfl, hsome⟩
  rw [NamedTree.risk, hone, Set.union_singleton]

theorem TreeState.writeFile (h : TreeState g s chain t)
    (hname : KnownName t name) (hnotDir : ¬ DenotesDirectory s name.chars)
    (hsize : size ≤ 2 ^ 32 - 512)
    (hexec : chainfsWriteFile s name.chars data size = .ok (s', code)) :
    ∃ chain' t', TreeState g s' chain' t' ∧
      t.Step (.call (.writeFile name data size) code) t' := by
  have hresult := h.mounted.writeFile_result h.heap name.chars data size
  rw [hexec] at hresult
  cases hresult with
  | rejected s' hplan hsame =>
      have hnew : t.node (t.key name) = none := by
        rw [← h.lookup_none_iff hname]
        by_contra hsome
        obtain ⟨idx, hold⟩ := Option.ne_none_iff_exists'.mp hsome
        obtain ⟨bytes, -, hheld⟩ := h.lookup_file hname hnotDir hold
        have hfreed := (h.kept.fileChain h.noWrap hheld).released
        have hfind : s.find g name.chars = some (.slot idx) := by
          rw [hname.simple.find_eq, hold, Option.map_some]
        simp only [writePlan, hname.simple.splitParent_eq, writeParentId,
          hfind, Target.found, foundAt, hfreed] at hplan
        cases hplan
      have hrisk := (risk_of_absent (Or.inl ⟨data, size, rfl⟩) hnew).2
      refine ⟨chain, _, ?_, .failed (by decide) trivial⟩
      rw [hrisk]
      exact h.of_unchanged hsame
  | full plan s₁ s' hplan hprepared hroom hsame =>
      obtain ⟨-, -, idx, -, hslot⟩ := hname.simple.plan_cases hplan
      have hother := h.freed_blocks hname hnotDir hslot
      have hcontrol := hprepared.control.trans hsame.control
      rcases hslot with ⟨hold, hfreed⟩ | ⟨hnew, hnone, -⟩
      · obtain ⟨bytes, hnode, -⟩ := h.lookup_file hname hnotDir hold
        have hsome : t.node (t.key name) ≠ none := by simp [hnode]
        refine ⟨Function.update chain idx [], _, ?_,
          .failed (by decide) trivial⟩
        rw [risk_of_present (Or.inl ⟨data, size, rfl⟩) hsome]
        refine h.given_up hold hcontrol hsame.heap ?_
        rw [hsame.disk]
        apply hprepared.undisturbed
        rintro b ⟨j, hne, hb⟩
        exact hother j hne b hb
      · have hrisk := (risk_of_absent (Or.inl ⟨data, size, rfl⟩)
          ((h.lookup_none_iff hname).mp hnew)).2
        refine ⟨chain, _, ?_, .failed (by decide) trivial⟩
        rw [hrisk]
        refine h.undisturbed hcontrol hsame.heap ?_
        rw [hsame.disk]
        apply hprepared.undisturbed
        rw [hnone]
        exact fun _ _ => List.not_mem_nil
  | stored plan s₁ s' hplan hprepared hroom hstored =>
      obtain ⟨hfile, hparent, idx, htarget, hslot⟩ :=
        hname.simple.plan_cases hplan
      rw [htarget, hfile, hparent] at hstored
      obtain ⟨chain', hinv⟩ := h.stored hname hnotDir hsize hslot hprepared
        (hprepared.hasRoom_iff.mpr hroom)
        (hstored (h.noWrap.allocatedUsable _ _))
      exact ⟨chain', _, hinv, .done .writeFile⟩

theorem TreeState.writeFile_returns (h : TreeState g s chain t)
    (hname : KnownName t name) (hnotDir : ¬ DenotesDirectory s name.chars)
    (data : Memory) (size : ℕ) :
    ∃ s' code, chainfsWriteFile s name.chars data size = .ok (s', code) := by
  have hresult := h.mounted.writeFile_result h.heap name.chars data size
  cases hwrite : chainfsWriteFile s name.chars data size with
  | ok r => exact ⟨r.1, r.2, rfl⟩
  | error fault =>
      rw [hwrite] at hresult
      cases hresult with
      | fault fault hplan =>
          simp only [writePlan, hname.simple.splitParent_eq, writeParentId,
            hname.simple.find_eq] at hplan
          cases hlookup : lookup g s.disk s.currentDirBlock name.chars with
          | none =>
              simp only [hlookup, Option.map_none] at hplan
              cases hfree : freeSlot g s.disk <;> simp [hfree] at hplan
          | some idx =>
              obtain ⟨bytes, -, hheld⟩ :=
                h.lookup_file hname hnotDir hlookup
              simp only [hlookup, Option.map_some, Target.found, foundAt,
                (h.kept.fileChain h.noWrap hheld).released] at hplan
              cases hplan

/-! ## Deleting -/

theorem TreeState.cleared (h : TreeState g s chain t)
    (hname : KnownName t name) (hnotDir : ¬ DenotesDirectory s name.chars)
    (hold : lookup g s.disk s.currentDirBlock name.chars = some idx)
    (hfreed : released g s.disk (entryOf s.disk idx).startBlock = some freed)
    (hprepared : Prepared g s freed s₁) (hcontrol : SameControl s₁ s')
    (hheap : HeapReady s'.heap)
    (hdisk : s'.disk = editSlot s₁.disk idx fun m i => setStatus m i 0) :
    TreeState g s' (Function.update chain idx []) (t.put name none) := by
  have hfreedBlocks := h.freed_blocks hname hnotDir
    (Or.inl ⟨hold, hfreed⟩)
  have hother : Undisturbed g (fun b => ∃ j ≠ idx, b ∈ chain j) s.disk
      s₁.disk := by
    apply hprepared.undisturbed
    rintro b ⟨j, hne, hb⟩
    exact hfreedBlocks j hne b hb
  obtain ⟨hlive, hkey⟩ := h.lookup_some hold
  have htable := (g.slot_sector hlive.1).2
  have hedited : Edited g s.disk s'.disk (.clear idx) :=
    Edited.of_editSlot 0 hlive.1 (setStatus_edits 0)
      (SameTable.of_outside hprepared.outside) hdisk
  have hdead := hedited.clear_dead
  have hedit : NameEdit g s.disk s'.disk (.clear idx) (t.key name) := by
    refine ⟨hedited, ?_, fun _ => hkey, fun hlive' => absurd hlive' hdead,
      h.alone (Or.inl hold)⟩
    rintro ⟨-, hdir⟩
    exact hname.simple.not_directory h.mounted hnotDir idx hold hdir
  have hlinks : ∀ j ≠ idx, ∀ b ∈ chain j,
      mapLink g s'.disk b = mapLink g s.disk b := by
    intro j hne b hb
    rw [hdisk, editSlot, mapLink_table htable,
      hother.links b ⟨j, hne, hb⟩]
  have hdata : ∀ j ≠ idx, ∀ b ∈ chain j,
      s'.disk (g.dataStart + b) = s.disk (g.dataStart + b) := by
    intro j hne b hb
    rw [hdisk, editSlot, disk_table_sector htable (Nat.le_add_right _ _),
      hother.contents b ⟨j, hne, hb⟩]
  refine h.of_control (hprepared.control.trans hcontrol) hheap ?_ rfl
    (hedit.liveDir h.entered)
    (h.kept.edited hedit (h.kept.apart.drop hlinks) hdata
      (fun hlive' => absurd hlive' hdead)
      (fun _ => NamedTree.put_other) rfl
      fun _ => ⟨fun hlive' => absurd hlive' hdead, fun _ => ?_⟩)
  · rw [hdisk, editSlot_zero, hother.super]
  · exact NamedTree.put_self _ _ _

theorem TreeState.deleteFile (h : TreeState g s chain t)
    (hname : KnownName t name) (hnotDir : ¬ DenotesDirectory s name.chars)
    (hexec : chainfsDeleteFile s name.chars = .ok (s', code)) :
    ∃ chain' t', TreeState g s' chain' t' ∧
      t.Step (.call (.deleteFile name) code) t' := by
  have hresult := h.mounted.deleteFile_result h.heap name.chars
  rw [hexec] at hresult
  cases hresult with
  | missing s' hfind hsame =>
      rw [hname.simple.find_eq, Option.map_eq_none_iff] at hfind
      have hnew := (h.lookup_none_iff hname).mp hfind
      refine ⟨chain, _, ?_, .failed (by decide) hnew⟩
      rw [(risk_of_absent (Or.inr rfl) hnew).2]
      exact h.of_unchanged hsame
  | cleared f freed s₁ s' hfind hfreed hprepared hcontrol hheap hdisk =>
      rw [hname.simple.find_eq] at hfind
      obtain ⟨idx, hold, rfl⟩ := Option.map_eq_some_iff.mp hfind
      obtain ⟨bytes, hnode, -⟩ := h.lookup_file hname hnotDir hold
      have hready : HeapReady s'.heap := by
        rw [hheap, hprepared.heap]
        exact h.heap
      exact ⟨_, _, h.cleared hname hnotDir hold hfreed hprepared hcontrol
        hready hdisk, .done (.deleteFile (by simp [hnode]))⟩

theorem TreeState.deleteFile_returns (h : TreeState g s chain t)
    (hname : KnownName t name)
    (hnotDir : ¬ DenotesDirectory s name.chars) :
    ∃ s' code, chainfsDeleteFile s name.chars = .ok (s', code) := by
  have hresult := h.mounted.deleteFile_result h.heap name.chars
  cases hdelete : chainfsDeleteFile s name.chars with
  | ok r => exact ⟨r.1, r.2, rfl⟩
  | error fault =>
      rw [hdelete] at hresult
      cases hresult with
      | hang f hfind hfreed =>
          rw [hname.simple.find_eq] at hfind
          obtain ⟨idx, hold, rfl⟩ := Option.map_eq_some_iff.mp hfind
          obtain ⟨bytes, -, hheld⟩ := h.lookup_file hname hnotDir hold
          have hsome := (h.kept.fileChain h.noWrap hheld).released
          rw [show ((Target.slot idx).found s.disk).entry.startBlock =
            (entryOf s.disk idx).startBlock from rfl, hsome] at hfreed
          cases hfreed

/-! ## Directories -/

theorem risk_of_safe {call : FsCall} (hsafe : t.endangered call = ∅) :
    t.risk call = t := by
  rw [NamedTree.risk, hsafe, Set.union_empty]

theorem SimpleName.mkdirPlan_eq (hname : SimpleName name) :
    mkdirPlan g s name.chars =
      match lookup g s.disk s.currentDirBlock name.chars,
        freeSlot g s.disk with
      | none, some idx => .ok (some ⟨idx, name.chars, s.currentDirBlock⟩)
      | _, _ => .ok none := by
  rw [mkdirPlan, hname.splitParent_eq]
  rfl

/-- A free slot can be a new directory. -/
theorem TreeState.fresh (h : TreeState g s chain t)
    (hfree : freeSlot g s.disk = some idx) : t.Fresh idx := by
  have hdead := not_liveEntry_of_free hfree
  have hdir : ¬ LiveDir g s.disk idx := fun hlive => hdead hlive.1
  have hintact : ∀ name, (idx, name) ∉ t.lost :=
    fun name hlost => hdir (h.kept.lost _ hlost)
  refine ⟨?_, ?_, ?_, hintact⟩
  · rintro rfl
    exact hdir h.entered
  · intro key hlost hnode
    have hnone : t.node key = none := by
      refine h.kept.absent key hlost fun j hj heq => ?_
      have hholds := h.kept.holds j hj
      rw [heq, hnode] at hholds
      exact hdead ((hholds hlost).2 ▸ hj)
    rw [hnode] at hnone
    cases hnone
  · intro name
    refine h.kept.absent _ (hintact name) fun j hj heq => ?_
    have hparent : parentOf s.disk j = idx := congrArg Prod.fst heq
    by_cases hzero : j = 0
    · rw [hzero, h.kept.rootParent] at hparent
      have hlt := (freeSlot_some hfree).1
      have hsmall := h.small
      simp only [Geometry.slots] at hlt hsmall
      omega
    · have hlive := h.kept.parents j hj hzero
      rw [hparent] at hlive
      exact hdir hlive

theorem TreeState.mkdir (h : TreeState g s chain t)
    (hname : KnownName t name)
    (hexec : chainfsMkdir s name.chars = .ok (s', code)) :
    ∃ chain' t', TreeState g s' chain' t' ∧
      t.Step (.call (.mkdir name) code) t' := by
  have hresult := h.mounted.mkdir_result h.heap name.chars
  rw [hexec] at hresult
  cases hresult with
  | rejected s' hplan hsame =>
      refine ⟨chain, _, ?_, .failed (by decide) trivial⟩
      rw [risk_of_safe rfl]
      exact h.of_unchanged hsame
  | made plan s' hplan hcontrol hheap hdisk =>
      rw [hname.simple.mkdirPlan_eq] at hplan
      cases hlookup : lookup g s.disk s.currentDirBlock name.chars with
      | some j =>
          rw [hlookup] at hplan
          cases hplan
      | none =>
          cases hfree : freeSlot g s.disk with
          | none =>
              rw [hlookup, hfree] at hplan
              cases hplan
          | some idx =>
              rw [hlookup, hfree] at hplan
              cases hplan
              dsimp only at hdisk
              have hshort := hname.simple.short
              have hcur : s.currentDirBlock < 2 ^ 32 := by
                rw [h.current]
                exact h.current_lt
              have hidx := (freeSlot_some hfree).1
              have hdead := not_liveEntry_of_free hfree
              have hedited : Edited g s.disk s'.disk
                  (.directory idx name.chars s.currentDirBlock) :=
                Edited.of_editSlot 0 hidx
                  (setDirEntry_edits _ (by omega)) (SameTable.of_disk rfl)
                  hdisk
              obtain ⟨hlive, hkey⟩ :=
                hedited.directory_key name.terminated hcur
              rw [List.take_of_length_le (by omega), h.current] at hkey
              obtain ⟨-, htype, hparentOf⟩ := hedited.directory_fields hcur
              have hedit : NameEdit g s.disk s'.disk
                  (.directory idx name.chars s.currentDirBlock)
                  (t.key name) :=
                ⟨hedited, fun hdir => hdead hdir.1,
                  fun hlive' => absurd hlive' hdead, fun _ => hkey,
                  h.alone (Or.inr hlookup)⟩
              have hlinks : ∀ b, mapLink g s'.disk b = mapLink g s.disk b := by
                intro b
                rw [hdisk, mapLink_editSlot hidx]
              refine ⟨Function.update chain idx [],
                t.put name (some (.directory idx)),
                h.of_control hcontrol (hheap ▸ h.heap) ?_ rfl
                (hedit.liveDir h.entered)
                (h.kept.edited hedit
                  (h.kept.apart.drop fun _ _ b _ => hlinks b) ?_
                  (fun _ => ?_)
                  (fun _ => NamedTree.put_other) rfl fun _ =>
                    ⟨fun _ => ?_, fun hdead' => absurd hlive hdead'⟩),
                .done (.mkdir ((h.lookup_none_iff hname).mp hlookup)
                  (h.fresh hfree))⟩
              · rw [hdisk, editSlot_zero]
              · intro j _ b _
                rw [hdisk, editSlot, disk_table_sector
                  (g.slot_sector hidx).2 (Nat.le_add_right _ _)]
              · show LiveDir g s.disk (parentOf s'.disk idx)
                rw [show parentOf s'.disk idx = _ from hparentOf, h.current]
                exact h.entered
              · rw [NamedTree.put_self]
                exact ⟨htype, rfl⟩

theorem TreeState.mkdir_returns (h : TreeState g s chain t)
    (hname : KnownName t name) :
    ∃ s' code, chainfsMkdir s name.chars = .ok (s', code) := by
  have hresult := h.mounted.mkdir_result h.heap name.chars
  cases hmkdir : chainfsMkdir s name.chars with
  | ok r => exact ⟨r.1, r.2, rfl⟩
  | error fault =>
      rw [hmkdir] at hresult
      cases hresult with
      | fault fault hplan =>
          rw [hname.simple.mkdirPlan_eq] at hplan
          cases hlookup : lookup g s.disk s.currentDirBlock name.chars <;>
            cases hfree : freeSlot g s.disk <;>
              simp [hlookup, hfree] at hplan

/-- Where a change of directory leads. -/
theorem TreeState.chdir_cases (h : TreeState g s chain t)
    (hname : KnownName t name) :
    (∃ s', chainfsChdir s name.chars = (s', -1) ∧ Unchanged s s' ∧
      ∀ idx, t.node (t.key name) ≠ some (.directory idx)) ∨
    ∃ idx m, t.node (t.key name) = some (.directory idx) ∧
      LiveDir g s.disk idx ∧
      chainfsChdir s name.chars =
        ({ s with
          currentDirBlock := idx
          sectorBuffer := m }, 0) := by
  obtain ⟨m, hchdir⟩ := h.mounted.chdir_eq name.chars
  rw [hname.simple.resolve_eq] at hchdir
  cases hlookup : lookup g s.disk s.currentDirBlock name.chars with
  | none =>
      rw [hlookup] at hchdir
      refine Or.inl ⟨_, hchdir, Unchanged.of_buffer h.heap m, ?_⟩
      rw [(h.lookup_none_iff hname).mp hlookup]
      exact fun idx => by simp
  | some idx =>
      have hholds := h.lookup_holds hname hlookup
      obtain ⟨hlive, -⟩ := h.lookup_some hlookup
      rw [hlookup] at hchdir
      simp only [Option.map_some] at hchdir
      split at hchdir
      case isTrue htype =>
        refine Or.inl ⟨_, hchdir, Unchanged.of_buffer h.heap m, ?_⟩
        intro i hnode
        rw [hnode] at hholds
        exact htype hholds.1
      case isFalse htype =>
        have hlt := hlive.1
        have hsmall := h.small
        rw [not_not] at htype
        have hdir : (entryOf s.disk idx).type = chainfsTypeDir := htype
        simp only [Target.found, foundAt, entryIndex_slotOf (show idx < 2 ^ 32
          by omega)] at hchdir
        exact Or.inr ⟨idx, m, hholds.directory hdir, ⟨hlive, hdir⟩, hchdir⟩

theorem TreeState.chdir (h : TreeState g s chain t)
    (hname : KnownName t name)
    (hexec : chainfsChdir s name.chars = (s', code)) :
    ∃ chain' t', TreeState g s' chain' t' ∧
      t.Step (.call (.chdir name) code) t' := by
  rcases h.chdir_cases hname with
    ⟨s₁, hchdir, hsame, hnot⟩ | ⟨idx, m, hnode, hlive, hchdir⟩
  · rw [hchdir] at hexec
    cases hexec
    refine ⟨chain, _, ?_, .failed (by decide) hnot⟩
    rw [risk_of_safe rfl]
    exact h.of_unchanged hsame
  · rw [hchdir] at hexec
    cases hexec
    exact ⟨chain, _, ⟨h.mounted.of_same rfl rfl, h.noWrap, h.small, h.heap,
      h.super, rfl, hlive, h.kept.enter idx⟩, .done (.chdir hnode)⟩

end Otsos
