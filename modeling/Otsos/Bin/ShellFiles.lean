import Otsos.Bin.Shell
import Otsos.ChainFS.AnyDiskReads
import Otsos.ChainFS.StoredNames

/-!
# The file system under the shell

Nothing is mounted until the first `format`, and the calls of the shell find
nothing.  From then on the geometry is that of the format: `disk clear` stores
zeros, which are a table without entries and a map without links.  So the names
that the shell lists are names that the calls have stored.
-/

namespace Otsos

open Lib

variable {g : Geometry} {s s' s₁ : ChainFS} {d d' : ℕ → Memory} {m : Memory}
  {i idx : ℕ} {call : FsCall} {code : ℤ} {path : List UInt8}

/-! ## Before the first format -/

structure Unmounted (s : ChainFS) : Prop where
  superblock : s.superblock = zeroSector
  start : s.dataAreaStart = 0
  heap : HeapReady s.heap

/-- The call has neither mounted anything nor used the heap. -/
structure SameMount (s s' : ChainFS) : Prop where
  superblock : s'.superblock = s.superblock
  start : s'.dataAreaStart = s.dataAreaStart
  heap : s'.heap = s.heap

theorem Unmounted.of_same (h : Unmounted s) (hsame : SameMount s s') :
    Unmounted s' :=
  ⟨hsame.superblock.trans h.superblock, hsame.start.trans h.start,
    hsame.heap ▸ h.heap⟩

theorem SameMount.trans (h : SameMount s s₁) (h' : SameMount s₁ s') :
    SameMount s s' :=
  ⟨h'.superblock.trans h.superblock, h'.start.trans h.start,
    h'.heap.trans h.heap⟩

theorem SameMount.of_buffer (h : ∃ m, s' = { s with sectorBuffer := m }) :
    SameMount s s' := by
  obtain ⟨m, rfl⟩ := h
  exact ⟨rfl, rfl, rfl⟩

theorem Searched.same {r : ChainFS × Option Found} (h : Searched s r) :
    SameMount s r.1 :=
  SameMount.of_buffer h.state

theorem Unmounted.table (h : Unmounted s) : tableBlocks s = 0 := by
  rw [tableBlocks, ChainFS.fileTableBlockCount, h.superblock,
    sbFileTableBlockCount, zeroSector_load]
  rfl

theorem Unmounted.map (h : Unmounted s) : s.blockMapBlockCount = 0 := by
  rw [ChainFS.blockMapBlockCount, h.superblock]
  exact zeroSector_load 12

theorem Unmounted.freeEntry (h : Unmounted s) :
    chainfsFindFreeFileEntry s = (s, .error (-2)) := by
  apply if_pos
  rw [ChainFS.magic, h.superblock, sbMagic, zeroSector_load]
  decide

theorem Unmounted.freeChain (h : Unmounted s) (b : ℕ) :
    chainfsFreeBlockChain s b = some s := by
  rw [chainfsFreeBlockChain, chainFuel, freeChainWalk]
  by_cases hend : b = chainfsEofMarker
  · rw [if_pos hend]
  · rw [if_neg hend, chainfsReadBlockMapEntry, if_pos]
    rw [h.map]
    exact Nat.zero_le _

theorem Unmounted.freeBlocks (h : Unmounted s) {count : ℕ} (hcount : 0 < count) :
    chainfsFindFreeBlocks s count = (s, -1, []) := by
  have htotal : totalDataBlocks s = 0 := by
    rw [totalDataBlocks, ChainFS.blockCount, h.superblock, h.start,
      sbBlockCount, zeroSector_load]
    rfl
  rw [chainfsFindFreeBlocks, htotal, findFreeBlocksFrom]
  dsimp only
  rw [List.length_nil, if_neg (Nat.ne_of_lt hcount)]

theorem directorySector_same (s : ChainFS) (path : List UInt8) :
    SameMount s (directorySector s path).1 := by
  obtain ⟨m, found, hresolve⟩ := (resolvePath_searched s path).leaves
  rw [directorySector, hresolve]
  cases found with
  | none => exact ⟨rfl, rfl, rfl⟩
  | some f =>
      by_cases htype : f.entry.type ≠ chainfsTypeDir
      · simp only [if_pos htype]
        exact ⟨rfl, rfl, rfl⟩
      · simp only [if_neg htype]
        exact ⟨rfl, rfl, rfl⟩

theorem chdir_same (s : ChainFS) (path : List UInt8) :
    SameMount s (chainfsChdir s path).1 := by
  obtain ⟨m, found, hresolve⟩ := (resolvePath_searched s path).leaves
  rw [chainfsChdir, hresolve]
  cases found with
  | none => exact ⟨rfl, rfl, rfl⟩
  | some f =>
      by_cases htype : f.entry.type ≠ chainfsTypeDir
      · simp only [if_pos htype]
        exact ⟨rfl, rfl, rfl⟩
      · simp only [if_neg htype]
        exact ⟨rfl, rfl, rfl⟩

theorem listDir_same (s : ChainFS) (path : List UInt8) (maxFiles : ℕ) :
    SameMount s (chainfsListDir s path maxFiles).1 := by
  cases path with
  | nil => exact SameMount.of_buffer (listTable_state _ _ _ _ _ _)
  | cons c cs =>
      have hsame := directorySector_same s (c :: cs)
      simp only [chainfsListDir]
      cases hsector : directorySector s (c :: cs) with
      | mk s₁ dirBlock =>
          rw [hsector] at hsame
          cases dirBlock with
          | none => exact hsame
          | some dirBlock =>
              exact hsame.trans
                (SameMount.of_buffer (listTable_state _ _ _ _ _ _))

theorem readFile_same (s : ChainFS) (filename : List UInt8) (buffer : Memory)
    (bufferSize : ℕ) :
    SameMount s (chainfsReadFile s filename buffer bufferSize).1 := by
  obtain ⟨m, found, hfind⟩ := (findFile_searched s filename).leaves
  rw [chainfsReadFile, hfind]
  cases found with
  | none => exact ⟨rfl, rfl, rfl⟩
  | some f =>
      obtain ⟨m', hread⟩ := readChain_state { s with sectorBuffer := m }
        buffer bufferSize (f.entry.size + 1) f.entry.size 0
        f.entry.startBlock
      exact SameMount.of_buffer ⟨m', hread⟩

theorem rmdir_same (s : ChainFS) (path : List UInt8) :
    SameMount s (chainfsRmdir s path).1 := by
  have hsame := (resolvePath_searched s path).same
  unfold chainfsRmdir
  cases hresolve : chainfsResolvePath s path with
  | mk s₁ found =>
      rw [hresolve] at hsame
      cases found with
      | none => exact hsame
      | some f =>
          by_cases hrefused : f.entry.type ≠ chainfsTypeDir ∨
              f.block = s₁.rootDirBlock
          · rcases hrefused with htype | hroot
            · simp only [if_pos htype]
              exact hsame
            · simp only [if_pos hroot, ite_self]
              exact hsame
          · rw [not_or] at hrefused
            simp only [if_neg hrefused.1, if_neg hrefused.2]
            have hlist := hsame.trans (listDir_same s₁ path 1)
            cases hdir : chainfsListDir s₁ path 1 with
            | mk s₂ files =>
                rw [hdir] at hlist
                have hcleared : SameMount s (clearStatus s₂ f.block f.offset) :=
                  ⟨hlist.superblock, hlist.start, hlist.heap⟩
                rcases files with - | (- | ⟨file, files⟩)
                · exact hcleared
                · exact hcleared
                · exact hlist

theorem mkdirParent_same (s : ChainFS) (parent : ParentPath) :
    SameMount s (mkdirParent s parent).1 := by
  cases parent with
  | current => exact ⟨rfl, rfl, rfl⟩
  | root => exact directorySector_same s [slash]
  | path chars => exact directorySector_same s chars

theorem writeParent_same (s : ChainFS) (parent : ParentPath) :
    SameMount s (writeParent s parent).1 := by
  cases parent with
  | current => exact ⟨rfl, rfl, rfl⟩
  | root => exact ⟨rfl, rfl, rfl⟩
  | path chars => exact directorySector_same s chars

theorem Unmounted.mkdir (h : Unmounted s)
    (hcall : chainfsMkdir s path = .ok (s', code)) : Unmounted s' := by
  unfold chainfsMkdir at hcall
  cases hsplit : splitParent path with
  | error fault =>
      rw [hsplit] at hcall
      cases hcall
  | ok split =>
      obtain ⟨parent, dirName⟩ := split
      rw [hsplit] at hcall
      have hparent := mkdirParent_same s parent
      cases hdir : mkdirParent s parent with
      | mk s₁ parentBlock =>
          rw [hdir] at hparent
          have h₁ := h.of_same hparent
          simp only [hdir] at hcall
          cases parentBlock with
          | none =>
              cases hcall
              exact h₁
          | some parentBlock =>
              have hsearch :=
                (findInDirectory_searched s₁ parentBlock dirName).same
              cases hfind : chainfsFindInDirectory s₁ parentBlock dirName with
              | mk s₂ found =>
                  rw [hfind] at hsearch
                  have h₂ := h₁.of_same hsearch
                  simp only [hfind] at hcall
                  cases found with
                  | some f =>
                      cases hcall
                      exact h₂
                  | none =>
                      simp only [h₂.freeEntry] at hcall
                      cases hcall
                      exact h₂

/-- A file that is written before the format takes memory for its blocks, and
gives it back. -/
theorem Unmounted.storeFile {slot : ℕ × ℕ} {fileName : List UInt8}
    {data : Memory} {size parent : ℕ} (h : Unmounted s)
    (hcall : storeFile s slot fileName data size parent = .ok (s', code)) :
    Unmounted s' := by
  obtain ⟨hpos, hsize⟩ := blocksNeeded_bounds size
  unfold Otsos.storeFile at hcall
  rcases h.heap.kmalloc_cases hsize with hfail |
    ⟨heap, ptr, hok, hptr, hready, hfreed⟩
  · rw [hfail] at hcall
    cases hcall
    exact ⟨h.superblock, h.start, h.heap⟩
  · have hs : Unmounted { s with heap := heap } :=
      ⟨h.superblock, h.start, hready⟩
    rw [hok] at hcall
    simp only [if_neg hptr, hs.freeBlocks hpos] at hcall
    cases hcall
    exact ⟨h.superblock, h.start, hfreed⟩

theorem Unmounted.writeFile {data : Memory} {size : ℕ} (h : Unmounted s)
    (hcall : chainfsWriteFile s path data size = .ok (s', code)) :
    Unmounted s' := by
  have hsearch := (findFile_searched s path).same
  unfold chainfsWriteFile at hcall
  cases hfind : chainfsFindFile s path with
  | mk s₁ found =>
      rw [hfind] at hsearch hcall
      have h₁ := h.of_same hsearch
      dsimp only at hcall
      cases hsplit : splitParent path with
      | error fault =>
          rw [hsplit] at hcall
          cases hcall
      | ok split =>
          obtain ⟨parent, fileName⟩ := split
          rw [hsplit] at hcall
          have hparent := writeParent_same s₁ parent
          cases hdir : writeParent s₁ parent with
          | mk s₂ parentBlock =>
              rw [hdir] at hparent
              have h₂ := h₁.of_same hparent
              simp only [hdir] at hcall
              cases parentBlock with
              | none =>
                  cases hcall
                  exact h₂
              | some parentBlock =>
                  cases found with
                  | some f =>
                      simp only [targetSlot, h₂.freeChain] at hcall
                      exact h₂.storeFile hcall
                  | none =>
                      simp only [targetSlot, h₂.freeEntry] at hcall
                      cases hcall
                      exact h₂

theorem Unmounted.deleteFile (h : Unmounted s)
    (hcall : chainfsDeleteFile s path = .ok (s', code)) : Unmounted s' := by
  have hsearch := (findFile_searched s path).same
  unfold chainfsDeleteFile at hcall
  cases hfind : chainfsFindFile s path with
  | mk s₁ found =>
      rw [hfind] at hsearch hcall
      have h₁ := h.of_same hsearch
      cases found with
      | none =>
          cases hcall
          exact h₁
      | some f =>
          simp only [h₁.freeChain] at hcall
          cases hcall
          exact ⟨h₁.superblock, h₁.start, h₁.heap⟩

theorem Unmounted.step (h : Unmounted s) (hcall : call.isInit = false)
    (hexec : s.exec call = .ok (s', code)) : Unmounted s' := by
  cases call with
  | writeFile path data size => exact h.writeFile hexec
  | deleteFile path => exact h.deleteFile hexec
  | readFile path buffer n =>
      have hsame := readFile_same s path.chars buffer n
      simp only [ChainFS.exec] at hexec
      cases hresult : chainfsReadFile s path.chars buffer n with
      | mk s₁ out =>
          rw [hresult] at hexec hsame
          cases out <;> cases hexec <;> exact h.of_same hsame
  | mkdir path => exact h.mkdir hexec
  | rmdir path =>
      have hsame := rmdir_same s path.chars
      rw [Except.ok.inj hexec] at hsame
      exact h.of_same hsame
  | chdir path =>
      have hsame := chdir_same s path.chars
      rw [Except.ok.inj hexec] at hsame
      exact h.of_same hsame
  | listDir path n =>
      have hsame := listDir_same s path.chars n
      simp only [ChainFS.exec] at hexec
      cases hresult : chainfsListDir s path.chars n with
      | mk s₁ out =>
          rw [hresult] at hexec hsame
          cases out <;> cases hexec <;> exact h.of_same hsame
  | init => cases hcall

/-! ## From the first format on -/

/-- The geometry of `chainfs_format(20480, 100)`. -/
def shellGeometry : Geometry := formatGeometry 20480 100

theorem shellGeometry_noWrap : shellGeometry.NoWrap :=
  formatGeometry_noWrap 20480 100 (by decide) (by decide)

inductive FilesSound (s : ChainFS) : Prop
  | unmounted (h : Unmounted s)
  | mounted (hinv : DiskInvariant shellGeometry s)
      (hnames : NamesTerminated shellGeometry s.disk)

theorem FilesSound.heap (h : FilesSound s) : HeapReady s.heap := by
  cases h with
  | unmounted h => exact h.heap
  | mounted hinv hnames => exact hinv.heap

theorem FilesSound.step (h : FilesSound s) (hcall : call.isInit = false)
    (hexec : s.exec call = .ok (s', code)) : FilesSound s' := by
  cases h with
  | unmounted h => exact .unmounted (h.step hcall hexec)
  | mounted hinv hnames =>
      have hwrap := shellGeometry_noWrap.unwrappedCall s call code
      exact .mounted (hinv.step hwrap hexec) (hnames.step hinv hwrap hexec)

/-- What the format leaves does not depend on what was mounted before. -/
theorem formatted_withoutLog (s : ChainFS) (hheap : HeapReady s.heap) :
    Formatted 20480 100
      { (chainfsFormat s 20480 100).1 with dataWrites := [] } := by
  refine ⟨by decide, by decide, { s with dataWrites := [] }, hheap, rfl, ?_⟩
  rw [chainfsFormat_eq _ (by decide), chainfsFormat_eq _ (by decide)]

theorem format_sound (hheap : HeapReady s.heap) :
    DiskInvariant shellGeometry (chainfsFormat s 20480 100).1 ∧
      NamesTerminated shellGeometry (chainfsFormat s 20480 100).1.disk := by
  have hformat := formatted_withoutLog s hheap
  have hinv := hformat.diskInvariant
  exact ⟨⟨hinv.mounted.of_same rfl rfl, hinv.heap, hinv.disk, hinv.mounts⟩,
    hformat.namesTerminated⟩

theorem init_heap (s : ChainFS) : (chainfsInit s).1.heap = s.heap := by
  unfold chainfsInit
  by_cases hmagic : sbMagic (pataReadSector s 0).sectorBuffer ≠ chainfsMagic
  · rw [if_pos hmagic]
    rfl
  · rw [if_neg hmagic]
    rfl

theorem FilesSound.of_buffer (h : FilesSound s) (m : Memory) :
    FilesSound { s with sectorBuffer := m } := by
  cases h with
  | unmounted h => exact .unmounted ⟨h.superblock, h.start, h.heap⟩
  | mounted hinv hnames =>
      exact .mounted (hinv.of_unchanged (Unchanged.of_buffer hinv.heap m)) hnames

theorem FilesSound.readFile (h : FilesSound s) (filename : List UInt8)
    (buffer : Memory) (size : ℕ) :
    FilesSound (chainfsReadFile s filename buffer size).1 := by
  cases h with
  | unmounted h =>
      exact .unmounted (h.of_same (readFile_same s filename buffer size))
  | mounted hinv hnames =>
      obtain ⟨m, hstate⟩ :=
        hinv.mounted.readFile_state filename buffer size
      rw [hstate]
      exact FilesSound.of_buffer (.mounted hinv hnames) m

theorem FilesSound.listDir (h : FilesSound s) (path : List UInt8)
    (maxFiles : ℕ) : FilesSound (chainfsListDir s path maxFiles).1 := by
  cases h with
  | unmounted h => exact .unmounted (h.of_same (listDir_same s path maxFiles))
  | mounted hinv hnames =>
      obtain ⟨m, hstate⟩ := hinv.mounted.listDir_state path maxFiles
      rw [hstate]
      exact FilesSound.of_buffer (.mounted hinv hnames) m

theorem FilesSound.writeFile {data : Memory} {size : ℕ} (h : FilesSound s)
    (hnul : 0 ∉ path)
    (hcall : chainfsWriteFile s path data size = .ok (s', code)) :
    FilesSound s' := by
  have hexec : s.exec (.writeFile ⟨path, hnul⟩ data size) = .ok (s', code) :=
    hcall
  exact h.step rfl hexec

theorem FilesSound.mkdir (h : FilesSound s) (hnul : 0 ∉ path)
    (hcall : chainfsMkdir s path = .ok (s', code)) : FilesSound s' := by
  have hexec : s.exec (.mkdir ⟨path, hnul⟩) = .ok (s', code) := hcall
  exact h.step rfl hexec

theorem FilesSound.rmdir (h : FilesSound s) (hnul : 0 ∉ path) :
    FilesSound (chainfsRmdir s path).1 := by
  have hexec : s.exec (.rmdir ⟨path, hnul⟩) = .ok (chainfsRmdir s path) := rfl
  exact h.step rfl hexec

theorem FilesSound.chdir (h : FilesSound s) (hnul : 0 ∉ path) :
    FilesSound (chainfsChdir s path).1 := by
  have hexec : s.exec (.chdir ⟨path, hnul⟩) = .ok (chainfsChdir s path) := rfl
  exact h.step rfl hexec

theorem currentPathLoop_state {fuel : ℕ} {temp text : List UInt8}
    (hcall : currentPathLoop s fuel idx temp = .ok (s', text)) :
    ∃ m, s' = { s with sectorBuffer := m } := by
  induction fuel generalizing s idx temp with
  | zero => cases hcall
  | succ fuel ih =>
      cases hup : s.up idx with
      | none =>
          rw [currentPathLoop_none fuel hup] at hcall
          cases hcall
          exact ⟨s'.sectorBuffer, rfl⟩
      | some parent =>
          obtain ⟨m, hloop⟩ := @currentPathLoop_some s idx temp _ fuel hup
          rw [hloop] at hcall
          split at hcall
          · obtain ⟨m', hstate⟩ := ih hcall
            exact ⟨m', hstate⟩
          · cases hcall

theorem FilesSound.currentPath {size : ℕ} {out : Option (List UInt8)}
    (h : FilesSound s)
    (hcall : chainfsGetCurrentPath s size = .ok (s', out)) :
    FilesSound s' := by
  unfold chainfsGetCurrentPath at hcall
  by_cases hroot : s.currentDirBlock = s.rootDirBlock
  · rw [if_pos hroot] at hcall
    cases hcall
    exact h
  · rw [if_neg hroot] at hcall
    cases hloop : currentPathLoop s (chainfsMaxPath + 1) s.currentDirBlock []
      with
    | error fault =>
        rw [hloop] at hcall
        cases hcall
    | ok r =>
        obtain ⟨s₁, text⟩ := r
        obtain ⟨m, hstate⟩ := currentPathLoop_state hloop
        rw [hloop] at hcall
        cases hcall
        rw [hstate]
        exact h.of_buffer m

/-! ## `disk clear` -/

theorem update_zero (d : ℕ → Memory) (x sector : ℕ) :
    Function.update d x zeroSector sector = zeroSector ∨
      Function.update d x zeroSector sector = d sector := by
  by_cases hx : sector = x
  · left
    rw [hx, Function.update_self]
  · right
    exact Function.update_of_ne hx _ _

theorem cleared_status (d : ℕ → Memory) (x idx : ℕ)
    (hone : (entryOf (Function.update d x zeroSector) idx).status = 1) :
    Function.update d x zeroSector (1 + idx / 8) = d (1 + idx / 8) := by
  refine (update_zero d x (1 + idx / 8)).resolve_left fun hzero => ?_
  unfold entryOf at hone
  rw [hzero] at hone
  exact absurd (show (0 : UInt8) = 1 from hone) (by decide)

theorem shellGeometry_usable_zero : shellGeometry.Usable 0 :=
  ⟨by decide, by decide, by decide⟩

theorem DiskOk.cleared (h : DiskOk shellGeometry d) (x : ℕ) :
    DiskOk shellGeometry (Function.update d x zeroSector) := by
  constructor
  case links =>
    intro b hb
    rcases update_zero d x (1 + shellGeometry.table + b / 128) with
      hzero | hsame
    · left
      rw [mapLink, hzero, zeroSector_load]
    · rw [mapLink_congr hsame]
      exact h.links b hb
  case entries =>
    intro idx hidx hone
    have hsame : entryOf (Function.update d x zeroSector) idx = entryOf d idx :=
      congrArg (entryAt · (idx % 8)) (cleared_status d x idx hone)
    rw [hsame] at hone ⊢
    exact h.entries idx hidx hone
  case rootBlock =>
    rcases update_zero d x 0 with hzero | hsame
    · have hstart : (entryAt zeroSector 0).startBlock = 0 := zeroSector_load 36
      rw [hzero, RootBlockOk, hstart]
      exact ⟨by decide, fun _ => shellGeometry_usable_zero⟩
    · rw [hsame]
      exact h.rootBlock

theorem FilesSound.cleared (h : FilesSound s) (sector : UInt32) :
    FilesSound (clearSector s sector) := by
  cases h with
  | unmounted h => exact .unmounted ⟨h.superblock, h.start, h.heap⟩
  | mounted hinv hnames =>
      refine .mounted ⟨hinv.mounted.of_same rfl rfl, hinv.heap,
        hinv.disk.cleared _, ?_⟩ ?_
      · refine hinv.mounts.of_spares rfl ?_
        rcases update_zero s.disk (addressed sector) 0 with hzero | hsame
        · right
          rw [show (clearSector s sector).disk 0 = zeroSector from hzero,
            sbMagic, zeroSector_load]
          decide
        · exact Or.inl hsame
      · intro idx hidx hone
        have hsame := cleared_status s.disk (addressed sector) idx hone
        have hlive : (entryOf s.disk idx).status = 1 := by
          rw [← hone]
          exact congrArg (fun m => (entryAt m (idx % 8)).status) hsame.symm
        rw [show (clearSector s sector).disk (1 + idx / 8) = _ from hsame]
        exact hnames idx hidx hlive

/-! ## What is listed -/

theorem takeWhile_length_le {cs : List UInt8} {k : ℕ} (hk : cs[k]? = some 0) :
    (cs.takeWhile (· ≠ 0)).length ≤ k := by
  induction cs generalizing k with
  | nil => cases hk
  | cons c cs ih =>
      cases k with
      | zero =>
          rw [List.getElem?_cons_zero, Option.some.injEq] at hk
          simp [hk]
      | succ k =>
          rw [List.getElem?_cons_succ] at hk
          rw [List.takeWhile_cons]
          split
          · exact Nat.succ_le_succ (ih hk)
          · exact Nat.zero_le _

/-- A terminated name has at most 30 characters. -/
theorem Terminated.length_nameString (h : Terminated m i) :
    (entryAt m i).nameString.length ≤ 30 := by
  obtain ⟨k, hk, hzero⟩ := h
  refine (takeWhile_length_le (k := k) ?_).trans hk
  have hname : (entryAt m i).name.length = 30 := by simp [entryAt]
  by_cases hinside : k < 30
  · simp only [List.append_assoc]
    rw [List.getElem?_append_left (by omega)]
    simp [entryAt, hinside, hzero]
  · have hk30 : k = 30 := by omega
    subst hk30
    simp only [List.append_assoc]
    rw [List.getElem?_append_right (by omega), hname]
    have hbyte : (m (sizeofFileEntry * i + 32)).toNat = 0 := by
      rw [show sizeofFileEntry * i + 32 = sizeofFileEntry * i + 2 + 30
        by omega, hzero]
      rfl
    have hsize : (entryAt m i).size % 256 = 0 := by
      simp only [entryAt, Memory.load]
      omega
    have hlow : UInt8.ofNat (entryAt m i).size = 0 := by
      rw [← UInt8.toNat_inj, UInt8.toNat_ofNat']
      exact hsize
    simp [wordBytes, hlow]

theorem Unmounted.listDir (h : Unmounted s) (path : List UInt8)
    (maxFiles : ℕ) :
    (chainfsListDir s path maxFiles).2 = none ∨
      (chainfsListDir s path maxFiles).2 = some [] := by
  cases path with
  | nil =>
      right
      simp only [chainfsListDir, h.table, listTable]
  | cons c cs =>
      have hsame := directorySector_same s (c :: cs)
      simp only [chainfsListDir]
      cases hsector : directorySector s (c :: cs) with
      | mk s₁ dirBlock =>
          rw [hsector] at hsame
          cases dirBlock with
          | none => exact Or.inl rfl
          | some dirBlock =>
              right
              simp only [(h.of_same hsame).table, listTable]

/-- What the calls of the shell list are terminated names. -/
theorem FilesSound.listed {maxFiles : ℕ} {files : List FileEntry}
    (h : FilesSound s)
    (hcall : chainfsListDir s path maxFiles = (s', some files)) :
    ∀ e ∈ files, e.nameString.length ≤ 30 := by
  have hfiles : (chainfsListDir s path maxFiles).2 = some files := by
    rw [hcall]
  intro e hmem
  cases h with
  | unmounted h =>
      rcases h.listDir path maxFiles with hnone | hempty
      · rw [hnone] at hfiles
        cases hfiles
      · rw [hempty] at hfiles
        cases hfiles
        exact absurd hmem List.not_mem_nil
  | mounted hinv hnames =>
      rw [hinv.mounted.listDir_eq] at hfiles
      obtain ⟨dirBlock, hsub⟩ : ∃ dirBlock,
          files = (dirEntries shellGeometry s.disk dirBlock).take maxFiles := by
        cases path with
        | nil => exact ⟨_, (Option.some.inj hfiles).symm⟩
        | cons c cs =>
            obtain ⟨dirBlock, -, heq⟩ := Option.map_eq_some_iff.mp hfiles
            exact ⟨dirBlock, heq.symm⟩
      rw [hsub] at hmem
      obtain ⟨j, hj, hone, -, rfl⟩ :=
        mem_dirEntries.mp (List.mem_of_mem_take hmem)
      exact (hnames j hj hone).length_nameString

/-! ## The files of `test_fs` -/

/-- The disk while `test_fs` runs: no file has more than 19 bytes. -/
structure SmallFiles (s : ChainFS) : Prop where
  disk : DiskInvariant shellGeometry s
  names : NamesTerminated shellGeometry s.disk
  sizes : ∀ idx < shellGeometry.slots, (entryOf s.disk idx).status = 1 →
    (entryOf s.disk idx).size ≤ 19

theorem SmallFiles.sound (h : SmallFiles s) : FilesSound s :=
  .mounted h.disk h.names

theorem SmallFiles.format (hheap : HeapReady s.heap) :
    SmallFiles (chainfsFormat s 20480 100).1 := by
  obtain ⟨hinv, hnames⟩ := format_sound hheap
  refine ⟨hinv, hnames, ?_⟩
  intro idx hidx hone
  obtain ⟨hfresh, -⟩ := (formatted_withoutLog s hheap).fresh
  obtain ⟨hroot, hother⟩ := hfresh.entries hidx
  by_cases hzero : idx = 0
  · rw [hroot hzero, formatRootSector_size]
    exact Nat.zero_le 19
  · rw [hother hzero] at hone
    exact absurd hone (by decide)

theorem SmallFiles.step (h : SmallFiles s)
    (hsmall : ∀ path data size, call = .writeFile path data size → size ≤ 19)
    (hexec : s.exec call = .ok (s', code)) : SmallFiles s' := by
  have hwrap := shellGeometry_noWrap.unwrappedCall s call code
  refine ⟨h.disk.step hwrap hexec, h.names.step h.disk hwrap hexec, ?_⟩
  intro idx hidx hone
  cases h.disk.tableStep hwrap hexec with
  | same hnone hsame =>
      rw [(hsame idx hidx).entryOf_eq] at hone ⊢
      exact h.sizes idx hidx hone
  | edited e hplanned hedited =>
      by_cases hslot : idx = e.slot
      · obtain ⟨m, start, hentry⟩ := hedited.entryOf_eq
        rw [hslot] at hone ⊢
        rw [hentry] at hone ⊢
        cases e with
        | file j name size parent =>
            obtain ⟨path, data, -, hcall, -⟩ := hplanned.file_inv
            have hsize := hsmall path data size hcall
            rw [TableEdit.apply, setFileEntry_size (by omega)]
            exact hsize
        | directory j name parent =>
            rw [TableEdit.apply, setDirEntry_size]
            exact Nat.zero_le 19
        | clear j =>
            rw [TableEdit.apply, setStatus_status] at hone
            exact absurd hone (by decide)
      · have hsame := hedited.other idx hidx hslot
        rw [hsame.entryOf_eq] at hone ⊢
        exact h.sizes idx hidx hone

theorem SmallFiles.of_buffer (h : SmallFiles s) (m : Memory) :
    SmallFiles { s with sectorBuffer := m } :=
  ⟨h.disk.of_unchanged (Unchanged.of_buffer h.disk.heap m), h.names, h.sizes⟩

/-- A name that does not begin with `'/'` denotes an entry of the table. -/
theorem find_relative {t : Target} (hslash : path.head? ≠ some slash)
    (hfind : s.find g path = some t) :
    ∃ idx, t = .slot idx ∧ LiveEntry g s.disk idx := by
  unfold ChainFS.find findTable at hfind
  split at hfind
  · rw [resolveTable, if_neg (fun hroot => hslash hroot.2)] at hfind
    obtain ⟨idx, hwalk, heq⟩ := Option.map_eq_some_iff.mp hfind
    exact ⟨idx, heq.symm, walkTable_some hwalk⟩
  · obtain ⟨idx, hlookup, heq⟩ := Option.map_eq_some_iff.mp hfind
    exact ⟨idx, heq.symm, (lookup_some hlookup).1, (lookup_some hlookup).2.1⟩

theorem SmallFiles.read {buffer buffer' : Memory} {size n : ℕ}
    (h : SmallFiles s) (hslash : path.head? ≠ some slash)
    (hcall : chainfsReadFile s path buffer size = (s', some (buffer', n))) :
    n ≤ 19 := by
  obtain ⟨m, hread⟩ := h.disk.mounted.readFile_eq path buffer size
  rw [hcall] at hread
  cases hfind : s.find shellGeometry path with
  | none =>
      rw [hfind] at hread
      cases hread
  | some t =>
      obtain ⟨idx, rfl, hidx, hone⟩ := find_relative hslash hfind
      have hsize := h.sizes idx hidx hone
      rw [hfind] at hread
      have hsafe := readChain_safe { s with sectorBuffer := m }
        ((Target.slot idx).found s.disk).entry buffer size
        (show (entryOf s.disk idx).size < 2 ^ 32 by omega)
      have hbound := hsafe.bounded
      have hn : n = (readChain { s with sectorBuffer := m } buffer size
          ((entryOf s.disk idx).size + 1) (entryOf s.disk idx).size 0
          (entryOf s.disk idx).startBlock).2.2 :=
        congrArg Prod.snd (Option.some.inj (congrArg Prod.snd hread))
      rw [hn]
      exact hbound.trans ((Nat.min_le_left _ _).trans hsize)

end Otsos
