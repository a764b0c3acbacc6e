import Otsos.Bin.CatScreen
import Otsos.Bin.ScreenOutput
import Otsos.ChainFS.PowerLoss

/-!
# Sessions at the shell

After a `format` the shell keeps a tree of names: `touch`, `mkdir` and `cd` are
calls on it, and the commands that only read leave it alone.  So `cat` shows the
text that was typed behind the last `touch` that worked.
-/

namespace Otsos

open Lib

variable {g : Geometry} {s s' s₀ s₁ : Shell} {fs fs' : ChainFS}
  {chain : ℕ → List ℕ} {t t' : NamedTree} {c : Command}
  {input : ShellInput} {name : CString} {call : FsCall} {code : ℤ}
  {lost : Set TreeKey} {hist : List FsEvent} {text line : List UInt8}

/-! ## Commands -/

/-- The calls with which commands change the tree or walk in it. -/
inductive Command.Makes : Command → FsCall → Prop
  | mkdir {name : CString} : Makes (.mkdir name.chars) (.mkdir name)
  | cd {name : CString} : Makes (.cd name.chars) (.chdir name)
  | touch {name : CString} {content : List UInt8} :
      Makes (.touch name.chars content)
        (.writeFile name (stringBytes content) content.length)

/-- The command does not change the file system.  Without a path `cd` never
does: the root is not found. -/
def Command.Reads : Command → Prop
  | .mkdir _ | .cd _ | .rmdir _ | .touch _ _ | .format | .testFs
  | .disk (.clear _) => False
  | _ => True

/-- The command that is typed next. -/
def Shell.typedCommand (s : Shell) (input : ShellInput) : Command :=
  shellCommand
    (editLine 2047 s.terminal.shiftPressed input.line).line

/-- Turns with calls that are made with care, or with commands that only read;
every turn comes back to the prompt. -/
inductive Session (s₀ : Shell) : List FsEvent → Set TreeKey → Shell → Prop
  | start : Session s₀ [] ∅ s₀
  | makes {hist : List FsEvent} {lost : Set TreeKey} {s s' : Shell}
      {input : ShellInput} {call : FsCall} {fs : ChainFS} {code : ℤ}
      (before : Session s₀ hist lost s)
      (makes : (s.typedCommand input).Makes call)
      (careful : Careful lost s.fs call)
      (returns : s.fs.exec call = .ok (fs, code))
      (turn : s.turn input = .ok s') :
      Session s₀ (hist ++ [.call call code])
        (if code = 0 then lost else lost ∪ s.fs.endangered call) s'
  | reads {hist : List FsEvent} {lost : Set TreeKey} {s s' : Shell}
      {input : ShellInput} (before : Session s₀ hist lost s)
      (reads : (s.typedCommand input).Reads) (turn : s.turn input = .ok s') :
      Session s₀ hist lost s'

/-! ## One turn -/

theorem bind_eq_ok {x : Except Shell Shell} {f : Shell → Except Shell Shell}
    (h : (x >>= f) = .ok s') : ∃ s, x = .ok s ∧ f s = .ok s' := by
  cases x with
  | error s => cases h
  | ok s => exact ⟨s, rfl, h⟩

/-- A turn that comes back has read a line and run the command in it. -/
theorem turn_cases (h : s.turn input = .ok s') :
    ∃ s₁ s₂, s.scanf s.terminal.currentLine 2 input.line = .ok s₁ ∧
      Shell.branch { s₁ with terminal := s₁.terminal.nextLine } input
        (s.typedCommand input) = .ok s₂ ∧ s' = s₂.clamp.clamp := by
  obtain ⟨s₁, hscanf, hrest⟩ := bind_eq_ok h
  have hread := Shell.lineRead hscanf rfl
  obtain ⟨s₃, hshell, hclamp⟩ := bind_eq_ok hrest
  obtain ⟨s₂, hbranch, hclamp'⟩ := bind_eq_ok hshell
  refine ⟨s₁, s₂, hscanf, ?_, ?_⟩
  · rw [Shell.typedCommand, ← hread.string]
    exact hbranch
  · cases hclamp
    cases hclamp'
    rfl

theorem report_fs {r : Except Fault (ChainFS × ℤ)} {done failed : Message}
    (h : s.report r done failed = .ok s') :
    ∃ fs code, r = .ok (fs, code) ∧ s'.fs = fs := by
  unfold Shell.report at h
  cases r with
  | error fault => cases h
  | ok r =>
      cases h
      exact ⟨r.1, r.2, rfl, rfl⟩

theorem currentPath_state {n : ℕ} {out : Option (List UInt8)}
    (h : chainfsGetCurrentPath fs n = .ok (fs', out)) :
    ∃ m, fs' = { fs with sectorBuffer := m } := by
  unfold chainfsGetCurrentPath at h
  split at h
  · cases h
    exact ⟨fs.sectorBuffer, rfl⟩
  · cases hloop : currentPathLoop fs (chainfsMaxPath + 1) fs.currentDirBlock []
      with
    | error fault =>
        rw [hloop] at h
        cases h
    | ok r =>
        rw [hloop] at h
        cases h
        exact currentPathLoop_state hloop

theorem readDir_fs (h : s.readDir = .ok s') :
    ∃ m, s'.fs = { s.fs with sectorBuffer := m } := by
  unfold Shell.readDir at h
  cases hpath : chainfsGetCurrentPath s.fs 256 with
  | error fault =>
      rw [hpath] at h
      cases h
  | ok r =>
      rw [hpath] at h
      cases h
      exact currentPath_state hpath

theorem branch_makes (hmakes : c.Makes call)
    (h : s.branch input c = .ok s') :
    ∃ fs code m, s.fs.exec call = .ok (fs, code) ∧
      s'.fs = { fs with sectorBuffer := m } := by
  cases hmakes with
  | mkdir =>
      obtain ⟨s₁, hreport, hprompt⟩ := bind_eq_ok h
      obtain ⟨fs, code, hcall, hfs⟩ := report_fs hreport
      cases hprompt
      exact ⟨fs, code, fs.sectorBuffer, hcall, hfs⟩
  | @cd name =>
      simp only [Shell.branch, Shell.cd] at h
      split at h
      · obtain ⟨s₁, hread, hprompt⟩ := bind_eq_ok h
        obtain ⟨m, hfs⟩ := readDir_fs hread
        cases hprompt
        exact ⟨_, _, m, rfl, hfs⟩
      · cases h
        exact ⟨_, _, (chainfsChdir s.fs name.chars).1.sectorBuffer, rfl, rfl⟩
  | @touch name content =>
      simp only [Shell.branch, Shell.touch] at h
      cases hcall : chainfsWriteFile s.fs name.chars (stringBytes content)
          content.length with
      | error fault =>
          rw [hcall] at h
          cases h
      | ok r =>
          rw [hcall] at h
          cases h
          refine ⟨r.1, r.2, r.1.sectorBuffer, hcall, ?_⟩
          split <;> rfl

/-! ## Commands that only read -/

theorem superblock_type {m : Memory} (h : sbMagic m = chainfsMagic) :
    (entryAt m 0).type ≠ chainfsTypeDir := by
  have hbyte : sbMagic m / 256 % 256 = (entryAt m 0).type.toNat := by
    have hlow := (m 0).toNat_lt
    have hlt := (m (0 + 1)).toNat_lt
    simp only [sbMagic, Memory.load, entryAt, Nat.mul_zero]
    omega
  intro hdir
  rw [h, hdir] at hbyte
  exact absurd hbyte (by decide)

theorem TreeState.chdir_root (h : TreeState g fs chain t) :
    ∃ m, chainfsChdir fs (literal "/") =
      ({ fs with sectorBuffer := m }, -1) := by
  have hmagic : sbMagic (fs.disk 0) = chainfsMagic := by
    rw [h.super]
    exact h.mounted.magic
  obtain ⟨m, hchdir⟩ := h.mounted.chdir_eq (literal "/")
  refine ⟨m, hchdir.trans ?_⟩
  exact if_pos (superblock_type hmagic)

theorem asked_fs {title : List UInt8} {row col : ℕ} {polls : List Poll}
    (h : (s.ask title).scanf row col polls = .ok s') : s'.fs = s.fs :=
  (Shell.lineRead h rfl).fs

theorem calcShow_fs (s : Shell) (result : Option Message) :
    (s.calcShow result).fs = s.fs := by
  cases result <;> rfl

theorem calc_fs (h : s.calc input = .ok s') : s'.fs = s.fs := by
  obtain ⟨s₁, hfirst, hrest⟩ := bind_eq_ok h
  obtain ⟨s₂, hsecond, hrest⟩ := bind_eq_ok hrest
  obtain ⟨s₃, hthird, hrest⟩ := bind_eq_ok hrest
  have hfs : s₃.fs = s.fs :=
    (asked_fs hthird).trans ((asked_fs hsecond).trans (asked_fs hfirst))
  dsimp only at hrest
  split at hrest
  · cases hrest
  · rw [← Except.ok.inj hrest]
    exact (calcShow_fs _ _).trans hfs

theorem mydir_fs (h : s.mydir = .ok s') :
    ∃ m, s'.fs = { s.fs with sectorBuffer := m } := by
  unfold Shell.mydir at h
  cases hpath : chainfsGetCurrentPath s.fs 256 with
  | error fault =>
      rw [hpath] at h
      cases h
  | ok r =>
      obtain ⟨fs, out⟩ := r
      rw [hpath] at h
      cases out <;> cases h <;> exact currentPath_state hpath

theorem cat_fs (hmounted : Mounted g s.fs) (filename : List UInt8)
    (stack : Memory) :
    ∃ m, (s.cat filename stack).fs = { s.fs with sectorBuffer := m } := by
  obtain ⟨m, hstate⟩ := hmounted.readFile_state filename stack 2047
  refine ⟨m, ?_⟩
  rw [← hstate]
  unfold Shell.cat
  rcases chainfsReadFile s.fs filename stack 2047 with ⟨fs, - | r⟩ <;> rfl

theorem branch_reads (h : TreeState g s.fs chain t) (hreads : c.Reads)
    (hok : s.branch input c = .ok s') :
    ∃ m, s'.fs = { s.fs with sectorBuffer := m } := by
  have hsame : s'.fs = s.fs → ∃ m, s'.fs = { s.fs with sectorBuffer := m } :=
    fun heq => ⟨s.fs.sectorBuffer, heq⟩
  match c, hreads, hok with
  | .shutdown, _, hok => cases hok
  | .mydir, _, hok => exact mydir_fs hok
  | .calc, _, hok => exact hsame (calc_fs hok)
  | .ls path, _, hok =>
      cases hok
      exact h.mounted.listDir_state path 20
  | .cdRoot, _, hok =>
      obtain ⟨m, hchdir⟩ := h.chdir_root
      simp only [Shell.branch, Shell.cd, hchdir] at hok
      cases hok
      exact ⟨m, rfl⟩
  | .cat filename, _, hok =>
      cases hok
      exact cat_fs h.mounted filename input.stack
  | .reboot, _, hok | .info, _, hok | .clear, _, hok | .help, _, hok
  | .echo text, _, hok | .fetch, _, hok | .disk .info, _, hok
  | .disk .usage, _, hok | .disk (.dump sector), _, hok
  | .disk .help, _, hok | .mkdirUsage, _, hok | .rmdirUsage, _, hok
  | .touchUsage, _, hok | .catUsage, _, hok | .unknown, _, hok =>
      cases hok
      exact hsame rfl

/-! ## The texts that are typed -/

theorem touchArguments_suffix (line : List UInt8) :
    (touchArguments line).2 <:+ line := by
  induction line with
  | nil => exact List.suffix_refl []
  | cons c ptr ih =>
      rw [touchArguments]
      split
      · exact List.drop_suffix 4 _
      · exact ih.trans (List.suffix_cons c ptr)

/-- The content behind `touch` is the end of the line. -/
def Command.Content (line : List UInt8) : Command → Prop
  | .touch _ content => content <:+ line.drop 6
  | _ => True

theorem ite_content {p : Prop} [Decidable p] {c c' : Command}
    (hthen : c.Content line) (helse : c'.Content line) :
    (if p then c else c').Content line := by
  split
  · exact hthen
  · exact helse

theorem shellCommand_content (line : List UInt8) :
    (shellCommand line).Content line := by
  unfold shellCommand
  repeat' apply ite_content
  all_goals first
    | exact trivial
    | exact touchArguments_suffix _

/-- The contents of all files are strings that `cat` can read at once. -/
def TypedTexts (t : NamedTree) : Prop :=
  ∀ key text, t.node key = some (.file text) →
    0 ∉ text ∧ text.length ≤ 2047

theorem typed_content {content : List UInt8} {name : List UInt8}
    (h : s.scanf s.terminal.currentLine 2 input.line = .ok s')
    (hcommand : s.typedCommand input = .touch name content) :
    0 ∉ content ∧ content.length ≤ 2047 := by
  have hread := Shell.lineRead h rfl
  have hsuffix := shellCommand_content s'.string
  rw [hread.string, ← Shell.typedCommand, hcommand, ← hread.string]
    at hsuffix
  have hsub : content <:+ s'.string := hsuffix.trans (List.drop_suffix 6 _)
  have hlength := hsuffix.length_le
  have hstring : s'.string.length ≤ 2048 := length_cString_le _ _ _
  rw [List.length_drop] at hlength
  refine ⟨?_, by omega⟩
  intro hmem
  apply hread.noNul
  rw [← hread.string]
  exact hsub.subset hmem

theorem map_stringBytes (content : List UInt8) :
    (List.range content.length).map (stringBytes content) = content := by
  apply List.ext_getElem (by simp)
  intro i hi hi'
  simp [stringBytes, hi']

theorem TypedTexts.put (h : TypedTexts t) {n : Option Node}
    (hn : ∀ text, n = some (.file text) →
      0 ∉ text ∧ text.length ≤ 2047) : TypedTexts (t.put name n) := by
  intro key text hnode
  by_cases hkey : key = t.key name
  · subst hkey
    apply hn
    rwa [NamedTree.put_self] at hnode
  · apply h key text
    rwa [NamedTree.put_other hkey] at hnode

theorem TypedTexts.step (h : TypedTexts t) (hmakes : c.Makes call)
    (hcontent : ∀ name content, c = .touch name content →
      0 ∉ content ∧ content.length ≤ 2047)
    (hstep : t.Step (.call call code) t') : TypedTexts t' := by
  cases hstep with
  | failed nonzero refuses => exact h
  | done succeeds =>
      cases succeeds with
      | writeFile =>
          cases hmakes
          apply h.put
          intro text hnode
          rw [map_stringBytes] at hnode
          cases hnode
          exact hcontent _ _ rfl
      | deleteFile present => cases hmakes
      | readFile => exact h
      | mkdir absent fresh =>
          apply h.put
          intro text hnode
          cases hnode
      | chdir present => exact h
      | listDir => exact h
      | init => exact h

/-! ## Sessions -/

theorem TreeState.withBuffer (h : TreeState g fs chain t) (m : Memory) :
    TreeState g { fs with sectorBuffer := m } chain t :=
  h.of_unchanged (Unchanged.of_buffer h.heap m)

theorem Session.tree {t₀ : NamedTree} (hsession : Session s₀ hist lost s)
    (hstart : TreeState g s₀.fs chain t₀) (hlost : t₀.lost = ∅)
    (htexts : TypedTexts t₀) :
    ∃ chain t, TreeState g s.fs chain t ∧ t₀.Run hist t ∧ t.lost = lost ∧
      TypedTexts t := by
  induction hsession with
  | start => exact ⟨chain, t₀, hstart, .start, hlost, htexts⟩
  | makes before makes careful returns turn ih =>
      obtain ⟨chain₁, t, hstate, hbefore, rfl, htexts⟩ := ih
      obtain ⟨s₁, s₂, hscanf, hbranch, rfl⟩ := turn_cases turn
      obtain ⟨fs, code, m, hexec, hfs⟩ := branch_makes makes hbranch
      have hsame : s₁.fs = _ := (Shell.lineRead hscanf rfl).fs
      rw [hsame, returns] at hexec
      cases hexec
      obtain ⟨chain₂, t', hnext, hstep⟩ := hstate.step careful returns
      refine ⟨chain₂, t', ?_, hbefore.step hstep, ?_, ?_⟩
      · show TreeState g s₂.fs chain₂ t'
        rw [hfs]
        exact hnext.withBuffer m
      · rw [hstep.lost_call, hstate.endangered_eq careful]
      · exact htexts.step makes (fun _ _ => typed_content hscanf) hstep
  | reads before reads turn ih =>
      obtain ⟨chain₁, t, hstate, hbefore, rfl, htexts⟩ := ih
      obtain ⟨s₁, s₂, hscanf, hbranch, rfl⟩ := turn_cases turn
      have hsame : s₁.fs = _ := (Shell.lineRead hscanf rfl).fs
      rw [← hsame] at hstate
      obtain ⟨m, hfs⟩ := @branch_reads _ { s₁ with
        terminal := s₁.terminal.nextLine } _ _ _ _ _ hstate reads hbranch
      refine ⟨chain₁, t, ?_, hbefore, rfl, htexts⟩
      show TreeState g s₂.fs chain₁ t
      rw [hfs]
      exact hstate.withBuffer m

theorem format_state (hready : HeapReady fs.heap) (m : Memory) :
    TreeState shellGeometry
      { (chainfsFormat fs 20480 100).1 with sectorBuffer := m } (fun _ => [])
      NamedTree.formatted := by
  have h := (formatted_withoutLog fs hready).treeState (by decide)
    shellGeometry_noWrap
  exact h.of_control ⟨rfl, rfl, rfl⟩ h.heap rfl rfl h.entered h.kept

/-- A `format` that comes back leaves the tree of the root. -/
theorem format_turn (hready : HeapReady s.fs.heap)
    (hcommand : s.typedCommand input = .format)
    (hturn : s.turn input = .ok s') :
    TreeState shellGeometry s'.fs (fun _ => []) NamedTree.formatted := by
  obtain ⟨s₁, s₂, hscanf, hbranch, rfl⟩ := turn_cases hturn
  have hfs : s₁.fs = s.fs := (Shell.lineRead hscanf rfl).fs
  have hheap : HeapReady (chainfsInit s₁.fs).1.heap := by
    rw [init_heap, hfs]
    exact hready
  obtain ⟨-, -, s₀, -, -, hformat⟩ := formatted_withoutLog _ hheap
  have hcode : (chainfsFormat (chainfsInit s₁.fs).1 20480 100).2 = 0 := by
    rw [chainfsFormat_eq _ (by decide)]
  rw [hcommand] at hbranch
  simp only [Shell.branch, Shell.format, if_pos hcode] at hbranch
  obtain ⟨s₃, hread, hprompt⟩ := bind_eq_ok hbranch
  obtain ⟨m, hs₃⟩ := readDir_fs hread
  cases hprompt
  show TreeState shellGeometry s₃.fs _ _
  rw [hs₃]
  exact format_state hheap m

/-! ## What `cat` shows -/

/-- The shell when the line was entered. -/
def Shell.entered (s : Shell) (input : ShellInput) : Shell :=
  let s := s.typed s.terminal.currentLine 2 input.line
  { s with terminal := s.terminal.nextLine }

theorem clamp_vga (t : Terminal) : t.clamp.vga = t.vga := by
  unfold Terminal.clamp
  split <;> rfl

theorem catShow_eq {t : Terminal} {buffer : Memory}
    (hcontent : ∀ i (hi : i < text.length), buffer i = text[i])
    (hnul : 0 ∉ text) (hsize : text.length ≤ 2047) :
    t.catShow buffer text.length = t.sayLines (textLines text) := by
  rw [Terminal.catShow, catLoop_prints, ← Terminal.catCalls,
    catCalls_eq hcontent hnul hsize, foldl_linePrints]

theorem cat_turn (hcommand : s.typedCommand input = .cat name.chars)
    (hturn : s.turn input = .ok s') :
    s'.terminal.vga =
      ((s.entered input).cat name.chars input.stack).terminal.vga := by
  obtain ⟨s₁, s₂, hscanf, hbranch, rfl⟩ := turn_cases hturn
  rw [s.scanf_eq] at hscanf
  split at hscanf
  · rw [hcommand] at hbranch
    cases hscanf
    show s₂.terminal.clamp.clamp.vga = _
    rw [clamp_vga, clamp_vga, ← Except.ok.inj hbranch]
    rfl
  · cases hscanf

theorem TreeState.cat_file (h : TreeState g s.fs chain t)
    (hname : KnownName t name)
    (hnode : t.node (t.key name) = some (.file text)) (hnul : 0 ∉ text)
    (hsize : text.length ≤ 2047) (stack : Memory) :
    (s.cat name.chars stack).terminal.vga =
      (s.terminal.sayLines (textLines text)).prompt.vga := by
  obtain ⟨buffer, hread, hcontent, -⟩ :=
    h.reads_file hname hnode stack 2047
  rw [Nat.min_eq_right hsize] at hread hcontent
  have hbytes : ∀ i (hi : i < text.length), buffer i = text[i] := by
    intro i hi
    have hbyte := hcontent i hi
    rw [List.getElem?_eq_getElem hi, Option.some.injEq] at hbyte
    exact hbyte.symm
  unfold Shell.cat
  cases hresult : chainfsReadFile s.fs name.chars stack 2047 with
  | mk fs out =>
      rw [hresult] at hread
      cases hread
      show (s.terminal.catShow buffer text.length).prompt.clamp.vga = _
      rw [clamp_vga, catShow_eq hbytes hnul hsize]

theorem TreeState.cat_absent (h : TreeState g s.fs chain t)
    (hname : KnownName t name) (hnone : t.node (t.key name) = none)
    (stack : Memory) :
    (s.cat name.chars stack).terminal.vga =
      (s.terminal.say ⟨literal "failed to read", 0x0C⟩).prompt.vga := by
  have hread := h.reads_absent hname hnone stack 2047
  unfold Shell.cat
  cases hresult : chainfsReadFile s.fs name.chars stack 2047 with
  | mk fs out =>
      rw [hresult] at hread
      cases hread
      exact clamp_vga _

/-- After any session the tree of the calls says what `cat` shows: the lines of
the text that was typed with the file, or that there is none. -/
theorem session_shows_texts (hready : HeapReady s₀.fs.heap)
    (hformat : s₀.typedCommand input = .format)
    (hturn : s₀.turn input = .ok s₁) (hsession : Session s₁ hist lost s) :
    ∃ t, NamedTree.formatted.Run hist t ∧ t.lost = lost ∧
      s.fs.currentDirBlock = t.current ∧
      ∀ input s' name, KnownName t name →
        s.typedCommand input = .cat name.chars → s.turn input = .ok s' →
        (∀ text, t.node (t.key name) = some (.file text) →
          s'.terminal.vga = ((s.entered input).terminal.sayLines
            (textLines text)).prompt.vga) ∧
        (t.node (t.key name) = none →
          s'.terminal.vga = ((s.entered input).terminal.say
            ⟨literal "failed to read", 0x0C⟩).prompt.vga) := by
  have hstart := format_turn hready hformat hturn
  have htexts : TypedTexts NamedTree.formatted := by
    intro key text hnode
    by_cases hkey : key = NamedTree.rootKey
    · rw [hkey, NamedTree.formatted_root] at hnode
      cases hnode
    · rw [NamedTree.formatted_other hkey] at hnode
      cases hnode
  obtain ⟨chain, t, hstate, hhist, hlost, htexts⟩ :=
    hsession.tree hstart rfl htexts
  refine ⟨t, hhist, hlost, hstate.current, ?_⟩
  intro input s' name hname hcommand hcat
  have hentered : TreeState shellGeometry (s.entered input).fs chain t :=
    hstate
  rw [cat_turn hcommand hcat]
  constructor
  · intro text hnode
    obtain ⟨hnul, hsize⟩ := htexts _ text hnode
    exact hentered.cat_file hname hnode hnul hsize input.stack
  · intro hnone
    exact hentered.cat_absent hname hnone input.stack

/-- What is known of the state after a turn. -/
theorem evaluated_turn {r : Except Shell Shell} {α : Type*} {f : Shell → α}
    {v : α} (h : r.toOption.map f = some v) :
    ∃ s, r = .ok s ∧ f s = v := by
  cases r with
  | error s => cases h
  | ok s => exact ⟨s, rfl, Option.some.inj h⟩

/-- The keys of `format`, `touch a -C hi` and `cat a`, each with Enter. -/
theorem session_shows_texts_typed : ∃ s₁ s s' input,
    Session s₁ [.call (.writeFile ⟨[97], by decide⟩
      (stringBytes (literal "hi")) 2) 0] ∅ s ∧ s.turn input = .ok s' ∧
      s'.terminal.vga =
        ((s.entered input).terminal.sayLines [literal "hi"]).prompt.vga := by
  let format := keysTyped [0x21, 0x18, 0x13, 0x32, 0x1E, 0x14, 0x1C]
  let touch := keysTyped [0x14, 0x18, 0x16, 0x2E, 0x23, 0x39, 0x1E, 0x39,
    0x0C, 0x2A, 0x2E, 0xAA, 0x39, 0x23, 0x17, 0x1C]
  let cat := keysTyped [0x2E, 0x1E, 0x14, 0x39, 0x1E, 0x1C]
  let call : FsCall :=
    .writeFile ⟨[97], by decide⟩ (stringBytes (literal "hi")) 2
  have hturns : (blankShell.turn format).toOption.map (fun s =>
      (s.terminal.shiftPressed, decide (DenotesDirectory s.fs [97]),
        ((s.fs.exec call).map Prod.snd).toOption,
        (s.turn touch).toOption.map fun s' =>
          (s'.terminal.shiftPressed, (s'.turn cat).toOption.isSome))) =
      some (false, false, some 0, some (false, true)) := by
    decide +kernel
  obtain ⟨s₁, hformat, hs₁⟩ := evaluated_turn hturns
  simp only [Prod.mk.injEq, decide_eq_false_iff_not] at hs₁
  obtain ⟨hshift₁, hfile, hcode, htouched⟩ := hs₁
  obtain ⟨s, htouch, hs⟩ := evaluated_turn htouched
  simp only [Prod.mk.injEq] at hs
  obtain ⟨hshift, hcat⟩ := hs
  have hexec : ∃ fs, s₁.fs.exec call = .ok (fs, 0) := by
    cases hresult : s₁.fs.exec call with
    | error fault =>
        rw [hresult] at hcode
        cases hcode
    | ok r =>
        rw [hresult] at hcode
        exact ⟨r.1, by rw [← Option.some.inj hcode]⟩
  obtain ⟨fs, hexec⟩ := hexec
  have hmakes : (s₁.typedCommand touch).Makes call := by
    rw [show s₁.typedCommand touch = .touch [97] (literal "hi") by
      rw [Shell.typedCommand, hshift₁]; decide]
    exact @Command.Makes.touch ⟨[97], by decide⟩ (literal "hi")
  have hsession := Session.start.makes hmakes
    ⟨⟨by decide, Set.notMem_empty _⟩, hfile, by decide⟩ hexec htouch
  rw [if_pos rfl] at hsession
  cases hshown : s.turn cat with
  | error s' =>
      rw [hshown] at hcat
      cases hcat
  | ok s' =>
      refine ⟨s₁, s, s', cat, hsession, hshown, ?_⟩
      have hready : HeapReady blankShell.fs.heap :=
        ⟨_, initHeap_invariant unbootedHeap⟩
      obtain ⟨t, hhist, hlost, -, hshows⟩ :=
        session_shows_texts hready (by decide) hformat hsession
      rw [NamedTree.run_snoc] at hhist
      obtain ⟨t₁, hhist, hdone⟩ := hhist
      obtain rfl := NamedTree.run_nil.mp hhist
      refine (hshows cat s' ⟨[97], by decide⟩ ⟨by decide, ?_⟩ ?_ hshown).1
        (literal "hi") ?_
      · rw [hlost]
        exact Set.notMem_empty _
      · rw [Shell.typedCommand, hshift]
        decide
      · cases hdone with
        | failed nonzero => exact absurd rfl nonzero
        | done succeeds =>
            have hwritten : NamedTree.formatted.Succeeds (.writeFile
              ⟨[97], by decide⟩ (stringBytes (literal "hi")) 2) t := succeeds
            cases hwritten
            rfl

end Otsos
