import Otsos.Bin.ShellFiles

/-!
# What the shell stores to the screen

`print` brings its row onto the page but does not look at the length of its
text, and `scanf` does neither.  So the output of the shell stays on the page as
long as the texts that somebody else has the length of fit in their rows: the
lines that are typed, the text of `echo`, the lines of a file and the paths.
-/

namespace Otsos

open Lib

variable {v₀ : Memory} {F : ChainFS → Prop} {s s' : Shell} {m : Message}
  {input : ShellInput} {row col : ℕ} {polls : List Poll}
  {path line : List UInt8} {command : Command}

/-! ## Where the lengths come from -/

/-- Each line fits in the row that the line counter of `cat` gives it. -/
def LinesFit (row : ℕ) : List (List UInt8) → Prop
  | [] => True
  | line :: lines =>
      PrintFits line row 0 ∧
        LinesFit (if 25 ≤ row + 1 then 24 else row + 1) lines

/-- The three lines typed at the prompts of `calc`, of which the first one is
at `row`, and the path behind the result. -/
def CalcFits (dir : List UInt8) (input : ShellInput) (shift : Bool)
    (row : ℕ) : Prop :=
  let first := editLine 2047 shift input.firstNumber
  let second := editLine 2047 first.shift input.secondNumber
  let operation := editLine 2047 second.shift input.operation
  TypedFits ⟨2048, row, 16, 0x0F⟩ shift input.firstNumber ∧
    (first.Closed 2047 →
      TypedFits ⟨2048, row + 1, 17, 0x0F⟩ first.shift input.secondNumber ∧
        (second.Closed 2047 →
          TypedFits ⟨2048, row + 2, 13, 0x0F⟩ second.shift input.operation ∧
            (operation.Closed 2047 →
              ¬ (operation.line.head? = some 47 ∧
                QuotientTooLarge first.line second.line) →
              PrintFits dir
                (if operation.line.headD 0 ∈ [43, 45, 42, 47] then row + 4
                else row + 3) 0)))

/-- What a command that prints from `row` on has to fit in. -/
def CommandFits (s : Shell) (input : ShellInput) (shift : Bool) (row : ℕ) :
    Command → Prop
  | .echo text => PrintFits text row 2
  | .mydir => ∀ fs path,
      chainfsGetCurrentPath s.fs 256 = .ok (fs, some path) →
        PrintFits path (row + 1) 0
  | .calc => CalcFits s.dir input shift row
  | .cat filename => ∀ fs buffer n,
      chainfsReadFile s.fs filename input.stack 2047 =
          (fs, some (buffer, n)) →
        LinesFit row (textLines (cString (buffer.set n 0) 0 2048))
  | _ => True

/-- The line that is typed stays on the page, and so does what the command in
it prints. -/
structure TurnFits (s : Shell) (input : ShellInput) : Prop where
  typed : TypedFits ⟨2048, s.terminal.currentLine, 2, 0x0F⟩
    s.terminal.shiftPressed input.line
  command : let e := editLine 2047 s.terminal.shiftPressed input.line
    e.Closed 2047 → CommandFits s input e.shift (s.terminal.currentLine + 1)
      (shellCommand e.line)

/-! ## The invariant -/

/-- The output so far lies on the page, and the file system is sound. -/
structure ScreenInvariant (v₀ : Memory) (F : ChainFS → Prop) (s : Shell) :
    Prop where
  screen : s.terminal.OnPage v₀
  files : F s.fs

/-- The state behind a `scanf`. -/
def Shell.typed (s : Shell) (row col : ℕ) (polls : List Poll) : Shell :=
  { s with
    terminal := (s.terminal.scanf s.sBuf row col polls).1
    sBuf := (s.terminal.scanf s.sBuf row col polls).2.1 }

theorem Shell.scanf_eq (s : Shell) (row col : ℕ) (polls : List Poll) :
    s.scanf row col polls =
      if (s.terminal.scanf s.sBuf row col polls).2.2 then
        .ok (s.typed row col polls)
      else .error (s.typed row col polls) := rfl

/-- `scanf` has come back with the line of the editor. -/
structure LineRead (s s' : Shell) (e : Editor) : Prop where
  closed : e.Closed 2047
  shift : s'.terminal.shiftPressed = e.shift
  string : s'.string = e.line
  noNul : 0 ∉ e.line
  currentLine : s'.terminal.currentLine = s.terminal.currentLine
  dir : s'.dir = s.dir
  fs : s'.fs = s.fs

theorem Shell.lineRead {shift : Bool} (h : s.scanf row col polls = .ok s')
    (hshift : s.terminal.shiftPressed = shift) :
    LineRead s s' (editLine 2047 shift polls) := by
  subst hshift
  rw [s.scanf_eq] at h
  split at h
  · rename_i hreturned
    cases h
    obtain ⟨hclosed, hshift, hstring, hnul⟩ :=
      Terminal.scanf_returned hreturned
    exact ⟨hclosed, hshift, hstring, hnul, rfl, rfl, rfl⟩
  · cases h

namespace ScreenInvariant

theorem say_short (h : ScreenInvariant v₀ F s)
    (hshort : m.text.length ≤ 80) : ScreenInvariant v₀ F (s.say m) :=
  ⟨h.screen.say_short hshort, h.files⟩

theorem prompt (h : ScreenInvariant v₀ F s) : ScreenInvariant v₀ F s.prompt :=
  ⟨h.screen.prompt, h.files⟩

theorem clamp (h : ScreenInvariant v₀ F s) : ScreenInvariant v₀ F s.clamp :=
  ⟨h.screen.clamp, h.files⟩

theorem scanf (h : ScreenInvariant v₀ F s)
    (hfits : TypedFits ⟨2048, row, col, 0x0F⟩ s.terminal.shiftPressed polls) :
    ScreenInvariant v₀ F (reached (s.scanf row col polls)) := by
  rw [s.scanf_eq]
  split
  · exact ⟨h.screen.scanf hfits, h.files⟩
  · exact ⟨h.screen.scanf hfits, h.files⟩

theorem bind {x : Except Shell Shell} {f : Shell → Except Shell Shell}
    (hx : ScreenInvariant v₀ F (reached x))
    (hf : ∀ s, x = .ok s → ScreenInvariant v₀ F s →
      ScreenInvariant v₀ F (reached (f s))) :
    ScreenInvariant v₀ F (reached (x >>= f)) := by
  cases x with
  | error s => exact hx
  | ok s => exact hf s rfl hx

theorem report {call : Except Fault (ChainFS × ℤ)} {done failed : Message}
    (h : ScreenInvariant v₀ F s)
    (hcall : ∀ fs code, call = .ok (fs, code) → F fs)
    (hdone : done.text.length ≤ 80) (hfailed : failed.text.length ≤ 80) :
    ScreenInvariant v₀ F (reached (s.report call done failed)) := by
  unfold Shell.report
  cases hresult : call with
  | error fault => exact h
  | ok r =>
      obtain ⟨fs, code⟩ := r
      refine ⟨h.screen.say_short ?_, hcall fs code hresult⟩
      split
      · exact hdone
      · exact hfailed

theorem readDir (h : ScreenInvariant v₀ FilesSound s) :
    ScreenInvariant v₀ FilesSound (reached s.readDir) := by
  unfold Shell.readDir
  cases hpath : chainfsGetCurrentPath s.fs 256 with
  | error fault => exact h
  | ok r => exact ⟨h.screen, h.files.currentPath hpath⟩

end ScreenInvariant

/-! ## The programs -/

theorem Terminal.OnPage.fetch {t : Terminal} (h : t.OnPage v₀) :
    t.fetch.OnPage v₀ :=
  h.sayAll (by decide)

theorem length_shownText_le (cs : List UInt8) :
    (shownText cs).length ≤ cs.length :=
  (List.takeWhile_prefix _).length_le

theorem length_wordBytes (v : ℕ) : (wordBytes v).length = 4 := by
  simp [wordBytes]

theorem length_getCpuVendor (cpuid : UInt32 → Cpuid) :
    (getCpuVendor cpuid).length ≤ 12 := by
  refine (length_shownText_le _).trans ?_
  simp [length_wordBytes]

theorem length_getCpuModel (cpuid : UInt32 → Cpuid) :
    (getCpuModel cpuid).length ≤ 48 := by
  refine (length_shownText_le _).trans ?_
  simp [List.length_flatMap, length_wordBytes]

theorem Terminal.OnPage.info {t : Terminal} (h : t.OnPage v₀)
    (cpuid : UInt32 → Cpuid) : (t.info cpuid).OnPage v₀ := by
  have hvendor := length_getCpuVendor cpuid
  have hmodel := length_getCpuModel cpuid
  apply Terminal.OnPage.prompt
  apply h.sayAll
  rw [List.forall_mem_cons, List.forall_mem_singleton]
  exact ⟨hvendor.trans (by decide), hmodel.trans (by decide)⟩

theorem Terminal.OnPage.help {t : Terminal} (h : t.OnPage v₀) :
    t.help.OnPage v₀ :=
  (h.sayAll (by decide)).prompt

theorem Terminal.OnPage.clear {t : Terminal} (h : t.OnPage v₀) :
    t.clear.OnPage v₀ := by
  apply Terminal.OnPage.prompt
  exact ⟨h.clearScreen.stored, h.clearScreen.beyond⟩

theorem Terminal.OnPage.divideException {t : Terminal} (h : t.OnPage v₀) :
    t.divideException.OnPage v₀ := by
  have htitle : PrintFits (literal "!!! KERNEL PANIC !!!") 0 30 :=
    printFits_short 0 (by decide)
  have htext : PrintFits (literal "Division By Zero") 2 0 :=
    printFits_short 2 (by decide)
  exact (h.clearScreen.print htitle).print htext

theorem ScreenInvariant.mydir (h : ScreenInvariant v₀ FilesSound s)
    (hfits : ∀ fs path, chainfsGetCurrentPath s.fs 256 = .ok (fs, some path) →
      PrintFits path (s.terminal.currentLine + 1) 0) :
    ScreenInvariant v₀ FilesSound (reached s.mydir) := by
  unfold Shell.mydir
  cases hpath : chainfsGetCurrentPath s.fs 256 with
  | error fault => exact h
  | ok r =>
      obtain ⟨fs, out⟩ := r
      have hfs := h.files.currentPath hpath
      cases out with
      | none =>
          exact ⟨(h.screen.say_short (by decide)).prompt.clamp, hfs⟩
      | some path =>
          have htitle : (s.terminal.say
              ⟨literal "Current directory: ", 0x0F⟩).OnPage v₀ :=
            h.screen.say_short (by decide)
          exact ⟨(htitle.say (hfits fs path hpath)).prompt.clamp, hfs⟩

/-! ## `calc` -/

theorem ScreenInvariant.ask {title : List UInt8} (h : ScreenInvariant v₀ F s)
    (hshort : title.length ≤ 78) : ScreenInvariant v₀ F (s.ask title) := by
  have hprompt : PrintFits title s.terminal.currentLine 2 :=
    printFits_short _ (by omega)
  exact ⟨(h.screen.prompt.print hprompt).nextLine, h.files⟩

theorem headD_cString (buffer : Memory) (n : ℕ) :
    (cString buffer 0 (n + 1)).headD 0 = buffer 0 := by
  rw [cString]
  by_cases hzero : buffer 0 = 0
  · rw [if_pos hzero, hzero]
    rfl
  · rw [if_neg hzero]
    rfl

theorem ScreenInvariant.showPath (h : ScreenInvariant v₀ F s)
    (hfits : PrintFits s.dir s.terminal.currentLine 0) :
    ScreenInvariant v₀ F ((s.print s.dir s.terminal.currentLine 0 0x0F).print
      (literal ">") s.terminal.currentLine 1 0x0F).clamp := by
  have hmark : PrintFits (literal ">") s.terminal.currentLine 1 :=
    printFits_short _ (by decide)
  exact ⟨((h.screen.print hfits).print hmark).clamp, h.files⟩

theorem ScreenInvariant.calcShow {result : Option Message}
    (h : ScreenInvariant v₀ F s)
    (hshort : ∀ m, result = some m → m.text.length ≤ 80)
    (hfits : PrintFits s.dir (if result.isSome = true then
      s.terminal.currentLine + 1 else s.terminal.currentLine) 0) :
    ScreenInvariant v₀ F (s.calcShow result) := by
  cases result with
  | none => exact h.showPath hfits
  | some m => exact (h.say_short (hshort m rfl)).showPath hfits

theorem calcOperation_short {resultBuf : Memory} {a b : Int32}
    {operation : UInt8} {m : Message}
    (h : calcOperation resultBuf a b operation = some (some m)) :
    m.text.length ≤ 80 := by
  have hresult : ∀ n, (calcResult resultBuf n).text.length ≤ 80 := by
    intro n
    exact (length_cString_le _ _ _).trans (by decide)
  unfold calcOperation at h
  split_ifs at h with hplus hminus htimes hslash hzero
  · cases h
    exact hresult _
  · cases h
    exact hresult _
  · cases h
    exact hresult _
  · obtain ⟨q, -, heq⟩ := Option.map_eq_some_iff.mp h
    cases heq
    exact hresult _
  · cases h
    decide
  · cases h

/-- A question of `calc` and the line that is typed behind it. -/
theorem ScreenInvariant.question {title : List UInt8} {shift : Bool}
    {f : Shell → Except Shell Shell} (h : ScreenInvariant v₀ F s)
    (hrow : s.terminal.currentLine = row)
    (hshift : s.terminal.shiftPressed = shift) (hshort : title.length ≤ 78)
    (hfits : TypedFits ⟨2048, row, col, 0x0F⟩ shift polls)
    (hanswer : ∀ s', LineRead (s.ask title) s' (editLine 2047 shift polls) →
      s'.terminal.currentLine = row + 1 → ScreenInvariant v₀ F s' →
      ScreenInvariant v₀ F (reached (f s'))) :
    ScreenInvariant v₀ F (reached
      ((s.ask title).scanf ((s.ask title).terminal.currentLine - 1) col polls >>=
        f)) := by
  subst hrow hshift
  refine ((h.ask hshort).scanf hfits).bind fun s' hs' h' => ?_
  have hread := Shell.lineRead hs' (show _ = s.terminal.shiftPressed from rfl)
  exact hanswer s' hread hread.currentLine h'

theorem ScreenInvariant.calc (h : ScreenInvariant v₀ F s)
    (hfits : CalcFits s.dir input s.terminal.shiftPressed
      s.terminal.currentLine) :
    ScreenInvariant v₀ F (reached (s.calc input)) := by
  obtain ⟨hfirst, hfits⟩ := hfits
  unfold Shell.calc
  refine h.question rfl rfl (by decide) hfirst fun s₁ hread₁ hline₁ h₁ => ?_
  obtain ⟨hsecond, hfits⟩ := hfits hread₁.closed
  refine h₁.question hline₁ hread₁.shift (by decide) hsecond
    fun s₂ hread₂ hline₂ h₂ => ?_
  obtain ⟨hoperation, hfits⟩ := hfits hread₂.closed
  refine h₂.question hline₂ hread₂.shift (by decide) hoperation
    fun s₃ hread₃ hline₃ h₃ => ?_
  have hfits := hfits hread₃.closed
  have hdir : s₃.dir = s.dir :=
    hread₃.dir.trans (hread₂.dir.trans hread₁.dir)
  have hhead : s₃.sBuf 0 = s₃.string.headD 0 := (headD_cString _ _).symm
  rw [← hread₁.string, ← hread₂.string, ← hread₃.string, ← hhead,
    ← @calcLines_eq_none input.stack, calcLines, ← hhead] at hfits
  cases hresult : calcOperation input.stack (atoi s₁.string) (atoi s₂.string)
      (s₃.sBuf 0) with
  | none =>
      dsimp only
      rw [hresult]
      exact ⟨h₃.screen.divideException, h₃.files⟩
  | some result =>
      dsimp only
      rw [hresult]
      apply h₃.calcShow
      · rintro m rfl
        exact calcOperation_short hresult
      · rw [hdir, hline₃]
        simp only [calcOperation_isSome hresult]
        exact hfits (hresult ▸ Option.some_ne_none _)

/-! ## `touch`, `cat` and `disk` -/

theorem ScreenInvariant.touch {filename content : List UInt8}
    (h : ScreenInvariant v₀ FilesSound s) (hnul : 0 ∉ filename) :
    ScreenInvariant v₀ FilesSound (reached (s.touch filename content)) := by
  unfold Shell.touch
  cases hcall : chainfsWriteFile s.fs filename (stringBytes content)
      content.length with
  | error fault => exact h
  | ok r =>
      obtain ⟨fs, code⟩ := r
      have h' : ScreenInvariant v₀ FilesSound { s with fs := fs } :=
        ⟨h.screen, h.files.writeFile hnul hcall⟩
      dsimp only
      split
      · exact h'.prompt.clamp
      · exact (h'.say_short (by decide)).prompt.clamp

theorem Terminal.OnPage.sayLines {t : Terminal} {lines : List (List UInt8)}
    (h : t.OnPage v₀) (hfits : LinesFit t.currentLine lines) :
    (t.sayLines lines).OnPage v₀ := by
  unfold Terminal.sayLines
  induction lines generalizing t with
  | nil => exact h
  | cons line lines ih =>
      obtain ⟨hline, hlines⟩ := hfits
      apply ih (h.say hline).clamp
      rw [Terminal.clamp_currentLine]
      exact hlines

theorem readFile_bounded {fs fs' : ChainFS} {buffer buffer' : Memory}
    {size n : ℕ}
    (hcall : chainfsReadFile fs path buffer size =
      (fs', some (buffer', n))) : n ≤ size := by
  obtain ⟨-, hentry⟩ := findFile_searched fs path
  unfold chainfsReadFile at hcall
  cases hfind : chainfsFindFile fs path with
  | mk fs₁ found =>
      rw [hfind] at hcall hentry
      cases found with
      | none => cases hcall
      | some f =>
          obtain ⟨m, i, hf⟩ := hentry f rfl
          have hsize : f.entry.size < 2 ^ 32 := by
            rw [hf]
            exact entryAt_size_lt m i
          have hbound := (readChain_safe fs₁ f.entry buffer size hsize).bounded
          obtain ⟨-, hout⟩ := Prod.mk.inj hcall
          rw [Option.some.inj hout] at hbound
          exact hbound.trans (Nat.min_le_right _ _)

theorem ScreenInvariant.cat {filename : List UInt8} {stack : Memory}
    (h : ScreenInvariant v₀ FilesSound s)
    (hfits : ∀ fs buffer n, chainfsReadFile s.fs filename stack 2047 =
        (fs, some (buffer, n)) →
      LinesFit s.terminal.currentLine
        (textLines (cString (buffer.set n 0) 0 2048))) :
    ScreenInvariant v₀ FilesSound (s.cat filename stack) := by
  have hfs := h.files.readFile filename stack 2047
  unfold Shell.cat
  cases hread : chainfsReadFile s.fs filename stack 2047 with
  | mk fs out =>
      rw [hread] at hfs
      cases out with
      | none =>
          have h' : ScreenInvariant v₀ FilesSound { s with fs := fs } :=
            ⟨h.screen, hfs⟩
          exact (h'.say_short (by decide)).prompt.clamp
      | some r =>
          obtain ⟨buffer, n⟩ := r
          have hn := readFile_bounded hread
          obtain ⟨htext, hlength⟩ := stringAt_cString (m := buffer.set n 0)
            (a := 0) (n := 2048) (k := n) (by omega)
            (by rw [Nat.zero_add]; exact Memory.set_same _ _ _)
          have hshown : (s.terminal.catShow buffer n).OnPage v₀ := by
            rw [Terminal.catShow, catLoop_eq htext (by omega) (by omega)]
            exact h.screen.sayLines (hfits fs buffer n hread)
          exact ⟨hshown.prompt.clamp, hfs⟩

theorem length_numberText_le (stack : Memory) (v : UInt32) (base : Int32)
    (size : ℕ) : (numberText stack v base size).length ≤ size :=
  length_cString_le _ _ _

theorem length_identifyText_le (identifyData : ℕ → UInt16) (first n : ℕ) :
    (identifyText identifyData first n).length ≤ 2 * n := by
  refine (length_shownText_le _).trans ?_
  simp [List.length_flatMap, Nat.mul_comm]

theorem Terminal.OnPage.diskInfo {t : Terminal} (h : t.OnPage v₀)
    (input : ShellInput) : (t.diskInfo input).OnPage v₀ := by
  have hmodel := length_identifyText_le input.identifyData 27 20
  have hserial := length_identifyText_le input.identifyData 10 10
  apply Terminal.OnPage.say_short
  · apply Terminal.OnPage.sayLabelled
    · apply Terminal.OnPage.sayLabelled
      · exact h.say_short (by decide)
      · decide
      · dsimp only
        omega
    · decide
    · dsimp only
      omega
  · have hsectors := length_numberText_le input.stack
      ((input.identifyData 60).toUInt32 |||
        (input.identifyData 61).toUInt32 <<< 16) 10 16
    have hmegabytes := length_numberText_le input.stack
      (((input.identifyData 60).toUInt32 |||
        (input.identifyData 61).toUInt32 <<< 16) * 512 / (1024 * 1024)) 10 16
    simp only [List.length_append]
    have htexts : (literal "  capacity: ").length +
        (literal " sectors (").length + (literal " MB)").length ≤ 48 := by
      decide
    omega

theorem Terminal.OnPage.diskUsage {t : Terminal} (h : t.OnPage v₀)
    (sb stack : Memory) : (t.diskUsage sb stack).OnPage v₀ := by
  unfold Terminal.diskUsage
  split
  · apply h.sayAll
    have hblocks := length_numberText_le stack
      (UInt32.ofNat (sbBlockCount sb)) 10 48
    have hfiles := length_numberText_le stack
      (UInt32.ofNat (sbTotalFiles sb)) 10 51
    rw [List.forall_mem_cons, List.forall_mem_cons, List.forall_mem_singleton]
    refine ⟨by decide, ?_, ?_⟩
    · rw [List.length_append]
      have htext : (literal "  total blocks: ").length ≤ 16 := by decide
      omega
    · rw [List.length_append]
      have htext : (literal "  max files: ").length ≤ 13 := by decide
      omega
  · exact h.say_short (by decide)

theorem length_dumpByte (stack : Memory) (val : UInt8) :
    (dumpByte stack val).length = 3 := by
  unfold dumpByte
  dsimp only
  split
  · rfl
  · rfl

theorem length_dumpLine_le (stack dumpBuffer : Memory) (i : ℕ) :
    (dumpLine stack dumpBuffer i).length ≤ 80 := by
  have haddr := length_numberText_le stack (UInt32.ofNat (i * 16)) 16 8
  have hmarks : (literal ": ").length = 2 ∧ (literal "|").length = 1 := by
    decide
  simp only [dumpLine, List.length_append, List.length_replicate,
    List.length_map, List.length_range, List.length_flatMap, length_dumpByte,
    hmarks, List.map_const', List.sum_replicate_nat]
  omega

theorem Terminal.OnPage.diskDump {t : Terminal} (h : t.OnPage v₀)
    (stack dumpBuffer : Memory) (sector : UInt32) :
    (t.diskDump stack dumpBuffer sector).OnPage v₀ := by
  apply Terminal.OnPage.sayAll
  · apply h.say_short
    have hsector := length_numberText_le stack sector 10 16
    have htext : (literal "dump").length = 4 := by decide
    rw [List.length_append]
    omega
  · intro m hmem
    obtain ⟨i, -, rfl⟩ := List.mem_map.mp hmem
    exact length_dumpLine_le stack dumpBuffer i

theorem ScreenInvariant.disk (h : ScreenInvariant v₀ FilesSound s)
    (input : ShellInput) (diskCommand : DiskCommand) :
    ScreenInvariant v₀ FilesSound (s.disk input diskCommand) := by
  have hprints : (s.diskPrints input diskCommand).OnPage v₀ := by
    cases diskCommand with
    | info => exact h.screen.diskInfo input
    | clear sector => exact h.screen.say_short (by decide)
    | usage => exact h.screen.diskUsage _ _
    | dump sector => exact h.screen.diskDump _ _ sector
    | help => exact h.screen.sayAll (by decide)
  refine ⟨hprints.clamp.prompt, ?_⟩
  cases diskCommand with
  | clear sector => exact h.files.cleared sector
  | info => exact h.files
  | usage => exact h.files
  | dump sector => exact h.files
  | help => exact h.files

/-! ## The file system commands -/

theorem length_listLine_le {e : FileEntry} (stack : Memory)
    (hname : e.nameString.length ≤ 30) : (listLine stack e).length ≤ 80 := by
  have hsize := length_numberText_le stack (UInt32.ofNat e.size) 10 16
  have htype : (if e.type = chainfsTypeDir then literal "[DIR]"
      else literal "[FILE]").length ≤ 6 := by
    split
    · decide
    · decide
  have htail : (if e.type = chainfsTypeFile then
      literal " (" ++ numberText stack (UInt32.ofNat e.size) 10 16 ++
        literal " bytes)"
      else []).length ≤ 25 := by
    split
    · have htexts : (literal " (").length + (literal " bytes)").length ≤ 9 := by
        decide
      simp only [List.length_append]
      omega
    · exact Nat.zero_le 25
  have hspace : (literal " ").length = 1 := by decide
  simp only [listLine, List.length_append]
  omega

theorem ScreenInvariant.ls (h : ScreenInvariant v₀ FilesSound s)
    (path : List UInt8) (stack : Memory) :
    ScreenInvariant v₀ FilesSound (s.ls path stack) := by
  have hfs := h.files.listDir path 20
  unfold Shell.ls
  cases hlist : chainfsListDir s.fs path 20 with
  | mk fs listed =>
      rw [hlist] at hfs
      have hshown : (s.terminal.showListing stack listed).OnPage v₀ := by
        rcases listed with - | (- | ⟨e, files⟩)
        · exact h.screen.say_short (by decide)
        · exact h.screen.say_short (by decide)
        · apply h.screen.sayAll
          intro m hmem
          obtain ⟨e', he', rfl⟩ := List.mem_map.mp hmem
          exact length_listLine_le stack (h.files.listed hlist e' he')
      exact ⟨hshown.prompt, hfs⟩

theorem ScreenInvariant.mkdir (h : ScreenInvariant v₀ FilesSound s)
    (hnul : 0 ∉ path) :
    ScreenInvariant v₀ FilesSound (reached (s.mkdir path)) := by
  refine (h.report ?_ (by decide) (by decide)).bind fun s₁ _ h₁ => h₁.prompt
  intro fs code hcall
  exact h.files.mkdir hnul hcall

theorem ScreenInvariant.rmdir (h : ScreenInvariant v₀ FilesSound s)
    (hnul : 0 ∉ path) :
    ScreenInvariant v₀ FilesSound (reached (s.rmdir path)) := by
  refine (h.report ?_ (by decide) (by decide)).bind fun s₁ _ h₁ => h₁.prompt
  intro fs code hcall
  have hfs := h.files.rmdir hnul
  rwa [Except.ok.inj hcall] at hfs

theorem ScreenInvariant.cd {done failed : Message}
    (h : ScreenInvariant v₀ FilesSound s) (hnul : 0 ∉ path)
    (hdone : done.text.length ≤ 80) (hfailed : failed.text.length ≤ 80) :
    ScreenInvariant v₀ FilesSound (reached (s.cd path done failed)) := by
  have hfs := h.files.chdir hnul
  unfold Shell.cd
  cases hcall : chainfsChdir s.fs path with
  | mk fs code =>
      rw [hcall] at hfs
      have h' : ScreenInvariant v₀ FilesSound { s with fs := fs } :=
        ⟨h.screen, hfs⟩
      dsimp only
      split
      · exact h'.readDir.bind fun s₁ _ h₁ => (h₁.say_short hdone).prompt
      · exact (h'.say_short hfailed).prompt

theorem ScreenInvariant.format (h : ScreenInvariant v₀ FilesSound s) :
    ScreenInvariant v₀ FilesSound (reached s.format) := by
  have hheap : HeapReady (chainfsInit s.fs).1.heap := by
    rw [init_heap]
    exact h.files.heap
  have hfs := (SmallFiles.format hheap).sound
  unfold Shell.format
  cases hcall : chainfsFormat (chainfsInit s.fs).1 20480 100 with
  | mk fs code =>
      rw [hcall] at hfs
      have h' : ScreenInvariant v₀ FilesSound { s with fs := fs } :=
        ⟨h.screen, hfs⟩
      dsimp only
      split
      · exact h'.readDir.bind fun s₁ _ h₁ => h₁.prompt
      · exact (h'.say_short (by decide)).prompt

/-! ## `test_fs` -/

theorem ScreenInvariant.testMkdir {name done failed : String}
    (h : ScreenInvariant v₀ SmallFiles s) (hnul : 0 ∉ literal name)
    (hdone : (literal done).length ≤ 80)
    (hfailed : (literal failed).length ≤ 80) :
    ScreenInvariant v₀ SmallFiles (reached (s.testMkdir name done failed)) := by
  refine h.report ?_ hdone hfailed
  intro fs code hcall
  have hexec : s.fs.exec (.mkdir ⟨literal name, hnul⟩) = .ok (fs, code) := hcall
  refine h.files.step ?_ hexec
  intro path data size heq
  cases heq

theorem ScreenInvariant.testWrite {name content done failed : String}
    (h : ScreenInvariant v₀ SmallFiles s) (hnul : 0 ∉ literal name)
    (hsize : (literal content).length ≤ 19)
    (hdone : (literal done).length ≤ 80)
    (hfailed : (literal failed).length ≤ 80) :
    ScreenInvariant v₀ SmallFiles
      (reached (s.testWrite name content done failed)) := by
  refine h.report ?_ hdone hfailed
  intro fs code hcall
  have hexec : s.fs.exec (.writeFile ⟨literal name, hnul⟩
      (stringBytes (literal content)) (literal content).length) =
        .ok (fs, code) := hcall
  refine h.files.step ?_ hexec
  intro path data size heq
  cases heq
  exact hsize

theorem length_testLine_le {e : FileEntry}
    (hname : e.nameString.length ≤ 30) : (testLine e).length ≤ 80 := by
  have htype : (if e.type = chainfsTypeDir then literal "[D]"
      else literal "[F]").length ≤ 3 := by
    split
    · decide
    · decide
  have hspaces : (literal "  ").length + (literal " ").length ≤ 3 := by decide
  simp only [testLine, List.length_append]
  omega

theorem ScreenInvariant.testList {name title : String}
    (h : ScreenInvariant v₀ SmallFiles s)
    (htitle : (literal title).length ≤ 80) :
    ScreenInvariant v₀ SmallFiles (s.testList name title) := by
  have hsaid : ScreenInvariant v₀ SmallFiles
      (s.say ⟨literal title, 0x0F⟩) := h.say_short htitle
  obtain ⟨m, hstate⟩ := h.files.disk.mounted.listDir_state (literal name) 10
  unfold Shell.testList
  dsimp only
  cases hlist : chainfsListDir s.fs (literal name) 10 with
  | mk fs listed =>
      rw [hlist] at hstate
      have hfs : SmallFiles fs := by
        rw [show fs = { s.fs with sectorBuffer := m } from hstate]
        exact h.files.of_buffer m
      rw [show (s.say ⟨literal title, 0x0F⟩).fs = s.fs from rfl, hlist]
      cases listed with
      | none => exact ⟨hsaid.screen, hfs⟩
      | some files =>
          refine ⟨hsaid.screen.sayAll ?_, hfs⟩
          intro m hmem
          obtain ⟨e, he, rfl⟩ := List.mem_map.mp hmem
          exact length_testLine_le (h.files.sound.listed hlist e he)

theorem ScreenInvariant.testRead {name label : String} {stack : Memory}
    (h : ScreenInvariant v₀ SmallFiles s)
    (hslash : (literal name).head? ≠ some slash)
    (hlabel : (literal label).length ≤ 80) (hcol : col + 19 ≤ 80) :
    ScreenInvariant v₀ SmallFiles (s.testRead name label col stack) := by
  obtain ⟨m, hstate⟩ :=
    h.files.disk.mounted.readFile_state (literal name) stack 256
  unfold Shell.testRead
  cases hread : chainfsReadFile s.fs (literal name) stack 256 with
  | mk fs out =>
      rw [hread] at hstate
      have hfs : SmallFiles fs := by
        rw [show fs = { s.fs with sectorBuffer := m } from hstate]
        exact h.files.of_buffer m
      cases out with
      | none => exact ⟨h.screen, hfs⟩
      | some r =>
          obtain ⟨buffer, n⟩ := r
          have hn := h.files.read hslash hread
          obtain ⟨-, hlength⟩ := stringAt_cString (m := buffer.set n 0)
            (a := 0) (n := 257) (k := n) (by omega)
            (by rw [Nat.zero_add]; exact Memory.set_same _ _ _)
          refine ⟨h.screen.sayLabelled hlabel ?_, hfs⟩
          dsimp only
          omega

theorem ScreenInvariant.testFormat (h : ScreenInvariant v₀ FilesSound s)
    {done failed : Message} (hdone : done.text.length ≤ 80)
    (hfailed : failed.text.length ≤ 80) :
    ScreenInvariant v₀ SmallFiles (reached
      (s.report (.ok (chainfsFormat s.fs 20480 100)) done failed)) := by
  refine ⟨h.screen.say_short ?_, SmallFiles.format h.files.heap⟩
  split
  · exact hdone
  · exact hfailed

theorem ScreenInvariant.testFs (h : ScreenInvariant v₀ FilesSound s)
    (stack : Memory) :
    ScreenInvariant v₀ FilesSound (reached (s.testFs stack)) := by
  have hsaid : ScreenInvariant v₀ FilesSound
      (s.say ⟨literal "=== ChainFS Directory Test ===", 0x0A⟩) :=
    h.say_short (by decide)
  have hrest : ScreenInvariant v₀ SmallFiles (reached (s.testFs stack)) := by
    unfold Shell.testFs
    refine (hsaid.testFormat (by decide) (by decide)).bind fun s₁ _ h₁ => ?_
    refine ((h₁.say_short (by decide)).testMkdir (by decide) (by decide)
      (by decide)).bind fun s₂ _ h₂ => ?_
    refine (h₂.testMkdir (by decide) (by decide) (by decide)).bind
      fun s₃ _ h₃ => ?_
    refine ((h₃.say_short (by decide)).testWrite (by decide) (by decide)
      (by decide) (by decide)).bind fun s₄ _ h₄ => ?_
    refine ((h₄.say_short (by decide)).testWrite (by decide) (by decide)
      (by decide) (by decide)).bind fun s₅ _ h₅ => ?_
    refine (h₅.testWrite (by decide) (by decide) (by decide)
      (by decide)).bind fun s₆ _ h₆ => ?_
    have hroot : ScreenInvariant v₀ SmallFiles
        (s₆.testList "/" "Root directory contents:") :=
      h₆.testList (by decide)
    have hboth : ScreenInvariant v₀ SmallFiles
        ((s₆.testList "/" "Root directory contents:").testList "test"
          "Test directory contents:") :=
      hroot.testList (by decide)
    let s₇ := (s₆.testList "/" "Root directory contents:").testList "test"
      "Test directory contents:"
    have hread : ScreenInvariant v₀ SmallFiles
        ((s₇.say ⟨literal "Reading files...", 0x0F⟩).testRead "root.txt"
          "  root.txt: " 12 stack) :=
      (hboth.say_short (by decide)).testRead (by decide) (by decide)
        (by decide)
    exact ((hread.testRead (by decide) (by decide) (by decide)).say_short
      (by decide)).prompt
  exact ⟨hrest.screen, hrest.files.sound⟩

/-! ## The turns of the loop -/

/-- The file names in a command are strings. -/
def Command.NoNul : Command → Prop
  | .mkdir path => 0 ∉ path
  | .cd path => 0 ∉ path
  | .rmdir path => 0 ∉ path
  | .touch filename _ => 0 ∉ filename
  | _ => True

theorem touchArguments_noNul (hnul : 0 ∉ line) :
    0 ∉ (touchArguments line).1 := by
  induction line with
  | nil => exact List.not_mem_nil
  | cons c ptr ih =>
      rw [List.mem_cons, not_or] at hnul
      rw [touchArguments]
      split
      · exact List.not_mem_nil
      · rw [List.mem_cons, not_or]
        exact ⟨hnul.1, ih hnul.2⟩

theorem argument_noNul (hnul : 0 ∉ line) (n : ℕ) : 0 ∉ argument line n :=
  fun hmem => hnul (List.mem_of_mem_drop hmem)

theorem ite_noNul {p : Prop} [Decidable p] {other : Command}
    (hthen : command.NoNul) (helse : other.NoNul) :
    (if p then command else other).NoNul := by
  split
  · exact hthen
  · exact helse

theorem shellCommand_noNul (hnul : 0 ∉ line) : (shellCommand line).NoNul := by
  unfold shellCommand
  repeat' apply ite_noNul
  all_goals first
    | exact trivial
    | exact argument_noNul hnul _
    | exact touchArguments_noNul (argument_noNul hnul 6)

theorem ScreenInvariant.branch (h : ScreenInvariant v₀ FilesSound s)
    (hnul : command.NoNul)
    (hfits : CommandFits s input s.terminal.shiftPressed
      s.terminal.currentLine command) :
    ScreenInvariant v₀ FilesSound (reached (s.branch input command)) := by
  match command, hnul, hfits with
  | .shutdown, _, _ => exact h
  | .reboot, _, _ => exact h
  | .mydir, _, hfits => exact h.mydir hfits
  | .info, _, _ => exact ⟨h.screen.info input.cpuid, h.files⟩
  | .clear, _, _ => exact ⟨h.screen.clear, h.files⟩
  | .help, _, _ => exact ⟨h.screen.help, h.files⟩
  | .echo text, _, hfits =>
      exact ⟨(h.screen.print hfits).nextLine.prompt, h.files⟩
  | .calc, _, hfits => exact h.calc hfits
  | .fetch, _, _ => exact ⟨h.screen.fetch, h.files⟩
  | .disk diskCommand, _, _ => exact h.disk input diskCommand
  | .mkdirUsage, _, _ => exact (h.say_short (by decide)).prompt
  | .mkdir path, hnul, _ => exact h.mkdir hnul
  | .ls path, _, _ => exact h.ls path input.stack
  | .cdRoot, _, _ =>
      rw [Shell.branch]
      refine h.cd ?_ ?_ ?_ <;> decide
  | .cd path, hnul, _ => refine h.cd hnul ?_ ?_ <;> decide
  | .rmdirUsage, _, _ => exact (h.say_short (by decide)).prompt
  | .rmdir path, hnul, _ => exact h.rmdir hnul
  | .touchUsage, _, _ => exact (h.say_short (by decide)).prompt.clamp
  | .touch filename content, hnul, _ => exact h.touch hnul
  | .catUsage, _, _ => exact (h.say_short (by decide)).prompt.clamp
  | .cat filename, _, hfits => exact h.cat hfits
  | .format, _, _ => exact h.format
  | .testFs, _, _ => exact h.testFs input.stack
  | .unknown, _, _ => exact (h.say_short (by decide)).prompt

theorem CommandFits.congr {shift : Bool} (hdir : s'.dir = s.dir)
    (hfs : s'.fs = s.fs) (h : CommandFits s input shift row command) :
    CommandFits s' input shift row command := by
  unfold CommandFits at h ⊢
  rw [hdir, hfs]
  exact h

theorem ScreenInvariant.turn (h : ScreenInvariant v₀ FilesSound s)
    (hfits : TurnFits s input) :
    ScreenInvariant v₀ FilesSound (reached (s.turn input)) := by
  unfold Shell.turn shellFunc
  refine (h.scanf hfits.typed).bind fun s₁ hs₁ h₁ => ?_
  have hread := Shell.lineRead hs₁ rfl
  have hcommand := (hfits.command hread.closed).congr hread.dir hread.fs
  rw [← hread.shift, ← hread.currentLine, ← hread.string] at hcommand
  have hnul : 0 ∉ s₁.string := by
    rw [hread.string]
    exact hread.noNul
  have hnext : ScreenInvariant v₀ FilesSound
      { s₁ with terminal := s₁.terminal.nextLine } :=
    ⟨h₁.screen.nextLine, h₁.files⟩
  refine ScreenInvariant.bind ?_ fun s₂ _ h₂ => h₂.clamp
  exact (hnext.branch (shellCommand_noNul hnul) hcommand).bind
    fun s₂ _ h₂ => h₂.clamp

/-! ## Runs -/

theorem kmain_invariant (vga : Vga) (sBuf : Memory) (disk : ℕ → Memory)
    (heap : Heap) :
    ScreenInvariant vga.videoMemory FilesSound (kmain vga sBuf disk heap) := by
  have hstart : Terminal.OnPage vga.videoMemory ⟨vga, false, 5, []⟩ :=
    ⟨storesOnPage_nil, fun _ _ => rfl⟩
  have htitle : PrintFits (literal "OTSOS started!") 0 30 :=
    printFits_short 0 (by decide)
  have htext : PrintFits (literal "There's nothing here yet =)") 3 0 :=
    printFits_short 3 (by decide)
  refine ⟨((hstart.clearScreen.print htitle).print htext).prompt, ?_⟩
  exact .unmounted ⟨rfl, rfl, _, initHeap_invariant heap⟩

theorem ShellRun.invariant {s₀ : Shell} {r : Except Shell Shell}
    (hrun : ShellRun TurnFits s₀ r) (h : ScreenInvariant v₀ FilesSound s₀) :
    ScreenInvariant v₀ FilesSound (reached r) := by
  induction hrun with
  | start => exact h
  | turn before meets ih => exact ih.turn meets

/-- In a run whose lines, echoed texts, files and paths fit, every byte that is
stored to the video memory lies on the text page, and the memory behind it is
never changed. -/
theorem shell_on_page {vga : Vga} {sBuf : Memory} {disk : ℕ → Memory}
    {heap : Heap} {r : Except Shell Shell}
    (hrun : ShellRun TurnFits (kmain vga sBuf disk heap) r) :
    (∀ o ∈ (reached r).terminal.stored, o < 4000) ∧
      ∀ x, 4000 ≤ x →
        (reached r).terminal.vga.videoMemory x = vga.videoMemory x := by
  have hinv := hrun.invariant (kmain_invariant vga sBuf disk heap)
  exact ⟨hinv.screen.stored, hinv.screen.beyond⟩

/-- The loop on a blank screen and a blank disk. -/
def blankShell : Shell :=
  kmain ⟨fun _ => 0, 0, 0⟩ (fun _ => 0) (fun _ => zeroSector) unbootedHeap

/-- Keys pressed at the first prompt of a machine that answers zeros. -/
def keysTyped (codes : List UInt8) : ShellInput where
  line := codes.map fun code => ⟨0x01, code⟩
  firstNumber := []
  secondNumber := []
  operation := []
  cpuid := fun _ => ⟨0, 0, 0, 0⟩
  identifyData := fun _ => 0
  stack := fun _ => 0

/-- The keys of `echo h` and Enter. -/
theorem shell_on_page_echo : ∃ r, ShellRun TurnFits blankShell r ∧
    (∀ o ∈ (reached r).terminal.stored, o < 4000) := by
  let input := keysTyped [0x12, 0x2E, 0x23, 0x18, 0x39, 0x23, 0x1C]
  have hcommand : shellCommand (editLine 2047 false input.line).line =
      .echo (literal "h") := by
    decide
  have hfits : TurnFits blankShell input := by
    refine ⟨typedFits_short (by decide), fun _ => ?_⟩
    rw [show blankShell.terminal.shiftPressed = false from rfl, hcommand]
    exact printFits_short _ (by decide)
  have hrun : ShellRun TurnFits blankShell (blankShell.turn input) :=
    .turn .start hfits
  exact ⟨_, hrun, (shell_on_page hrun).1⟩

theorem editLine_letters {n : ℕ} (hn : n ≤ 2047) :
    editLine 2047 false (keysTyped (List.replicate n 0x1E)).line =
      ⟨List.replicate n 97, false, false⟩ := by
  induction n with
  | zero => rfl
  | succ n ih =>
      have hletters := ih (by omega)
      have hopen : ¬ Editor.Closed 2047 ⟨List.replicate n 97, false, false⟩ := by
        rintro (hentered | hfull)
        · cases hentered
        · rw [List.length_replicate] at hfull
          omega
      simp only [editLine, keyboardBytes, keysTyped] at hletters ⊢
      rw [List.replicate_succ', List.map_append, List.filter_append,
        List.map_append, List.foldl_append, hletters]
      rw [List.replicate_succ']
      exact if_neg hopen

/-- 1599 times the key `a` at the first prompt. -/
theorem shell_leaves_page : ∃ r, ShellRun (fun _ _ => True) blankShell r ∧
    ∃ o ∈ (reached r).terminal.stored, 4000 ≤ o := by
  let polls := (keysTyped (List.replicate 1599 0x1E)).line
  have hline : editLine 2047 false polls =
      ⟨List.replicate 1599 97, false, false⟩ :=
    editLine_letters (by decide)
  have hlength : polls.length = 1599 :=
    List.length_map _ |>.trans List.length_replicate
  have hwaits : (blankShell.terminal.scanf blankShell.sBuf 5 2 polls).2.2 ≠
      true := by
    intro hreturned
    obtain ⟨hclosed, -⟩ := Terminal.scanf_returned hreturned
    rw [show blankShell.terminal.shiftPressed = false from rfl, hline]
      at hclosed
    rcases hclosed with hentered | hfull
    · cases hentered
    · rw [List.length_replicate] at hfull
      omega
  have hscanf : blankShell.scanf 5 2 polls =
      .error (blankShell.typed 5 2 polls) := by
    rw [Shell.scanf_eq, if_neg hwaits]
  have hturn : blankShell.turn (keysTyped (List.replicate 1599 0x1E)) =
      .error (blankShell.typed 5 2 polls) := by
    change (blankShell.scanf 5 2 polls >>= _) = _
    rw [hscanf]
    rfl
  refine ⟨blankShell.turn (keysTyped (List.replicate 1599 0x1E)),
    .turn .start trivial, ?_⟩
  rw [hturn]
  by_contra hpage
  have honPage : StoresOnPage (reached
      (.error (blankShell.typed 5 2 polls))).terminal.stored :=
    fun o hmem => Nat.lt_of_not_le fun hle => hpage ⟨o, hmem, hle⟩
  have hoffsets := (storesOnPage_append.mp honPage).2
  have htyped := ((HoldsLine.start ⟨2048, 5, 2, 0x0F⟩ _ false _).offsets_onPage
    rfl (Nat.le_add_left 1 2047) (Or.inl rfl)).mp hoffsets 1599
  rw [List.take_of_length_le hlength.le] at htyped
  have hcells : CellsFit 402 (editLine 2047 false polls).line.length := htyped
  rw [hline, List.length_replicate, CellsFit] at hcells
  omega

end Otsos
