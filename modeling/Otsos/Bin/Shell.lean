import Otsos.Bin.Programs

/-!
# The shell

`shell_func` and the loop of `kmain` around it.
-/

namespace Otsos

open Lib

/-! ## The file system commands -/

/-- `file_info` of `ls`. -/
def listLine (stack : Memory) (e : FileEntry) : List UInt8 :=
  (if e.type = chainfsTypeDir then literal "[DIR]" else literal "[FILE]") ++
    literal " " ++ e.nameString ++
    (if e.type = chainfsTypeFile then
      literal " (" ++ numberText stack (UInt32.ofNat e.size) 10 16 ++
        literal " bytes)"
    else [])

/-- What `ls` prints before the prompt. -/
def Terminal.showListing (t : Terminal) (stack : Memory) :
    Option (List FileEntry) → Terminal
  | none => t.say ⟨literal "Error reading directory", 0x0C⟩
  | some [] => t.say ⟨literal "Directory is empty", 0x0F⟩
  | some files => t.sayAll (files.map fun e => ⟨listLine stack e, 0x0F⟩)

def Shell.ls (s : Shell) (path : List UInt8) (stack : Memory) : Shell :=
  let (fs, listed) := chainfsListDir s.fs path 20
  { s with
    terminal := (s.terminal.showListing stack listed).prompt
    fs := fs }

def Shell.cd (s : Shell) (path : List UInt8) (done failed : Message) :
    Except Shell Shell :=
  match chainfsChdir s.fs path with
  | (fs, code) =>
      let s := { s with fs := fs }
      if code = 0 then do
        let s ← s.readDir
        .ok (s.say done).prompt
      else .ok (s.say failed).prompt

def Shell.mkdir (s : Shell) (path : List UInt8) : Except Shell Shell := do
  let s ← s.report (chainfsMkdir s.fs path)
    ⟨literal "Directory created", 0x0A⟩
    ⟨literal "Failed to create directory", 0x0C⟩
  .ok s.prompt

def Shell.rmdir (s : Shell) (path : List UInt8) : Except Shell Shell := do
  let s ← s.report (.ok (chainfsRmdir s.fs path))
    ⟨literal "Directory removed", 0x0A⟩
    ⟨literal "Failed to remove directory", 0x0C⟩
  .ok s.prompt

def Shell.format (s : Shell) : Except Shell Shell :=
  match chainfsFormat (chainfsInit s.fs).1 20480 100 with
  | (fs, code) =>
      let s := { s with fs := fs }
      if code = 0 then do
        let s ← s.readDir
        .ok s.prompt
      else .ok (s.say ⟨literal "format failed", 0x0C⟩).prompt

/-! ## `test_fs` -/

/-- `chainfs_write_file` of a string, and whether it worked. -/
def Shell.testWrite (s : Shell) (filename content done failed : String) :
    Except Shell Shell :=
  s.report
    (chainfsWriteFile s.fs (literal filename) (stringBytes (literal content))
      (literal content).length)
    ⟨literal done, 0x0A⟩ ⟨literal failed, 0x0C⟩

def Shell.testMkdir (s : Shell) (path done failed : String) :
    Except Shell Shell :=
  s.report (chainfsMkdir s.fs (literal path)) ⟨literal done, 0x0A⟩
    ⟨literal failed, 0x0C⟩

/-- `file_info` of `test_fs`. -/
def testLine (e : FileEntry) : List UInt8 :=
  literal "  " ++
    (if e.type = chainfsTypeDir then literal "[D]" else literal "[F]") ++
    literal " " ++ e.nameString

def Shell.testList (s : Shell) (path title : String) : Shell :=
  let s := s.say ⟨literal title, 0x0F⟩
  match chainfsListDir s.fs (literal path) 10 with
  | (fs, some files) =>
      { s with
        terminal :=
          s.terminal.sayAll (files.map fun e => ⟨testLine e, 0x0F⟩)
        fs := fs }
  | (fs, none) => { s with fs := fs }

def Shell.testRead (s : Shell) (filename label : String) (col : ℕ)
    (stack : Memory) : Shell :=
  match chainfsReadFile s.fs (literal filename) stack 256 with
  | (fs, some (readBuffer, bytesRead)) =>
      { s with
        terminal := s.terminal.sayLabelled ⟨literal label, 0x0A⟩ col
          ⟨cString (readBuffer.set bytesRead 0) 0 257, 0x0F⟩
        fs := fs }
  | (fs, none) => { s with fs := fs }

def Shell.testFs (s : Shell) (stack : Memory) : Except Shell Shell := do
  let s := s.say ⟨literal "=== ChainFS Directory Test ===", 0x0A⟩
  let s ← s.report (.ok (chainfsFormat s.fs 20480 100))
    ⟨literal "format ok", 0x0A⟩ ⟨literal "format failed", 0x0C⟩
  let s := s.say ⟨literal "Creating directories...", 0x0F⟩
  let s ← s.testMkdir "test" "  mkdir test - OK" "  mkdir test - FAILED"
  let s ← s.testMkdir "test/subdir" "  mkdir test/subdir - OK"
    "  mkdir test/subdir - FAILED"
  let s := s.say ⟨literal "Creating files in root...", 0x0F⟩
  let s ← s.testWrite "root.txt" "root file content" "  root.txt - OK"
    "  root.txt - FAILED"
  let s := s.say ⟨literal "Creating files in test dir...", 0x0F⟩
  let s ← s.testWrite "test/file1.txt" "test directory file"
    "  test/file1.txt - OK" "  test/file1.txt - FAILED"
  let s ← s.testWrite "test/subdir/deep.txt" "subdir file content"
    "  test/subdir/deep.txt - OK" "  test/subdir/deep.txt - FAILED"
  let s := s.testList "/" "Root directory contents:"
  let s := s.testList "test" "Test directory contents:"
  let s := s.say ⟨literal "Reading files...", 0x0F⟩
  let s := s.testRead "root.txt" "  root.txt: " 12 stack
  let s := s.testRead "test/file1.txt" "  test/file1.txt: " 17 stack
  .ok (s.say ⟨literal "=== Test Complete ===", 0x0A⟩).prompt

/-! ## `shell_func` -/

def Terminal.help (t : Terminal) : Terminal :=
  (t.sayAll
    [⟨literal
        "Commands: shutdown, reboot, clear, echo, mydir, help, calc, info,",
        0x0A⟩,
     ⟨literal
        "          test_fs, mkdir, ls, cd, rmdir, touch, cat, format, disk",
        0x0A⟩]).prompt

def Terminal.clear (t : Terminal) : Terminal :=
  { t.clearScreen with currentLine := 1 }.prompt

/-- The branches of `shell_func`.  A reset of the machine that does not come at
once lets the shell go on. -/
def Shell.branch (s : Shell) (input : ShellInput) :
    Command → Except Shell Shell
  | .shutdown => .error s
  | .reboot => .ok s
  | .mydir => s.mydir
  | .info => .ok { s with terminal := s.terminal.info input.cpuid }
  | .clear => .ok { s with terminal := s.terminal.clear }
  | .help => .ok { s with terminal := s.terminal.help }
  | .echo text =>
      let t := s.terminal.print text s.terminal.currentLine 2 0x0F
      .ok { s with terminal := t.nextLine.prompt }
  | .calc => s.calc input
  | .fetch => .ok { s with terminal := s.terminal.fetch }
  | .disk command => .ok (s.disk input command)
  | .mkdirUsage =>
      .ok (s.say ⟨literal "Usage: mkdir <directory_name>", 0x0C⟩).prompt
  | .mkdir path => s.mkdir path
  | .ls path => .ok (s.ls path input.stack)
  | .cdRoot => s.cd (literal "/")
      ⟨literal "Changed to root directory", 0x0A⟩
      ⟨literal "Failed to change to root directory", 0x0C⟩
  | .cd path => s.cd path ⟨literal "Changed directory", 0x0A⟩
      ⟨literal "Failed to change directory", 0x0C⟩
  | .rmdirUsage =>
      .ok (s.say ⟨literal "Usage: rmdir <directory_name>", 0x0C⟩).prompt
  | .rmdir path => s.rmdir path
  | .touchUsage => .ok s.touchUsage
  | .touch filename content => s.touch filename content
  | .catUsage => .ok s.catUsage
  | .cat filename => .ok (s.cat filename input.stack)
  | .format => s.format
  | .testFs => s.testFs input.stack
  | .unknown => .ok (s.say ⟨literal "Unknown command", 0x0F⟩).prompt

def shellFunc (s : Shell) (input : ShellInput) : Except Shell Shell := do
  let s := { s with terminal := s.terminal.nextLine }
  let s ← s.branch input (shellCommand s.string)
  .ok s.clamp

/-! ## The loop -/

/-- One iteration of `while (1)`. -/
def Shell.turn (s : Shell) (input : ShellInput) : Except Shell Shell := do
  let s ← s.scanf s.terminal.currentLine 2 input.line
  let s ← shellFunc s input
  .ok s.clamp

/-- `kmain` up to the loop, on any disk and with anything on the screen and in
`s_buf`. -/
def kmain (vga : Vga) (sBuf : Memory) (disk : ℕ → Memory) (heap : Heap) :
    Shell :=
  let t : Terminal := ⟨vga, false, 5, []⟩
  let t := t.clearScreen.print (literal "OTSOS started!") 0 30 0x0A
  let t := t.print (literal "There's nothing here yet =)") 3 0 0x0F
  { terminal := t.prompt
    sBuf := sBuf
    dir := literal "/"
    fs := ⟨disk, zeroSector, 0, 0, zeroSector, initHeap heap, []⟩ }

/-- Runs of the loop whose turns all meet the condition; a turn that stops is
the last one. -/
inductive ShellRun (P : Shell → ShellInput → Prop) (s₀ : Shell) :
    Except Shell Shell → Prop
  | start : ShellRun P s₀ (.ok s₀)
  | turn {s : Shell} {input : ShellInput} (before : ShellRun P s₀ (.ok s))
      (meets : P s input) : ShellRun P s₀ (s.turn input)

/-- The state reached, be it the last one. -/
def reached : Except Shell Shell → Shell
  | .ok s => s
  | .error s => s

end Otsos
