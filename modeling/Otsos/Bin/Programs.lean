import Otsos.Bin.Cat
import Otsos.Bin.Commands
import Otsos.ChainFS.CurrentPath

/-!
# The programs of the shell

The programs in `bin/`, on the state that the shell shares with them.  A
program that does not come back leaves the state in which it stopped: `scanf`
still waits, a call of the file system hangs or spoils the stack, or a divide
exception has ended in `kernel_panic`.
-/

namespace Otsos

open Lib

structure Shell where
  terminal : Terminal
  sBuf : Memory
  dir : List UInt8
  fs : ChainFS

structure Cpuid where
  eax : UInt32
  ebx : UInt32
  ecx : UInt32
  edx : UInt32

/-- What comes from outside while a command runs: what is typed at its
prompts, the identification of the processor and of the disk, and what lies on
the stack where arrays are not initialised. -/
structure ShellInput where
  line : List Poll
  firstNumber : List Poll
  secondNumber : List Poll
  operation : List Poll
  cpuid : UInt32 → Cpuid
  identifyData : ℕ → UInt16
  stack : Memory

namespace Shell

def print (s : Shell) (message : List UInt8) (row col : ℕ) (color : UInt8) :
    Shell :=
  { s with terminal := s.terminal.print message row col color }

def say (s : Shell) (m : Message) : Shell :=
  { s with terminal := s.terminal.say m }

def prompt (s : Shell) : Shell := { s with terminal := s.terminal.prompt }

def clamp (s : Shell) : Shell := { s with terminal := s.terminal.clamp }

/-- The string in `s_buf`. -/
def string (s : Shell) : List UInt8 := cString s.sBuf 0 2048

/-- `scanf(s_buf, 2048, row, col, 0x0F, dir)`. -/
def scanf (s : Shell) (row col : ℕ) (polls : List Poll) :
    Except Shell Shell :=
  let (terminal, sBuf, returned) := s.terminal.scanf s.sBuf row col polls
  let s := { s with terminal := terminal, sBuf := sBuf }
  if returned then .ok s else .error s

/-- `chainfs_get_current_path(dir, 256)`. -/
def readDir (s : Shell) : Except Shell Shell :=
  match chainfsGetCurrentPath s.fs 256 with
  | .error _ => .error s
  | .ok (fs, path) => .ok { s with fs := fs, dir := path.getD s.dir }

/-- A call of the file system, and a message that depends on its code. -/
def report (s : Shell) (call : Except Fault (ChainFS × ℤ))
    (done failed : Message) : Except Shell Shell :=
  match call with
  | .error _ => .error s
  | .ok (fs, code) =>
      .ok ({ s with fs := fs }.say (if code = 0 then done else failed))

end Shell

/-- `itoa(v, a, base)` in an array of `size` characters. -/
def numberText (stack : Memory) (v : UInt32) (base : Int32) (size : ℕ) :
    List UInt8 :=
  cString (itoa v.toInt32 stack 0 base) 0 size

/-- What `print` shows of an array of characters. -/
def shownText (cs : List UInt8) : List UInt8 := cs.takeWhile (· ≠ 0)

/-! ## `fetch`, `info` and `mydir` -/

def fetchLines : List String :=
  ["-----------------------------------",
   "--------------@@@@@----------------",
   "------------@---@---@--------------",
   "------------@-------@--------------",
   "-------------@-----@---------------",
   "-------------@-----@---------------",
   "-------------@-----@---------------",
   "-------------@-----@---------------",
   "-----------@@@-----@@@-------------",
   "--------@@@-----------@@@----------",
   "-------@-------@@@@------@---------",
   "-------@------@----@-----@---------",
   "--------@----@------@---@----------",
   "----------@@@--------@@@-----------",
   "-----------------------------------"]

def Terminal.fetch (t : Terminal) : Terminal :=
  t.sayAll (fetchLines.map fun line => ⟨literal line, 0x0A⟩)

def getCpuModel (cpuid : UInt32 → Cpuid) : List UInt8 :=
  shownText <| (List.range 3).flatMap fun i =>
    let r := cpuid (0x80000002 + UInt32.ofNat i)
    wordBytes r.eax.toNat ++ wordBytes r.ebx.toNat ++
      wordBytes r.ecx.toNat ++ wordBytes r.edx.toNat

def getCpuVendor (cpuid : UInt32 → Cpuid) : List UInt8 :=
  let r := cpuid 0
  shownText (wordBytes r.ebx.toNat ++ wordBytes r.edx.toNat ++
    wordBytes r.ecx.toNat)

/-- The branch `info` of `shell_func`. -/
def Terminal.info (t : Terminal) (cpuid : UInt32 → Cpuid) : Terminal :=
  (t.sayAll [⟨getCpuVendor cpuid, 0x0F⟩, ⟨getCpuModel cpuid, 0x0F⟩]).prompt

def Shell.mydir (s : Shell) : Except Shell Shell :=
  match chainfsGetCurrentPath s.fs 256 with
  | .error _ => .error s
  | .ok (fs, some currentPath) =>
      let s := s.say ⟨literal "Current directory: ", 0x0F⟩
      let s := s.say ⟨currentPath, 0x0A⟩
      .ok { s with fs := fs, dir := currentPath }.prompt.clamp
  | .ok (fs, none) =>
      let s := s.say ⟨literal "Error getting current directory", 0x0C⟩
      .ok { s with fs := fs }.prompt.clamp

/-! ## `calc` -/

def Shell.ask (s : Shell) (title : List UInt8) : Shell :=
  let s := s.prompt.print title s.terminal.currentLine 2 0x0F
  { s with terminal := s.terminal.nextLine }

/-- `kernel_panic` on a divide exception. -/
def Terminal.divideException (t : Terminal) : Terminal :=
  (t.clearScreen.print (literal "!!! KERNEL PANIC !!!") 0 30 0x4F).print
    (literal "Division By Zero") 2 0 0x0F

/-- `calc` from the result on. -/
def Shell.calcShow (s : Shell) (result : Option Message) : Shell :=
  let s :=
    match result with
    | some m => s.say m
    | none => s
  let s := s.print s.dir s.terminal.currentLine 0 0x0F
  (s.print (literal ">") s.terminal.currentLine 1 0x0F).clamp

def Shell.calc (s : Shell) (input : ShellInput) : Except Shell Shell := do
  let s := s.ask (literal "first number: ")
  let s ← s.scanf (s.terminal.currentLine - 1) 16 input.firstNumber
  let firstNumber := atoi s.string
  let s := s.ask (literal "second number: ")
  let s ← s.scanf (s.terminal.currentLine - 1) 17 input.secondNumber
  let secondNumber := atoi s.string
  let s := s.ask (literal "operation: ")
  let s ← s.scanf (s.terminal.currentLine - 1) 13 input.operation
  let operation := s.sBuf 0
  match calcOperation input.stack firstNumber secondNumber operation with
  | none => .error { s with terminal := s.terminal.divideException }
  | some result => .ok (s.calcShow result)

/-! ## `touch` and `cat` -/

/-- The bytes at a `const u8 *`. -/
def stringBytes (cs : List UInt8) : Memory := fun i => cs.getD i 0

def Shell.touch (s : Shell) (filename content : List UInt8) :
    Except Shell Shell :=
  match chainfsWriteFile s.fs filename (stringBytes content)
      content.length with
  | .error _ => .error s
  | .ok (fs, code) =>
      let s := { s with fs := fs }
      let s :=
        if code = 0 then s else s.say ⟨literal "failed to create", 0x0C⟩
      .ok s.prompt.clamp

def Shell.touchUsage (s : Shell) : Shell :=
  (s.say ⟨literal "Usage: touch [name] -C content", 0x0C⟩).prompt.clamp

/-- `buffer[bytes_read] = 0` and the loop. -/
def Terminal.catShow (t : Terminal) (buffer : Memory) (bytesRead : ℕ) : Terminal :=
  catLoop t (buffer.set bytesRead 0) 0 2048

def Shell.cat (s : Shell) (filename : List UInt8) (stack : Memory) : Shell :=
  let s :=
    match chainfsReadFile s.fs filename stack 2047 with
    | (fs, some (buffer, bytesRead)) =>
        { s with fs := fs, terminal := s.terminal.catShow buffer bytesRead }
    | (fs, none) =>
        { s with fs := fs }.say ⟨literal "failed to read", 0x0C⟩
  s.prompt.clamp

def Shell.catUsage (s : Shell) : Shell :=
  (s.say ⟨literal "use: cat \x7bfilename\x7d", 0x0C⟩).prompt.clamp

/-! ## `disk` -/

/-- `n` words of the identification, the high byte of each first. -/
def identifyText (identifyData : ℕ → UInt16) (first n : ℕ) : List UInt8 :=
  shownText <| (List.range n).flatMap fun i =>
    [(identifyData (first + i) >>> 8).toUInt8,
      (identifyData (first + i)).toUInt8]

def Terminal.diskInfo (t : Terminal) (input : ShellInput) : Terminal :=
  let totalSectors := (input.identifyData 60).toUInt32 |||
    (input.identifyData 61).toUInt32 <<< 16
  let t := t.say ⟨literal "disk info:", 0x0E⟩
  let t := t.sayLabelled ⟨literal "  model: ", 0x0F⟩ 10
    ⟨identifyText input.identifyData 27 20, 0x07⟩
  let t := t.sayLabelled ⟨literal "  serial: ", 0x0F⟩ 11
    ⟨identifyText input.identifyData 10 10, 0x07⟩
  t.say ⟨literal "  capacity: " ++ numberText input.stack totalSectors 10 16 ++
    literal " sectors (" ++
    numberText input.stack (totalSectors * 512 / (1024 * 1024)) 10 16 ++
    literal " MB)", 0x0F⟩

/-- The sector that the driver addresses: it sends 28 bits. -/
def addressed (sector : UInt32) : ℕ := sector.toNat % 2 ^ 28

def Terminal.diskUsage (t : Terminal) (sb stack : Memory) : Terminal :=
  if sbMagic sb = chainfsMagic then
    t.sayAll
      [⟨literal "chainfs usage:", 0x0E⟩,
       ⟨literal "  total blocks: " ++
          numberText stack (UInt32.ofNat (sbBlockCount sb)) 10 48, 0x0F⟩,
       ⟨literal "  max files: " ++
          numberText stack (UInt32.ofNat (sbTotalFiles sb)) 10 51, 0x0F⟩]
  else t.say ⟨literal "init fs first", 0x0C⟩

/-- Two hexadecimal digits and a space. -/
def dumpByte (stack : Memory) (val : UInt8) : List UInt8 :=
  let hex := itoa val.toUInt32.toInt32 stack 0 16
  if val < 16 then [48, hex 0, 32] else [hex 0, hex 1, 32]

def dumpChar (val : UInt8) : UInt8 := if 32 ≤ val ∧ val ≤ 126 then val else 46

def dumpLine (stack dumpBuffer : Memory) (i : ℕ) : List UInt8 :=
  let addr := numberText stack (UInt32.ofNat (i * 16)) 16 8
  List.replicate (4 - addr.length) 48 ++ addr ++ literal ": " ++
    (List.range 16).flatMap (fun j =>
      dumpByte stack (dumpBuffer (i * 16 + j))) ++
    literal "|" ++ (List.range 16).map (fun j =>
      dumpChar (dumpBuffer (i * 16 + j))) ++ literal "|"

def Terminal.diskDump (t : Terminal) (stack dumpBuffer : Memory) (sector : UInt32) :
    Terminal :=
  let t := t.say ⟨literal "dump" ++ numberText stack sector 10 16, 0x0E⟩
  t.sayAll ((List.range 16).map fun i => ⟨dumpLine stack dumpBuffer i, 0x0F⟩)

/-- `pata_write_sector` with 512 zeros. -/
def clearSector (fs : ChainFS) (sector : UInt32) : ChainFS :=
  { fs with disk := Function.update fs.disk (addressed sector) zeroSector }

def Terminal.diskHelp (t : Terminal) : Terminal :=
  t.sayAll
    [⟨literal "use disk info", 0x0C⟩,
     ⟨literal "       disk dump <sector>", 0x0C⟩,
     ⟨literal "       disk clear <sector>", 0x0C⟩,
     ⟨literal "       disk usage", 0x0C⟩]

/-- What `disk` prints before its last prompt. -/
def Shell.diskPrints (s : Shell) (input : ShellInput) :
    DiskCommand → Terminal
  | .info => s.terminal.diskInfo input
  | .clear _ => s.terminal.say ⟨literal "sector cleared", 0x0A⟩
  | .usage => s.terminal.diskUsage (s.fs.disk 0) input.stack
  | .dump sector =>
      s.terminal.diskDump input.stack (s.fs.disk (addressed sector)) sector
  | .help => s.terminal.diskHelp

def Shell.disk (s : Shell) (input : ShellInput) (command : DiskCommand) :
    Shell :=
  let fs :=
    match command with
    | .clear sector => clearSector s.fs sector
    | _ => s.fs
  { s with
    terminal := (s.diskPrints input command).clamp.prompt
    fs := fs }

end Otsos
