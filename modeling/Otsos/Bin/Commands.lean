import Otsos.Mlibc.Numbers

/-!
# Command lines

The tests of `shell_func`, `disk`, `touch` and `cat` on the line that was
typed, in their order.
-/

namespace Otsos

open Lib

inductive DiskCommand where
  | info
  | clear (sector : UInt32)
  | usage
  | dump (sector : UInt32)
  | help
deriving DecidableEq

inductive Command where
  | shutdown
  | reboot
  | mydir
  | info
  | clear
  | help
  | echo (text : List UInt8)
  | calc
  | fetch
  | disk (command : DiskCommand)
  | mkdirUsage
  | mkdir (path : List UInt8)
  | ls (path : List UInt8)
  | cdRoot
  | cd (path : List UInt8)
  | rmdirUsage
  | rmdir (path : List UInt8)
  | touchUsage
  | touch (filename content : List UInt8)
  | catUsage
  | cat (filename : List UInt8)
  | format
  | testFs
  | unknown
deriving DecidableEq

/-- The first characters are those of `word`. -/
def startsWith (sBuf : List UInt8) (word : String) : Bool :=
  (literal word).isPrefixOf sBuf

def argument (sBuf : List UInt8) (n : ℕ) : List UInt8 := sBuf.drop n

def diskCommand (sBuf : List UInt8) : DiskCommand :=
  if startsWith sBuf "disk info" then .info
  else if startsWith sBuf "disk clear " then
    .clear (atoi (argument sBuf 11)).toUInt32
  else if startsWith sBuf "disk usage" then .usage
  else if startsWith sBuf "disk dump " then
    .dump (atoi (argument sBuf 10)).toUInt32
  else .help

/-- The loop of `touch`: the name ends and the content begins at the first
` -C `. -/
def touchArguments : List UInt8 → List UInt8 × List UInt8
  | [] => ([], [])
  | c :: ptr =>
      if startsWith (c :: ptr) " -C " then ([], (c :: ptr).drop 4)
      else
        let (filename, content) := touchArguments ptr
        (c :: filename, content)

def touchCommand (sBuf : List UInt8) : Command :=
  if startsWith sBuf "touch " then
    let (filename, content) := touchArguments (argument sBuf 6)
    .touch filename content
  else .touchUsage

def catCommand (sBuf : List UInt8) : Command :=
  if startsWith sBuf "cat " then .cat (argument sBuf 4) else .catUsage

/-- The word `word` alone, or with a space behind it. -/
def isWord (sBuf : List UInt8) (word : String) : Bool :=
  startsWith sBuf word && decide ((sBuf.drop word.length).headD 0 = 0 ∨
    (sBuf.drop word.length).headD 0 = 32)

def shellCommand (sBuf : List UInt8) : Command :=
  if sBuf = literal "shutdown" then .shutdown
  else if sBuf = literal "reboot" then .reboot
  else if sBuf = literal "mydir" then .mydir
  else if sBuf = literal "info" then .info
  else if sBuf = literal "clear" then .clear
  else if sBuf = literal "help" then .help
  else if startsWith sBuf "echo " then .echo (argument sBuf 5)
  else if sBuf = literal "calc" then .calc
  else if sBuf = literal "fetch" then .fetch
  else if sBuf = literal "disk" ∨ startsWith sBuf "disk " then
    .disk (diskCommand sBuf)
  else if sBuf = literal "mkdir" then .mkdirUsage
  else if startsWith sBuf "mkdir " then .mkdir (argument sBuf 6)
  else if sBuf = literal "ls" then .ls []
  else if startsWith sBuf "ls " then .ls (argument sBuf 3)
  else if sBuf = literal "cd" then .cdRoot
  else if startsWith sBuf "cd " then .cd (argument sBuf 3)
  else if sBuf = literal "rmdir" then .rmdirUsage
  else if startsWith sBuf "rmdir " then .rmdir (argument sBuf 6)
  else if isWord sBuf "touch" then touchCommand sBuf
  else if isWord sBuf "cat" then catCommand sBuf
  else if sBuf = literal "format" then .format
  else if sBuf = literal "test_fs" then .testFs
  else .unknown

end Otsos
