import Otsos.Interrupts.Idt
import Otsos.Lib.ProtectedMode

/-!
# The start of the kernel

`boot.asm` from the loader's jump to the call of `kmain`.
-/

namespace Otsos

open Lib Lib.X64

/-- Where the linker has put what `boot.asm` names; the tables and the stack
behind them are its `.bss`, and everything lies in the first two megabytes. -/
structure BootImage where
  init64 : ℕ
  gdt64 : ℕ
  p4Table : ℕ
  kmain : UInt64
  afterCall : UInt64
  aligned : p4Table % 4096 = 0
  first : 0x100000 ≤ init64
  order : init64 < gdt64 ∧ gdt64 + 26 ≤ p4Table
  last : p4Table + 28672 ≤ 2 ^ 21

namespace BootImage

def p3Table (k : BootImage) : ℕ := k.p4Table + 4096
def p2Table (k : BootImage) : ℕ := k.p4Table + 8192
def stackBottom (k : BootImage) : ℕ := k.p4Table + 12288
def stackTop (k : BootImage) : ℕ := k.stackBottom + 4096 * 4

/-- `gdt64.code` -/
def codeOffset : ℕ := 8

/-- `gdt64.pointer` -/
def pointer (k : BootImage) : ℕ := k.gdt64 + 16

end BootImage

/-- How it ends: in `kmain`, with the physical memory and the tables in use
then; at a `hlt`; or with a fault that resets the machine. -/
inductive Booted where
  | kmain (c : Cpu) (mem : Memory) (cr3 : ℕ)
  | halted (c : Cpu32)
  | reset

/-- The test for `cpuid`; whether the flag has changed. -/
def checkCpuid (p : Processor) (c : Cpu32) : Bool × Cpu32 :=
  let c := c.pushfd
  let c := { c.drop with eax := c.top }
  let c := { c with ecx := c.eax }
  let c := { c with eax := c.eax ^^^ idFlag }
  let c := (c.push c.eax).popfd p
  let c := c.pushfd
  let c := { c.drop with eax := c.top }
  let c := (c.push c.ecx).popfd p
  (c.eax ≠ c.ecx, c)

/-- The test for 64-bit mode. -/
def checkLongMode (p : Processor) (c : Cpu32) : Bool × Cpu32 :=
  let c := { c with eax := 0x80000000 }.runCpuid p
  if c.eax < 0x80000001 then (false, c)
  else
    let c := { c with eax := 0x80000001 }.runCpuid p
    (c.edx &&& 0x20000000 ≠ 0, c)

def setupTables (k : BootImage) (c : Cpu32) : Cpu32 :=
  let c := { c with eax := UInt32.ofNat k.p3Table ||| 3 }
  let c := c.storeDword k.p4Table c.eax
  let c := { c with eax := UInt32.ofNat k.p2Table ||| 3 }
  let c := c.storeDword k.p3Table c.eax
  let c := { c with eax := 0 ||| 0x83 }
  c.storeDword k.p2Table c.eax

def enablePaging (k : BootImage) (c : Cpu32) : Option Cpu32 :=
  let c := { c with cr4 := c.cr4 ||| 0x20 }
  let c := { c with ecx := eferNumber }.rdmsr
  let c := { c with eax := c.eax ||| 0x100 }.wrmsr
  let c := { c with eax := UInt32.ofNat k.p4Table }
  let c := { c with cr3 := c.eax }
  let c := { c with eax := c.cr0 ||| 0x80000000 }
  c.loadCr0 c.eax

/-- From `init_64` to the call of `kmain`; of the segment registers that become
zero only `ss` is there. -/
def init64 (k : BootImage) (c : Cpu) (mem : Memory) (cr3 : ℕ) : Booted :=
  let c := { c with ss := 0 }
  match storeLinear mem cr3 (c.rsp - 8).toNat 8 k.afterCall.toNat with
  | some mem => .kmain { c.push k.afterCall with rip := k.kmain } mem cr3
  | none => .reset

/-- From the tables to the call of `kmain`. -/
def enterLongMode (p : Processor) (k : BootImage) (c : Cpu32) : Booted :=
  match (enablePaging k (setupTables k c)).bind (·.lgdt k.pointer) with
  | none => .reset
  | some c =>
      match c.longJump p BootImage.codeOffset (UInt64.ofNat k.init64) with
      | none => .reset
      | some cpu => init64 k cpu c.mem c.cr3.toNat

/-- `cli` and `mov esp, stack_top`. -/
def started (k : BootImage) (c : Cpu32) : Cpu32 :=
  { c.cli with esp := UInt32.ofNat k.stackTop }

def start (p : Processor) (k : BootImage) (c : Cpu32) : Booted :=
  match checkCpuid p (started k c) with
  | (false, c) => .halted (c.storeDword 0xb8000 0x4f524f45)
  | (true, c) =>
      match checkLongMode p c with
      | (false, c) => .halted (c.storeDword 0xb8000 0x4f4d4f4c)
      | (true, c) => enterLongMode p k c

end Otsos
