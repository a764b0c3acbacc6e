import Mathlib.Data.Nat.Bitwise
import Otsos.Lib.Paging
import Otsos.Lib.Traps

/-!
# From 32-bit to 64-bit mode

The instructions with which a program at the highest privilege asks what the
processor can do, turns paging on and jumps to 64-bit code.  Without paging
addresses are physical, with it they go through the tables, and what is not
mapped resets the machine: there is no handler yet.
-/

namespace Lib

namespace X64

structure Leaf where
  eax : UInt32
  ebx : UInt32
  ecx : UInt32
  edx : UInt32

/-- What differs from processor to processor: the answers to `cpuid`, the flags
that `popfd` loads, and what the new registers hold in 64-bit mode. -/
structure Processor where
  cpuid : UInt32 → Leaf
  flags : UInt32
  gpr : Gpr → UInt64

structure Cpu32 where
  eax : UInt32
  ebx : UInt32
  ecx : UInt32
  edx : UInt32
  esp : UInt32
  eflags : UInt32
  ss : UInt16
  cr0 : UInt32
  cr3 : UInt32
  cr4 : UInt32
  efer : UInt64
  gdtr : TableRegister
  idtr : TableRegister
  mem : Memory

/-- The identification flag: there is `cpuid` if it can be changed. -/
def idFlag : UInt32 := 0x200000

/-- What `pushfd` shows of the flags. -/
def shownFlags : UInt32 := 0x00FCFFFF

/-- There is `cpuid`, and its leaf `0x80000001` offers 64-bit mode. -/
def Processor.has64 (p : Processor) : Prop :=
  p.flags &&& idFlag ≠ 0 ∧ 0x80000001 ≤ (p.cpuid 0x80000000).eax ∧
    (p.cpuid 0x80000001).edx &&& 0x20000000 ≠ 0

/-- The number of the register `EFER`. -/
def eferNumber : UInt32 := 0xC0000080

namespace Cpu32

def push (c : Cpu32) (v : UInt32) : Cpu32 :=
  { c with
    esp := c.esp - 4
    mem := c.mem.store (c.esp - 4).toNat 4 v.toNat }

def top (c : Cpu32) : UInt32 := UInt32.ofNat (c.mem.load c.esp.toNat 4)

def drop (c : Cpu32) : Cpu32 := { c with esp := c.esp + 4 }

def pushfd (c : Cpu32) : Cpu32 := c.push (c.eflags &&& shownFlags)

def popfd (p : Processor) (c : Cpu32) : Cpu32 :=
  { c.drop with
    eflags := (c.eflags &&& ~~~p.flags) ||| (c.top &&& p.flags) }

def cli (c : Cpu32) : Cpu32 := { c with eflags := c.eflags &&& ~~~0x200 }

/-- `mov [a], v`. -/
def storeDword (c : Cpu32) (a : ℕ) (v : UInt32) : Cpu32 :=
  { c with mem := c.mem.store a 4 v.toNat }

def runCpuid (p : Processor) (c : Cpu32) : Cpu32 :=
  let leaf := p.cpuid c.eax
  { c with
    eax := leaf.eax
    ebx := leaf.ebx
    ecx := leaf.ecx
    edx := leaf.edx }

/-- Of the model-specific registers there is only `EFER`. -/
def rdmsr (c : Cpu32) : Cpu32 :=
  if c.ecx = eferNumber then
    { c with
      eax := c.efer.toUInt32
      edx := (c.efer >>> 32).toUInt32 }
  else c

def wrmsr (c : Cpu32) : Cpu32 :=
  if c.ecx = eferNumber then
    { c with efer := c.edx.toUInt64 <<< 32 ||| c.eax.toUInt64 }
  else c

/-- `mov cr0, v`.  To turn paging on with bit 8 of `EFER` (`LME`) set takes bit
5 of `cr4` (`PAE`), and sets bit 10 of `EFER` (`LMA`). -/
def loadCr0 (c : Cpu32) (v : UInt32) : Option Cpu32 :=
  let c := { c with cr0 := v }
  if v &&& 0x80000000 ≠ 0 ∧ c.efer &&& 0x100 ≠ 0 then
    if c.cr4 &&& 0x20 ≠ 0 then some { c with efer := c.efer ||| 0x400 }
    else none
  else some c

/-- The tables of four levels are in use: `LMA` is set and bit 12 of `cr4`,
which adds a fifth, is not. -/
def longMode (c : Cpu32) : Prop :=
  c.efer &&& 0x400 ≠ 0 ∧ c.cr4 &&& 0x1000 = 0

instance (c : Cpu32) : Decidable c.longMode :=
  inferInstanceAs (Decidable (_ ∧ _))

/-- `lgdt [a]`. -/
def lgdt (c : Cpu32) (a : ℕ) : Option Cpu32 :=
  if mapped c.mem c.cr3.toNat a 6 then
    let m := linear c.mem c.cr3.toNat
    some { c with gdtr := ⟨m.load a 2, m.load (a + 2) 4⟩ }
  else none

/-- `jmp selector:target`, to 64-bit code. -/
def longJump (p : Processor) (c : Cpu32) (selector : ℕ) (target : UInt64) :
    Option Cpu :=
  let m := linear c.mem c.cr3.toNat
  if c.longMode ∧
      mapped c.mem c.cr3.toNat (c.gdtr.base + selector / 8 * 8) 8 ∧
      codeSelector m c.gdtr selector ∧
      mapped c.mem c.cr3.toNat target.toNat 1 then
    some
      { gpr := p.gpr
        rsp := c.esp.toUInt64
        rip := target
        rflags := c.eflags.toUInt64
        cs := UInt16.ofNat selector
        ss := c.ss
        gdtr := c.gdtr
        idtr := c.idtr
        mem := m }
  else none

variable {c : Cpu32} {p : Processor} {v : UInt32}

/-! ## The stack -/

@[simp] theorem top_push (c : Cpu32) (v : UInt32) : (c.push v).top = v := by
  rw [top, push, Memory.load_store_same,
    Nat.mod_eq_of_lt (show v.toNat < 256 ^ 4 from v.toNat_lt),
    UInt32.ofNat_toNat]

@[simp] theorem esp_push_drop (c : Cpu32) (v : UInt32) :
    (c.push v).drop.esp = c.esp :=
  UInt32.sub_add_cancel _ _

/-- What was pushed and popped leaves its trace below the stack pointer. -/
theorem push_frame (hroom : 4 ≤ c.esp.toNat) :
    Memory.FrameOutside (fun x => c.esp.toNat - 4 ≤ x ∧ x < c.esp.toNat)
      c.mem (c.push v).mem := by
  have hesp : (c.esp - 4).toNat = c.esp.toNat - 4 := by
    rw [UInt32.toNat_sub_of_le]
    · rfl
    · exact UInt32.le_iff_toNat_le.mpr hroom
  rw [push, hesp]
  exact Memory.FrameOutside.store _ fun x hlow hhigh => ⟨hlow, by omega⟩

/-! ## Flags -/

theorem toggled_iff {n : ℕ} {f w mask flag : BitVec n}
    (hflag : flag &&& mask = flag) :
    ((f &&& ~~~w) ||| (((f &&& mask) ^^^ flag) &&& w)) &&& mask = f &&& mask ↔
      w &&& flag = 0#n := by
  simp only [BitVec.eq_of_getElem_eq_iff] at hflag ⊢
  refine forall_congr' fun i => forall_congr' fun hi => ?_
  have hbit := hflag i hi
  simp only [BitVec.getElem_and, BitVec.getElem_or, BitVec.getElem_xor,
    BitVec.getElem_not, BitVec.getElem_zero] at hbit ⊢
  revert hbit
  cases f[i] <;> cases w[i] <;> cases mask[i] <;> cases flag[i] <;> decide

/-- The flag reads as before exactly if `popfd` does not load it. -/
theorem idFlag_toggled_iff (f w : UInt32) :
    ((f &&& ~~~w) ||| (((f &&& shownFlags) ^^^ idFlag) &&& w)) &&&
        shownFlags = f &&& shownFlags ↔ w &&& idFlag = 0 := by
  simp only [← UInt32.toBitVec_inj, UInt32.toBitVec_and, UInt32.toBitVec_or,
    UInt32.toBitVec_xor, UInt32.toBitVec_not]
  exact toggled_iff (by decide)

/-- None of the bits of `mask` is set. -/
theorem masked_iff {n : ℕ} {f mask : BitVec n} : f &&& mask = 0#n ↔
    ∀ i (hi : i < n), mask[i] = true → f[i] = false := by
  simp only [BitVec.eq_of_getElem_eq_iff, BitVec.getElem_and,
    BitVec.getElem_zero, Bool.and_eq_false_iff]
  refine forall_congr' fun i => forall_congr' fun hi => ?_
  cases f[i] <;> cases mask[i] <;> simp

theorem masked_or {n : ℕ} {f v mask : BitVec n} (hf : f &&& mask = 0#n)
    (hv : v &&& mask = 0#n) : (f ||| v) &&& mask = 0#n := by
  rw [masked_iff] at hf hv ⊢
  intro i hi hmask
  rw [BitVec.getElem_or, hf i hi hmask, hv i hi hmask, Bool.or_false]

theorem masked_xor {n : ℕ} {f v mask : BitVec n} (hf : f &&& mask = 0#n)
    (hv : v &&& mask = 0#n) : (f ^^^ v) &&& mask = 0#n := by
  rw [masked_iff] at hf hv ⊢
  intro i hi hmask
  rw [BitVec.getElem_xor, hf i hi hmask, hv i hi hmask, Bool.xor_false]

theorem masked_and {n : ℕ} {f mask : BitVec n} (w : BitVec n)
    (hf : f &&& mask = 0#n) : f &&& w &&& mask = 0#n := by
  rw [masked_iff] at hf ⊢
  intro i hi hmask
  rw [BitVec.getElem_and, hf i hi hmask, Bool.false_and]

theorem shown_masked {f : UInt32} (hf : f &&& 0x200 = 0) :
    f &&& shownFlags &&& 0x200 = 0 := by
  simp only [← UInt32.toBitVec_inj, UInt32.toBitVec_and] at hf ⊢
  exact masked_and _ hf

theorem toggled_masked {f : UInt32} (hf : f &&& 0x200 = 0) :
    ((f &&& shownFlags) ^^^ idFlag) &&& 0x200 = 0 := by
  have hshown := shown_masked hf
  simp only [← UInt32.toBitVec_inj, UInt32.toBitVec_and,
    UInt32.toBitVec_xor] at hshown ⊢
  exact masked_xor hshown (by decide)

/-- Interrupts stay off if neither the flags nor the word popped have them
on. -/
theorem popfd_masked (hflags : c.eflags &&& 0x200 = 0)
    (htop : c.top &&& 0x200 = 0) : (c.popfd p).eflags &&& 0x200 = 0 := by
  simp only [← UInt32.toBitVec_inj, UInt32.toBitVec_and] at hflags htop
  simp only [popfd, ← UInt32.toBitVec_inj, UInt32.toBitVec_and,
    UInt32.toBitVec_or, UInt32.toBitVec_not]
  exact masked_or (masked_and _ hflags) (masked_and _ htop)

theorem cli_masked (c : Cpu32) : c.cli.eflags &&& 0x200 = 0 := by
  rw [cli, UInt32.and_assoc, show (~~~0x200 &&& 0x200 : UInt32) = 0 by decide,
    UInt32.and_zero]

/-! ## Turning paging on -/

/-- Reading `EFER`, setting bit 8 and writing it back. -/
theorem wrmsr_rdmsr (h : c.ecx = eferNumber) :
    ({ c.rdmsr with eax := c.rdmsr.eax ||| 0x100 } : Cpu32).wrmsr.efer &&&
      0x100 ≠ 0 := by
  rw [rdmsr, if_pos h, wrmsr, if_pos h]
  intro hzero
  have hbit := congrArg (fun u => u.toBitVec.getLsbD 8) hzero
  simp at hbit

theorem setBit_ne_zero {n : ℕ} {v mask : BitVec n} (hmask : mask ≠ 0#n) :
    (v ||| mask) &&& mask ≠ 0#n := by
  intro hzero
  apply hmask
  rw [masked_iff] at hzero
  rw [← BitVec.and_self (x := mask), masked_iff]
  intro i hi hset
  have hbit := hzero i hi hset
  rw [BitVec.getElem_or, hset, Bool.or_true] at hbit
  cases hbit

theorem setBit32_ne_zero {mask : UInt32} (hmask : mask ≠ 0) :
    (v ||| mask) &&& mask ≠ 0 := by
  simp only [ne_eq, ← UInt32.toBitVec_inj, UInt32.toBitVec_and,
    UInt32.toBitVec_or] at hmask ⊢
  exact setBit_ne_zero hmask

theorem clearBit_or {w mask : UInt32} (hv : v &&& mask = 0)
    (hw : w &&& mask = 0) : (v ||| w) &&& mask = 0 := by
  simp only [← UInt32.toBitVec_inj, UInt32.toBitVec_and,
    UInt32.toBitVec_or] at hv hw ⊢
  exact masked_or hv hw

theorem longMode_setEfer (e : UInt64) : (e ||| 0x400) &&& 0x400 ≠ 0 := by
  simp only [ne_eq, ← UInt64.toBitVec_inj, UInt64.toBitVec_and,
    UInt64.toBitVec_or]
  exact setBit_ne_zero (by decide)

/-- Paging is turned on with `LME` and `PAE` set. -/
theorem loadCr0_longMode (hpaging : v &&& 0x80000000 ≠ 0)
    (hefer : c.efer &&& 0x100 ≠ 0) (hpae : c.cr4 &&& 0x20 ≠ 0)
    (hlevels : c.cr4 &&& 0x1000 = 0) :
    ∃ c', c.loadCr0 v = some c' ∧ c'.longMode ∧ c'.cr3 = c.cr3 ∧
      c'.mem = c.mem ∧ c'.esp = c.esp ∧ c'.eflags = c.eflags := by
  refine ⟨{ c with cr0 := v, efer := c.efer ||| 0x400 }, ?_,
    ⟨longMode_setEfer _, hlevels⟩, rfl, rfl, rfl, rfl⟩
  rw [loadCr0, if_pos ⟨hpaging, hefer⟩, if_pos hpae]

end Cpu32

end X64

end Lib
