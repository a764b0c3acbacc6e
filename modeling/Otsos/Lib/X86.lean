import Mathlib.Algebra.Group.Nat.Defs
import Mathlib.Logic.Function.Basic
import Mathlib.Tactic.Common

/-!
# Straight-line x86-64 with port I/O

The registers and instructions that port access routines are made of, over any
device on the I/O bus.  A move to a part of a register keeps its other bits;
the string instructions move one word for each unit of `rcx`.  Words moved by
string instructions are counted in a ghost field.
-/

namespace Lib.X86

inductive Reg where
  | rax | rcx | rdx | rsi | rdi | rsp
deriving DecidableEq, Repr

/-- What a device does on the instructions `in` and `out`. -/
structure Bus (δ : Type*) where
  inByte : δ → BitVec 16 → BitVec 8 × δ
  inWord : δ → BitVec 16 → BitVec 16 × δ
  outByte : δ → BitVec 16 → BitVec 8 → δ
  outWord : δ → BitVec 16 → BitVec 16 → δ

structure Machine (δ : Type*) where
  regs : Reg → BitVec 64
  mem : BitVec 64 → BitVec 8
  /-- The direction flag. -/
  backward : Bool
  device : δ
  /-- Words moved by string instructions so far. -/
  moved : ℕ

/-- The lower `n` bits of `new` under the upper ones of `old`. -/
def withLow (n : ℕ) (old new : BitVec 64) : BitVec 64 :=
  BitVec.ofNat 64 (old.toNat / 2 ^ n * 2 ^ n + new.toNat % 2 ^ n)

inductive Instr where
  | mov (dst src : Reg)
  /-- Between the low 16 bits. -/
  | movWord (dst src : Reg)
  /-- Between the low 8 bits. -/
  | movByte (dst src : Reg)
  /-- `xor eax, eax`. -/
  | clearRax
  | inAl | inAx | outAl | outAx
  | push (src : Reg)
  | pop (dst : Reg)
  | cld
  | repInsw | repOutsw
  | ret

/-- The `n` bytes at `a`, the first one lowest. -/
def loadBytes (mem : BitVec 64 → BitVec 8) (a : BitVec 64) : ℕ → BitVec 64
  | 0 => 0
  | n + 1 => (mem a).setWidth 64 ||| loadBytes mem (a + 1) n <<< 8

variable {δ : Type*}

namespace Machine

def setReg (m : Machine δ) (r : Reg) (v : BitVec 64) : Machine δ :=
  { m with regs := Function.update m.regs r v }

/-- `dx`. -/
def port (m : Machine δ) : BitVec 16 := (m.regs .rdx).setWidth 16

def storeBytes (m : Machine δ) (a : BitVec 64) : ℕ → BitVec 64 → Machine δ
  | 0, _ => m
  | n + 1, v =>
      { m with mem := Function.update m.mem a (v.setWidth 8) }.storeBytes
        (a + 1) n (v >>> 8)

/-- How far a string instruction goes in one iteration. -/
def stride (m : Machine δ) : BitVec 64 := if m.backward then -2 else 2

/-- One iteration of `rep insw`. -/
def insOnce (bus : Bus δ) (m : Machine δ) : Machine δ :=
  let (w, device) := bus.inWord m.device m.port
  let m := { m with device := device, moved := m.moved + 1 }
  let m := m.storeBytes (m.regs .rdi) 2 (w.setWidth 64)
  let m := m.setReg .rdi (m.regs .rdi + m.stride)
  m.setReg .rcx (m.regs .rcx - 1)

/-- One iteration of `rep outsw`. -/
def outsOnce (bus : Bus δ) (m : Machine δ) : Machine δ :=
  let w := (loadBytes m.mem (m.regs .rsi) 2).setWidth 16
  let m := { m with
    device := bus.outWord m.device m.port w
    moved := m.moved + 1 }
  let m := m.setReg .rsi (m.regs .rsi + m.stride)
  m.setReg .rcx (m.regs .rcx - 1)

/-- The iterations of a `rep` prefix. -/
def repeated (f : Machine δ → Machine δ) : ℕ → Machine δ → Machine δ
  | 0, m => m
  | n + 1, m => repeated f n (f m)

end Machine

def Instr.eval (bus : Bus δ) (m : Machine δ) : Instr → Machine δ
  | .mov dst src => m.setReg dst (m.regs src)
  | .movWord dst src => m.setReg dst (withLow 16 (m.regs dst) (m.regs src))
  | .movByte dst src => m.setReg dst (withLow 8 (m.regs dst) (m.regs src))
  | .clearRax => m.setReg .rax 0
  | .inAl =>
      let (v, device) := bus.inByte m.device m.port
      { m with device := device }.setReg .rax
        (withLow 8 (m.regs .rax) (v.setWidth 64))
  | .inAx =>
      let (v, device) := bus.inWord m.device m.port
      { m with device := device }.setReg .rax
        (withLow 16 (m.regs .rax) (v.setWidth 64))
  | .outAl =>
      { m with
        device := bus.outByte m.device m.port ((m.regs .rax).setWidth 8) }
  | .outAx =>
      { m with
        device := bus.outWord m.device m.port ((m.regs .rax).setWidth 16) }
  | .push src =>
      let m' := m.setReg .rsp (m.regs .rsp - 8)
      m'.storeBytes (m'.regs .rsp) 8 (m.regs src)
  | .pop dst =>
      (m.setReg .rsp (m.regs .rsp + 8)).setReg dst
        (loadBytes m.mem (m.regs .rsp) 8)
  | .cld => { m with backward := false }
  | .repInsw => Machine.repeated (Machine.insOnce bus) (m.regs .rcx).toNat m
  | .repOutsw => Machine.repeated (Machine.outsOnce bus) (m.regs .rcx).toNat m
  | .ret => m.setReg .rsp (m.regs .rsp + 8)

/-- A piece of code without jumps. -/
def run (bus : Bus δ) (code : List Instr) (m : Machine δ) : Machine δ :=
  code.foldl (Instr.eval bus) m

/-- A call with arguments in registers.  What is pushed as the return address
plays no part. -/
def Machine.call (bus : Bus δ) (code : List Instr)
    (args : List (Reg × BitVec 64)) (m : Machine δ) : Machine δ :=
  let m := args.foldl (fun m arg => m.setReg arg.1 arg.2) m
  let m := m.setReg .rsp (m.regs .rsp - 8)
  run bus code (m.storeBytes (m.regs .rsp) 8 0)

/-! ## What the instructions leave alone -/

variable {bus : Bus δ} {m : Machine δ} {r s : Reg} {v a : BitVec 64} {n : ℕ}

theorem withLow_toNat (hn : n ≤ 64) (old new : BitVec 64) :
    (withLow n old new).toNat =
      old.toNat / 2 ^ n * 2 ^ n + new.toNat % 2 ^ n := by
  rw [withLow, BitVec.toNat_ofNat, Nat.mod_eq_of_lt]
  have hpow : (2 : ℕ) ^ 64 = 2 ^ (64 - n) * 2 ^ n := by
    rw [← Nat.pow_add, Nat.sub_add_cancel hn]
  have hlow : new.toNat % 2 ^ n < 2 ^ n := Nat.mod_lt _ (Nat.two_pow_pos n)
  have hhigh : old.toNat / 2 ^ n < 2 ^ (64 - n) := by
    rw [Nat.div_lt_iff_lt_mul (Nat.two_pow_pos n), ← hpow]
    exact old.isLt
  calc old.toNat / 2 ^ n * 2 ^ n + new.toNat % 2 ^ n
      < old.toNat / 2 ^ n * 2 ^ n + 2 ^ n := Nat.add_lt_add_left hlow _
    _ = (old.toNat / 2 ^ n + 1) * 2 ^ n := by rw [Nat.add_mul, Nat.one_mul]
    _ ≤ 2 ^ (64 - n) * 2 ^ n := Nat.mul_le_mul_right _ hhigh
    _ = 2 ^ 64 := hpow.symm

namespace Machine

@[simp] theorem setReg_self : (m.setReg r v).regs r = v :=
  Function.update_self _ _ _

@[simp] theorem setReg_other (h : s ≠ r) : (m.setReg r v).regs s = m.regs s :=
  Function.update_of_ne h _ _

@[simp] theorem setReg_moved : (m.setReg r v).moved = m.moved := rfl

@[simp] theorem setReg_device : (m.setReg r v).device = m.device := rfl

@[simp] theorem setReg_mem : (m.setReg r v).mem = m.mem := rfl

@[simp] theorem storeBytes_moved :
    (m.storeBytes a n v).moved = m.moved := by
  induction n generalizing m a v with
  | zero => rfl
  | succ n ih => exact ih

@[simp] theorem storeBytes_regs : (m.storeBytes a n v).regs = m.regs := by
  induction n generalizing m a v with
  | zero => rfl
  | succ n ih => exact ih

@[simp] theorem insOnce_moved :
    (m.insOnce bus).moved = m.moved + 1 := by
  simp [insOnce]

@[simp] theorem outsOnce_moved : (m.outsOnce bus).moved = m.moved + 1 := rfl

theorem repeated_moved {f : Machine δ → Machine δ}
    (hf : ∀ m, (f m).moved = m.moved + 1) :
    (repeated f n m).moved = m.moved + n := by
  induction n generalizing m with
  | zero => rfl
  | succ n ih =>
      rw [repeated, ih, hf]
      omega

end Machine

/-- Only the string instructions move words. -/
def Instr.isString : Instr → Bool
  | .repInsw => true
  | .repOutsw => true
  | _ => false

theorem Instr.eval_moved {i : Instr} (h : i.isString = false) :
    (i.eval bus m).moved = m.moved := by
  cases i with
  | repInsw => cases h
  | repOutsw => cases h
  | push src => simp [Instr.eval]
  | _ => rfl

theorem run_moved {code : List Instr}
    (h : ∀ i ∈ code, i.isString = false) : (run bus code m).moved = m.moved := by
  induction code generalizing m with
  | nil => rfl
  | cons i code ih =>
      have hrest := @ih (i.eval bus m)
        fun j hj => h j (List.mem_cons_of_mem i hj)
      exact hrest.trans (Instr.eval_moved (h i List.mem_cons_self))

/-- Of code around one string instruction, that one moves the words. -/
theorem run_moved_string {i : Instr} {before after : List Instr}
    (hbefore : ∀ j ∈ before, j.isString = false)
    (hafter : ∀ j ∈ after, j.isString = false)
    (hi : ∀ m : Machine δ,
      (i.eval bus m).moved = m.moved + (m.regs .rcx).toNat) :
    (run bus (before ++ i :: after) m).moved =
      m.moved + ((run bus before m).regs .rcx).toNat := by
  have hsplit : run bus (before ++ i :: after) m =
      run bus after (i.eval bus (run bus before m)) := by
    rw [run, List.foldl_append]
    rfl
  rw [hsplit, run_moved hafter, hi, run_moved hbefore]

theorem Instr.repInsw_moved :
    (Instr.repInsw.eval bus m).moved = m.moved + (m.regs .rcx).toNat :=
  Machine.repeated_moved fun _ => Machine.insOnce_moved

theorem Instr.repOutsw_moved :
    (Instr.repOutsw.eval bus m).moved = m.moved + (m.regs .rcx).toNat :=
  Machine.repeated_moved fun _ => Machine.outsOnce_moved

end Lib.X86
