import Otsos.Lib.X86

/-!
# Port access

`mlibc/hardware.asm`, assembled with `__x86_64__` defined.  The arguments
arrive in `rdi`, `rsi` and `rdx`, so moving the port to `dx` writes into the
third one.
-/

namespace Otsos

open Lib.X86

namespace Hardware

def inb : List Instr := [.movWord .rdx .rdi, .clearRax, .inAl, .ret]

def outb : List Instr :=
  [.movWord .rdx .rdi, .movByte .rax .rsi, .outAl, .ret]

def inw : List Instr := [.movWord .rdx .rdi, .clearRax, .inAx, .ret]

def outw : List Instr :=
  [.movWord .rdx .rdi, .movWord .rax .rsi, .outAx, .ret]

def insw : List Instr :=
  [.push .rdi, .movWord .rdx .rdi, .mov .rdi .rsi, .mov .rcx .rdx, .cld,
    .repInsw, .pop .rdi, .ret]

def outsw : List Instr :=
  [.movWord .rdx .rdi, .mov .rcx .rdx, .cld, .repOutsw, .ret]

end Hardware

variable {δ : Type*} {bus : Bus δ} {m : Machine δ}

/-- What `insw` and `outsw` take for the count: its low 16 bits are the
port. -/
def wordsMoved (port count : BitVec 64) : ℕ := (withLow 16 count port).toNat

theorem insw_moved : (run bus Hardware.insw m).moved =
    m.moved + wordsMoved (m.regs .rdi) (m.regs .rdx) := by
  have hsplit : Hardware.insw =
      [.push .rdi, .movWord .rdx .rdi, .mov .rdi .rsi, .mov .rcx .rdx,
        .cld] ++ .repInsw :: [.pop .rdi, .ret] := rfl
  rw [hsplit, run_moved_string (by decide) (by decide)
    fun _ => Instr.repInsw_moved]
  simp [run, Instr.eval, wordsMoved]

theorem outsw_moved : (run bus Hardware.outsw m).moved =
    m.moved + wordsMoved (m.regs .rdi) (m.regs .rdx) := by
  have hsplit : Hardware.outsw =
      [.movWord .rdx .rdi, .mov .rcx .rdx, .cld] ++ .repOutsw :: [.ret] := rfl
  rw [hsplit, run_moved_string (by decide) (by decide)
    fun _ => Instr.repOutsw_moved]
  simp [run, Instr.eval, wordsMoved]

/-- The count survives only if its low 16 bits are the port. -/
theorem wordsMoved_eq_iff (port count : BitVec 64) :
    wordsMoved port count = count.toNat ↔
      count.toNat % 2 ^ 16 = port.toNat % 2 ^ 16 := by
  rw [wordsMoved, withLow_toNat (by decide)]
  omega

end Otsos
