import Otsos.Mlibc.PortIO

/-!
# The PATA driver

`pata.c` over the port functions it calls.  A loop that polls the status
register is given a number of reads and answers `none` if the register has not
changed by then.  The messages sent to the serial port are left out.
-/

namespace Otsos

open Lib.X86

def ideData : BitVec 16 := 0x1F0
def ideFeatures : BitVec 16 := 0x1F1
def ideSecCount : BitVec 16 := 0x1F2
def ideLbaLow : BitVec 16 := 0x1F3
def ideLbaMid : BitVec 16 := 0x1F4
def ideLbaHigh : BitVec 16 := 0x1F5
def ideDriveSel : BitVec 16 := 0x1F6
def ideCommand : BitVec 16 := 0x1F7
def ideStatus : BitVec 16 := 0x1F7

def ideCmdRead : BitVec 8 := 0x20
def ideCmdWrite : BitVec 8 := 0x30
def ideCmdIdentify : BitVec 8 := 0xEC

def ideStatusBsy : BitVec 8 := 0x80
def ideStatusDrq : BitVec 8 := 0x08

/-- The port functions, on the states of the machine and its devices. -/
structure Ports (σ : Type*) where
  inb : σ → BitVec 16 → BitVec 8 × σ
  outb : σ → BitVec 16 → BitVec 8 → σ
  insw : σ → BitVec 16 → BitVec 64 → BitVec 64 → σ
  outsw : σ → BitVec 16 → BitVec 64 → BitVec 64 → σ

variable {σ : Type*}

namespace Ports

variable (io : Ports σ)

def pataWaitBsy : ℕ → σ → Option σ
  | 0, _ => none
  | fuel + 1, s =>
      match io.inb s ideStatus with
      | (status, s) =>
          if status &&& ideStatusBsy ≠ 0 then pataWaitBsy fuel s else some s

def pataWaitDrq : ℕ → σ → Option σ
  | 0, _ => none
  | fuel + 1, s =>
      match io.inb s ideStatus with
      | (status, s) =>
          if status &&& ideStatusDrq = 0 then pataWaitDrq fuel s else some s

/-- `pata_identify`; `dummyBuffer` is where `pata_dummy_buffer` lies. -/
def pataIdentify (fuel : ℕ) (s : σ) (targetBuf dummyBuffer : BitVec 64) :
    Option σ :=
  let s := io.outb s ideDriveSel 0xA0
  let s := io.outb s ideSecCount 0
  let s := io.outb s ideLbaLow 0
  let s := io.outb s ideLbaMid 0
  let s := io.outb s ideLbaHigh 0
  let s := io.outb s ideCommand ideCmdIdentify
  match io.inb s ideStatus with
  | (status, s) =>
      if status = 0 then some s
      else
        (io.pataWaitBsy fuel s).map fun s =>
          if targetBuf ≠ 0 then io.insw s ideData targetBuf 256
          else io.insw s ideData dummyBuffer 256

/-- The registers that select the sector `lba`, and the command. -/
def pataSelect (s : σ) (lba : BitVec 32) (command : BitVec 8) : σ :=
  let s := io.outb s ideDriveSel (0xE0 ||| ((lba >>> 24) &&& 0x0F).setWidth 8)
  let s := io.outb s ideFeatures 0x00
  let s := io.outb s ideSecCount 1
  let s := io.outb s ideLbaLow (lba.setWidth 8)
  let s := io.outb s ideLbaMid ((lba >>> 8).setWidth 8)
  let s := io.outb s ideLbaHigh ((lba >>> 16).setWidth 8)
  io.outb s ideCommand command

def pataReadSector (fuel : ℕ) (s : σ) (lba : BitVec 32)
    (buffer : BitVec 64) : Option σ := do
  let s ← io.pataWaitBsy fuel s
  let s := io.pataSelect s lba ideCmdRead
  let s ← io.pataWaitBsy fuel s
  let s ← io.pataWaitDrq fuel s
  return io.insw s ideData buffer 256

def pataWriteSector (fuel : ℕ) (s : σ) (lba : BitVec 32)
    (buffer : BitVec 64) : Option σ := do
  let s ← io.pataWaitBsy fuel s
  let s := io.pataSelect s lba ideCmdWrite
  let s ← io.pataWaitBsy fuel s
  let s ← io.pataWaitDrq fuel s
  let s := io.outsw s ideData buffer 256
  let s := io.outb s ideCommand 0xE7
  io.pataWaitBsy fuel s

/-! ## The transfers of a call -/

variable {io} {fuel : ℕ} {s s' : σ} {lba : BitVec 32}
  {buffer targetBuf dummyBuffer : BitVec 64}

theorem pataWaitBsy_succ : io.pataWaitBsy (fuel + 1) s =
    if (io.inb s ideStatus).1 &&& ideStatusBsy ≠ 0 then
      io.pataWaitBsy fuel (io.inb s ideStatus).2
    else some (io.inb s ideStatus).2 := rfl

theorem pataWaitDrq_succ : io.pataWaitDrq (fuel + 1) s =
    if (io.inb s ideStatus).1 &&& ideStatusDrq = 0 then
      io.pataWaitDrq fuel (io.inb s ideStatus).2
    else some (io.inb s ideStatus).2 := rfl

/-- What the polling loops keep, if reading the status keeps it. -/
theorem pataWaitBsy_keeps {P : σ → Prop}
    (hread : ∀ s, P s → P (io.inb s ideStatus).2)
    (hwait : io.pataWaitBsy fuel s = some s') (hs : P s) : P s' := by
  induction fuel generalizing s with
  | zero => cases hwait
  | succ fuel ih =>
      rw [pataWaitBsy_succ] at hwait
      split at hwait
      · exact ih hwait (hread s hs)
      · cases hwait
        exact hread s hs

theorem pataWaitDrq_keeps {P : σ → Prop}
    (hread : ∀ s, P s → P (io.inb s ideStatus).2)
    (hwait : io.pataWaitDrq fuel s = some s') (hs : P s) : P s' := by
  induction fuel generalizing s with
  | zero => cases hwait
  | succ fuel ih =>
      rw [pataWaitDrq_succ] at hwait
      split at hwait
      · exact ih hwait (hread s hs)
      · cases hwait
        exact hread s hs

theorem pataReadSector_cases
    (hcall : io.pataReadSector fuel s lba buffer = some s') :
    ∃ s₁ s₂ s₃, io.pataWaitBsy fuel s = some s₁ ∧
      io.pataWaitBsy fuel (io.pataSelect s₁ lba ideCmdRead) = some s₂ ∧
      io.pataWaitDrq fuel s₂ = some s₃ ∧
      s' = io.insw s₃ ideData buffer 256 := by
  simp only [pataReadSector, Option.bind_eq_bind, Option.pure_def,
    Option.bind_eq_some_iff, Option.some.injEq] at hcall
  obtain ⟨s₁, hfirst, s₂, hsecond, s₃, hthird, rfl⟩ := hcall
  exact ⟨s₁, s₂, s₃, hfirst, hsecond, hthird, rfl⟩

theorem pataWriteSector_cases
    (hcall : io.pataWriteSector fuel s lba buffer = some s') :
    ∃ s₁ s₂ s₃, io.pataWaitBsy fuel s = some s₁ ∧
      io.pataWaitBsy fuel (io.pataSelect s₁ lba ideCmdWrite) = some s₂ ∧
      io.pataWaitDrq fuel s₂ = some s₃ ∧
      io.pataWaitBsy fuel
          (io.outb (io.outsw s₃ ideData buffer 256) ideCommand 0xE7) =
        some s' := by
  simp only [pataWriteSector, Option.bind_eq_bind,
    Option.bind_eq_some_iff] at hcall
  obtain ⟨s₁, hfirst, s₂, hsecond, s₃, hthird, hlast⟩ := hcall
  exact ⟨s₁, s₂, s₃, hfirst, hsecond, hthird, hlast⟩

end Ports

end Otsos
