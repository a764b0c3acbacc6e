import Otsos.Drivers.Pata

/-!
# The words of a sector transfer

The PATA driver over the port functions as they are assembled.  Moving the
port to `dx` leaves only the upper 48 bits of the count, so a call for 256
words moves `0x1F0` of them.
-/

namespace Otsos

open Lib.X86

variable {δ : Type*}

/-- The port functions of `hardware.asm`, called from C. -/
def asmPorts (bus : Bus δ) : Ports (Machine δ) where
  inb m port :=
    let m := m.call bus Hardware.inb [(.rdi, port.setWidth 64)]
    ((m.regs .rax).setWidth 8, m)
  outb m port v :=
    m.call bus Hardware.outb [(.rdi, port.setWidth 64), (.rsi, v.setWidth 64)]
  insw m port addr count :=
    m.call bus Hardware.insw
      [(.rdi, port.setWidth 64), (.rsi, addr), (.rdx, count)]
  outsw m port addr count :=
    m.call bus Hardware.outsw
      [(.rdi, port.setWidth 64), (.rsi, addr), (.rdx, count)]

variable {bus : Bus δ} {m m' : Machine δ} {fuel : ℕ} {lba : BitVec 32}
  {buffer targetBuf dummyBuffer : BitVec 64}

@[simp] theorem asmPorts_inb_moved (port : BitVec 16) :
    ((asmPorts bus).inb m port).2.moved = m.moved := by
  change (run bus Hardware.inb _).moved = _
  rw [run_moved (by decide)]
  simp

@[simp] theorem asmPorts_outb_moved (port : BitVec 16) (v : BitVec 8) :
    ((asmPorts bus).outb m port v).moved = m.moved := by
  change (run bus Hardware.outb _).moved = _
  rw [run_moved (by decide)]
  simp

theorem asmPorts_insw_moved (port : BitVec 16) (addr count : BitVec 64) :
    ((asmPorts bus).insw m port addr count).moved =
      m.moved + wordsMoved (port.setWidth 64) count := by
  change (run bus Hardware.insw _).moved = _
  rw [insw_moved]
  simp

theorem asmPorts_outsw_moved (port : BitVec 16) (addr count : BitVec 64) :
    ((asmPorts bus).outsw m port addr count).moved =
      m.moved + wordsMoved (port.setWidth 64) count := by
  change (run bus Hardware.outsw _).moved = _
  rw [outsw_moved]
  simp

theorem wordsMoved_sector :
    wordsMoved (ideData.setWidth 64) 256 = 0x1F0 := by decide

/-! ## The calls -/

theorem asmPorts_waitBsy_moved
    (hwait : (asmPorts bus).pataWaitBsy fuel m = some m') :
    m'.moved = m.moved :=
  Ports.pataWaitBsy_keeps (P := fun s => s.moved = m.moved)
    (fun _ hs => (asmPorts_inb_moved ideStatus).trans hs) hwait rfl

theorem asmPorts_waitDrq_moved
    (hwait : (asmPorts bus).pataWaitDrq fuel m = some m') :
    m'.moved = m.moved :=
  Ports.pataWaitDrq_keeps (P := fun s => s.moved = m.moved)
    (fun _ hs => (asmPorts_inb_moved ideStatus).trans hs) hwait rfl

@[simp] theorem asmPorts_select_moved (command : BitVec 8) :
    ((asmPorts bus).pataSelect m lba command).moved = m.moved := by
  simp [Ports.pataSelect]

theorem pataReadSector_moved
    (hcall : (asmPorts bus).pataReadSector fuel m lba buffer = some m') :
    m'.moved = m.moved + 0x1F0 := by
  obtain ⟨m₁, m₂, m₃, hfirst, hselected, hready, rfl⟩ :=
    Ports.pataReadSector_cases hcall
  have hmoved : m₃.moved = m.moved := by
    rw [asmPorts_waitDrq_moved hready, asmPorts_waitBsy_moved hselected,
      asmPorts_select_moved, asmPorts_waitBsy_moved hfirst]
  rw [asmPorts_insw_moved, wordsMoved_sector, hmoved]

theorem pataWriteSector_moved
    (hcall : (asmPorts bus).pataWriteSector fuel m lba buffer = some m') :
    m'.moved = m.moved + 0x1F0 := by
  obtain ⟨m₁, m₂, m₃, hfirst, hselected, hready, hlast⟩ :=
    Ports.pataWriteSector_cases hcall
  have hmoved : m₃.moved = m.moved := by
    rw [asmPorts_waitDrq_moved hready, asmPorts_waitBsy_moved hselected,
      asmPorts_select_moved, asmPorts_waitBsy_moved hfirst]
  rw [asmPorts_waitBsy_moved hlast, asmPorts_outb_moved, asmPorts_outsw_moved,
    wordsMoved_sector, hmoved]

theorem pataIdentify_moved
    (hcall : (asmPorts bus).pataIdentify fuel m targetBuf dummyBuffer =
      some m') :
    m'.moved = m.moved ∨ m'.moved = m.moved + 0x1F0 := by
  simp only [Ports.pataIdentify] at hcall
  split at hcall
  · cases hcall
    simp
  · obtain ⟨m₁, hwait, rfl⟩ := Option.map_eq_some_iff.mp hcall
    have hmoved : m₁.moved = m.moved := by
      rw [asmPorts_waitBsy_moved hwait]
      simp
    right
    split
    · rw [asmPorts_insw_moved, wordsMoved_sector, hmoved]
    · rw [asmPorts_insw_moved, wordsMoved_sector, hmoved]

/-- The string functions move what they are asked for exactly if the low 16
bits of the count are the port; no sector call that returns has moved one
sector. -/
theorem transfer_exact_iff (bus : Bus δ) :
    (∀ m : Machine δ,
      ((run bus Hardware.insw m).moved = m.moved + (m.regs .rdx).toNat ↔
        (m.regs .rdx).setWidth 16 = (m.regs .rdi).setWidth 16) ∧
      ((run bus Hardware.outsw m).moved = m.moved + (m.regs .rdx).toNat ↔
        (m.regs .rdx).setWidth 16 = (m.regs .rdi).setWidth 16)) ∧
    (∀ fuel m lba buffer m',
      (asmPorts bus).pataReadSector fuel m lba buffer = some m' →
        m'.moved ≠ m.moved + 256) ∧
    (∀ fuel m lba buffer m',
      (asmPorts bus).pataWriteSector fuel m lba buffer = some m' →
        m'.moved ≠ m.moved + 256) ∧
    (∀ fuel m targetBuf dummyBuffer m',
      (asmPorts bus).pataIdentify fuel m targetBuf dummyBuffer = some m' →
        m'.moved ≠ m.moved + 256) := by
  refine ⟨fun m => ⟨?_, ?_⟩, ?_, ?_, ?_⟩
  · rw [insw_moved, Nat.add_left_cancel_iff, wordsMoved_eq_iff]
    simp [← BitVec.toNat_inj]
  · rw [outsw_moved, Nat.add_left_cancel_iff, wordsMoved_eq_iff]
    simp [← BitVec.toNat_inj]
  · intro fuel m lba buffer m' hcall
    rw [pataReadSector_moved hcall]
    omega
  · intro fuel m lba buffer m' hcall
    rw [pataWriteSector_moved hcall]
    omega
  · intro fuel m targetBuf dummyBuffer m' hcall
    rcases pataIdentify_moved hcall with hmoved | hmoved
    · omega
    · omega

/-- A drive that is always ready and whose sectors hold ones. -/
def readyDrive : Bus Unit where
  inByte _ _ := (0x08, ())
  inWord _ _ := (0xFFFF, ())
  outByte _ _ _ := ()
  outWord _ _ _ := ()

def zeroMachine : Machine Unit where
  regs := fun _ => 0x8000
  mem := fun _ => 0
  backward := false
  device := ()
  moved := 0

theorem transfer_exact_readyDrive :
    (run readyDrive Hardware.insw
        ((zeroMachine.setReg .rdi 0x1F0).setReg .rdx 0x101F0)).moved =
      0x101F0 ∧
    ∃ m', (asmPorts readyDrive).pataReadSector 1 zeroMachine 0 0x1000 =
      some m' ∧ m'.moved ≠ 256 := by
  obtain ⟨hwords, hread, -⟩ := transfer_exact_iff readyDrive
  constructor
  · exact (hwords _).1.mpr (by decide)
  · have hreturns : ((asmPorts readyDrive).pataReadSector 1 zeroMachine 0
        0x1000).isSome := by decide +kernel
    obtain ⟨m', hcall⟩ := Option.isSome_iff_exists.mp hreturns
    exact ⟨m', hcall, hread 1 zeroMachine 0 0x1000 m' hcall⟩

/-- A sector read into the 512 bytes at `0x1000` moves 496 words, and the byte
behind them changes. -/
theorem read_overruns :
    ((asmPorts readyDrive).pataReadSector 1 zeroMachine 0 0x1000).map
        (fun m => (m.moved, m.mem (0x1000 + 512))) = some (496, 0xFF) ∧
      zeroMachine.mem (0x1000 + 512) = 0 := by
  decide +kernel

end Otsos
