import Otsos.Bin.Commands
import Otsos.Drivers.AtaDevice

/-!
# The sector that `disk clear` zeroes

The `disk` command over the PATA driver.  What is typed behind `disk clear`
goes through `atoi`, which always gives a number, and the sector of that number
is zeroed.
-/

namespace Otsos

open Lib Lib.X86

/-- Where the arrays of `disk` and `pata.c` lie. -/
structure DiskArrays where
  identifyData : BitVec 64
  empty : BitVec 64
  usageBuf : BitVec 64
  dumpBuffer : BitVec 64
  pataDummyBuffer : BitVec 64

/-- `memset(a, 0, n)`. -/
def zeroBytes (mem : BitVec 64 → BitVec 8) (a : BitVec 64) :
    ℕ → BitVec 64 → BitVec 8
  | 0 => mem
  | n + 1 => zeroBytes (Function.update mem a 0) (a + 1) n

/-- The calls of the driver that `disk` makes. -/
def diskCalls (arrays : DiskArrays) (fuel : ℕ) (m : AtaMachine) :
    DiskCommand → Option AtaMachine
  | .info =>
      ataPorts.pataIdentify fuel m arrays.identifyData arrays.pataDummyBuffer
  | .clear sector =>
      ataPorts.pataWriteSector fuel
        { m with mem := zeroBytes m.mem arrays.empty 512 } sector.toBitVec
        arrays.empty
  | .usage => ataPorts.pataReadSector fuel m 0 arrays.usageBuf
  | .dump sector =>
      ataPorts.pataReadSector fuel m sector.toBitVec arrays.dumpBuffer
  | .help => some m

def emptySector : AtaSector := ⟨List.replicate 256 0, List.length_replicate⟩

/-- A non-empty string of decimal digits. -/
def DecimalText (t : List UInt8) (n : ℕ) : Prop :=
  t ≠ [] ∧ (∀ c ∈ t, isDigit c = true) ∧
    readDigits 10 0 (t.map charDigit) = n

/-- On every machine the command ends, and either no sector was written, or
the text is a number below `2 ^ 32` and the sector of that number was. -/
def ClearsTyped (arrays : DiskArrays) (t : List UInt8) : Prop :=
  ∃ command, shellCommand (literal "disk clear " ++ t) = .disk command ∧
    ∀ m : AtaMachine, ∃ m',
      Settles (fun fuel => diskCalls arrays fuel m command) m' ∧
        (m'.device.disk = m.device.disk ∨
          ∃ n < 2 ^ 32, DecimalText t n ∧ ∃ sector : BitVec 28,
            sector.toNat = n ∧
            m'.device.disk =
              Function.update m.device.disk (false, sector) emptySector)

variable {arrays : DiskArrays} {t : List UInt8} {m : AtaMachine}
  {mem : BitVec 64 → BitVec 8} {a x : BitVec 64}

theorem zeroBytes_keeps {n : ℕ} (hx : mem x = 0) : zeroBytes mem a n x = 0 := by
  induction n generalizing mem a with
  | zero => exact hx
  | succ n ih =>
      apply ih
      by_cases hxa : x = a
      · rw [hxa, Function.update_self]
      · rw [Function.update_of_ne hxa, hx]

theorem add_ofNat_add (a : BitVec 64) (n i : ℕ) :
    a + BitVec.ofNat 64 (i + n) = a + BitVec.ofNat 64 n + BitVec.ofNat 64 i := by
  rw [Nat.add_comm, BitVec.ofNat_add, BitVec.add_assoc]

theorem zeroBytes_inside {n i : ℕ} (hi : i < n) :
    zeroBytes mem a n (a + BitVec.ofNat 64 i) = 0 := by
  induction n generalizing mem a i with
  | zero => omega
  | succ n ih =>
      cases i with
      | zero =>
          rw [zeroBytes]
          apply zeroBytes_keeps
          rw [show a + BitVec.ofNat 64 0 = a from BitVec.add_zero a,
            Function.update_self]
      | succ i =>
          rw [add_ofNat_add a 1 i]
          exact ih (by omega)

theorem words_zero {n : ℕ}
    (hzero : ∀ i < 2 * n, mem (a + BitVec.ofNat 64 i) = 0) :
    words mem a n = List.replicate n 0 := by
  induction n generalizing a with
  | zero => rfl
  | succ n ih =>
      have hlow : mem a = 0 := by
        have h := hzero 0 (by omega)
        rwa [show a + BitVec.ofNat 64 0 = a from BitVec.add_zero a] at h
      have hhigh : mem (a + 1) = 0 := hzero 1 (by omega)
      have hword : word mem a = 0 := by
        rw [word_eq, hlow, hhigh]
        rfl
      rw [words, hword, ih, List.replicate_succ]
      intro i hi
      have h := hzero (i + 2) (by omega)
      rwa [add_ofNat_add a 2 i] at h

theorem sectorAt_zeroBytes (mem : BitVec 64 → BitVec 8) (a : BitVec 64) :
    sectorAt (zeroBytes mem a 512) a = emptySector := by
  apply Subtype.ext
  exact words_zero fun i hi => zeroBytes_inside (by omega)

/-! ## The command -/

def clearedSector (t : List UInt8) : BitVec 28 :=
  (atoi t).toUInt32.toBitVec.setWidth 28

theorem shellCommand_clear (t : List UInt8) :
    shellCommand (literal "disk clear " ++ t) =
      .disk (.clear (atoi t).toUInt32) := rfl

/-- One sector is zeroed, whatever was typed. -/
theorem diskCalls_clear (arrays : DiskArrays) (t : List UInt8)
    (m : AtaMachine) :
    ∃ m', Settles (fun fuel =>
        diskCalls arrays fuel m (.clear (atoi t).toUInt32)) m' ∧
      m'.device.disk = Function.update m.device.disk
        (false, clearedSector t) emptySector := by
  obtain ⟨m', hsettles, hdisk⟩ := pataWriteSector_settles
    { m with mem := zeroBytes m.mem arrays.empty 512 }
    (atoi t).toUInt32.toBitVec arrays.empty
  refine ⟨m', hsettles, ?_⟩
  rw [hdisk, sectorAt_zeroBytes]
  rfl

theorem clearedSector_decimal {n : ℕ} (ht : DecimalText t n) :
    (clearedSector t).toNat = n % 2 ^ 28 := by
  obtain ⟨hne, hdigits, hvalue⟩ := ht
  have hsign : t.head? ≠ some 45 := by
    intro hhead
    have hdigit := hdigits 45 (List.mem_of_head? hhead)
    exact absurd hdigit (by decide)
  have hnumber : leadingNumber 0 t = n := by
    rw [leadingNumber, List.takeWhile_eq_self_iff.mpr hdigits, hvalue]
  rw [clearedSector, atoi_plain hsign, hnumber, BitVec.toNat_setWidth]
  change (Int32.ofNat n).toUInt32.toNat % 2 ^ 28 = _
  rw [Int32.toUInt32_ofNat', UInt32.toNat_ofNat',
    Nat.mod_mod_of_dvd n (by decide)]

/-- A drive with something in every sector. -/
def fullDisk : AtaMachine where
  regs := fun _ => 0
  mem := fun _ => 0
  backward := false
  device :=
    { features := 0, secCount := 0, lbaLow := 0, lbaMid := 0, lbaHigh := 0,
      drive := 0, busy := 0, delay := fun _ => 1, commands := 0, phase := .idle,
      disk := fun _ => ⟨List.replicate 256 1, List.length_replicate⟩ }
  moved := 0

theorem ClearsTyped.decimal (h : ClearsTyped arrays t) :
    ∃ n < 2 ^ 28, DecimalText t n := by
  obtain ⟨command, hcommand, hall⟩ := h
  rw [shellCommand_clear] at hcommand
  cases hcommand
  obtain ⟨m', hsettles, hcases⟩ := hall fullDisk
  obtain ⟨m'', hsettles', hdisk⟩ := diskCalls_clear arrays t fullDisk
  cases hsettles.unique hsettles'
  have hother : ∀ address, fullDisk.device.disk address ≠ emptySector := by
    intro address heq
    have hword : some (1 : BitVec 16) = some 0 :=
      congrArg (fun sector : AtaSector => sector.val.head?) heq
    exact absurd hword (by decide)
  have hzero : m'.device.disk (false, clearedSector t) = emptySector := by
    rw [hdisk, Function.update_self]
  rcases hcases with hsame | ⟨n, -, hdecimal, sector, hsector, -⟩
  · rw [hsame] at hzero
    exact absurd hzero (hother _)
  · exact ⟨n, hsector ▸ sector.isLt, hdecimal⟩

/-- The texts that clear what they say are the numbers of 28 bits. -/
theorem disk_clear_typed_iff (arrays : DiskArrays) (t : List UInt8) :
    ClearsTyped arrays t ↔ ∃ n < 2 ^ 28, DecimalText t n := by
  constructor
  · exact ClearsTyped.decimal
  · rintro ⟨n, hn, hdecimal⟩
    refine ⟨_, shellCommand_clear t, fun m => ?_⟩
    obtain ⟨m', hsettles, hdisk⟩ := diskCalls_clear arrays t m
    have hsector := clearedSector_decimal hdecimal
    rw [Nat.mod_eq_of_lt hn] at hsector
    exact ⟨m', hsettles, Or.inr ⟨n, by omega, hdecimal, _, hsector, hdisk⟩⟩

/-- The command `disk clear x` zeroes the superblock. -/
theorem disk_clear_letter :
    ¬ ClearsTyped ⟨0x1000, 0x2000, 0x3000, 0x4000, 0x5000⟩ (literal "x") := by
  intro h
  obtain ⟨n, -, -, hdigits, -⟩ := h.decimal
  exact absurd (hdigits 120 (by decide)) (by decide)

end Otsos
