import Mathlib.Data.BitVec
import Otsos.Drivers.AtaDevice
import Otsos.Lib.SharedCells

/-!
# The PATA driver as a store of blocks

Calls with 32-bit block numbers over a device that is handed 28 bits of them:
block numbers that differ by a multiple of `2 ^ 28` share a sector.
-/

namespace Otsos

open Lib Lib.X86

/-- A call of the driver, with the memory as the program has left it. -/
inductive DiskCall where
  | read (mem : BitVec 64 → BitVec 8) (lba : BitVec 32) (buffer : BitVec 64)
  | write (mem : BitVec 64 → BitVec 8) (lba : BitVec 32) (buffer : BitVec 64)

/-- The machine after the call, and what was read. -/
def DiskCall.perform (fuel : ℕ) (m : AtaMachine) :
    DiskCall → Option (AtaMachine × List AtaSector)
  | .read mem lba buffer =>
      (ataPorts.pataReadSector fuel { m with mem := mem } lba buffer).map
        fun m => (m, [sectorAt m.mem buffer])
  | .write mem lba buffer =>
      (ataPorts.pataWriteSector fuel { m with mem := mem } lba buffer).map
        fun m => (m, [])

/-- What the reads of a sequence of calls return. -/
def diskAnswers (fuel : ℕ) (m : AtaMachine) :
    List DiskCall → Option (List AtaSector)
  | [] => some []
  | call :: calls =>
      (call.perform fuel m).bind fun (m, answer) =>
        (diskAnswers fuel m calls).map (answer ++ ·)

/-- The call as an operation on a store of blocks. -/
def DiskCall.op : DiskCall → StoreOp (BitVec 32) AtaSector
  | .read _ lba _ => .read lba
  | .write mem lba buffer => .write lba (sectorAt mem buffer)

def DiskCall.lba : DiskCall → BitVec 32
  | .read _ lba _ => lba
  | .write _ lba _ => lba

/-- The sector in which the driver keeps a block. -/
def blockSector (lba : BitVec 32) : AtaAddress := (false, lba.setWidth 28)

variable {m : AtaMachine} {calls : List DiskCall}

/-- Every call ends, with the sectors as a store in them would have it. -/
theorem DiskCall.perform_settles (m : AtaMachine) (call : DiskCall) :
    ∃ m' answer, Settles (fun fuel => call.perform fuel m) (m', answer) ∧
      ∀ ops, answers blockSector m.device.disk (call.op :: ops) =
        answer ++ answers blockSector m'.device.disk ops := by
  cases call with
  | read mem lba buffer =>
      obtain ⟨m', hcall, hdisk, hsector⟩ :=
        pataReadSector_settles { m with mem := mem } lba buffer
      refine ⟨m', [sectorAt m'.mem buffer], hcall.map, fun ops => ?_⟩
      rw [DiskCall.op, answers, hdisk, hsector]
      rfl
  | write mem lba buffer =>
      obtain ⟨m', hcall, hdisk⟩ :=
        pataWriteSector_settles { m with mem := mem } lba buffer
      refine ⟨m', [], hcall.map, fun ops => ?_⟩
      rw [DiskCall.op, answers, hdisk]
      rfl

/-- The driver keeps the blocks in the sectors of their low 28 bits. -/
theorem diskAnswers_settles (m : AtaMachine) (calls : List DiskCall) :
    Settles (fun fuel => diskAnswers fuel m calls)
      (answers blockSector m.device.disk (calls.map DiskCall.op)) := by
  induction calls generalizing m with
  | nil => exact settles_some []
  | cons call calls ih =>
      obtain ⟨m', answer, hcall, hanswers⟩ := call.perform_settles m
      rw [List.map_cons, hanswers]
      exact hcall.bind (ih m').map

/-- The driver answers like a store of blocks if every read finds in its
sector what it would find in its block. -/
theorem diskAnswers_eq_iff {initial : BitVec 32 → AtaSector} :
    Settles (fun fuel => diskAnswers fuel m calls)
        (answers id initial (calls.map DiskCall.op)) ↔
      EveryRead (calls.map DiskCall.op) fun before lba =>
        afterOps blockSector m.device.disk before (blockSector lba) =
          afterOps id initial before lba := by
  have hsettles := diskAnswers_settles m calls
  have hanswers : Settles (fun fuel => diskAnswers fuel m calls)
      (answers id initial (calls.map DiskCall.op)) ↔
      answers blockSector m.device.disk (calls.map DiskCall.op) =
        answers id initial (calls.map DiskCall.op) :=
    ⟨fun h => hsettles.unique h, fun h => h ▸ hsettles⟩
  rw [hanswers, answers_eq_iff]
  rfl

/-- The reads return what was last written to their block exactly if no read
finds its sector last written through another block with other data; `initial`
is what the blocks are taken to hold at first. -/
theorem diskAnswers_latest_iff (m : AtaMachine)
    (initial : BitVec 32 → AtaSector) (calls : List DiskCall) :
    Settles (fun fuel => diskAnswers fuel m calls)
        (answers id initial (calls.map DiskCall.op)) ↔
      EveryRead (calls.map DiskCall.op) fun before lba =>
        (lastWrite blockSector lba before).getD
            (m.device.disk (blockSector lba)) =
          (lastWrite id lba before).getD (initial lba) := by
  rw [diskAnswers_eq_iff]
  have hlast : ∀ before lba, afterOps id initial before lba =
      (lastWrite id lba before).getD (initial lba) := fun _ _ => afterOps_eq
  simp only [afterOps_eq, hlast]

theorem blockSector_inj {lba lba' : BitVec 32} (h : lba.toNat < 2 ^ 28)
    (h' : lba'.toNat < 2 ^ 28) (hsector : blockSector lba = blockSector lba') :
    lba = lba' := by
  have hlow := congrArg BitVec.toNat (Prod.ext_iff.mp hsector).2
  simp only [blockSector, BitVec.toNat_setWidth, Nat.mod_eq_of_lt h,
    Nat.mod_eq_of_lt h'] at hlow
  exact BitVec.eq_of_toNat_eq hlow

theorem diskAnswers_of_below {initial : BitVec 32 → AtaSector}
    (hbelow : ∀ call ∈ calls, call.lba.toNat < 2 ^ 28)
    (hinitial : ∀ lba : BitVec 32, lba.toNat < 2 ^ 28 →
      initial lba = m.device.disk (blockSector lba)) :
    Settles (fun fuel => diskAnswers fuel m calls)
      (answers id initial (calls.map DiskCall.op)) := by
  have hops : ∀ op ∈ calls.map DiskCall.op, ∃ call ∈ calls, call.op = op :=
    fun op hop => List.mem_map.mp hop
  have hwritten : ∀ lba v, .write lba v ∈ calls.map DiskCall.op →
      lba.toNat < 2 ^ 28 := by
    intro lba v hop
    obtain ⟨call, hcall, heq⟩ := hops _ hop
    cases call with
    | read mem lba' buffer => cases heq
    | write mem lba' buffer =>
        cases heq
        exact hbelow _ hcall
  have hread : ∀ lba, .read lba ∈ calls.map DiskCall.op →
      lba.toNat < 2 ^ 28 := by
    intro lba hop
    obtain ⟨call, hcall, heq⟩ := hops _ hop
    cases call with
    | read mem lba' buffer =>
        cases heq
        exact hbelow _ hcall
    | write mem lba' buffer => cases heq
  rw [diskAnswers_eq_iff]
  intro before lba after hsplit
  have hlba := hread lba (by rw [hsplit]; simp)
  have hlast : lastWrite blockSector lba before = lastWrite id lba before := by
    refine lastWrite_eq fun lba' v hop hsector => ?_
    have hlba' := hwritten lba' v
      (by rw [hsplit]; exact List.mem_append_left _ hop)
    exact blockSector_inj hlba' hlba hsector
  have hblock : afterOps id initial before lba =
      (lastWrite id lba before).getD (initial lba) := afterOps_eq
  rw [hblock, afterOps_eq, hlast, hinitial lba hlba]

/-- A machine with an empty disk. -/
def emptyDisk : AtaMachine where
  regs := fun _ => 0
  mem := fun _ => 0
  backward := false
  device :=
    { features := 0, secCount := 0, lbaLow := 0, lbaMid := 0, lbaHigh := 0,
      drive := 0, busy := 0, delay := fun _ => 1, commands := 0, phase := .idle,
      disk := fun _ => sectorAt (fun _ => 0) 0 }
  moved := 0

/-- A write to block `2 ^ 28` is read back from block 0. -/
theorem blocks_alias :
    ¬ Settles
      (fun fuel => diskAnswers fuel emptyDisk
        [.write (fun _ => 1) (2 ^ 28) 0x1000, .read (fun _ => 0) 0 0x1000])
      (answers id (fun _ => sectorAt (fun _ => 0) 0)
        [.write (2 ^ 28) (sectorAt (fun _ => 1) 0x1000), .read 0]) := by
  intro h
  have hwrong := (diskAnswers_settles emptyDisk _).unique h
  revert hwrong
  decide +kernel

end Otsos
