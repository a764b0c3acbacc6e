import Mathlib.Data.List.Basic
import Otsos.Drivers.Pata
import Otsos.Lib.Fuel
import Otsos.Lib.StringMoves

/-!
# An ATA device under the PATA driver

A device with single-sector commands: it is busy for some reads of the status
after every command, then sends or takes the 256 words of the sector that its
drive and LBA registers select.  While it is busy it ignores what is written to
its registers.  The string functions here move exactly the words asked for.
-/

namespace Otsos

open Lib Lib.X86

abbrev AtaSector := { words : List (BitVec 16) // words.length = 256 }

/-- The drive and the block that the registers select. -/
abbrev AtaAddress := Bool × BitVec 28

inductive AtaPhase where
  | idle
  | sending (words : List (BitVec 16))
  | receiving (target : AtaAddress) (words : List (BitVec 16))
deriving DecidableEq

structure AtaDevice where
  features : BitVec 8
  secCount : BitVec 8
  lbaLow : BitVec 8
  lbaMid : BitVec 8
  lbaHigh : BitVec 8
  drive : BitVec 8
  /-- For how many reads of the status the device stays busy. -/
  busy : ℕ
  /-- How long each command takes. -/
  delay : ℕ → ℕ
  commands : ℕ
  phase : AtaPhase
  disk : AtaAddress → AtaSector

namespace AtaDevice

def selected (d : AtaDevice) : AtaAddress :=
  (d.drive.getLsbD 4,
    (d.drive.setWidth 4 ++ d.lbaHigh ++ d.lbaMid ++ d.lbaLow :
      BitVec (4 + 8 + 8 + 8)))

def status (d : AtaDevice) : BitVec 8 :=
  if d.busy ≠ 0 then 0x80
  else if d.phase = .idle then 0x40 else 0x48

def start (d : AtaDevice) : AtaDevice :=
  { d with busy := d.delay d.commands, commands := d.commands + 1 }

/-- Commands other than reading, writing and flushing are ignored. -/
def command (d : AtaDevice) (v : BitVec 8) : AtaDevice :=
  if v = 0x20 then
    { d with phase := .sending (d.disk d.selected).val }.start
  else if v = 0x30 then { d with phase := .receiving d.selected [] }.start
  else if v = 0xE7 then d.start
  else d

def inByte (d : AtaDevice) (port : BitVec 16) : BitVec 8 × AtaDevice :=
  if port = 0x1F7 then (d.status, { d with busy := d.busy - 1 })
  else (0, d)

def outByte (d : AtaDevice) (port : BitVec 16) (v : BitVec 8) : AtaDevice :=
  if d.busy ≠ 0 then d
  else if port = 0x1F1 then { d with features := v }
  else if port = 0x1F2 then { d with secCount := v }
  else if port = 0x1F3 then { d with lbaLow := v }
  else if port = 0x1F4 then { d with lbaMid := v }
  else if port = 0x1F5 then { d with lbaHigh := v }
  else if port = 0x1F6 then { d with drive := v }
  else if port = 0x1F7 then d.command v
  else d

def inWord (d : AtaDevice) (port : BitVec 16) : BitVec 16 × AtaDevice :=
  if port = 0x1F0 then
    match d.phase with
    | .sending [w] => (w, { d with phase := .idle })
    | .sending (w :: ws) => (w, { d with phase := .sending ws })
    | _ => (0, d)
  else (0, d)

/-- The last word of a sector puts it on the disk. -/
def outWord (d : AtaDevice) (port : BitVec 16) (w : BitVec 16) : AtaDevice :=
  if port = 0x1F0 then
    match d.phase with
    | .receiving target ws =>
        if h : (ws ++ [w]).length = 256 then
          { d with
            phase := .idle
            disk := Function.update d.disk target ⟨ws ++ [w], h⟩ }.start
        else { d with phase := .receiving target (ws ++ [w]) }
    | _ => d
  else d

def ready (d : AtaDevice) : AtaDevice := { d with busy := 0 }

end AtaDevice

def ataBus : Bus AtaDevice where
  inByte := AtaDevice.inByte
  inWord := AtaDevice.inWord
  outByte := AtaDevice.outByte
  outWord := AtaDevice.outWord

/-- The registers of a transfer of `count` words through `r`. -/
def atTransfer {δ : Type*} (m : Machine δ) (port : BitVec 16) (r : Reg)
    (addr count : BitVec 64) : Machine δ :=
  { ((m.setReg .rdx (port.setWidth 64)).setReg r addr).setReg .rcx count with
    backward := false }

/-- Port functions of which the string functions move `count` words. -/
def exactPorts {δ : Type*} (bus : Bus δ) : Ports (Machine δ) where
  inb m port :=
    let (v, device) := bus.inByte m.device port
    (v, { m with device := device })
  outb m port v := { m with device := bus.outByte m.device port v }
  insw m port addr count :=
    Machine.repeated (Machine.insOnce bus) count.toNat
      (atTransfer m port .rdi addr count)
  outsw m port addr count :=
    Machine.repeated (Machine.outsOnce bus) count.toNat
      (atTransfer m port .rsi addr count)

/-! ## Waiting -/

abbrev AtaMachine := Machine AtaDevice

def ataPorts : Ports AtaMachine := exactPorts ataBus

def AtaMachine.ready (m : AtaMachine) : AtaMachine :=
  { m with device := m.device.ready }

variable {m : AtaMachine} {d : AtaDevice} {lba : BitVec 32}
  {buffer : BitVec 64} {ws : List (BitVec 16)}

theorem AtaDevice.status_busy (h : d.busy ≠ 0) :
    d.status &&& ideStatusBsy ≠ 0 := by
  rw [status, if_pos h]
  decide

theorem AtaDevice.status_ready (h : d.busy = 0) :
    d.status &&& ideStatusBsy = 0 := by
  rw [status, if_neg (not_not.mpr h)]
  split <;> rfl

theorem AtaDevice.status_request (h : d.busy = 0) (hphase : d.phase ≠ .idle) :
    d.status &&& ideStatusDrq ≠ 0 := by
  rw [status, if_neg (not_not.mpr h), if_neg hphase]
  decide

theorem ataPorts_status :
    (ataPorts.inb m ideStatus).1 = m.device.status := rfl

theorem ataPorts_inb_ready (h : m.device.busy = 0) :
    (ataPorts.inb m ideStatus).2 = m := by
  have hdevice : (m.device.inByte ideStatus).2 = m.device := by
    change { m.device with busy := m.device.busy - 1 } = m.device
    rw [h, Nat.zero_sub, ← h]
  change { m with device := (m.device.inByte ideStatus).2 } = m
  rw [hdevice]

/-- With enough fuel the loop on the busy bit ends when the device is ready. -/
theorem pataWaitBsy_settles (m : AtaMachine) :
    Settles (fun fuel => ataPorts.pataWaitBsy fuel m) m.ready := by
  refine ⟨m.device.busy + 1, fun fuel hfuel => ?_⟩
  induction fuel generalizing m with
  | zero => omega
  | succ fuel ih =>
      dsimp only
      rw [Ports.pataWaitBsy_succ]
      by_cases hbusy : m.device.busy = 0
      · have hready : m.ready = m := by
          rw [AtaMachine.ready, AtaDevice.ready, ← hbusy]
        rw [ataPorts_status,
          if_neg (not_not.mpr (AtaDevice.status_ready hbusy)),
          ataPorts_inb_ready hbusy, hready]
      · rw [ataPorts_status, if_pos (AtaDevice.status_busy hbusy)]
        refine ih (ataPorts.inb m ideStatus).2 ?_
        change m.device.busy - 1 + 1 ≤ fuel
        omega

/-- A ready device with words to move has its request bit set. -/
theorem pataWaitDrq_settles (hready : m.device.busy = 0)
    (hphase : m.device.phase ≠ .idle) :
    Settles (fun fuel => ataPorts.pataWaitDrq fuel m) m := by
  refine ⟨1, fun fuel hfuel => ?_⟩
  cases fuel with
  | zero => omega
  | succ fuel =>
      dsimp only
      rw [Ports.pataWaitDrq_succ, ataPorts_status,
        if_neg (AtaDevice.status_request hready hphase),
        ataPorts_inb_ready hready]

/-! ## Selecting a sector -/

/-- The device once `lba` is in its registers. -/
def AtaDevice.select (d : AtaDevice) (lba : BitVec 32) : AtaDevice :=
  { d with
    features := 0
    secCount := 1
    lbaLow := lba.setWidth 8
    lbaMid := (lba >>> 8).setWidth 8
    lbaHigh := (lba >>> 16).setWidth 8
    drive := 0xE0 ||| ((lba >>> 24) &&& 0x0F).setWidth 8 }

/-- Only 28 bits of the block number reach the registers. -/
theorem AtaDevice.select_selected :
    (d.select lba).selected = (false, lba.setWidth 28) := by
  refine Prod.ext ?_ ?_
  · simp [selected, select]
  · simp only [selected, select]
    ext i hi
    simp only [BitVec.getElem_append]
    by_cases hlow : i < 8
    · simp [hlow]
    by_cases hmid : i < 16
    · have hoff : i - 8 < 8 := by omega
      have hsum : 8 + (i - 8) = i := by omega
      simp [hlow, hoff, hsum]
    by_cases hhigh : i < 24
    · have hoff : i - 8 - 8 < 8 := by omega
      have hoff' : ¬ i - 8 < 8 := by omega
      have hsum : 16 + (i - 8 - 8) = i := by omega
      simp [hlow, hoff, hoff', hsum]
    · obtain rfl | rfl | rfl | rfl :
          i = 24 ∨ i = 25 ∨ i = 26 ∨ i = 27 := by omega
      all_goals simp

theorem pataSelect_eq (hready : m.device.busy = 0) (command : BitVec 8) :
    ataPorts.pataSelect m lba command =
      { m with device := (m.device.select lba).command command } := by
  simp [Ports.pataSelect, ataPorts, exactPorts, ataBus, AtaDevice.outByte,
    AtaDevice.select, hready, ideDriveSel, ideFeatures, ideSecCount,
    ideLbaLow, ideLbaMid, ideLbaHigh, ideCommand]

/-! ## Moving a sector -/

/-- The sector in memory at `buffer`. -/
def sectorAt (mem : BitVec 64 → BitVec 8) (buffer : BitVec 64) : AtaSector :=
  ⟨words mem buffer 256, words_length⟩

theorem ataBus_sendWords (hws : ws ≠ [])
    (hphase : d.phase = .sending ws) :
    ataBus.sendWords ideData ws.length d = (ws, { d with phase := .idle }) := by
  induction ws generalizing d with
  | nil => exact absurd rfl hws
  | cons w ws ih =>
      cases ws with
      | nil =>
          have hword : ataBus.inWord d ideData =
              (w, { d with phase := .idle }) := by
            change d.inWord 0x1F0 = _
            simp only [AtaDevice.inWord, if_true, hphase]
          rw [List.length_singleton, Bus.sendWords_succ, hword]
          rfl
      | cons w' ws =>
          have hword : ataBus.inWord d ideData =
              (w, { d with phase := .sending (w' :: ws) }) := by
            change d.inWord 0x1F0 = _
            simp only [AtaDevice.inWord, if_true, hphase]
          have hrest := @ih { d with phase := .sending (w' :: ws) }
            (List.cons_ne_nil _ _) rfl
          rw [List.length_cons, Bus.sendWords_succ, hword, hrest]

/-- The device with a sector written. -/
def AtaDevice.written (d : AtaDevice) (target : AtaAddress)
    (sector : AtaSector) : AtaDevice :=
  { d with
    phase := .idle
    disk := Function.update d.disk target sector }.start

theorem ataBus_receiveWords {target : AtaAddress} {ws' : List (BitVec 16)}
    (hws' : ws' ≠ []) (hlength : (ws ++ ws').length = 256)
    (hphase : d.phase = .receiving target ws) :
    ataBus.receiveWords ideData d ws' = d.written target ⟨ws ++ ws', hlength⟩ := by
  induction ws' generalizing d ws with
  | nil => exact absurd rfl hws'
  | cons w ws' ih =>
      have hword : ataBus.receiveWords ideData d (w :: ws') =
          ataBus.receiveWords ideData (d.outWord 0x1F0 w) ws' := rfl
      rw [hword]
      cases ws' with
      | nil =>
          have hlast : d.outWord 0x1F0 w =
              d.written target ⟨ws ++ [w], hlength⟩ := by
            simp only [AtaDevice.outWord, if_true, hphase, dif_pos hlength]
            rfl
          rw [hlast]
          rfl
      | cons w' ws' =>
          have hmore : (ws ++ [w]).length ≠ 256 := by
            simp only [List.length_append, List.length_cons,
              List.length_nil] at hlength ⊢
            omega
          have hnext : d.outWord 0x1F0 w =
              { d with phase := .receiving target (ws ++ [w]) } := by
            simp only [AtaDevice.outWord, if_true, hphase, dif_neg hmore]
          have happend : (ws ++ [w]) ++ w' :: ws' = ws ++ w :: w' :: ws' := by
            simp
          have hrest := @ih { d with phase := .receiving target (ws ++ [w]) }
            (ws ++ [w]) (List.cons_ne_nil _ _) (by rw [happend]; exact hlength)
            rfl
          rw [hnext, hrest]
          simp only [happend]
          rfl

section

variable {δ : Type*} {bus : Bus δ} {m : Machine δ} {port : BitVec 16}
  {addr count : BitVec 64}

theorem atTransfer_port {r : Reg} (h : r ≠ .rdx) :
    (atTransfer m port r addr count).port = port := by
  change ((((m.setReg .rdx _).setReg r addr).setReg .rcx count).regs
    .rdx).setWidth 16 = port
  rw [Machine.setReg_other (by decide), Machine.setReg_other h.symm,
    Machine.setReg_self]
  exact BitVec.setWidth_setWidth_of_le _ (by decide)

theorem atTransfer_pointer {r : Reg} (h : r ≠ .rcx) :
    (atTransfer m port r addr count).regs r = addr := by
  change (((m.setReg .rdx _).setReg r addr).setReg .rcx count).regs r = addr
  rw [Machine.setReg_other h, Machine.setReg_self]

theorem exactPorts_insw_device :
    ((exactPorts bus).insw m port addr count).device =
      (bus.sendWords port count.toNat m.device).2 := by
  rw [exactPorts]
  dsimp only
  rw [Machine.repeated_insOnce_device, atTransfer_port (by decide)]
  rfl

theorem exactPorts_insw_words (hcount : 2 * count.toNat ≤ 2 ^ 64) :
    words ((exactPorts bus).insw m port addr count).mem addr count.toNat =
      (bus.sendWords port count.toNat m.device).1 := by
  have hwords := @Machine.repeated_insOnce_words δ bus
    (atTransfer m port .rdi addr count) count.toNat rfl hcount
  rwa [atTransfer_port (by decide), atTransfer_pointer (by decide)] at hwords

theorem exactPorts_outsw_device :
    ((exactPorts bus).outsw m port addr count).device =
      bus.receiveWords port m.device (words m.mem addr count.toNat) := by
  have hdevice := @Machine.repeated_outsOnce_device δ bus
    (atTransfer m port .rsi addr count) count.toNat rfl
  rwa [atTransfer_port (by decide), atTransfer_pointer (by decide)] at hdevice

end

theorem ataPorts_insw (hphase : m.device.phase = .sending ws)
    (hlength : ws.length = 256) :
    (ataPorts.insw m ideData buffer 256).device =
        { m.device with phase := .idle } ∧
      words (ataPorts.insw m ideData buffer 256).mem buffer 256 = ws := by
  have hws : ws ≠ [] := List.ne_nil_of_length_pos (by omega)
  have hcount : (256 : BitVec 64).toNat = 256 := by decide
  have hsent := ataBus_sendWords hws hphase
  rw [hlength] at hsent
  have hdevice := @exactPorts_insw_device _ ataBus m ideData buffer 256
  have hwords := @exactPorts_insw_words _ ataBus m ideData buffer 256
    (by decide)
  rw [hcount, hsent] at hdevice hwords
  exact ⟨hdevice, hwords⟩

theorem ataPorts_outsw {target : AtaAddress}
    (hphase : m.device.phase = .receiving target []) :
    (ataPorts.outsw m ideData buffer 256).device =
      m.device.written target (sectorAt m.mem buffer) := by
  have hwords : words m.mem buffer 256 ≠ [] :=
    List.ne_nil_of_length_pos (by rw [words_length]; decide)
  have hcount : (256 : BitVec 64).toNat = 256 := by decide
  have hdevice := @exactPorts_outsw_device _ ataBus m ideData buffer 256
  rw [hcount, ataBus_receiveWords hwords words_length hphase]
    at hdevice
  exact hdevice

/-! ## The calls -/

/-- The device when a read of `lba` starts. -/
def AtaDevice.toRead (d : AtaDevice) (lba : BitVec 32) : AtaDevice :=
  { d.select lba with
    phase := .sending (d.disk (false, lba.setWidth 28)).val }.start

def AtaDevice.toWrite (d : AtaDevice) (lba : BitVec 32) : AtaDevice :=
  { d.select lba with
    phase := .receiving (false, lba.setWidth 28) [] }.start

theorem AtaDevice.command_read :
    (d.select lba).command ideCmdRead = d.toRead lba := by
  change { d.select lba with
    phase := .sending ((d.select lba).disk (d.select lba).selected).val }.start
      = _
  rw [select_selected]
  rfl

theorem AtaDevice.command_write :
    (d.select lba).command ideCmdWrite = d.toWrite lba := by
  change { d.select lba with
    phase := .receiving (d.select lba).selected [] }.start = _
  rw [select_selected]
  rfl

theorem AtaDevice.flush_disk :
    (d.outByte ideCommand 0xE7).disk = d.disk := by
  by_cases hbusy : d.busy = 0
  · have hflush : d.outByte ideCommand 0xE7 = d.start := by
      simp [outByte, hbusy, ideCommand, command]
    rw [hflush]
    rfl
  · rw [outByte, if_pos hbusy]

theorem ataPorts_flush_disk (m : AtaMachine) :
    (ataPorts.outb m ideCommand 0xE7).ready.device.disk = m.device.disk :=
  AtaDevice.flush_disk

theorem pataReadSector_settles (m : AtaMachine) (lba : BitVec 32)
    (buffer : BitVec 64) :
    ∃ m' : AtaMachine,
      Settles (fun fuel => ataPorts.pataReadSector fuel m lba buffer) m' ∧
        m'.device.disk = m.device.disk ∧
        sectorAt m'.mem buffer = m.device.disk (false, lba.setWidth 28) := by
  let selected := ataPorts.pataSelect m.ready lba ideCmdRead
  have hselected : selected =
      { m.ready with device := m.device.ready.toRead lba } := by
    rw [← AtaDevice.command_read]
    exact pataSelect_eq rfl ideCmdRead
  have hphase : selected.ready.device.phase =
      .sending (m.device.disk (false, lba.setWidth 28)).val := by
    rw [hselected]
    rfl
  have hdisk : selected.ready.device.disk = m.device.disk := by
    rw [hselected]
    rfl
  have hrequest : selected.ready.device.phase ≠ .idle := by
    rw [hphase]
    exact AtaPhase.noConfusion
  obtain ⟨hdevice, hwords⟩ := @ataPorts_insw selected.ready buffer _ hphase
    (m.device.disk (false, lba.setWidth 28)).property
  refine ⟨ataPorts.insw selected.ready ideData buffer 256, ?_, ?_, ?_⟩
  · exact (pataWaitBsy_settles m).bind ((pataWaitBsy_settles selected).bind
      ((pataWaitDrq_settles rfl hrequest).bind (settles_some _)))
  · have hidle : ∀ d : AtaDevice, { d with phase := .idle }.disk = d.disk :=
      fun _ => rfl
    rw [hdevice, hidle, hdisk]
  · exact Subtype.ext hwords

theorem pataWriteSector_settles (m : AtaMachine) (lba : BitVec 32)
    (buffer : BitVec 64) :
    ∃ m' : AtaMachine,
      Settles (fun fuel => ataPorts.pataWriteSector fuel m lba buffer) m' ∧
        m'.device.disk = Function.update m.device.disk
          (false, lba.setWidth 28) (sectorAt m.mem buffer) := by
  let selected := ataPorts.pataSelect m.ready lba ideCmdWrite
  have hselected : selected =
      { m.ready with device := m.device.ready.toWrite lba } := by
    rw [← AtaDevice.command_write]
    exact pataSelect_eq rfl ideCmdWrite
  have hphase : selected.ready.device.phase =
      .receiving (false, lba.setWidth 28) [] := by
    rw [hselected]
    rfl
  have hdisk : selected.ready.device.disk = m.device.disk := by
    rw [hselected]
    rfl
  have hmem : selected.ready.mem = m.mem := by
    rw [hselected]
    rfl
  have hrequest : selected.ready.device.phase ≠ .idle := by
    rw [hphase]
    exact AtaPhase.noConfusion
  have hdevice := @ataPorts_outsw selected.ready buffer _ hphase
  refine ⟨(ataPorts.outb (ataPorts.outsw selected.ready ideData buffer 256)
    ideCommand 0xE7).ready, ?_, ?_⟩
  · exact (pataWaitBsy_settles m).bind ((pataWaitBsy_settles selected).bind
      ((pataWaitDrq_settles rfl hrequest).bind (pataWaitBsy_settles _)))
  · have hwritten : ∀ d : AtaDevice, (d.written (false, lba.setWidth 28)
        (sectorAt m.mem buffer)).disk = Function.update d.disk
          (false, lba.setWidth 28) (sectorAt m.mem buffer) := fun _ => rfl
    rw [ataPorts_flush_disk, hdevice, hmem, hwritten, hdisk]

end Otsos
