import Otsos.Drivers.SerialPort
import Otsos.Lib.Fairness
import Otsos.Lib.Uart16550

/-!
# Bytes on the serial line

`com1_init`, `com1_write_byte` and the port they talk to.  The port sends and
receives on its own between any two of the driver's accesses.
-/

namespace Otsos

open Lib

/-! Offsets from `COM1_PORT`. -/

def com1Data : ℕ := 0
def com1IntEnable : ℕ := 1
def com1FifoCtrl : ℕ := 2
def com1LineCtrl : ℕ := 3
def com1ModemCtrl : ℕ := 4

def com1Init (u : Uart) : Uart :=
  let u := u.outb com1IntEnable 0x00
  let u := u.outb com1LineCtrl 0x80
  let u := u.outb com1Data 0x01
  let u := u.outb com1IntEnable 0x00
  let u := u.outb com1LineCtrl 0x03
  let u := u.outb com1FifoCtrl 0xC7
  u.outb com1ModemCtrl 0x0B

/-- The driver with the bytes it was called for: `ready` if it has left the
loop that waits.  `wire` lists the transmissions begun since `com1_init`. -/
structure SerialLine where
  uart : Uart
  pending : List UInt8
  ready : Bool
  wire : List (LineSettings × UInt8)

inductive SerialParty where
  | driver
  | port
  /-- The other end sends a byte. -/
  | arrival (v : UInt8)

namespace SerialLine

/-- One access of `com1_write_byte`: a test of its loop, or the write. -/
def poll (s : SerialLine) : SerialLine :=
  match s.pending with
  | [] => s
  | byte :: rest =>
      if s.ready then
        { s with
          uart := s.uart.outb com1Data byte
          pending := rest
          ready := false }
      else
        let (status, uart) := s.uart.readLineStatus
        { s with
          uart := uart
          ready := status &&& 0x20 ≠ 0 }

def send (s : SerialLine) : SerialLine :=
  match s.uart.transmitNext with
  | some (sent, uart) =>
      { s with
        uart := uart
        wire := if uart.loops then s.wire else s.wire ++ [sent] }
  | none => s

def step (s : SerialLine) : SerialParty → SerialLine
  | .driver => s.poll
  | .port => s.send
  | .arrival v => { s with uart := s.uart.arrive v }

/-- `com1_init`, and calls of `com1_write_byte` for a text. -/
def start (u : Uart) (text : List UInt8) : SerialLine :=
  ⟨com1Init u, text, false, []⟩

/-- Calls for another text, also in place of the rest of one. -/
def turnTo (s : SerialLine) (text : List UInt8) : SerialLine :=
  { s with pending := text, ready := false }

/-- The bytes that the port got since `com1_init`. -/
def handed (s : SerialLine) : List UInt8 :=
  s.wire.map Prod.snd ++ s.uart.transmit

end SerialLine

/-- 115200 baud, eight bits, no parity, one stop bit. -/
def com1Settings : LineSettings := ⟨1, 0x03⟩

/-- As `com1_init` leaves the port. -/
structure Com1Ready (u : Uart) : Prop where
  settings : u.settings = com1Settings
  data : u.divisorAccess = false
  loops : u.loops = false
  fifo : u.fifo = true

variable {u : Uart} {s : SerialLine} {text : List UInt8}

theorem fifoControl_clear (u : Uart) :
    u.outb com1FifoCtrl 0xC7 =
      { u with fifo := true, receive := [], transmit := [] } := by
  have hon : Nat.testBit (0xC7 : UInt8).toNat 0 = true := by decide
  have hreceive : Nat.testBit (0xC7 : UInt8).toNat 1 = true := by decide
  have htransmit : Nat.testBit (0xC7 : UInt8).toNat 2 = true := by decide
  show u.fifoControl 0xC7 = _
  rw [Uart.fifoControl, hon, hreceive, htransmit, if_pos (Or.inr rfl),
    if_pos (Or.inr rfl)]

theorem outb_data (u : Uart) (v : UInt8) :
    u.outb com1Data v =
      if u.divisorAccess then { u with divisorLow := v } else u.enqueue v := by
  simp [Uart.outb, com1Data]

theorem outb_intEnable (u : Uart) (v : UInt8) :
    u.outb com1IntEnable v =
      if u.divisorAccess then { u with divisorHigh := v }
      else { u with interruptEnable := v &&& 0x0F } := by
  simp [Uart.outb, com1IntEnable]

theorem outb_lineCtrl (u : Uart) (v : UInt8) :
    u.outb com1LineCtrl v = { u with lineControl := v } := by
  simp [Uart.outb, com1LineCtrl]

theorem divisor_set (u : Uart) :
    (((u.outb com1LineCtrl 0x80).outb com1Data 0x01).outb com1IntEnable
        0x00).outb com1LineCtrl 0x03 =
      { u with divisorLow := 1, divisorHigh := 0, lineControl := 0x03 } := by
  have hopen : Nat.testBit (0x80 : UInt8).toNat 7 = true := by decide
  simp only [outb_lineCtrl, outb_data, outb_intEnable, Uart.divisorAccess,
    hopen, if_true]

/-- Whatever the port did before.  The interrupts stay as they were if the
first write went to the divisor. -/
theorem com1Init_eq (u : Uart) :
    com1Init u =
      { u with
        divisorLow := 1
        divisorHigh := 0
        interruptEnable := if u.divisorAccess then u.interruptEnable else 0
        fifo := true
        lineControl := 0x03
        modemControl := 0x0B
        receive := []
        transmit := [] } := by
  simp only [com1Init]
  rw [divisor_set, fifoControl_clear, outb_intEnable]
  have hmodem : (0x0B &&& 0x1F : UInt8) = 0x0B := by decide
  have hnone : (0x00 &&& 0x0F : UInt8) = 0 := by decide
  split
  · simp [Uart.outb, com1ModemCtrl, hmodem]
  · simp [Uart.outb, com1ModemCtrl, hmodem, hnone]

theorem com1Init_ready (u : Uart) : Com1Ready (com1Init u) := by
  rw [com1Init_eq]
  refine ⟨?_, ?_, ?_, rfl⟩
  · have hformat : (0x03 &&& 0x7F : UInt8) = 0x03 := by decide
    rw [Uart.settings, com1Settings, LineSettings.mk.injEq]
    exact ⟨rfl, hformat⟩
  · show Nat.testBit 3 7 = false
    decide
  · show Nat.testBit 11 4 = false
    decide

namespace Com1Ready

theorem update (h : Com1Ready u) (transmit receive : List UInt8)
    (overrun : Bool) :
    Com1Ready { u with
      transmit := transmit
      receive := receive
      overrun := overrun } :=
  ⟨h.settings, h.data, h.loops, h.fifo⟩

theorem arrive (h : Com1Ready u) (v : UInt8) : Com1Ready (u.arrive v) := by
  unfold Uart.arrive
  split
  · exact h.update _ _ _
  · exact h.update _ _ _

/-- The write of a byte that the port has room for. -/
theorem write (h : Com1Ready u) (hidle : u.transmit = []) (byte : UInt8) :
    u.outb com1Data byte = { u with transmit := [byte] } := by
  have hroom : u.transmit.length < u.capacity := by
    rw [hidle, Uart.capacity, h.fifo]
    decide
  rw [outb_data, h.data, if_neg Bool.false_ne_true, Uart.enqueue, if_pos hroom, hidle,
    List.nil_append]

end Com1Ready

/-! ## Runs -/

namespace SerialLine

/-- The text is on the line, in the port and with the driver, in this order,
and the driver has left its loop only if the port can take a byte. -/
structure Sending (text : List UInt8) (s : SerialLine) : Prop where
  port : Com1Ready s.uart
  idle : s.ready = true → s.uart.transmit = []
  text : s.wire.map Prod.snd ++ s.uart.transmit ++ s.pending = text
  settings : ∀ sent ∈ s.wire, sent.1 = com1Settings

/-- All is on the line. -/
def Done (s : SerialLine) : Prop := s.pending = [] ∧ s.uart.transmit = []

def rank (s : SerialLine) : ℕ :=
  3 * s.pending.length + s.uart.transmit.length + if s.ready then 0 else 1

/-- Who has to go on. -/
def helpful (s : SerialLine) : SerialParty :=
  if s.uart.transmit = [] then .driver else .port

theorem sending_start (u : Uart) (text : List UInt8) :
    Sending text (start u text) := by
  refine ⟨com1Init_ready u, ?_, ?_, ?_⟩
  · exact fun hready => absurd hready Bool.false_ne_true
  · rw [start, com1Init_eq]
    rfl
  · exact fun sent hsent => absurd hsent List.not_mem_nil

theorem Sending.turnTo (h : Sending text s) (report : List UInt8) :
    Sending (s.handed ++ report) (s.turnTo report) :=
  ⟨h.port, fun hready => absurd hready Bool.false_ne_true, rfl, h.settings⟩

theorem arrive_transmit (u : Uart) (v : UInt8) :
    (u.arrive v).transmit = u.transmit := by
  unfold Uart.arrive
  split
  · rfl
  · rfl

/-- What a turn does to a text that is being sent: the driver writes a byte or
tests, the port sends a byte, or nothing of this happens. -/
inductive Turn (s : SerialLine) : SerialParty → SerialLine → Prop where
  | write {byte rest uart} (pending : s.pending = byte :: rest)
      (ready : s.ready = true) (idle : s.uart.transmit = [])
      (port : Com1Ready uart) (transmit : uart.transmit = [byte]) :
      Turn s .driver ⟨uart, rest, false, s.wire⟩
  | test {uart} (pending : s.pending ≠ []) (waits : s.ready = false)
      (port : Com1Ready uart) (transmit : uart.transmit = s.uart.transmit) :
      Turn s .driver
        ⟨uart, s.pending, decide (s.uart.transmit = []), s.wire⟩
  | send {byte rest uart} (transmit : s.uart.transmit = byte :: rest)
      (port : Com1Ready uart) (sent : uart.transmit = rest) :
      Turn s .port
        ⟨uart, s.pending, s.ready, s.wire ++ [(com1Settings, byte)]⟩
  | other {party uart} (port : Com1Ready uart)
      (transmit : uart.transmit = s.uart.transmit)
      (driver : party = .driver → s.pending = [])
      (shift : party = .port → s.uart.transmit = []) :
      Turn s party { s with uart := uart }

theorem Sending.turn (h : Sending text s) (party : SerialParty) :
    Turn s party (s.step party) := by
  cases party with
  | driver =>
      show Turn s .driver s.poll
      unfold poll
      cases hpending : s.pending with
      | nil =>
          refine @Turn.other s .driver s.uart h.port rfl (fun _ => hpending) ?_
          exact fun hparty => by cases hparty
      | cons byte rest =>
          dsimp only
          by_cases hready : s.ready = true
          · have hidle := h.idle hready
            have hwrite := h.port.write hidle byte
            rw [if_pos hready, hwrite]
            exact .write hpending hready hidle
              (h.port.update _ s.uart.receive s.uart.overrun) rfl
          · have htest := s.uart.sendable_iff
            have hne : s.pending ≠ [] := by
              rw [hpending]
              exact List.cons_ne_nil _ _
            rw [if_neg hready, Uart.readLineStatus, ← hpending]
            simp only [htest]
            exact .test hne (Bool.not_eq_true _ ▸ hready)
              (h.port.update s.uart.transmit s.uart.receive false) rfl
  | port =>
      show Turn s .port s.send
      unfold send Uart.transmitNext
      cases htransmit : s.uart.transmit with
      | nil =>
          refine @Turn.other s .port s.uart h.port rfl ?_ (fun _ => htransmit)
          exact fun hparty => by cases hparty
      | cons byte rest =>
          have hport := h.port.update rest s.uart.receive s.uart.overrun
          dsimp only
          rw [if_neg (by rw [hport.loops]; exact Bool.false_ne_true),
            h.port.settings]
          exact .send htransmit hport rfl
  | arrival v =>
      refine .other (h.port.arrive v) (arrive_transmit _ _) ?_ ?_
      · exact fun hparty => by cases hparty
      · exact fun hparty => by cases hparty

theorem Sending.step (h : Sending text s) (party : SerialParty) :
    Sending text (s.step party) := by
  have hturn := h.turn party
  have htext := h.text
  generalize s.step party = s' at hturn ⊢
  cases hturn with
  | write pending ready idle port transmit =>
      refine ⟨port, fun hready => ?_, ?_, h.settings⟩
      · exact absurd hready Bool.false_ne_true
      · rw [← htext, idle, transmit, pending]
        simp
  | test pending waits port transmit =>
      refine ⟨port, fun hready => ?_, ?_, h.settings⟩
      · exact transmit.trans (of_decide_eq_true hready)
      · rw [← htext, transmit]
  | send transmit port sent =>
      refine ⟨port, fun hready => ?_, ?_, ?_⟩
      · have hidle := h.idle hready
        rw [transmit] at hidle
        cases hidle
      · rw [← htext, sent, transmit]
        simp
      · intro b hb
        rcases List.mem_append.mp hb with hold | hnew
        · exact h.settings b hold
        · rw [List.mem_singleton.mp hnew]
  | other port transmit driver shift =>
      refine ⟨port, fun hready => ?_, ?_, h.settings⟩
      · exact transmit.trans (h.idle hready)
      · rw [← htext, transmit]

theorem Sending.wire_eq (h : Sending text s) :
    s.wire = (s.wire.map Prod.snd).map fun byte => (com1Settings, byte) := by
  rw [List.map_map]
  refine (List.map_id s.wire).symm.trans (List.map_congr_left fun b hb => ?_)
  exact Prod.ext (h.settings b hb) rfl

/-- The party that has to go on brings the rank down, and keeps its turn until
then. -/
theorem Turn.rank {party : SerialParty} {s' : SerialLine}
    (h : Turn s party s') (hgoal : ¬ Done s) :
    s'.rank < s.rank ∨
      s'.rank = s.rank ∧ s'.helpful = s.helpful ∧ party ≠ s.helpful := by
  cases h with
  | write pending ready idle port transmit =>
      left
      simp only [SerialLine.rank, pending, ready, idle, transmit,
        List.length_cons, List.length_nil, if_true, Bool.false_eq_true, if_false]
      omega
  | test pending waits port transmit =>
      by_cases hidle : s.uart.transmit = []
      · left
        simp [SerialLine.rank, waits, transmit, hidle]
      · right
        have hhelpful : s.helpful = .port := if_neg hidle
        refine ⟨?_, ?_, ?_⟩
        · simp [SerialLine.rank, waits, transmit, hidle]
        · rw [hhelpful, helpful, transmit, if_neg hidle]
        · rw [hhelpful]
          exact fun hparty => by cases hparty
  | send transmit port sent =>
      left
      simp only [SerialLine.rank, transmit, sent, List.length_cons]
      omega
  | other port transmit driver shift =>
      right
      refine ⟨?_, ?_, ?_⟩
      · simp only [SerialLine.rank, transmit]
      · simp only [helpful, transmit]
      · intro hparty
        by_cases hidle : s.uart.transmit = []
        · rw [helpful, if_pos hidle] at hparty
          exact hgoal ⟨driver hparty, hidle⟩
        · rw [helpful, if_neg hidle] at hparty
          exact hidle (shift hparty)

theorem progress (text : List UInt8) :
    Progress step (Sending text) Done rank helpful where
  keeps := fun s party h => h.step party
  helps := by
    intro s h hgoal
    rcases (h.turn s.helpful).rank hgoal with hless | ⟨-, -, hother⟩
    · exact hless
    · exact absurd rfl hother
  waits := by
    intro s party h hgoal
    rcases (h.turn party).rank hgoal with hless | ⟨heq, hkeep, -⟩
    · exact Or.inl hless
    · exact Or.inr ⟨heq, hkeep⟩

theorem sending_runFor (u : Uart) (text : List UInt8)
    (schedule : ℕ → SerialParty) (n : ℕ) :
    Sending text (runFor step schedule (.start u text) n) :=
  runFor_invariant (progress text).keeps (sending_start u text) n

/-- All of the text is on the line at some time. -/
theorem Sending.sent (h : Sending text s) {schedule : ℕ → SerialParty}
    (hdriver : ComesAgain schedule .driver)
    (hport : ComesAgain schedule .port) :
    ∃ n, (runFor SerialLine.step schedule s n).wire =
      text.map fun byte => (com1Settings, byte) := by
  have hfair (s : SerialLine) : ComesAgain schedule s.helpful := by
    unfold helpful
    split
    · exact hdriver
    · exact hport
  obtain ⟨n, hpending, htransmit⟩ := (progress text).reaches h hfair
  have hsending : Sending text (runFor SerialLine.step schedule s n) :=
    runFor_invariant (progress text).keeps h n
  have htext := hsending.text
  rw [hpending, htransmit, List.append_nil, List.append_nil] at htext
  refine ⟨n, ?_⟩
  rw [hsending.wire_eq, htext]

end SerialLine

/-- After `com1_init` a text is written without loss, in any order of the turns:
what is on the line is always a beginning of it, 115200 baud and 8N1, and if
driver and port come again and again, all of it is on the line in the end. -/
theorem com1_text_sent (u : Uart) (text : List UInt8)
    (schedule : ℕ → SerialParty) :
    (∀ n, (runFor SerialLine.step schedule (.start u text) n).wire <+:
        text.map fun byte => (com1Settings, byte)) ∧
      (ComesAgain schedule .driver → ComesAgain schedule .port →
        ∃ n, (runFor SerialLine.step schedule (.start u text) n).wire =
          text.map fun byte => (com1Settings, byte)) := by
  refine ⟨fun n => ?_, (SerialLine.sending_start u text).sent⟩
  have hsending := SerialLine.sending_runFor u text schedule n
  have htext := hsending.text
  rw [List.append_assoc] at htext
  rw [hsending.wire_eq]
  exact List.IsPrefix.map _ ⟨_, htext⟩

/-- Driver and port in turns. -/
theorem com1_text_sent_turns :
    ∃ n, (runFor SerialLine.step
        (fun n => if n % 2 = 0 then .driver else .port)
        (.start ⟨0, 0, 0, false, 0x80, 0, [7], [], false⟩ [72, 105]) n).wire =
      [(com1Settings, 72), (com1Settings, 105)] := by
  refine (com1_text_sent _ [72, 105] _).2 (fun n => ?_) (fun n => ?_)
  · exact ⟨2 * n, by omega, if_pos (by omega)⟩
  · exact ⟨2 * n + 1, by omega, if_neg (by omega)⟩

end Otsos
