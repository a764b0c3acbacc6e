import Mathlib.Data.Nat.Notation
import Mathlib.Tactic.Common

/-!
# The 8042 controller and a mouse

The controller has one byte in each direction.  What the host writes waits
until the controller takes it; the controller's own answers and the bytes of
the mouse wait until the host has read the byte before.  Nothing is pressed on
the keyboard.
-/

namespace Lib

namespace Ps2

/-- A byte for the host.  The controller's answers are not marked as the
mouse's. -/
structure HostByte where
  fromMouse : Bool
  value : UInt8
deriving DecidableEq

/-- A write to port `0x64`, which is a command, or to port `0x60`. -/
structure HostWrite where
  command : Bool
  value : UInt8
deriving DecidableEq

/-- What the writes so far have set: the configuration byte, the command that
still waits for its data, and whether the mouse reports movements. -/
structure Settings where
  config : UInt8
  expects : Option UInt8
  reporting : Bool
deriving DecidableEq

namespace Settings

/-- The byte that is sent on to the mouse. -/
def mouseCommand (r : Settings) (w : HostWrite) : Option UInt8 :=
  if w.command = false ∧ r.expects = some 0xD4 then some w.value else none

/-- `0xA8` lets the mouse send, `0x60` and `0xD4` take a byte of data. -/
def command (r : Settings) (v : UInt8) : Settings :=
  if v = 0xA8 then { r with config := r.config &&& ~~~0x20 }
  else if v = 0x60 ∨ v = 0xD4 then { r with expects := some v }
  else r

/-- The data of a command; without one it goes to the keyboard. -/
def data (r : Settings) (v : UInt8) : Settings :=
  if r.expects = some 0x60 then { r with config := v, expects := none }
  else if r.expects = some 0xD4 then
    { r with
      expects := none
      reporting :=
        if v = 0xF4 then true
        else if v = 0xF5 ∨ v = 0xF6 then false else r.reporting }
  else r

def after (r : Settings) (w : HostWrite) : Settings :=
  if w.command then r.command w.value else r.data w.value

/-- The answer to the command `0x20`. -/
def answer (r : Settings) (w : HostWrite) : Option UInt8 :=
  if w = ⟨true, 0x20⟩ then some r.config else none

/-- The mouse acknowledges the commands it knows. -/
def reply (r : Settings) (w : HostWrite) : List UInt8 :=
  match r.mouseCommand w with
  | some v => [if v = 0xF4 ∨ v = 0xF5 ∨ v = 0xF6 then 0xFA else 0xFE]
  | none => []

def afterAll (r : Settings) (ws : List HostWrite) : Settings := ws.foldl after r

/-- All that the mouse replies. -/
def replies : Settings → List HostWrite → List UInt8
  | _, [] => []
  | r, w :: ws => r.reply w ++ (r.after w).replies ws

theorem afterAll_append (r : Settings) (ws : List HostWrite) (w : HostWrite) :
    r.afterAll (ws ++ [w]) = (r.afterAll ws).after w := by
  rw [afterAll, List.foldl_append]
  rfl

theorem replies_append (r : Settings) (ws : List HostWrite) (w : HostWrite) :
    r.replies (ws ++ [w]) = r.replies ws ++ (r.afterAll ws).reply w := by
  induction ws generalizing r with
  | nil => simp [replies, afterAll]
  | cons v ws ih =>
      rw [List.cons_append, replies, ih, replies, List.append_assoc]
      rfl

end Settings

structure Controller where
  settings : Settings
  latch : HostByte
  full : Bool
  input : Option HostWrite
  /-- An answer of the controller on its way. -/
  answer : Option UInt8
  /-- What the mouse still has to send. -/
  queue : List UInt8

namespace Controller

/-- The byte at port `0x64`. -/
def status (c : Controller) : UInt8 :=
  (if c.full then 0x01 else 0) ||| (if c.input.isSome then 0x02 else 0) |||
    (if c.latch.fromMouse then 0x20 else 0)

/-- A read of port `0x60`; without a new byte it gives the last one again. -/
def read (c : Controller) : UInt8 × Controller :=
  (c.latch.value, { c with full := false })

/-- A write takes the place of one that still waits. -/
def write (c : Controller) (w : HostWrite) : Controller :=
  { c with input := some w }

/-- Bit 0 of the configuration byte. -/
def keyInterrupts (c : Controller) : Bool := c.settings.config &&& 0x01 ≠ 0

/-- Bit 1. -/
def mouseInterrupts (c : Controller) : Bool := c.settings.config &&& 0x02 ≠ 0

/-- Bit 5. -/
def mouseDisabled (c : Controller) : Bool := c.settings.config &&& 0x20 ≠ 0

/-- The controller takes what was written. -/
def accept (c : Controller) : Option Controller :=
  c.input.map fun w =>
    { c with
      settings := c.settings.after w
      input := none
      answer := (c.settings.answer w).or c.answer
      queue := c.queue ++ c.settings.reply w }

/-- The answer becomes the byte for the host. -/
def giveAnswer (c : Controller) : Option Controller :=
  if c.full then none
  else c.answer.map fun v =>
    { c with latch := ⟨false, v⟩, full := true, answer := none }

/-- A byte of the mouse becomes the byte for the host. -/
def send (c : Controller) : Option Controller :=
  match c.queue with
  | b :: bs =>
      if c.full ∨ c.mouseDisabled then none
      else some { c with latch := ⟨true, b⟩, full := true, queue := bs }
  | [] => none

/-- The mouse reports a movement. -/
def report (c : Controller) (packet : List UInt8) : Option Controller :=
  if c.settings.reporting then some { c with queue := c.queue ++ packet }
  else none

/-- The byte of the mouse that the host has not read. -/
def unread (c : Controller) : List UInt8 :=
  if c.full ∧ c.latch.fromMouse then [c.latch.value] else []

variable {c c' : Controller}

theorem status_full (c : Controller) :
    c.status &&& 1 = 0 ↔ c.full = false := by
  rw [status]
  cases c.full <;> cases c.input.isSome <;> cases c.latch.fromMouse <;> decide

theorem status_fromMouse (c : Controller) :
    c.status &&& 0x20 = 0 ↔ c.latch.fromMouse = false := by
  rw [status]
  cases c.full <;> cases c.input.isSome <;> cases c.latch.fromMouse <;> decide

theorem accept_cases (h : c.accept = some c') : ∃ w, c.input = some w ∧
    c' = { c with
      settings := c.settings.after w
      input := none
      answer := (c.settings.answer w).or c.answer
      queue := c.queue ++ c.settings.reply w } := by
  rw [accept, Option.map_eq_some_iff] at h
  obtain ⟨w, hw, rfl⟩ := h
  exact ⟨w, hw, rfl⟩

theorem giveAnswer_cases (h : c.giveAnswer = some c') :
    c.full = false ∧ ∃ v, c.answer = some v ∧
      c' = { c with latch := ⟨false, v⟩, full := true, answer := none } := by
  rw [giveAnswer] at h
  split at h
  · cases h
  · rename_i hfull
    obtain ⟨v, hv, rfl⟩ := Option.map_eq_some_iff.mp h
    exact ⟨Bool.eq_false_iff.mpr hfull, v, hv, rfl⟩

theorem send_cases (h : c.send = some c') :
    c.full = false ∧ c.mouseDisabled = false ∧ ∃ b bs, c.queue = b :: bs ∧
      c' = { c with latch := ⟨true, b⟩, full := true, queue := bs } := by
  rw [send] at h
  split at h
  · rename_i b bs hqueue
    split at h
    · cases h
    · rename_i hready
      rw [not_or, Bool.not_eq_true, Bool.not_eq_true] at hready
      cases h
      exact ⟨hready.1, hready.2, b, bs, hqueue, rfl⟩
  · cases h

theorem report_cases {packet : List UInt8} (h : c.report packet = some c') :
    c.settings.reporting = true ∧
      c' = { c with queue := c.queue ++ packet } := by
  rw [report] at h
  split at h
  · rename_i hreporting
    cases h
    exact ⟨hreporting, rfl⟩
  · cases h

end Controller

end Ps2

end Lib
