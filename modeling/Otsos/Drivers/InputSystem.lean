import Otsos.Drivers.Keyboard
import Otsos.Drivers.Mouse

/-!
# Keyboard and mouse behind one buffer

The 8042 controller has one byte for both devices.  `scanf` polls it, one step
reading the status and the next one the data; between any two steps of `scanf`
the controller may put the next byte into its empty buffer, and a requested
interrupt may run `irq_handler`, which is not interrupted itself.
-/

namespace Otsos

/-- A byte with the device it came from. -/
structure InputByte where
  fromMouse : Bool
  value : UInt8
deriving DecidableEq, Repr

/-- The output buffer, and the bytes that the devices still have to send.  A
read of an empty buffer gives the last byte again. -/
structure Controller where
  latch : InputByte
  full : Bool
  keys : List UInt8
  moves : List UInt8

namespace Controller

/-- The byte at port `0x64`. -/
def status (c : Controller) : UInt8 :=
  (if c.full then 0x01 else 0) ||| (if c.latch.fromMouse then 0x20 else 0)

/-- A read of port `0x60`. -/
def read (c : Controller) : InputByte × Controller :=
  (c.latch, { c with full := false })

end Controller

/-- Where `scanf` is: at the head of its loop, before one of the two reads of
the data port, or back with its caller. -/
inductive ScanfPc where
  | loop
  | discard
  | scancode
  | caller
deriving DecidableEq, Repr

/-- The state of the two drivers and the controller.  `decoded` and `consumed`
are ghosts: the bytes decoded by `scanf` and those read by `mouse_handler`. -/
structure InputSystem where
  controller : Controller
  keyRequested : Bool
  mouseRequested : Bool
  args : ScanfArgs
  scanf : Scanf
  pc : ScanfPc
  mouse : Mouse
  decoded : List InputByte
  consumed : List InputByte

inductive Irq where
  | keyboard
  | mouse
deriving DecidableEq, Repr

/-- The vector to which `pic_remap` moves the interrupt. -/
def Irq.intNo : Irq → ℕ
  | .keyboard => 33
  | .mouse => 44

namespace InputSystem

def mouseHandler (s : InputSystem) : InputSystem :=
  let status := s.controller.status
  if status &&& 1 = 0 ∨ status &&& 0x20 = 0 then s
  else
    let (data, controller) := s.controller.read
    let (mouse, vga) := s.mouse.take s.scanf.vga data.value
    { s with
      controller := controller
      mouse := mouse
      scanf := { s.scanf with vga := vga }
      consumed := s.consumed ++ [data] }

/-- `irq_handler`; the end of the interrupt is signalled before the next one
can come. -/
def irqHandler (s : InputSystem) (intNo : ℕ) : InputSystem :=
  if intNo = 33 then { s with controller := s.controller.read.2 }
  else if intNo = 44 then s.mouseHandler
  else s

/-- The next step of `scanf`. -/
def poll (s : InputSystem) : Option InputSystem :=
  match s.pc with
  | .loop =>
      if s.scanf.i + 1 < s.args.maxLen then
        let status := s.controller.status
        if status &&& 0x01 = 0 then some s
        else if status &&& 0x20 ≠ 0 then some { s with pc := .discard }
        else some { s with pc := .scancode }
      else
        some { s with
          pc := .caller
          scanf := { s.scanf with
            buffer := s.scanf.buffer.set s.scanf.i 0
            returned := true } }
  | .discard =>
      some { s with pc := .loop, controller := s.controller.read.2 }
  | .scancode =>
      let (data, controller) := s.controller.read
      let scanf := s.scanf.key s.args data.value
      some { s with
        controller := controller
        scanf := scanf
        pc := if scanf.returned then .caller else .loop
        decoded := s.decoded ++ [data] }
  | .caller => none

/-- The caller of `scanf` calls it again. -/
def call (s : InputSystem) (args : ScanfArgs) : Option InputSystem :=
  if s.pc = .caller then
    some { s with
      pc := .loop
      args := args
      scanf := { s.scanf with i := 0, returned := false } }
  else none

def sendKey (s : InputSystem) : Option InputSystem :=
  match s.controller.full, s.controller.keys with
  | false, k :: ks =>
      some { s with
        controller := { s.controller with
          latch := ⟨false, k⟩
          full := true
          keys := ks }
        keyRequested := true }
  | _, _ => none

def sendMove (s : InputSystem) : Option InputSystem :=
  match s.controller.full, s.controller.moves with
  | false, b :: bs =>
      some { s with
        controller := { s.controller with
          latch := ⟨true, b⟩
          full := true
          moves := bs }
        mouseRequested := true }
  | _, _ => none

def interrupt (s : InputSystem) : Irq → Option InputSystem
  | .keyboard =>
      if s.keyRequested then
        some ({ s with keyRequested := false }.irqHandler Irq.keyboard.intNo)
      else none
  | .mouse =>
      if s.mouseRequested then
        some ({ s with mouseRequested := false }.irqHandler Irq.mouse.intNo)
      else none

end InputSystem

inductive InputStep where
  | sendKey
  | sendMove
  | interrupt (irq : Irq)
  | poll
  | call (args : ScanfArgs)

/-- A step, if it can be taken. -/
def InputSystem.step (s : InputSystem) : InputStep → Option InputSystem
  | .sendKey => s.sendKey
  | .sendMove => s.sendMove
  | .interrupt irq => s.interrupt irq
  | .poll => s.poll
  | .call args => s.call args

/-- Runs from `s₀`, with every state they leave and the step taken there. -/
inductive InputRun (s₀ : InputSystem) :
    List (InputSystem × InputStep) → InputSystem → Prop where
  | start : InputRun s₀ [] s₀
  | step {trace s i s'} (before : InputRun s₀ trace s)
      (taken : s.step i = some s') : InputRun s₀ (trace ++ [(s, i)]) s'

/-! ## The law -/

namespace InputSystem

/-- The key that `scanf` reads next, or the one in the buffer. -/
def owedKeys (s : InputSystem) : List InputByte :=
  if s.pc = .scancode ∨ (s.controller.full ∧ s.controller.latch.fromMouse = false)
  then [s.controller.latch] else []

/-- The mouse byte in the buffer. -/
def owedMoves (s : InputSystem) : List InputByte :=
  if s.controller.full ∧ s.controller.latch.fromMouse then [s.controller.latch]
  else []

/-- All key bytes on their way: decoded, owed, or still to be sent. -/
def keyBytes (s : InputSystem) : List InputByte :=
  s.decoded ++ s.owedKeys ++ s.controller.keys.map (InputByte.mk false)

def mouseBytes (s : InputSystem) : List InputByte :=
  s.consumed ++ s.owedMoves ++ s.controller.moves.map (InputByte.mk true)

/-- No byte of the keys and moves sent is lost, repeated, swapped or taken for
one of the other device. -/
structure NoneLost (keys moves : List UInt8) (s : InputSystem) : Prop where
  keys : s.keyBytes = keys.map (InputByte.mk false)
  moves : s.mouseBytes = moves.map (InputByte.mk true)

/-- Before the first byte. -/
structure Fresh (keys moves : List UInt8) (s : InputSystem) : Prop where
  empty : s.controller.full = false
  loop : s.pc = .loop ∨ s.pc = .caller
  decoded : s.decoded = []
  consumed : s.consumed = []
  keys : s.controller.keys = keys
  moves : s.controller.moves = moves

/-- The steps that lose nothing: the keyboard interrupt finds the buffer empty,
or `scanf` has read the status already and will get the same byte; nothing is
sent between such an interrupt and that read; and `scanf` discards nothing that
`mouse_handler` has not taken. -/
def Careful (s : InputSystem) : InputStep → Prop
  | .sendKey => s.pc ≠ .scancode
  | .sendMove => s.pc ≠ .scancode
  | .interrupt .keyboard => s.controller.full → s.pc = .scancode
  | .interrupt .mouse => True
  | .poll => s.pc = .discard → s.controller.full = false
  | .call _ => True

end InputSystem

end Otsos
