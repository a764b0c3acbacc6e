import Mathlib.Logic.Function.Basic
import Otsos.Lib.ByteMemory

/-!
# Interrupts of the x86-64

A processor in 64-bit mode, at the highest privilege, takes an interrupt
through a gate of its descriptor table: it pushes the context it leaves, and
`iretq` takes that context back.  In between run a few instructions on the
stack and one call.  The stack is described by the words on it, so that no
proof about such a routine looks at single addresses.
-/

namespace Lib

/-- The quadwords at `a` and above. -/
def WordsAt (m : Memory) : ℕ → List UInt64 → Prop
  | _, [] => True
  | a, w :: ws => m.load a 8 = w.toNat ∧ WordsAt m (a + 8) ws

variable {m m' : Memory} {a : ℕ} {ws : List UInt64}

theorem WordsAt.congr (h : WordsAt m a ws)
    (hsame : ∀ x, a ≤ x → x < a + 8 * ws.length → m' x = m x) :
    WordsAt m' a ws := by
  induction ws generalizing a with
  | nil => trivial
  | cons w ws ih =>
      rw [List.length_cons] at hsame
      constructor
      · rw [← h.1]
        exact Memory.load_congr fun i hi => hsame _ (by omega) (by omega)
      · exact ih h.2 fun x hx hlt => hsame x (by omega) (by omega)

theorem WordsAt.append {ws' : List UInt64} :
    WordsAt m a (ws ++ ws') ↔
      WordsAt m a ws ∧ WordsAt m (a + 8 * ws.length) ws' := by
  induction ws generalizing a with
  | nil => simp [WordsAt]
  | cons w ws ih =>
      rw [List.cons_append, WordsAt, WordsAt, ih, List.length_cons, and_assoc,
        show a + 8 + 8 * ws.length = a + 8 * (ws.length + 1) by omega]

theorem WordsAt.word {i : ℕ} (h : WordsAt m a ws) (hi : i < ws.length) :
    UInt64.ofNat (m.load (a + 8 * i) 8) = ws[i] := by
  have hsplit := List.take_append_drop i ws
  rw [← hsplit, WordsAt.append, List.length_take, Nat.min_eq_left (by omega),
    List.drop_eq_getElem_cons hi] at h
  rw [h.2.1, UInt64.ofNat_toNat]

namespace X64

/-- The general registers but the stack pointer. -/
inductive Gpr where
  | rax | rbx | rcx | rdx | rsi | rdi | rbp
  | r8 | r9 | r10 | r11 | r12 | r13 | r14 | r15
deriving DecidableEq, Repr

/-- Where a descriptor table lies; `limit` is its last byte. -/
structure TableRegister where
  limit : ℕ
  base : ℕ
deriving DecidableEq, Repr

structure Cpu where
  gpr : Gpr → UInt64
  rsp : UInt64
  rip : UInt64
  rflags : UInt64
  cs : UInt16
  ss : UInt16
  gdtr : TableRegister
  idtr : TableRegister
  mem : Memory

/-! ## Descriptors -/

/-- A gate of the interrupt descriptor table. -/
structure Gate where
  offset : ℕ
  selector : ℕ
  ist : ℕ
  typeAttr : ℕ
deriving DecidableEq, Repr

def gateAt (m : Memory) (a : ℕ) : Gate where
  offset := m.load a 2 + 2 ^ 16 * m.load (a + 6) 2 + 2 ^ 32 * m.load (a + 8) 4
  selector := m.load (a + 2) 2
  ist := m.load (a + 4) 1 % 8
  typeAttr := m.load (a + 5) 1

namespace Gate

def present (g : Gate) : Bool := g.typeAttr.testBit 7

/-- An interrupt gate, which keeps further interrupts out. -/
def isInterrupt (g : Gate) : Bool := g.typeAttr % 32 = 0xE

def isTrap (g : Gate) : Bool := g.typeAttr % 32 = 0xF

/-- Without a task state segment a gate must not ask for another stack. -/
def usable (g : Gate) : Bool :=
  g.present && (g.isInterrupt || g.isTrap) && g.ist = 0

end Gate

/-- The descriptor is a present segment of 64-bit code for the highest
privilege. -/
def isCode64 (d : ℕ) : Bool :=
  d.testBit 43 && d.testBit 44 && d / 2 ^ 45 % 4 = 0 && d.testBit 47 &&
    d.testBit 53 && !d.testBit 54

/-- A selector of such a segment in the global table. -/
def codeSelector (m : Memory) (gdtr : TableRegister) (selector : ℕ) : Bool :=
  8 ≤ selector && !selector.testBit 2 &&
    selector / 8 * 8 + 7 ≤ gdtr.limit &&
    isCode64 (m.load (gdtr.base + selector / 8 * 8) 8)

/-! ## The stack -/

namespace Cpu

def setGpr (c : Cpu) (r : Gpr) (v : UInt64) : Cpu :=
  { c with gpr := Function.update c.gpr r v }

def push (c : Cpu) (v : UInt64) : Cpu :=
  { c with
    rsp := c.rsp - 8
    mem := c.mem.store (c.rsp - 8).toNat 8 v.toNat }

/-- The word on top of the stack. -/
def top (c : Cpu) : UInt64 := UInt64.ofNat (c.mem.load c.rsp.toNat 8)

def drop (c : Cpu) : Cpu := { c with rsp := c.rsp + 8 }

def pushAll (c : Cpu) (ws : List UInt64) : Cpu := ws.foldl push c

def pop (c : Cpu) (r : Gpr) : Cpu := c.drop.setGpr r c.top

def popAll (c : Cpu) (rs : List Gpr) : Cpu := rs.foldl pop c

/-! ## Taking an interrupt -/

/-- Where the pushes of an interrupt begin. -/
def alignedRsp (c : Cpu) : UInt64 := c.rsp / 16 * 16

/-- The flags with which a handler starts: bits 8 (`TF`), 14 (`NT`), 16 (`RF`)
and 17 (`VM`) are cleared, and through an interrupt gate bit 9 (`IF`) too. -/
def entryFlags (c : Cpu) (g : Gate) : UInt64 :=
  c.rflags &&& ~~~(if g.isInterrupt then 0x34300 else 0x34100)

/-- The state that is saved: for a fault, and for an interrupt between two
iterations of a string instruction, the processor sets bit 16 (`RF`) in the
flags that it pushes. -/
def saved (c : Cpu) (rf : Bool) : Cpu :=
  { c with rflags := if rf then c.rflags ||| 0x10000 else c.rflags }

/-- What an interrupt pushes of the state that it saves. -/
def context (c : Cpu) : List UInt64 :=
  [c.ss.toUInt64, c.rsp, c.rflags, c.cs.toUInt64, c.rip]

/-- An interrupt with its vector and, for some exceptions, an error code;
`none` if the processor raises another exception instead. -/
def deliver (c : Cpu) (vector : ℕ) (errorCode : Option UInt64) (rf : Bool) :
    Option Cpu :=
  let g := gateAt c.mem (c.idtr.base + 16 * vector)
  if 16 * vector + 15 ≤ c.idtr.limit && g.usable &&
      codeSelector c.mem c.gdtr g.selector then
    some { ({ c with rsp := c.alignedRsp }.pushAll
        ((c.saved rf).context ++ errorCode.toList)) with
      cs := UInt16.ofNat g.selector
      rip := UInt64.ofNat g.offset
      rflags := c.entryFlags g }
  else none

/-- `iretq`; it takes back all five words, also without a change of
privilege. -/
def iretq (c : Cpu) : Cpu :=
  let word (i : ℕ) : UInt64 := UInt64.ofNat (c.mem.load (c.rsp.toNat + 8 * i) 8)
  { c with
    rip := word 0
    cs := (word 1).toUInt16
    rflags := word 2
    rsp := word 3
    ss := (word 4).toUInt16 }

end Cpu

/-! ## Routines -/

inductive Instr where
  | pushImm (v : UInt64)
  | push (r : Gpr)
  | pop (r : Gpr)
  /-- `mov dst, rsp`. -/
  | movFromRsp (dst : Gpr)
  /-- The call, the function called and its return. -/
  | call
  /-- `add rsp, n`; the arithmetic flags, which `iretq` takes back, are not
  computed. -/
  | addRsp (n : UInt64)
  | iretq

def Instr.isCall : Instr → Bool
  | .call => true
  | _ => false

variable {f : Cpu → Cpu} {c : Cpu} {base : ℕ} {v w : UInt64} {r : Gpr}
  {rs : List Gpr}

def Instr.eval (f : Cpu → Cpu) (c : Cpu) : Instr → Cpu
  | .pushImm v => c.push v
  | .push r => c.push (c.gpr r)
  | .pop r => c.pop r
  | .movFromRsp dst => c.setGpr dst c.rsp
  | .call => f c
  | .addRsp n => { c with rsp := c.rsp + n }
  | .iretq => c.iretq

/-- Instructions without jumps that call `f`. -/
def run (f : Cpu → Cpu) (code : List Instr) (c : Cpu) : Cpu :=
  code.foldl (Instr.eval f) c

theorem run_append (first rest : List Instr) :
    run f (first ++ rest) c = run f rest (run f first c) :=
  List.foldl_append

/-! ## Words on the stack -/

/-- The stack below `base` holds `ws`, its top first. -/
structure Cpu.Holds (c : Cpu) (base : ℕ) (ws : List UInt64) : Prop where
  words : WordsAt c.mem c.rsp.toNat ws
  height : c.rsp.toNat + 8 * ws.length = base

namespace Cpu

theorem toNat_sub_eight (h : 8 ≤ c.rsp.toNat) :
    (c.rsp - 8).toNat = c.rsp.toNat - 8 := by
  have hle : (8 : UInt64) ≤ c.rsp := UInt64.le_iff_toNat_le.mpr h
  exact UInt64.toNat_sub_of_le _ _ hle

theorem setGpr_self : (c.setGpr r v).gpr r = v := Function.update_self _ _ _

theorem Holds.push (h : c.Holds base ws) (hroom : 8 ≤ c.rsp.toNat) :
    (c.push v).Holds base (v :: ws) := by
  have hrsp := toNat_sub_eight hroom
  have hheight := h.height
  refine ⟨⟨?_, ?_⟩, ?_⟩
  · show (c.mem.store (c.rsp - 8).toNat 8 v.toNat).load (c.rsp - 8).toNat 8 =
      v.toNat
    rw [Memory.load_store_same]
    exact Nat.mod_eq_of_lt v.toNat_lt
  · show WordsAt (c.mem.store (c.rsp - 8).toNat 8 v.toNat)
      ((c.rsp - 8).toNat + 8) ws
    rw [hrsp, Nat.sub_add_cancel hroom]
    exact h.words.congr fun x hx _ => Memory.store_outside _ _ (by omega)
  · show (c.rsp - 8).toNat + 8 * (v :: ws).length = base
    rw [List.length_cons]
    omega

theorem push_frame (hroom : 8 ≤ c.rsp.toNat) :
    Memory.FrameOutside
      (fun x => c.rsp.toNat - 8 ≤ x ∧ x < c.rsp.toNat) c.mem
      (c.push v).mem := by
  have hrsp := toNat_sub_eight hroom
  refine Memory.FrameOutside.store _ fun x hx hlt => ?_
  omega

theorem Holds.pushAll (h : c.Holds base ws) {vs : List UInt64}
    (hroom : 8 * vs.length ≤ c.rsp.toNat) :
    (c.pushAll vs).Holds base (vs.reverse ++ ws) := by
  unfold Cpu.pushAll
  induction vs generalizing c ws with
  | nil => exact h
  | cons v vs ih =>
      rw [List.length_cons] at hroom
      have hrsp : (c.push v).rsp.toNat = c.rsp.toNat - 8 :=
        toNat_sub_eight (by omega)
      rw [List.foldl_cons, List.reverse_cons, List.append_assoc]
      exact ih (h.push (by omega)) (by omega)

theorem toNat_rsp_pushAll {vs : List UInt64}
    (hroom : 8 * vs.length ≤ c.rsp.toNat) :
    (c.pushAll vs).rsp.toNat = c.rsp.toNat - 8 * vs.length := by
  have hstart : c.Holds c.rsp.toNat [] := ⟨trivial, rfl⟩
  have hheight := (hstart.pushAll hroom).height
  rw [List.append_nil, List.length_reverse] at hheight
  omega

/-- Besides the stack, pushing changes nothing. -/
theorem pushAll_eq {vs : List UInt64} :
    c.pushAll vs =
      { c with rsp := (c.pushAll vs).rsp, mem := (c.pushAll vs).mem } := by
  unfold Cpu.pushAll
  induction vs generalizing c with
  | nil => rfl
  | cons v vs ih => exact ih

theorem pushAll_frame {vs : List UInt64}
    (hroom : 8 * vs.length ≤ c.rsp.toNat) :
    Memory.FrameOutside
      (fun x => c.rsp.toNat - 8 * vs.length ≤ x ∧ x < c.rsp.toNat) c.mem
      (c.pushAll vs).mem := by
  unfold Cpu.pushAll
  induction vs generalizing c with
  | nil => exact Memory.FrameOutside.refl _ _
  | cons v vs ih =>
      rw [List.length_cons] at hroom
      have hrsp : (c.push v).rsp.toNat = c.rsp.toNat - 8 :=
        toNat_sub_eight (by omega)
      have hrest := @ih (c.push v) (by omega)
      rw [hrsp] at hrest
      refine ((push_frame (by omega)).mono fun x hx => ?_).trans
        (hrest.mono fun x hx => ?_)
      · rw [List.length_cons]
        omega
      · rw [List.length_cons]
        omega

theorem Holds.top (h : c.Holds base (w :: ws)) : c.top = w := by
  rw [Cpu.top, h.words.1, UInt64.ofNat_toNat]

theorem toNat_add_eight (h : c.Holds base (w :: ws)) (hbase : base < 2 ^ 64) :
    (c.rsp + 8).toNat = c.rsp.toNat + 8 := by
  have hheight := h.height
  rw [List.length_cons] at hheight
  have hsum : (c.rsp + 8).toNat = (c.rsp.toNat + 8) % 2 ^ 64 :=
    UInt64.toNat_add _ _
  rw [hsum]
  exact Nat.mod_eq_of_lt (by omega)

theorem Holds.drop (h : c.Holds base (w :: ws)) (hbase : base < 2 ^ 64) :
    c.drop.Holds base ws := by
  have hrsp := toNat_add_eight h hbase
  have hheight := h.height
  rw [List.length_cons] at hheight
  constructor
  · show WordsAt c.mem (c.rsp + 8).toNat ws
    rw [hrsp]
    exact h.words.2
  · show (c.rsp + 8).toNat + 8 * ws.length = base
    omega

theorem Holds.pop (h : c.Holds base (w :: ws)) (hbase : base < 2 ^ 64) :
    c.pop r = c.drop.setGpr r w ∧ (c.pop r).Holds base ws := by
  obtain ⟨hwords, hheight⟩ := h.drop hbase
  rw [Cpu.pop, h.top]
  exact ⟨rfl, hwords, hheight⟩

/-- The registers are popped with the values that `g` gave them. -/
theorem Holds.popAll {g : Gpr → UInt64}
    (h : c.Holds base (rs.map g ++ ws)) (hbase : base < 2 ^ 64) :
    (∀ r, (c.popAll rs).gpr r = if r ∈ rs then g r else c.gpr r) ∧
      (c.popAll rs).Holds base ws ∧
      c.popAll rs =
        { c with gpr := (c.popAll rs).gpr, rsp := (c.popAll rs).rsp } := by
  unfold Cpu.popAll
  induction rs generalizing c with
  | nil => exact ⟨fun r => rfl, h, rfl⟩
  | cons s rs ih =>
      obtain ⟨hpop, hrest⟩ := Holds.pop (r := s) h hbase
      obtain ⟨hgpr, hholds, heq⟩ := ih hrest
      rw [List.foldl_cons]
      refine ⟨fun r => ?_, hholds, heq.trans (by rw [hpop]; rfl)⟩
      rw [hgpr, hpop]
      by_cases hr : r = s
      · subst hr
        simp [setGpr]
      · simp [setGpr, Cpu.drop, hr]

/-! ## From the interrupt to the call and back -/

/-- The context as it lies on the stack, from the top. -/
theorem Holds.iretq {c₀ : Cpu} (h : c.Holds base c₀.context.reverse) :
    c.iretq =
      { c with
        rip := c₀.rip
        cs := c₀.cs
        rflags := c₀.rflags
        rsp := c₀.rsp
        ss := c₀.ss } := by
  obtain ⟨hrip, hcs, hrflags, hrsp, hss, -⟩ := h.words
  simp only [Cpu.iretq, Nat.mul_zero, Nat.add_zero, Nat.reduceMul, hrip, hcs,
    hrflags, hrsp, hss, UInt64.ofNat_toNat, UInt16.toUInt16_toUInt64]

/-- A handler was entered from `c`. -/
structure Entered (c : Cpu) (errorCode : Option UInt64) (c' : Cpu) :
    Prop where
  holds : c'.Holds c.alignedRsp.toNat
    (errorCode.toList ++ c.context.reverse)
  frame : Memory.FrameOutside
    (fun x => c'.rsp.toNat ≤ x ∧ x < c.alignedRsp.toNat) c.mem c'.mem
  gpr : c'.gpr = c.gpr
  gdtr : c'.gdtr = c.gdtr
  idtr : c'.idtr = c.idtr

theorem deliver_enters {vector : ℕ} {errorCode : Option UInt64} {rf : Bool}
    {g : Gate}
    (hgate : gateAt c.mem (c.idtr.base + 16 * vector) = g)
    (hlimit : 16 * vector + 15 ≤ c.idtr.limit) (husable : g.usable)
    (hcode : codeSelector c.mem c.gdtr g.selector)
    (hroom : 48 ≤ c.alignedRsp.toNat) :
    ∃ c', c.deliver vector errorCode rf = some c' ∧
      c'.rip = UInt64.ofNat g.offset ∧ c'.rflags = c.entryFlags g ∧
      (c.saved rf).Entered errorCode c' := by
  obtain ⟨c₀, hc₀⟩ : ∃ c₀ : Cpu, { c with rsp := c.alignedRsp } = c₀ :=
    ⟨_, rfl⟩
  have hrsp : c₀.rsp = c.alignedRsp := by rw [← hc₀]
  have hlength : ((c.saved rf).context ++ errorCode.toList).length ≤ 6 := by
    cases errorCode with
    | none => exact Nat.le_of_ble_eq_true rfl
    | some e => exact Nat.le_of_ble_eq_true rfl
  have hsmall : 8 * ((c.saved rf).context ++ errorCode.toList).length ≤
      c₀.rsp.toNat := by
    rw [hrsp]
    omega
  have hstart : c₀.Holds c.alignedRsp.toNat [] := by
    rw [← hrsp]
    exact ⟨trivial, rfl⟩
  have hholds := hstart.pushAll hsmall
  have hframe := pushAll_frame hsmall
  have hheight := toNat_rsp_pushAll hsmall
  rw [List.append_nil, List.reverse_append] at hholds
  refine ⟨{ c₀.pushAll ((c.saved rf).context ++ errorCode.toList) with
    cs := UInt16.ofNat g.selector
    rip := UInt64.ofNat g.offset
    rflags := c.entryFlags g }, ?_, rfl, rfl, ⟨?_, ?_, ?_, ?_, ?_⟩⟩
  · rw [deliver, hgate, hc₀]
    simp only [hlimit, husable, hcode, decide_true, Bool.and_self, if_true]
  · have hreverse : errorCode.toList.reverse = errorCode.toList := by
      cases errorCode with
      | none => rfl
      | some e => rfl
    rw [hreverse] at hholds
    exact ⟨hholds.words, hholds.height⟩
  · have hmem : c₀.mem = c.mem := by rw [← hc₀]
    rw [hmem, ← hheight, hrsp] at hframe
    exact hframe
  · rw [pushAll_eq, ← hc₀]
    rfl
  · rw [pushAll_eq, ← hc₀]
    rfl
  · rw [pushAll_eq, ← hc₀]
    rfl

end Cpu

/-- The part of a routine up to its call: words of its own, the registers it
saves, and the address of all this as the argument. -/
def enter (words : List UInt64) (saved : List Gpr) : List Instr :=
  words.map .pushImm ++ saved.map .push ++ [.movFromRsp .rdi]

/-- The part behind the call; `n` bytes lie between the registers and the
context. -/
def leave (saved : List Gpr) (n : UInt64) : List Instr :=
  saved.reverse.map .pop ++ [.addRsp n, .iretq]

theorem isCall_enter {words : List UInt64} {saved : List Gpr} {i : Instr}
    (h : i ∈ enter words saved) : i.isCall = false := by
  simp only [enter, List.mem_append, List.mem_map, List.mem_singleton] at h
  rcases h with (⟨w, -, rfl⟩ | ⟨r, -, rfl⟩) | rfl
  · rfl
  · rfl
  · rfl

theorem run_pushImm {words : List UInt64} :
    run f (words.map .pushImm) c = c.pushAll words := by
  unfold run Cpu.pushAll
  rw [List.foldl_map]
  rfl

theorem run_push {saved : List Gpr} :
    run f (saved.map .push) c = c.pushAll (saved.map c.gpr) := by
  unfold run Cpu.pushAll
  induction saved generalizing c with
  | nil => rfl
  | cons r saved ih => exact ih

theorem run_pop {saved : List Gpr} :
    run f (saved.map .pop) c = c.popAll saved := by
  unfold run Cpu.popAll
  rw [List.foldl_map]
  rfl

/-- What the called function finds: its argument points to the registers, the
words of the routine and what lay on the stack before. -/
theorem run_enter {words : List UInt64} {saved : List Gpr}
    {ws : List UInt64} (h : c.Holds base ws)
    (hroom : 8 * (words.length + saved.length) ≤ c.rsp.toNat) :
    let c' := run f (enter words saved) c
    c'.Holds base ((saved.map c.gpr).reverse ++ (words.reverse ++ ws)) ∧
      c'.gpr .rdi = c'.rsp ∧
      Memory.FrameOutside
        (fun x => c'.rsp.toNat ≤ x ∧ x < c.rsp.toNat) c.mem c'.mem ∧
      c'.gdtr = c.gdtr ∧ c'.idtr = c.idtr ∧ c'.rflags = c.rflags := by
  intro c'
  obtain ⟨c₁, hc₁⟩ : ∃ c₁, c.pushAll words = c₁ := ⟨_, rfl⟩
  obtain ⟨c₂, hc₂⟩ : ∃ c₂, c₁.pushAll (saved.map c.gpr) = c₂ := ⟨_, rfl⟩
  have hsame₁ := @Cpu.pushAll_eq c words
  have hsame₂ := @Cpu.pushAll_eq c₁ (saved.map c.gpr)
  have hroom₁ : 8 * words.length ≤ c.rsp.toNat := by omega
  have hrsp₁ := Cpu.toNat_rsp_pushAll hroom₁
  have hholds₁ := h.pushAll hroom₁
  have hframe₁ := Cpu.pushAll_frame hroom₁
  rw [hc₁] at hsame₁ hrsp₁ hholds₁ hframe₁
  have hroom₂ : 8 * (saved.map c.gpr).length ≤ c₁.rsp.toNat := by
    rw [List.length_map]
    omega
  have hrsp₂ := Cpu.toNat_rsp_pushAll hroom₂
  have hholds₂ := hholds₁.pushAll hroom₂
  have hframe₂ := Cpu.pushAll_frame hroom₂
  rw [hc₂] at hsame₂ hrsp₂ hholds₂ hframe₂
  rw [← hrsp₁] at hframe₁
  rw [← hrsp₂] at hframe₂
  have hc' : c' = c₂.setGpr .rdi c₂.rsp := by
    show run f (enter words saved) c = _
    rw [enter, run_append, run_append, run_pushImm, run_push, hc₁,
      show c₁.gpr = c.gpr by rw [hsame₁], hc₂]
    rfl
  rw [hc']
  refine ⟨⟨hholds₂.words, hholds₂.height⟩, Cpu.setGpr_self, ?_, ?_, ?_, ?_⟩
  · refine (hframe₁.mono fun x hx => ?_).trans (hframe₂.mono fun x hx => ?_)
    · show c₂.rsp.toNat ≤ x ∧ x < c.rsp.toNat
      omega
    · show c₂.rsp.toNat ≤ x ∧ x < c.rsp.toNat
      omega
  · show c₂.gdtr = c.gdtr
    rw [hsame₂, hsame₁]
  · show c₂.idtr = c.idtr
    rw [hsame₂, hsame₁]
  · show c₂.rflags = c.rflags
    rw [hsame₂, hsame₁]

/-- A call that returned: it keeps the stack pointer, the descriptor tables and
the `size` bytes of its caller. -/
structure Returned (size : ℕ) (c c' : Cpu) : Prop where
  rsp : c'.rsp = c.rsp
  caller : ∀ x, c.rsp.toNat ≤ x → x < c.rsp.toNat + size → c'.mem x = c.mem x
  gdtr : c'.gdtr = c.gdtr
  idtr : c'.idtr = c.idtr

theorem Cpu.Holds.returned {ws : List UInt64} {c' : Cpu}
    (h : c.Holds base ws) (hreturned : Returned (8 * ws.length) c c') :
    c'.Holds base ws := by
  constructor
  · rw [hreturned.rsp]
    exact h.words.congr hreturned.caller
  · rw [hreturned.rsp]
    exact h.height

/-- The registers saved and the context are taken back. -/
theorem run_leave {c₀ : Cpu} {saved : List Gpr} {ws : List UInt64}
    {n : UInt64} (hall : ∀ r, r ∈ saved) (hn : n.toNat = 8 * ws.length)
    (hbase : base < 2 ^ 64)
    (h : c.Holds base ((saved.map c₀.gpr).reverse ++
      (ws ++ c₀.context.reverse))) :
    run f (leave saved n) c =
      { c₀ with mem := c.mem, gdtr := c.gdtr, idtr := c.idtr } := by
  rw [← List.map_reverse] at h
  obtain ⟨hgpr, hrest, heq⟩ := h.popAll hbase
  have hregs : (c.popAll saved.reverse).gpr = c₀.gpr := by
    funext r
    rw [hgpr, if_pos (List.mem_reverse.mpr (hall r))]
  have hheight := hrest.height
  rw [List.length_append] at hheight
  let c₁ : Cpu := { c.popAll saved.reverse with
    rsp := (c.popAll saved.reverse).rsp + n }
  have hrsp : c₁.rsp.toNat =
      (c.popAll saved.reverse).rsp.toNat + 8 * ws.length := by
    show ((c.popAll saved.reverse).rsp + n).toNat = _
    rw [UInt64.toNat_add, hn]
    exact Nat.mod_eq_of_lt (by omega)
  have hcontext : c₁.Holds base c₀.context.reverse := by
    constructor
    · rw [hrsp]
      exact (WordsAt.append.mp hrest.words).2
    · rw [hrsp]
      omega
  rw [leave, run_append, run_pop]
  show c₁.iretq = _
  rw [hcontext.iretq]
  show ({ c.popAll saved.reverse with
    rip := c₀.rip, cs := c₀.cs, rflags := c₀.rflags, rsp := c₀.rsp
    ss := c₀.ss } : Cpu) = _
  rw [heq, hregs]

/-- An interrupt whose routine saves every register and whose function returns
leaves nothing behind but what the function did to the memory. -/
theorem Cpu.Entered.resumes {c₁ c₂ : Cpu} {errorCode : Option UInt64}
    {words : List UInt64} {saved : List Gpr} {n : UInt64}
    (hentered : c.Entered errorCode c₁) (hall : ∀ r, r ∈ saved)
    (hn : n.toNat = 8 * (words.length + errorCode.toList.length))
    (hroom : 8 * (words.length + saved.length) ≤ c₁.rsp.toNat)
    (hreturned : Returned
      (8 * (saved.length + words.length + errorCode.toList.length + 5))
      (run f (enter words saved) c₁) c₂) :
    run f (leave saved n) c₂ = { c with mem := c₂.mem } := by
  obtain ⟨hholds, -, -, hgdtr, hidtr, -⟩ :=
    run_enter (f := f) hentered.holds hroom
  rw [hentered.gpr, ← List.append_assoc words.reverse] at hholds
  have hsize : 8 * ((saved.map c.gpr).reverse ++ (words.reverse ++
      errorCode.toList ++ c.context.reverse)).length =
      8 * (saved.length + words.length + errorCode.toList.length + 5) := by
    simp only [List.length_append, List.length_reverse, List.length_map]
    show 8 * (_ + (_ + _ + 5)) = _
    omega
  rw [← hsize] at hreturned
  have hback := hholds.returned hreturned
  have hbase : c.alignedRsp.toNat < 2 ^ 64 := c.alignedRsp.toNat_lt
  have hwords : n.toNat =
      8 * (words.reverse ++ errorCode.toList).length := by
    rw [hn, List.length_append, List.length_reverse]
  rw [run_leave hall hwords hbase hback, hreturned.gdtr, hreturned.idtr, hgdtr,
    hidtr, hentered.gdtr, hentered.idtr]

end X64

end Lib
