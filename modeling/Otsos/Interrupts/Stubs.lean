import Otsos.Interrupts.Idt

/-!
# The interrupt stubs

`idt.asm`: a stub pushes its number, saves all registers and calls the handler
with their address, the `registers_t` of `idt.h`.
-/

namespace Otsos

open Lib Lib.X64

/-- `registers_t`. -/
structure Registers where
  r15 : UInt64
  r14 : UInt64
  r13 : UInt64
  r12 : UInt64
  r11 : UInt64
  r10 : UInt64
  r9 : UInt64
  r8 : UInt64
  rbp : UInt64
  rdi : UInt64
  rsi : UInt64
  rdx : UInt64
  rcx : UInt64
  rbx : UInt64
  rax : UInt64
  intNo : UInt64
  errCode : UInt64
  rip : UInt64
  cs : UInt64
  rflags : UInt64
  rsp : UInt64
  ss : UInt64
deriving DecidableEq, Repr

/-- `*regs`. -/
def registersAt (m : Memory) (regs : UInt64) : Registers :=
  let word (i : ℕ) : UInt64 := UInt64.ofNat (m.load (regs.toNat + 8 * i) 8)
  ⟨word 0, word 1, word 2, word 3, word 4, word 5, word 6, word 7, word 8,
    word 9, word 10, word 11, word 12, word 13, word 14, word 15, word 16,
    word 17, word 18, word 19, word 20, word 21⟩

/-! ## The code -/

def isrCommon : List Instr :=
  [.push .rax, .push .rbx, .push .rcx, .push .rdx, .push .rsi, .push .rdi,
    .push .rbp, .push .r8, .push .r9, .push .r10, .push .r11, .push .r12,
    .push .r13, .push .r14, .push .r15,
    .movFromRsp .rdi, .call,
    .pop .r15, .pop .r14, .pop .r13, .pop .r12, .pop .r11, .pop .r10,
    .pop .r9, .pop .r8, .pop .rbp, .pop .rdi, .pop .rsi, .pop .rdx, .pop .rcx,
    .pop .rbx, .pop .rax, .addRsp 16, .iretq]

/-- The text of `irq_common` differs in the function called. -/
def irqCommon : List Instr := isrCommon

def isrNoErrStub (n : ℕ) : List Instr :=
  .pushImm 0 :: .pushImm (UInt64.ofNat n) :: isrCommon

def isrErrStub (n : ℕ) : List Instr :=
  .pushImm (UInt64.ofNat n) :: isrCommon

def irqStub (n : ℕ) : List Instr :=
  .pushImm 0 :: .pushImm (UInt64.ofNat (n + 32)) :: irqCommon

/-- The exceptions that have an `isr_err_stub`. -/
def isrErrStubs : List ℕ := [8, 10, 11, 12, 13, 14, 17, 21, 30]

/-- The stub of a vector. -/
def stubCode (v : ℕ) : List Instr :=
  if v < 32 then if v ∈ isrErrStubs then isrErrStub v else isrNoErrStub v
  else irqStub (v - 32)

/-- What the stub of a vector pushes before the registers. -/
def stubWords (v : ℕ) : List UInt64 :=
  if v ∈ isrErrStubs then [UInt64.ofNat v] else [0, UInt64.ofNat v]

def savedRegisters : List Gpr :=
  [.rax, .rbx, .rcx, .rdx, .rsi, .rdi, .rbp, .r8, .r9, .r10, .r11, .r12, .r13,
    .r14, .r15]

/-- The stub that lies at an address. -/
def InterruptImage.stubAt (k : InterruptImage) (a : UInt64) : Option ℕ :=
  (List.range 48).find? fun v => k.stub v = a

/-- What a stub does up to its call. -/
def stubEntry (v : ℕ) : List Instr :=
  (stubCode v).takeWhile fun i => !i.isCall

/-- What it does behind the call. -/
def stubExit (v : ℕ) : List Instr :=
  ((stubCode v).dropWhile fun i => !i.isCall).tail

/-- The state in which the stub calls its handler. -/
def InterruptImage.atHandler (k : InterruptImage) (c : Cpu) (v : ℕ)
    (errorCode : Option UInt64) (rf : Bool) : Option Cpu := do
  let c ← c.deliver v errorCode rf
  let v ← k.stubAt c.rip
  some (run id (stubEntry v) c)

/-- The saved context, with a number and an error code. -/
def contextOf (c : Cpu) (v : ℕ) (errCode : UInt64) : Registers where
  r15 := c.gpr .r15
  r14 := c.gpr .r14
  r13 := c.gpr .r13
  r12 := c.gpr .r12
  r11 := c.gpr .r11
  r10 := c.gpr .r10
  r9 := c.gpr .r9
  r8 := c.gpr .r8
  rbp := c.gpr .rbp
  rdi := c.gpr .rdi
  rsi := c.gpr .rsi
  rdx := c.gpr .rdx
  rcx := c.gpr .rcx
  rbx := c.gpr .rbx
  rax := c.gpr .rax
  intNo := UInt64.ofNat v
  errCode := errCode
  rip := c.rip
  cs := c.cs.toUInt64
  rflags := c.rflags
  rsp := c.rsp
  ss := c.ss.toUInt64

variable {k : InterruptImage} {c : Cpu} {v : ℕ} {errorCode : Option UInt64}
  {rf : Bool} {m : Memory}

/-! ## The stubs as routines -/

theorem mem_savedRegisters (r : Gpr) : r ∈ savedRegisters := by
  cases r <;> decide

theorem stubCode_eq (hv : v < 48) :
    stubCode v =
      enter (stubWords v) savedRegisters ++
        .call :: leave savedRegisters 16 := by
  unfold stubCode stubWords
  by_cases herr : v ∈ isrErrStubs
  · have hexception : v < 32 := by
      have hall : ∀ v ∈ isrErrStubs, v < 32 := by decide
      exact hall v herr
    rw [if_pos hexception, if_pos herr, if_pos herr]
    rfl
  · rw [if_neg herr, if_neg herr]
    by_cases hexception : v < 32
    · rw [if_pos hexception]
      rfl
    · rw [if_neg hexception, irqStub, Nat.sub_add_cancel (by omega)]
      rfl

theorem stubEntry_eq (hv : v < 48) :
    stubEntry v = enter (stubWords v) savedRegisters := by
  have hnone : ∀ i ∈ enter (stubWords v) savedRegisters,
      (!i.isCall) = true := by
    intro i hi
    rw [isCall_enter hi]
    rfl
  rw [stubEntry, stubCode_eq hv, List.takeWhile_append_of_pos hnone,
    List.takeWhile_cons_of_neg Bool.false_ne_true, List.append_nil]

theorem stubExit_eq (hv : v < 48) : stubExit v = leave savedRegisters 16 := by
  have hnone : ∀ i ∈ enter (stubWords v) savedRegisters,
      (!i.isCall) = true := by
    intro i hi
    rw [isCall_enter hi]
    rfl
  rw [stubExit, stubCode_eq hv, List.dropWhile_append_of_pos hnone,
    List.dropWhile_cons_of_neg Bool.false_ne_true, List.tail_cons]

theorem stubAt_stub (hv : v < 48) : k.stubAt (k.stub v) = some v := by
  unfold InterruptImage.stubAt
  rw [List.find?_range_eq_some]
  refine ⟨decide_eq_true rfl, List.mem_range.mpr hv, ?_⟩
  intro n hn
  rw [Bool.not_eq_true', decide_eq_false_iff_not]
  intro hsame
  have hnv := k.distinct n (by omega) v hv hsame
  omega

theorem length_stubWords :
    (stubWords v).length = if v ∈ isrErrStubs then 1 else 2 := by
  unfold stubWords
  split
  · rfl
  · rfl

theorem registersAt_words {regs : UInt64} {ws : List UInt64} {r : Registers}
    (h : WordsAt m regs.toNat ws)
    (hwords : ws = [r.r15, r.r14, r.r13, r.r12, r.r11, r.r10, r.r9, r.r8,
      r.rbp, r.rdi, r.rsi, r.rdx, r.rcx, r.rbx, r.rax, r.intNo, r.errCode,
      r.rip, r.cs, r.rflags, r.rsp, r.ss]) : registersAt m regs = r := by
  subst hwords
  have hword (i : ℕ) (hi : i < 22) := h.word (i := i) hi
  simp only [registersAt]
  rw [hword 0, hword 1, hword 2, hword 3, hword 4, hword 5, hword 6, hword 7,
    hword 8, hword 9, hword 10, hword 11, hword 12, hword 13, hword 14,
    hword 15, hword 16, hword 17, hword 18, hword 19, hword 20, hword 21]
  all_goals first | rfl | omega

/-! ## What a handler finds -/

/-- A handler was called from the stub of `v`, for an interrupt that saved
`c`. -/
structure AtHandler (c : Cpu) (v : ℕ) (errorCode : Option UInt64) (c' : Cpu) :
    Prop where
  words : WordsAt c'.mem (c'.gpr .rdi).toNat
    ((savedRegisters.map c.gpr).reverse ++ ((stubWords v).reverse ++
      (errorCode.toList ++ c.context.reverse)))
  frame : Memory.FrameOutside
    (fun x => c.alignedRsp.toNat - 192 ≤ x ∧ x < c.alignedRsp.toNat) c.mem
    c'.mem
  masked : c'.rflags &&& 0x200 = 0
  gdtr : c'.gdtr = c.gdtr
  idtr : c'.idtr = c.idtr

theorem IdtLoaded.atHandler (h : IdtLoaded k c) (hv : v < 48)
    (hroom : 192 ≤ c.alignedRsp.toNat) :
    ∃ c₁ c', c.deliver v errorCode rf = some c₁ ∧ c₁.rip = k.stub v ∧
      (c.saved rf).Entered errorCode c₁ ∧
      8 * ((stubWords v).length + savedRegisters.length) ≤ c₁.rsp.toNat ∧
      k.atHandler c v errorCode rf = some c' ∧
      c' = run id (stubEntry v) c₁ ∧
      AtHandler (c.saved rf) v errorCode c' := by
  obtain ⟨c₁, hdeliver, hrip, hmasked, hentered⟩ :=
    @IdtLoaded.deliver_stub k c v errorCode rf h hv (by omega)
  have hroom : 192 ≤ (c.saved rf).alignedRsp.toNat := hroom
  have hheight := hentered.holds.height
  have hlength : (stubWords v).length ≤ 2 := by
    rw [length_stubWords]
    split <;> omega
  have hcode : errorCode.toList.length ≤ 1 := by
    cases errorCode with
    | none => exact Nat.zero_le 1
    | some e => exact Nat.le_refl 1
  have hcontext : (c.saved rf).context.reverse.length = 5 := rfl
  have hsaved : savedRegisters.length = 15 := rfl
  rw [List.length_append, hcontext] at hheight
  have hsmall : 8 * ((stubWords v).length + savedRegisters.length) ≤
      c₁.rsp.toNat := by omega
  obtain ⟨hholds, hrdi, hframe, hgdtr, hidtr, hrflags⟩ :=
    run_enter (f := id) hentered.holds hsmall
  rw [stubEntry_eq hv]
  refine ⟨c₁, _, hdeliver, hrip, hentered, hsmall, ?_, rfl,
    ⟨?_, ?_, ?_, ?_, ?_⟩⟩
  · unfold InterruptImage.atHandler
    rw [hdeliver]
    simp only [Option.bind_eq_bind, Option.bind_some, hrip, stubAt_stub hv,
      stubEntry_eq hv]
  · rw [hrdi, ← hentered.gpr]
    exact hholds.words
  · have hheight' := hholds.height
    simp only [List.length_append, List.length_reverse, List.length_map,
      hsaved] at hheight'
    have hfive : (c.saved rf).context.length = 5 := rfl
    refine (hentered.frame.mono fun x hx => ?_).trans
      (hframe.mono fun x hx => ?_)
    · omega
    · omega
  · rw [hrflags]
    exact hmasked
  · rw [hgdtr]
    exact hentered.gdtr
  · rw [hidtr]
    exact hentered.idtr

namespace AtHandler

variable {c' : Cpu}

/-- Stub and processor agree on the error code. -/
theorem registers (h : AtHandler c v errorCode c')
    (hagree : errorCode.isSome ↔ v ∈ isrErrStubs) :
    registersAt c'.mem (c'.gpr .rdi) = contextOf c v (errorCode.getD 0) := by
  refine registersAt_words h.words ?_
  unfold stubWords
  cases errorCode with
  | none =>
      rw [if_neg (fun herr => absurd (hagree.mpr herr) Bool.false_ne_true)]
      rfl
  | some code =>
      rw [if_pos (hagree.mp rfl)]
      rfl

/-- The processor pushed a code that the stub does not expect: it is taken for
the address. -/
theorem unexpected {code : UInt64} (h : AtHandler c v (some code) c')
    (hstub : v ∉ isrErrStubs) :
    (registersAt c'.mem (c'.gpr .rdi)).rip = code := by
  have hwords := h.words
  unfold stubWords at hwords
  rw [if_neg hstub] at hwords
  exact hwords.word (i := 17) (Nat.le_of_ble_eq_true rfl)

/-- The stub counts on a code that was not pushed: the address is taken for
it. -/
theorem missing (h : AtHandler c v none c') (hstub : v ∈ isrErrStubs) :
    (registersAt c'.mem (c'.gpr .rdi)).errCode = c.rip := by
  have hwords := h.words
  unfold stubWords at hwords
  rw [if_pos hstub] at hwords
  exact hwords.word (i := 16) (Nat.le_of_ble_eq_true rfl)

end AtHandler

/-- Tables below the stack are not touched. -/
theorem AtHandler.loaded {c' : Cpu} (h : AtHandler c v errorCode c')
    (hloaded : IdtLoaded k c) (htable : k.idt + 4096 + 192 ≤ c.alignedRsp.toNat)
    (hdescriptor : c.gdtr.base + 16 + 192 ≤ c.alignedRsp.toNat) :
    IdtLoaded k c' := by
  refine hloaded.congr h.idtr h.gdtr (fun x _ hx => ?_) (fun x _ hx => ?_)
  · exact h.frame x (by omega)
  · exact h.frame x (by omega)

/-- `isr_handler` gets the saved context if and only if the processor pushes an
error code just for the exceptions that have an `isr_err_stub`. -/
theorem isr_context_iff (h : IdtLoaded k c) (hv : v < 32)
    (hroom : 192 ≤ c.alignedRsp.toNat) (hrip : 2 ^ 16 ≤ c.rip.toNat)
    (hcode : ∀ code ∈ errorCode, code.toNat < 2 ^ 16) (rf : Bool) :
    ∃ c', k.atHandler c v errorCode rf = some c' ∧
      (registersAt c'.mem (c'.gpr .rdi) =
          contextOf (c.saved rf) v (errorCode.getD 0) ↔
        (errorCode.isSome ↔ v ∈ isrErrStubs)) := by
  obtain ⟨c₁, c', -, -, -, -, hcall, -, hat⟩ :=
    @IdtLoaded.atHandler k c v errorCode rf h (by omega) hroom
  refine ⟨c', hcall, fun hregisters => ?_, hat.registers⟩
  by_cases hstub : v ∈ isrErrStubs
  · refine iff_of_true ?_ hstub
    cases errorCode with
    | some code => rfl
    | none =>
        have hmissing := hat.missing hstub
        rw [hregisters] at hmissing
        have hzero : (0 : UInt64) = c.rip := hmissing
        rw [← hzero] at hrip
        exact absurd hrip (by decide)
  · refine iff_of_false ?_ hstub
    cases errorCode with
    | none => exact Bool.false_ne_true
    | some code =>
        have hunexpected := hat.unexpected hstub
        rw [hregisters] at hunexpected
        have hsame : c.rip = code := hunexpected
        have hsmall := hcode code rfl
        rw [← hsame] at hsmall
        omega

/-- A page fault: its stub gets the code that the processor pushes. -/
theorem isr_context_iff_smallCpu : ∃ c',
    smallImage.atHandler (initIdt smallImage smallCpu ⟨remapped 0 4 0,
      remapped 8 2 0⟩).1 14 (some 2) true = some c' ∧
      registersAt c'.mem (c'.gpr .rdi) =
        contextOf ((initIdt smallImage smallCpu ⟨remapped 0 4 0,
          remapped 8 2 0⟩).1.saved true) 14 2 := by
  obtain ⟨c', hcall, hcontext⟩ := @isr_context_iff smallImage _ 14 (some 2)
    (smallCpu_beforeIdt.loaded ⟨remapped 0 4 0, remapped 8 2 0⟩) (by decide)
    (by decide) (by decide)
    (fun code hcode => by rw [← Option.some.inj hcode]; decide) true
  exact ⟨c', hcall, hcontext.mpr (by decide)⟩

/-! ## Interrupts of devices -/

theorem not_mem_isrErrStubs (hv : 32 ≤ v) : v ∉ isrErrStubs := by
  have hall : ∀ v ∈ isrErrStubs, v < 32 := by decide
  exact fun hmem => absurd (hall v hmem) (by omega)

/-- What `irq_handler` finds, and what is left of the interrupt when it
returned. -/
theorem IdtLoaded.interrupt_device (h : IdtLoaded k c) (hv : 32 ≤ v)
    (hlast : v < 48) (hroom : 192 ≤ c.alignedRsp.toNat) :
    ∃ c', k.atHandler c v none rf = some c' ∧
      AtHandler (c.saved rf) v none c' ∧
      registersAt c'.mem (c'.gpr .rdi) = contextOf (c.saved rf) v 0 ∧
      ∀ c'', Returned 176 c' c'' →
        run id (stubExit v) c'' = { c.saved rf with mem := c''.mem } := by
  obtain ⟨c₁, c', -, -, hentered, hsmall, hcall, hc', hat⟩ :=
    @IdtLoaded.atHandler k c v none rf h hlast hroom
  have hstub := not_mem_isrErrStubs hv
  have hwords : (stubWords v).length = 2 := by
    rw [length_stubWords, if_neg hstub]
  refine ⟨c', hcall, hat, hat.registers ?_, fun c'' hreturned => ?_⟩
  · exact iff_of_false Bool.false_ne_true hstub
  · rw [hc', stubEntry_eq hlast] at hreturned
    rw [stubExit_eq hlast]
    refine hentered.resumes mem_savedRegisters ?_ hsmall ?_
    · rw [hwords]
      rfl
    · rw [hwords]
      exact hreturned

end Otsos
