import Otsos.Bin.Programs
import Otsos.Drivers.SerialLine
import Otsos.Drivers.SerialText
import Otsos.Interrupts.Stubs

/-!
# The report of an exception

`kernel_panic` shows a few words and sends all registers on the serial line,
then halts.  What is sent can be read back.
-/

namespace Otsos

open Lib Lib.X64

def exceptionMessages : List (List UInt8) :=
  ["Division By Zero", "Debug", "Non Maskable Interrupt", "Breakpoint",
    "Into Detected Overflow", "Out of Bounds", "Invalid Opcode",
    "No Coprocessor", "Double Fault", "Coprocessor Segment Overrun", "Bad TSS",
    "Segment Not Present", "Stack Fault", "General Protection Fault",
    "Page Fault", "Unknown Interrupt", "Coprocessor Fault", "Alignment Check",
    "Machine Check", "SIMD Floating-Point", "Virtualization",
    "Control Protection", "Reserved", "Reserved", "Reserved", "Reserved",
    "Reserved", "Reserved", "Reserved", "Reserved", "Security",
    "Reserved"].map literal

/-- `exception_messages[regs->int_no]`. -/
def exceptionMessage (intNo : UInt64) : List UInt8 :=
  exceptionMessages.getD intNo.toNat []

/-- What `kernel_panic` shows. -/
def Terminal.kernelPanic (t : Terminal) (regs : Registers) : Terminal :=
  let t := t.clearScreen.print (literal "!!! KERNEL PANIC !!!") 0 30 0x4F
  let t :=
    if regs.intNo < 32 then t.print (exceptionMessage regs.intNo) 2 0 0x0F
    else t.print (literal "Unexpected Interrupt") 2 0 0x0F
  if regs.intNo = 14 then t.print (literal "Page Fault at:") 4 0 0x0F else t

/-- The arguments of a call without strings. -/
def numbers (words : List UInt64) : VarArgs := ⟨fun i => words.getD i 0, fun _ => []⟩

/-- An `(int)` among the arguments. -/
def asInt (word : UInt64) : UInt64 := word.toUInt32.toUInt64

/-- What `kernel_panic` sends; `cr2` is the register of this name. -/
def panicText (regs : Registers) (cr2 : UInt64) : List UInt8 :=
  com1Text (literal
      "\n\r####################################################\n\r")
    (numbers []) ++
  (if regs.intNo < 32 then
    com1Text (literal "              KERNEL PANIC: %s\n\r")
      ⟨fun _ => 0, fun _ => exceptionMessage regs.intNo⟩
  else
    com1Text (literal "              KERNEL PANIC: Unexpected Interrupt\n\r")
      (numbers [])) ++
  com1Text (literal
      "####################################################\n\r")
    (numbers []) ++
  com1Text (literal "Interrupt: %d (Error Code: %x)\n\r")
    (numbers [asInt regs.intNo, asInt regs.errCode]) ++
  com1Text (literal "RIP: %p  CS: %x  RFLAGS: %p\n\r")
    (numbers [regs.rip, asInt regs.cs, regs.rflags]) ++
  com1Text (literal "RSP: %p  SS: %x\n\r") (numbers [regs.rsp, asInt regs.ss]) ++
  com1Text (literal "\n\rRegisters:\n\r") (numbers []) ++
  com1Text (literal "RAX: %p  RBX: %p  RCX: %p\n\r")
    (numbers [regs.rax, regs.rbx, regs.rcx]) ++
  com1Text (literal "RDX: %p  RSI: %p  RDI: %p\n\r")
    (numbers [regs.rdx, regs.rsi, regs.rdi]) ++
  com1Text (literal "RBP: %p  R8:  %p  R9:  %p\n\r")
    (numbers [regs.rbp, regs.r8, regs.r9]) ++
  com1Text (literal "R10: %p  R11: %p  R12: %p\n\r")
    (numbers [regs.r10, regs.r11, regs.r12]) ++
  com1Text (literal "R13: %p  R14: %p  R15: %p\n\r")
    (numbers [regs.r13, regs.r14, regs.r15]) ++
  (if regs.intNo = 14 then
    com1Text (literal "\n\rPage Fault Address (CR2): %p\n\r") (numbers [cr2])
  else []) ++
  com1Text (literal "\n\rSystem Halted.\n\r") (numbers [])

variable {regs regs' : Registers} {cr2 cr2' : UInt64} {r r' : List UInt8}
  {t : Terminal} {v₀ : Memory}

/-! ## On the screen -/

theorem exceptionMessage_cases (intNo : UInt64) :
    exceptionMessage intNo ∈ exceptionMessages ∨
      32 ≤ intNo.toNat ∧ exceptionMessage intNo = [] := by
  unfold exceptionMessage
  rw [List.getD_eq_getElem?_getD]
  cases hmessage : exceptionMessages[intNo.toNat]? with
  | some m => exact Or.inl (List.mem_of_getElem? hmessage)
  | none => exact Or.inr ⟨List.getElem?_eq_none_iff.mp hmessage, rfl⟩

theorem length_exceptionMessage (intNo : UInt64) :
    (exceptionMessage intNo).length ≤ 80 := by
  have hall : ∀ m ∈ exceptionMessages, m.length ≤ 80 := by decide
  rcases exceptionMessage_cases intNo with hmem | ⟨-, hempty⟩
  · exact hall _ hmem
  · rw [hempty]
    exact Nat.zero_le _

/-- The report stays on the page. -/
theorem Terminal.OnPage.kernelPanic (h : t.OnPage v₀) (regs : Registers) :
    (t.kernelPanic regs).OnPage v₀ := by
  have htitle : PrintFits (literal "!!! KERNEL PANIC !!!") 0 30 :=
    printFits_short 0 (by decide)
  have hfault : PrintFits (literal "Page Fault at:") 4 0 :=
    printFits_short 4 (by decide)
  have hmessage := length_exceptionMessage regs.intNo
  have hshown :
      (t.clearScreen.print (literal "!!! KERNEL PANIC !!!") 0 30 0x4F).OnPage
        v₀ := h.clearScreen.print htitle
  unfold Terminal.kernelPanic
  split <;> split
  · exact (hshown.print (printFits_short 2 (by omega))).print hfault
  · exact hshown.print (printFits_short 2 (by omega))
  · exact (hshown.print (printFits_short 2 (by decide))).print hfault
  · exact hshown.print (printFits_short 2 (by decide))

/-- The exception that `calc` can raise. -/
theorem divideException_eq (h : regs.intNo = 0) :
    t.divideException = t.kernelPanic regs := by
  unfold Terminal.kernelPanic
  rw [h]
  rfl

/-! ## On the line -/

/-- The name in the report. -/
def panicMessage (regs : Registers) : List UInt8 :=
  if regs.intNo < 32 then exceptionMessage regs.intNo
  else literal "Unexpected Interrupt"

/-- The calls that every report begins with, for two reports. -/
def panicCalls (regs regs' : Registers) :
    List (List UInt8 × VarArgs × VarArgs) :=
  [(literal "\n\r####################################################\n\r",
      numbers [], numbers []),
    (literal "              KERNEL PANIC: %s\n\r",
      ⟨fun _ => 0, fun _ => panicMessage regs⟩,
      ⟨fun _ => 0, fun _ => panicMessage regs'⟩),
    (literal "####################################################\n\r",
      numbers [], numbers []),
    (literal "Interrupt: %d (Error Code: %x)\n\r",
      numbers [asInt regs.intNo, asInt regs.errCode],
      numbers [asInt regs'.intNo, asInt regs'.errCode]),
    (literal "RIP: %p  CS: %x  RFLAGS: %p\n\r",
      numbers [regs.rip, asInt regs.cs, regs.rflags],
      numbers [regs'.rip, asInt regs'.cs, regs'.rflags]),
    (literal "RSP: %p  SS: %x\n\r", numbers [regs.rsp, asInt regs.ss],
      numbers [regs'.rsp, asInt regs'.ss]),
    (literal "\n\rRegisters:\n\r", numbers [], numbers []),
    (literal "RAX: %p  RBX: %p  RCX: %p\n\r",
      numbers [regs.rax, regs.rbx, regs.rcx],
      numbers [regs'.rax, regs'.rbx, regs'.rcx]),
    (literal "RDX: %p  RSI: %p  RDI: %p\n\r",
      numbers [regs.rdx, regs.rsi, regs.rdi],
      numbers [regs'.rdx, regs'.rsi, regs'.rdi]),
    (literal "RBP: %p  R8:  %p  R9:  %p\n\r",
      numbers [regs.rbp, regs.r8, regs.r9],
      numbers [regs'.rbp, regs'.r8, regs'.r9]),
    (literal "R10: %p  R11: %p  R12: %p\n\r",
      numbers [regs.r10, regs.r11, regs.r12],
      numbers [regs'.r10, regs'.r11, regs'.r12]),
    (literal "R13: %p  R14: %p  R15: %p\n\r",
      numbers [regs.r13, regs.r14, regs.r15],
      numbers [regs'.r13, regs'.r14, regs'.r15])]

/-- The address of a page fault, if the report has it, and the last words. -/
def panicEnd (regs : Registers) (cr2 : UInt64) : List UInt8 :=
  (if regs.intNo = 14 then
    com1Text (literal "\n\rPage Fault Address (CR2): %p\n\r") (numbers [cr2])
  else []) ++
  com1Text (literal "\n\rSystem Halted.\n\r") (numbers [])

theorem panicTitle_eq (regs : Registers) :
    (if regs.intNo < 32 then
      com1Text (literal "              KERNEL PANIC: %s\n\r")
        ⟨fun _ => 0, fun _ => exceptionMessage regs.intNo⟩
    else
      com1Text
        (literal "              KERNEL PANIC: Unexpected Interrupt\n\r")
        (numbers [])) =
      com1Text (literal "              KERNEL PANIC: %s\n\r")
        ⟨fun _ => 0, fun _ => panicMessage regs⟩ := by
  unfold panicMessage
  split
  · rfl
  · decide

theorem panicText_eq :
    panicText regs cr2 =
        ((panicCalls regs regs').flatMap fun call =>
          com1Text call.1 call.2.1) ++ panicEnd regs cr2 ∧
      panicText regs' cr2 =
        ((panicCalls regs regs').flatMap fun call =>
          com1Text call.1 call.2.2) ++ panicEnd regs' cr2 := by
  constructor
  · simp only [panicText, panicTitle_eq, panicCalls, panicEnd,
      List.flatMap_cons, List.flatMap_nil, List.append_assoc, List.nil_append]
  · simp only [panicText, panicTitle_eq, panicCalls, panicEnd,
      List.flatMap_cons, List.flatMap_nil, List.append_assoc, List.nil_append]

/-! ## Reading the report -/

theorem newline_not_mem_panicMessage (regs : Registers) :
    10 ∉ panicMessage regs := by
  have hall : ∀ m ∈ exceptionMessages, 10 ∉ m := by decide
  unfold panicMessage
  split
  · rcases exceptionMessage_cases regs.intNo with hmem | ⟨-, hempty⟩
    · exact hall _ hmem
    · rw [hempty]
      exact List.not_mem_nil
  · decide

theorem panicCalls_delimited : ∀ call ∈ panicCalls regs regs',
    Delimited call.2.1 0 (pieces 37 call.1) ∧
      Delimited call.2.2 0 (pieces 37 call.1) := by
  have hformats : ∀ format ∈ (panicCalls regs regs').map Prod.fst,
      delimitable (pieces 37 format) = true := by
    rw [show (panicCalls regs regs').map Prod.fst =
      (panicCalls (registersAt (fun _ => 0) 0)
        (registersAt (fun _ => 0) 0)).map Prod.fst from rfl]
    decide
  have hstrings : ∀ call ∈ panicCalls regs regs',
      (∀ w, 10 ∉ call.2.1.string w) ∧ ∀ w, 10 ∉ call.2.2.string w := by
    have hregs := newline_not_mem_panicMessage regs
    have hregs' := newline_not_mem_panicMessage regs'
    simp [panicCalls, numbers, hregs, hregs']
  intro call hcall
  have hformat := hformats _ (List.mem_map_of_mem hcall)
  obtain ⟨hfirst, hsecond⟩ := hstrings call hcall
  exact ⟨delimited_of_delimitable hfirst hformat,
    delimited_of_delimitable hsecond hformat⟩

/-- What two reports have in common if they agree before their ends. -/
structure SameReport (regs regs' : Registers) : Prop where
  message : panicMessage regs = panicMessage regs'
  intNo : regs.intNo.toUInt32 = regs'.intNo.toUInt32
  errCode : regs.errCode.toUInt32 = regs'.errCode.toUInt32
  cs : regs.cs.toUInt32 = regs'.cs.toUInt32
  ss : regs.ss.toUInt32 = regs'.ss.toUInt32
  rest : { regs with intNo := 0, errCode := 0, cs := 0, ss := 0 } =
    { regs' with intNo := 0, errCode := 0, cs := 0, ss := 0 }

theorem toUInt32_asInt (word : UInt64) :
    (asInt word).toUInt32 = word.toUInt32 := UInt32.toUInt32_toUInt64 _

theorem panicCalls_sameValues :
    (∀ call ∈ panicCalls regs regs',
      SameValues call.2.1 call.2.2 0 (pieces 37 call.1)) ↔
      SameReport regs regs' := by
  have hnone {cs : List UInt8} {a b : VarArgs}
      (h : conversions 0 (pieces 37 cs) = []) :
      SameValues a b 0 (pieces 37 cs) ↔ True := by
    rw [sameValues_iff, h]
    simp
  have hthree {cs : List UInt8} {a b c a' b' c' : UInt64}
      (h : conversions 0 (pieces 37 cs) = [(0, 112), (1, 112), (2, 112)]) :
      SameValues (numbers [a, b, c]) (numbers [a', b', c']) 0 (pieces 37 cs) ↔
        a = a' ∧ b = b' ∧ c = c' := by
    rw [sameValues_iff, h]
    simp [SameValue, numbers]
  have hcode {cs : List UInt8} {a b a' b' : UInt64}
      (h : conversions 0 (pieces 37 cs) = [(0, 100), (1, 120)]) :
      SameValues (numbers [asInt a, asInt b]) (numbers [asInt a', asInt b']) 0
          (pieces 37 cs) ↔
        a.toUInt32 = a'.toUInt32 ∧ b.toUInt32 = b'.toUInt32 := by
    rw [sameValues_iff, h]
    simp [SameValue, numbers, toUInt32_asInt]
  have hrip {cs : List UInt8} {a b c a' b' c' : UInt64}
      (h : conversions 0 (pieces 37 cs) = [(0, 112), (1, 120), (2, 112)]) :
      SameValues (numbers [a, asInt b, c]) (numbers [a', asInt b', c']) 0
          (pieces 37 cs) ↔
        a = a' ∧ b.toUInt32 = b'.toUInt32 ∧ c = c' := by
    rw [sameValues_iff, h]
    simp [SameValue, numbers, toUInt32_asInt]
  have hrsp {cs : List UInt8} {a b a' b' : UInt64}
      (h : conversions 0 (pieces 37 cs) = [(0, 112), (1, 120)]) :
      SameValues (numbers [a, asInt b]) (numbers [a', asInt b']) 0
          (pieces 37 cs) ↔ a = a' ∧ b.toUInt32 = b'.toUInt32 := by
    rw [sameValues_iff, h]
    simp [SameValue, numbers, toUInt32_asInt]
  have htitle {cs m m' : List UInt8}
      (h : conversions 0 (pieces 37 cs) = [(0, 115)]) :
      SameValues ⟨fun _ => 0, fun _ => m⟩ ⟨fun _ => 0, fun _ => m'⟩ 0
          (pieces 37 cs) ↔ m = m' := by
    rw [sameValues_iff, h]
    simp [SameValue]
  simp (disch := decide) only [panicCalls, List.forall_mem_cons, hnone, hthree,
    hcode, hrip, hrsp, htitle]
  constructor
  · rintro ⟨-, hmessage, -, ⟨hintNo, herrCode⟩, ⟨hrip, hcs, hrflags⟩,
      ⟨hrsp, hss⟩, -, ⟨hrax, hrbx, hrcx⟩, ⟨hrdx, hrsi, hrdi⟩,
      ⟨hrbp, hr8, hr9⟩, ⟨hr10, hr11, hr12⟩, ⟨hr13, hr14, hr15⟩, -⟩
    refine ⟨hmessage, hintNo, herrCode, hcs, hss, ?_⟩
    rw [Registers.mk.injEq]
    exact ⟨hr15, hr14, hr13, hr12, hr11, hr10, hr9, hr8, hrbp, hrdi, hrsi, hrdx,
      hrcx, hrbx, hrax, rfl, rfl, hrip, rfl, hrflags, hrsp, rfl⟩
  · rintro ⟨hmessage, hintNo, herrCode, hcs, hss, hrest⟩
    rw [Registers.mk.injEq] at hrest
    obtain ⟨hr15, hr14, hr13, hr12, hr11, hr10, hr9, hr8, hrbp, hrdi, hrsi, hrdx,
      hrcx, hrbx, hrax, -, -, hrip, -, hrflags, hrsp, -⟩ := hrest
    exact ⟨trivial, hmessage, trivial, ⟨hintNo, herrCode⟩, ⟨hrip, hcs, hrflags⟩,
      ⟨hrsp, hss⟩, trivial, ⟨hrax, hrbx, hrcx⟩, ⟨hrdx, hrsi, hrdi⟩,
      ⟨hrbp, hr8, hr9⟩, ⟨hr10, hr11, hr12⟩, ⟨hr13, hr14, hr15⟩,
      fun _ hmem => absurd hmem List.not_mem_nil⟩

/-- No exception has the name that is used for other numbers. -/
theorem lt_of_panicMessage (h : panicMessage regs = panicMessage regs') :
    regs.intNo < 32 ↔ regs'.intNo < 32 := by
  have hknown : ∀ intNo : UInt64, intNo < 32 →
      exceptionMessage intNo ≠ literal "Unexpected Interrupt" := by
    intro intNo hlt heq
    have hall : ∀ m ∈ exceptionMessages,
        m ≠ literal "Unexpected Interrupt" := by decide
    have hlt' : intNo.toNat < 32 := hlt
    rcases exceptionMessage_cases intNo with hmem | ⟨hge, -⟩
    · exact hall _ hmem heq
    · omega
  unfold panicMessage at h
  by_cases hlt : regs.intNo < 32
  · rw [if_pos hlt] at h
    by_cases hlt' : regs'.intNo < 32
    · exact iff_of_true hlt hlt'
    · rw [if_neg hlt'] at h
      exact absurd h (hknown _ hlt)
  · rw [if_neg hlt] at h
    by_cases hlt' : regs'.intNo < 32
    · rw [if_pos hlt'] at h
      exact absurd h.symm (hknown _ hlt')
    · exact iff_of_false hlt hlt'

/-- The number of an exception is in its report. -/
theorem SameReport.intNo_eq (h : SameReport regs regs')
    (hlt : regs.intNo < 32) : regs.intNo = regs'.intNo := by
  have hlt' := (lt_of_panicMessage h.message).mp hlt
  have hlow := congrArg UInt32.toNat h.intNo
  rw [UInt64.toNat_toUInt32, UInt64.toNat_toUInt32] at hlow
  have hsmall : regs.intNo.toNat < 32 := hlt
  have hsmall' : regs'.intNo.toNat < 32 := hlt'
  apply UInt64.toNat_inj.mp
  omega

theorem SameReport.pageFault_iff (h : SameReport regs regs') :
    regs.intNo = 14 ↔ regs'.intNo = 14 := by
  by_cases hlt : regs.intNo < 32
  · rw [h.intNo_eq hlt]
  · have hlt' := mt (lt_of_panicMessage h.message).mpr hlt
    refine iff_of_false ?_ ?_
    · rintro heq
      rw [heq] at hlt
      exact hlt (by decide)
    · rintro heq
      rw [heq] at hlt'
      exact hlt' (by decide)

/-- What is sent says the name and number of the exception, its code, all
registers and the address of a page fault, and nothing else: two reports are
the same if and only if they agree on these. -/
theorem panic_readable (regs regs' : Registers) (cr2 cr2' : UInt64) :
    panicText regs cr2 = panicText regs' cr2' ↔
      SameReport regs regs' ∧ (regs.intNo = 14 → cr2 = cr2') := by
  rw [(@panicText_eq regs regs' cr2).1, (@panicText_eq regs regs' cr2').2,
    com1Texts_append_iff panicCalls_delimited, panicCalls_sameValues]
  refine and_congr_right fun h => ?_
  have hpage := h.pageFault_iff
  unfold panicEnd
  by_cases hfault : regs.intNo = 14
  · have hdelimited (word : UInt64) : Delimited (numbers [word]) 0
        (pieces 37 (literal "\n\rPage Fault Address (CR2): %p\n\r")) :=
      delimited_of_delimitable (fun _ => List.not_mem_nil) (by decide)
    have hconversions : conversions 0 (pieces 37
        (literal "\n\rPage Fault Address (CR2): %p\n\r")) = [(0, 112)] := by
      decide
    rw [if_pos hfault, if_pos (hpage.mp hfault),
      com1Text_append_iff (hdelimited _) (hdelimited _), sameValues_iff,
      hconversions]
    simp [SameValue, numbers, hfault]
  · rw [if_neg hfault, if_neg (mt hpage.mpr hfault)]
    exact iff_of_true rfl fun heq => absurd heq hfault

/-! ## From the exception to the line -/

variable {k : InterruptImage} {c c₂ : Cpu} {v v₂ : ℕ} {code code₂ : UInt64}

theorem toNat_exception (hv : v < 32) : (UInt64.ofNat v).toNat = v :=
  UInt64.toNat_ofNat_of_lt' (Nat.lt_trans hv (by decide))

/-- The report of an exception has its whole context. -/
theorem SameReport.context
    (h : SameReport (contextOf c v code) (contextOf c₂ v₂ code₂))
    (hv : v < 32) (hv₂ : v₂ < 32) (hcode : code.toNat < 2 ^ 32)
    (hcode₂ : code₂.toNat < 2 ^ 32) :
    v = v₂ ∧ contextOf c v code = contextOf c₂ v₂ code₂ := by
  have hlt : (contextOf c v code).intNo < 32 := by
    show UInt64.ofNat v < 32
    rw [UInt64.lt_iff_toNat_lt, toNat_exception hv]
    exact hv
  have hintNo : UInt64.ofNat v = UInt64.ofNat v₂ := h.intNo_eq hlt
  have hsame : v = v₂ := by
    have hnat := congrArg UInt64.toNat hintNo
    rwa [toNat_exception hv, toNat_exception hv₂] at hnat
  have herrCode : code = code₂ := by
    have hlow := congrArg UInt32.toNat h.errCode
    rw [UInt64.toNat_toUInt32, UInt64.toNat_toUInt32] at hlow
    change code.toNat % 2 ^ 32 = code₂.toNat % 2 ^ 32 at hlow
    apply UInt64.toNat_inj.mp
    omega
  have hselector {a b : UInt16}
      (hlow : a.toUInt64.toUInt32 = b.toUInt64.toUInt32) : a = b := by
    have hnat := congrArg UInt32.toNat hlow
    have ha := a.toNat_lt
    have hb := b.toNat_lt
    rw [UInt64.toNat_toUInt32, UInt64.toNat_toUInt32, UInt16.toNat_toUInt64,
      UInt16.toNat_toUInt64] at hnat
    apply UInt16.toNat_inj.mp
    omega
  have hcs : c.cs = c₂.cs := hselector h.cs
  have hss : c.ss = c₂.ss := hselector h.ss
  have hrest := h.rest
  rw [Registers.mk.injEq] at hrest
  refine ⟨hsame, ?_⟩
  subst hsame herrCode
  rw [Registers.mk.injEq]
  obtain ⟨hr15, hr14, hr13, hr12, hr11, hr10, hr9, hr8, hrbp, hrdi, hrsi, hrdx,
    hrcx, hrbx, hrax, -, -, hrip, -, hrflags, hrsp, -⟩ := hrest
  refine ⟨hr15, hr14, hr13, hr12, hr11, hr10, hr9, hr8, hrbp, hrdi, hrsi, hrdx,
    hrcx, hrbx, hrax, rfl, rfl, hrip, ?_, hrflags, hrsp, ?_⟩
  · exact congrArg UInt16.toUInt64 hcs
  · exact congrArg UInt16.toUInt64 hss

/-- An exception for which stub and processor agree on the error code is
reported, whatever of an earlier text has been sent: with driver and port coming
again and again, there is a time when the line carries behind it a text that no
exception in another context is reported with. -/
theorem exception_reported {errorCode : Option UInt64} (h : IdtLoaded k c)
    (hv : v < 32) (hroom : 192 ≤ c.alignedRsp.toNat)
    (hagree : errorCode.isSome ↔ v ∈ isrErrStubs)
    (hcode : (errorCode.getD 0).toNat < 2 ^ 32) (rf : Bool) (cr2 : UInt64)
    (u : Uart) (earlier : List UInt8) (before : ℕ → SerialParty) (m : ℕ)
    {schedule : ℕ → SerialParty} (hdriver : ComesAgain schedule .driver)
    (hport : ComesAgain schedule .port) :
    let line := runFor SerialLine.step before (.start u earlier) m
    line.handed <+: earlier ∧
    ∃ c' n, k.atHandler c v errorCode rf = some c' ∧
      ∀ c₂ v₂ (code₂ cr2' : UInt64), v₂ < 32 → code₂.toNat < 2 ^ 32 →
        ((runFor SerialLine.step schedule (line.turnTo
            (panicText (registersAt c'.mem (c'.gpr .rdi)) cr2)) n).wire =
            (line.handed ++ panicText (contextOf c₂ v₂ code₂) cr2').map
              (fun byte => (com1Settings, byte)) ↔
          v = v₂ ∧ contextOf (c.saved rf) v (errorCode.getD 0) =
              contextOf c₂ v₂ code₂ ∧
            (v = 14 → cr2 = cr2')) := by
  intro line
  have hsending := SerialLine.sending_runFor u earlier before m
  refine ⟨⟨line.pending, hsending.text⟩, ?_⟩
  obtain ⟨c₁, c', -, -, -, -, hcall, -, hat⟩ :=
    @IdtLoaded.atHandler k c v errorCode rf h (by omega) hroom
  have hregisters := hat.registers hagree
  obtain ⟨n, hwire⟩ := (hsending.turnTo
    (panicText (registersAt c'.mem (c'.gpr .rdi)) cr2)).sent hdriver hport
  refine ⟨c', n, hcall, fun c₂ v₂ code₂ cr2' hv₂ hcode₂ => ?_⟩
  have hinj : Function.Injective fun byte : UInt8 => (com1Settings, byte) :=
    fun a b hab => congrArg Prod.snd hab
  have hfault : (contextOf (c.saved rf) v (errorCode.getD 0)).intNo = 14 ↔
      v = 14 := by
    show UInt64.ofNat v = 14 ↔ v = 14
    rw [← UInt64.toNat_inj, toNat_exception hv]
    exact Iff.rfl
  rw [hwire, (List.map_injective_iff.mpr hinj).eq_iff,
    List.append_cancel_left_eq, hregisters, panic_readable, hfault]
  constructor
  · rintro ⟨hreport, hpage⟩
    obtain ⟨hsame, hcontext⟩ := hreport.context hv hv₂ hcode hcode₂
    exact ⟨hsame, hcontext, hpage⟩
  · rintro ⟨-, hcontext, hpage⟩
    rw [← hcontext]
    exact ⟨⟨rfl, rfl, rfl, rfl, rfl, rfl⟩, hpage⟩

/-- A page fault while the second of three bytes is in the port. -/
theorem exception_reported_smallCpu :
    ∃ c' n, smallImage.atHandler (initIdt smallImage smallCpu
        ⟨remapped 0 4 0, remapped 8 2 0⟩).1 14 (some 2) true = some c' ∧
      (runFor SerialLine.step
          (fun n => if n % 2 = 0 then .driver else .port)
          ((runFor SerialLine.step (fun n => if n % 3 = 2 then .port else .driver)
            (.start ⟨0, 0, 0, false, 0, 0, [], [], false⟩ [72, 105, 33])
            5).turnTo (panicText (registersAt c'.mem (c'.gpr .rdi)) 0xFFFF))
          n).wire =
        ([72, 105] ++ panicText (contextOf ((initIdt smallImage smallCpu
          ⟨remapped 0 4 0, remapped 8 2 0⟩).1.saved true) 14 2) 0xFFFF).map
            (fun byte => (com1Settings, byte)) := by
  obtain ⟨-, c', n, hcall, hreported⟩ := @exception_reported smallImage _ 14
    (some 2) (smallCpu_beforeIdt.loaded ⟨remapped 0 4 0, remapped 8 2 0⟩)
    (by decide) (by decide) (by decide) (by decide) true 0xFFFF
    ⟨0, 0, 0, false, 0, 0, [], [], false⟩ [72, 105, 33]
    (fun n => if n % 3 = 2 then .port else .driver) 5
    (fun n => if n % 2 = 0 then .driver else .port)
    (fun n => ⟨2 * n, by omega, if_pos (by omega)⟩)
    (fun n => ⟨2 * n + 1, by omega, if_neg (by omega)⟩)
  exact ⟨c', n, hcall, (hreported _ 14 2 0xFFFF (by decide) (by decide)).mpr
    ⟨rfl, rfl, fun _ => rfl⟩⟩

end Otsos
