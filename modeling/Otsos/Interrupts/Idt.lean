import Otsos.Lib.Traps
import Otsos.Interrupts.Pic

/-!
# The interrupt descriptor table

`idt.c`: the gates, and what `init_idt` loads.  The table lies in `.bss`, so
it is zero before.
-/

namespace Otsos

open Lib Lib.X64

/-- Where the linker put the table, its descriptor and the 48 stubs of
`idt.asm`. -/
structure InterruptImage where
  idt : ℕ
  idtPtr : ℕ
  stub : ℕ → UInt64
  low : idt + 4096 ≤ 2 ^ 64
  apart : idtPtr + 10 ≤ idt ∨ idt + 4096 ≤ idtPtr
  distinct : ∀ n < 48, ∀ m < 48, stub n = stub m → n = m

def kernelCode : ℕ := 0x08

/-- Present, for the highest privilege, an interrupt gate. -/
def gateAttr : ℕ := 0x8E

def idtSetGate (k : InterruptImage) (m : Memory) (n : ℕ) (handler : UInt64) :
    Memory :=
  let entry := k.idt + 16 * n
  let m := m.store entry 2 (handler &&& 0xFFFF).toNat
  let m := m.store (entry + 2) 2 kernelCode
  let m := m.store (entry + 4) 1 0
  let m := m.store (entry + 5) 1 gateAttr
  let m := m.store (entry + 6) 2 ((handler >>> 16) &&& 0xFFFF).toNat
  let m := m.store (entry + 8) 4 ((handler >>> 32) &&& 0xFFFFFFFF).toNat
  m.store (entry + 12) 4 0

/-- The calls of `idt_set_gate` for the gates from `n` on, one for each
stub. -/
def idtSetGates (k : InterruptImage) (m : Memory) (n : ℕ) : ℕ → Memory
  | 0 => m
  | left + 1 => idtSetGates k (idtSetGate k m n (k.stub n)) (n + 1) left

/-- `lidt [rdi]`. -/
def loadIdt (c : Cpu) (ptr : ℕ) : Cpu :=
  { c with idtr := ⟨c.mem.load ptr 2, c.mem.load (ptr + 2) 8⟩ }

def sti (c : Cpu) : Cpu := { c with rflags := c.rflags ||| 0x200 }

def initIdt (k : InterruptImage) (c : Cpu) (s : PicPair) : Cpu × PicPair :=
  let m := c.mem.store k.idtPtr 2 (16 * 256 - 1)
  let m := m.store (k.idtPtr + 2) 8 k.idt
  let s := picRemap s 0x20 0x28
  let m := idtSetGates k m 0 48
  (sti (loadIdt { c with mem := m } k.idtPtr), s)

variable {k : InterruptImage} {m : Memory} {n x : ℕ} {handler : UInt64}

/-! ## One gate -/

theorem idtSetGate_frame (k : InterruptImage) (m : Memory) (n : ℕ)
    (handler : UInt64) :
    Memory.FrameOutside (fun x => k.idt + 16 * n ≤ x ∧ x < k.idt + 16 * n + 16)
      m (idtSetGate k m n handler) := by
  intro x hx
  have hoff (a size v : ℕ) (m : Memory) (hlow : k.idt + 16 * n ≤ a)
      (hhigh : a + size ≤ k.idt + 16 * n + 16) : m.store a size v x = m x :=
    Memory.store_outside m v (by omega)
  unfold idtSetGate
  rw [hoff _ _ _ _ (by omega) (by omega), hoff _ _ _ _ (by omega) (by omega),
    hoff _ _ _ _ (by omega) (by omega), hoff _ _ _ _ (by omega) (by omega),
    hoff _ _ _ _ (by omega) (by omega), hoff _ _ _ _ (by omega) (by omega),
    hoff _ _ _ _ (by omega) (by omega)]

/-- The parts of a handler's address make up the address. -/
theorem handler_parts (handler : UInt64) :
    (handler &&& 0xFFFF).toNat +
        2 ^ 16 * ((handler >>> 16) &&& 0xFFFF).toNat +
        2 ^ 32 * ((handler >>> 32) &&& 0xFFFFFFFF).toNat = handler.toNat := by
  have hlt := handler.toNat_lt
  have hlow : (handler &&& 0xFFFF).toNat = handler.toNat % 2 ^ 16 := by
    rw [UInt64.toNat_and]
    exact Nat.and_two_pow_sub_one_eq_mod _ 16
  have hmid : ((handler >>> 16) &&& 0xFFFF).toNat =
      handler.toNat / 2 ^ 16 % 2 ^ 16 := by
    rw [UInt64.toNat_and, UInt64.toNat_shiftRight]
    exact (Nat.and_two_pow_sub_one_eq_mod _ 16).trans
      (by rw [Nat.shiftRight_eq_div_pow]; rfl)
  have hhigh : ((handler >>> 32) &&& 0xFFFFFFFF).toNat =
      handler.toNat / 2 ^ 32 % 2 ^ 32 := by
    rw [UInt64.toNat_and, UInt64.toNat_shiftRight]
    exact (Nat.and_two_pow_sub_one_eq_mod _ 32).trans
      (by rw [Nat.shiftRight_eq_div_pow]; rfl)
  rw [hlow, hmid, hhigh]
  omega

theorem gateAt_congr {m m' : Memory} {a : ℕ}
    (hsame : ∀ x, a ≤ x → x < a + 16 → m' x = m x) :
    gateAt m' a = gateAt m a := by
  have hload (b size : ℕ) (hlow : a ≤ b) (hhigh : b + size ≤ a + 16) :
      m'.load b size = m.load b size :=
    Memory.load_congr fun i hi => hsame _ (by omega) (by omega)
  unfold gateAt
  rw [hload _ _ (by omega) (by omega), hload _ _ (by omega) (by omega),
    hload _ _ (by omega) (by omega), hload _ _ (by omega) (by omega),
    hload _ _ (by omega) (by omega), hload _ _ (by omega) (by omega)]

theorem gateAt_idtSetGate :
    gateAt (idtSetGate k m n handler) (k.idt + 16 * n) =
      ⟨handler.toNat, kernelCode, 0, gateAttr⟩ := by
  have hlow : (handler &&& 0xFFFF).toNat < 256 ^ 2 := by
    rw [UInt64.toNat_and]
    exact Nat.lt_of_le_of_lt Nat.and_le_right (by decide)
  have hmid : ((handler >>> 16) &&& 0xFFFF).toNat < 256 ^ 2 := by
    rw [UInt64.toNat_and]
    exact Nat.lt_of_le_of_lt Nat.and_le_right (by decide)
  have hhigh : ((handler >>> 32) &&& 0xFFFFFFFF).toNat < 256 ^ 4 := by
    rw [UInt64.toNat_and]
    exact Nat.lt_of_le_of_lt Nat.and_le_right (by decide)
  have hparts := handler_parts handler
  simp (disch := omega) only [gateAt, idtSetGate, Memory.load_store_same,
    Memory.load_store_disjoint, Nat.mod_eq_of_lt hlow, Nat.mod_eq_of_lt hmid,
    Nat.mod_eq_of_lt hhigh, hparts]
  rfl

/-! ## All gates -/

theorem idtSetGates_frame (left : ℕ) :
    Memory.FrameOutside
      (fun x => k.idt + 16 * n ≤ x ∧ x < k.idt + 16 * (n + left)) m
      (idtSetGates k m n left) := by
  induction left generalizing m n with
  | zero => exact Memory.FrameOutside.refl _ _
  | succ left ih =>
      refine ((idtSetGate_frame k m n (k.stub n)).mono fun x hx => ?_).trans
        (ih.mono fun x hx => ?_)
      · omega
      · omega

theorem gateAt_idtSetGates {left v : ℕ} (hn : n ≤ v) (hv : v < n + left) :
    gateAt (idtSetGates k m n left) (k.idt + 16 * v) =
      ⟨(k.stub v).toNat, kernelCode, 0, gateAttr⟩ := by
  induction left generalizing m n with
  | zero => omega
  | succ left ih =>
      by_cases hfirst : n = v
      · subst hfirst
        rw [idtSetGates, ← gateAt_idtSetGate (m := m)]
        refine gateAt_congr fun x hx hlt => idtSetGates_frame left x ?_
        omega
      · exact ih (by omega) (by omega)

/-! ## After `init_idt` -/

/-- The gates: to the stubs, and none behind them. -/
def InterruptImage.gate (k : InterruptImage) (v : ℕ) : Gate :=
  if v < 48 then ⟨(k.stub v).toNat, kernelCode, 0, gateAttr⟩ else ⟨0, 0, 0, 0⟩

/-- The processor uses the table of `init_idt`, and selector 8 is a segment of
64-bit code. -/
structure IdtLoaded (k : InterruptImage) (c : Cpu) : Prop where
  idtr : c.idtr = ⟨4095, k.idt⟩
  gates : ∀ v < 256, gateAt c.mem (k.idt + 16 * v) = k.gate v
  code : codeSelector c.mem c.gdtr kernelCode

/-- What `init_idt` finds: the table is still zero, and the segment descriptor
lies elsewhere. -/
structure BeforeIdt (k : InterruptImage) (c : Cpu) : Prop where
  zero : ∀ x, k.idt ≤ x → x < k.idt + 4096 → c.mem x = 0
  code : codeSelector c.mem c.gdtr kernelCode
  apartTable : c.gdtr.base + 16 ≤ k.idt ∨ k.idt + 4096 ≤ c.gdtr.base + 8
  apartPtr : c.gdtr.base + 16 ≤ k.idtPtr ∨ k.idtPtr + 10 ≤ c.gdtr.base + 8

variable {c : Cpu} {s : PicPair}

theorem gateAt_zero {a : ℕ} (h : ∀ x, a ≤ x → x < a + 16 → m x = 0) :
    gateAt m a = ⟨0, 0, 0, 0⟩ := by
  have hload (b size : ℕ) (hlow : a ≤ b) (hhigh : b + size ≤ a + 16) :
      m.load b size = 0 := by
    have hdigits := Memory.load_of_digits (m := m) (a := b) (n := size)
      (v := 0) fun i hi => by
        rw [h _ (by omega) (by omega), Nat.zero_div]
        rfl
    rw [hdigits, Nat.zero_mod]
  unfold gateAt
  rw [hload _ _ (by omega) (by omega), hload _ _ (by omega) (by omega),
    hload _ _ (by omega) (by omega), hload _ _ (by omega) (by omega),
    hload _ _ (by omega) (by omega), hload _ _ (by omega) (by omega)]
  rfl

theorem codeSelector_congr {m m' : Memory} {gdtr : TableRegister}
    (hsame : ∀ x, gdtr.base + 8 ≤ x → x < gdtr.base + 16 → m' x = m x) :
    codeSelector m' gdtr kernelCode = codeSelector m gdtr kernelCode := by
  have hload : m'.load (gdtr.base + kernelCode / 8 * 8) 8 =
      m.load (gdtr.base + kernelCode / 8 * 8) 8 :=
    Memory.load_congr fun i hi => hsame _
      (by unfold kernelCode; omega) (by unfold kernelCode; omega)
  unfold codeSelector
  rw [hload]

/-- The descriptor of the table. -/
def storeIdtPtr (k : InterruptImage) (m : Memory) : Memory :=
  (m.store k.idtPtr 2 (16 * 256 - 1)).store (k.idtPtr + 2) 8 k.idt

theorem initIdt_mem : (initIdt k c s).1.mem =
    idtSetGates k (storeIdtPtr k c.mem) 0 48 := rfl

theorem initIdt_pics : (initIdt k c s).2 = picRemap s 0x20 0x28 := by
  simp only [initIdt]

theorem storeIdtPtr_frame : Memory.FrameOutside
    (fun x => k.idtPtr ≤ x ∧ x < k.idtPtr + 10) m (storeIdtPtr k m) :=
  Memory.FrameOutside.trans
    (Memory.FrameOutside.store _ fun _ _ _ => ⟨by omega, by omega⟩)
    (Memory.FrameOutside.store _ fun _ _ _ => ⟨by omega, by omega⟩)

/-- Only the first 48 gates and the descriptor of the table are written. -/
theorem initIdt_frame : Memory.FrameOutside
    (fun x => (k.idtPtr ≤ x ∧ x < k.idtPtr + 10) ∨
      (k.idt ≤ x ∧ x < k.idt + 16 * 48)) c.mem (initIdt k c s).1.mem := by
  rw [initIdt_mem]
  refine (storeIdtPtr_frame.mono fun x hx => Or.inl hx).trans
    ((idtSetGates_frame 48).mono fun x hx => Or.inr ?_)
  omega

theorem BeforeIdt.loaded (h : BeforeIdt k c) (s : PicPair) :
    IdtLoaded k (initIdt k c s).1 := by
  have hapart := k.apart
  have hlow := k.low
  constructor
  · have hptr (b size : ℕ) (hfirst : k.idtPtr ≤ b)
        (hlast : b + size ≤ k.idtPtr + 10) :
        (idtSetGates k (storeIdtPtr k c.mem) 0 48).load b size =
          (storeIdtPtr k c.mem).load b size :=
      Memory.load_congr fun i hi => idtSetGates_frame 48 _ (by omega)
    have hlimit : (storeIdtPtr k c.mem).load k.idtPtr 2 = 4095 := by
      rw [storeIdtPtr, Memory.load_store_disjoint _ _ (Or.inl (by omega)),
        Memory.load_store_same]
      rfl
    have hbase : (storeIdtPtr k c.mem).load (k.idtPtr + 2) 8 = k.idt := by
      rw [storeIdtPtr, Memory.load_store_same, Nat.mod_eq_of_lt (by omega)]
    show TableRegister.mk
        ((idtSetGates k (storeIdtPtr k c.mem) 0 48).load k.idtPtr 2)
        ((idtSetGates k (storeIdtPtr k c.mem) 0 48).load (k.idtPtr + 2) 8) = _
    rw [hptr _ _ (by omega) (by omega), hptr _ _ (by omega) (by omega), hlimit,
      hbase]
  · intro v hv
    rw [initIdt_mem, InterruptImage.gate]
    by_cases hstub : v < 48
    · rw [if_pos hstub]
      exact gateAt_idtSetGates (by omega) (by omega)
    · rw [if_neg hstub]
      refine gateAt_zero fun x hx hlt => ?_
      rw [idtSetGates_frame 48 x (by omega), storeIdtPtr_frame x (by omega)]
      exact h.zero x (by omega) (by omega)
  · have htable := h.apartTable
    have hptr := h.apartPtr
    have hcode : codeSelector (initIdt k c s).1.mem c.gdtr kernelCode =
        codeSelector c.mem c.gdtr kernelCode :=
      codeSelector_congr fun x hx hlt => initIdt_frame x (by omega)
    show codeSelector (initIdt k c s).1.mem c.gdtr kernelCode
    rw [hcode]
    exact h.code

/-! ## Vectors -/

namespace IdtLoaded

variable {v : ℕ} {errorCode : Option UInt64} {rf : Bool}

theorem gate_eq (h : IdtLoaded k c) (hv : v < 256) :
    gateAt c.mem (c.idtr.base + 16 * v) = k.gate v := by
  rw [h.idtr]
  exact h.gates v hv

/-- Only the tables and their registers count. -/
theorem congr {c' : Cpu} (h : IdtLoaded k c) (hidtr : c'.idtr = c.idtr)
    (hgdtr : c'.gdtr = c.gdtr)
    (htable : ∀ x, k.idt ≤ x → x < k.idt + 4096 → c'.mem x = c.mem x)
    (hdescriptor : ∀ x, c.gdtr.base + 8 ≤ x → x < c.gdtr.base + 16 →
      c'.mem x = c.mem x) : IdtLoaded k c' := by
  refine ⟨hidtr.trans h.idtr, ?_, ?_⟩
  · intro v hv
    rw [gateAt_congr fun x hx hlt => htable x (by omega) (by omega)]
    exact h.gates v hv
  · rw [hgdtr, codeSelector_congr hdescriptor]
    exact h.code

theorem deliver_stub (h : IdtLoaded k c) (hv : v < 48)
    (hroom : 48 ≤ c.alignedRsp.toNat) :
    ∃ c', c.deliver v errorCode rf = some c' ∧ c'.rip = k.stub v ∧
      c'.rflags &&& 0x200 = 0 ∧ (c.saved rf).Entered errorCode c' := by
  have hgate := h.gate_eq (v := v) (by omega)
  rw [InterruptImage.gate, if_pos hv] at hgate
  have hlimit : 16 * v + 15 ≤ c.idtr.limit := by
    rw [h.idtr]
    show 16 * v + 15 ≤ 4095
    omega
  have hpresent : Nat.testBit 0x8E 7 = true := by decide
  have husable :
      Gate.usable ⟨(k.stub v).toNat, kernelCode, 0, gateAttr⟩ := by
    simp [Gate.usable, Gate.present, hpresent, Gate.isInterrupt, gateAttr]
  obtain ⟨c', hdeliver, hrip, hrflags, hentered⟩ :=
    @Cpu.deliver_enters c v errorCode rf _ hgate hlimit husable h.code hroom
  rw [UInt64.ofNat_toNat] at hrip
  have hclosed : c.rflags &&& ~~~0x34300 &&& 0x200 = 0 := by
    rw [UInt64.and_assoc, show ~~~(0x34300 : UInt64) &&& 0x200 = 0 by decide,
      UInt64.and_zero]
  have hinterrupt :
      Gate.isInterrupt ⟨(k.stub v).toNat, kernelCode, 0, gateAttr⟩ = true := by
    simp [Gate.isInterrupt, gateAttr]
  refine ⟨c', hdeliver, hrip, ?_, hentered⟩
  rw [hrflags, Cpu.entryFlags, hinterrupt]
  exact hclosed

/-- Behind the stubs there is no gate, and behind the table no entry. -/
theorem deliver_none (h : IdtLoaded k c) (hv : 48 ≤ v) :
    c.deliver v errorCode rf = none := by
  unfold Cpu.deliver
  by_cases hin : v < 256
  · have hgate := h.gate_eq hin
    rw [InterruptImage.gate, if_neg (by omega)] at hgate
    rw [hgate]
    simp [Gate.usable, Gate.present]
  · have hlimit : ¬ 16 * v + 15 ≤ c.idtr.limit := by
      rw [h.idtr]
      show ¬ 16 * v + 15 ≤ 4095
      omega
    simp [hlimit]

end IdtLoaded

/-- After `init_idt` the vectors of the stubs come to their own stub, with
interrupts disabled, and no other vector is delivered. -/
theorem initIdt_delivers {v : ℕ} (h : BeforeIdt k c)
    (hroom : 48 ≤ c.alignedRsp.toNat) (s : PicPair)
    (errorCode : Option UInt64) (rf : Bool) :
    (v < 48 → ∃ c', (initIdt k c s).1.deliver v errorCode rf = some c' ∧
        c'.rip = k.stub v ∧ c'.rflags &&& 0x200 = 0) ∧
      (48 ≤ v → (initIdt k c s).1.deliver v errorCode rf = none) := by
  have hloaded := h.loaded s
  refine ⟨fun hv => ?_, hloaded.deliver_none⟩
  obtain ⟨c', hdeliver, hrip, hmasked, -⟩ :=
    @IdtLoaded.deliver_stub k _ v errorCode rf hloaded hv hroom
  exact ⟨c', hdeliver, hrip, hmasked⟩

/-! ## A small machine -/

def smallImage : InterruptImage where
  idt := 0x1000
  idtPtr := 0x2000
  stub := fun v => UInt64.ofNat (0x10000 + 16 * v)
  low := by decide
  apart := by decide
  distinct := by decide

/-- A descriptor of 64-bit code lies at `0x3008`. -/
def smallCpu : Cpu where
  gpr := fun _ => 0
  rsp := 0x8000
  rip := 0x10000
  rflags := 2
  cs := 8
  ss := 0
  gdtr := ⟨15, 0x3000⟩
  idtr := ⟨0, 0⟩
  mem := fun x => if x = 0x300D then 0x98 else if x = 0x300E then 0x20 else 0

theorem smallCpu_beforeIdt : BeforeIdt smallImage smallCpu where
  zero := by
    intro x _ hhigh
    have htable : x < 0x1000 + 4096 := hhigh
    have hfirst : x ≠ 0x300D := by omega
    have hsecond : x ≠ 0x300E := by omega
    simp [smallCpu, hfirst, hsecond]
  code := by decide +kernel
  apartTable := by decide
  apartPtr := by decide

/-- The keyboard's vector is delivered, the vector of `int 0x80` is not. -/
theorem initIdt_delivers_smallCpu :
    (∃ c', (initIdt smallImage smallCpu ⟨remapped 0 4 0,
        remapped 8 2 0⟩).1.deliver 33 none false = some c' ∧
        c'.rip = smallImage.stub 33 ∧ c'.rflags &&& 0x200 = 0) ∧
      (initIdt smallImage smallCpu ⟨remapped 0 4 0,
        remapped 8 2 0⟩).1.deliver 0x80 none false = none :=
  ⟨(initIdt_delivers smallCpu_beforeIdt (by decide) _ none false).1
      (by decide),
    (initIdt_delivers smallCpu_beforeIdt (by decide) _ none false).2
      (by decide)⟩

end Otsos
