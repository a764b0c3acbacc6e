import Otsos.Boot.Start

/-!
# What the kernel finds

If the processor has 64-bit mode the start ends in `kmain`, with the first two
megabytes mapped to themselves and interrupts off.  If not it halts with one of
two texts on the screen.
-/

namespace Otsos

open Lib Lib.X64

/-- What the loader leaves: paging is off, `.bss` is zero and the descriptors of
`gdt64` are in place. -/
structure Loaded (k : BootImage) (c : Cpu32) : Prop where
  unpaged : c.cr0 &&& 0x80000000 = 0
  levels : c.cr4 &&& 0x1000 = 0
  bss : ∀ x, k.p4Table ≤ x → x < k.stackTop → c.mem x = 0
  code : c.mem.load (k.gdt64 + BootImage.codeOffset) 8 =
    2 ^ 43 + 2 ^ 44 + 2 ^ 47 + 2 ^ 53
  limit : c.mem.load k.pointer 2 = 15
  base : c.mem.load (k.pointer + 2) 8 = k.gdt64

/-- The state of `kmain`, the memory and the tables; before, the memory
was `m`. -/
structure KernelReady (k : BootImage) (m : Memory) (c : Cpu) (mem : Memory)
    (cr3 : ℕ) : Prop where
  identity : ∀ a, translate mem cr3 a =
    if a < 2 ^ 21 then some ⟨a, true⟩ else none
  view : c.mem = linear mem cr3
  kept : Memory.FrameOutside (fun x => k.p4Table ≤ x ∧ x < k.stackTop) m mem
  rip : c.rip = k.kmain
  rsp : c.rsp.toNat + 8 = k.stackTop
  returns : c.top = k.afterCall
  masked : c.rflags &&& 0x200 = 0
  segments : c.cs = UInt16.ofNat kernelCode ∧ c.ss = 0
  gdtr : c.gdtr = ⟨15, k.gdt64⟩
  code : codeSelector c.mem c.gdtr kernelCode

/-! ## The tests -/

/-- Only registers and the stack have changed, and interrupts are off. -/
structure Tested (k : BootImage) (c c' : Cpu32) : Prop where
  esp : c'.esp = c.esp
  cr4 : c'.cr4 = c.cr4
  masked : c'.eflags &&& 0x200 = 0
  frame : Memory.FrameOutside (fun x => k.stackBottom ≤ x ∧ x < k.stackTop)
    c.mem c'.mem

variable {p : Processor} {k : BootImage} {c c' c'' : Cpu32}

theorem Tested.trans (h : Tested k c c') (h' : Tested k c' c'') :
    Tested k c c'' :=
  ⟨h'.esp.trans h.esp, h'.cr4.trans h.cr4, h'.masked, h.frame.trans h'.frame⟩

theorem stackTop_eq (k : BootImage) : k.stackTop = k.p4Table + 28672 := by
  unfold BootImage.stackTop BootImage.stackBottom
  omega

theorem stack_order (k : BootImage) :
    k.p4Table ≤ k.stackBottom ∧ k.stackBottom ≤ k.stackTop := by
  unfold BootImage.stackTop BootImage.stackBottom
  omega

theorem push_stack (hesp : c.esp.toNat = k.stackTop) (v : UInt32) :
    Memory.FrameOutside (fun x => k.stackBottom ≤ x ∧ x < k.stackTop)
      c.mem (c.push v).mem := by
  have htop := stackTop_eq k
  refine (Cpu32.push_frame (by omega)).mono fun x hx => ?_
  simp only [BootImage.stackBottom]
  omega

theorem checkCpuid_iff (c : Cpu32) :
    (checkCpuid p c).1 ↔ p.flags &&& idFlag ≠ 0 := by
  rw [ne_eq, ← Cpu32.idFlag_toggled_iff c.eflags p.flags]
  simp only [checkCpuid, Cpu32.pushfd, Cpu32.popfd, Cpu32.top_push,
    decide_eq_true_eq]
  rfl

theorem push_drop_tested (hesp : c.esp.toNat = k.stackTop)
    (hmasked : c.eflags &&& 0x200 = 0) (v : UInt32) :
    Tested k c (c.push v).drop :=
  ⟨Cpu32.esp_push_drop c v, rfl, hmasked, push_stack hesp v⟩

theorem push_popfd_tested (hesp : c.esp.toNat = k.stackTop)
    (hmasked : c.eflags &&& 0x200 = 0) {v : UInt32} (hv : v &&& 0x200 = 0) :
    Tested k c ((c.push v).popfd p) := by
  refine ⟨Cpu32.esp_push_drop c v, rfl, Cpu32.popfd_masked hmasked ?_,
    push_stack hesp v⟩
  rw [Cpu32.top_push]
  exact hv

theorem checkCpuid_tested (hesp : c.esp.toNat = k.stackTop)
    (hmasked : c.eflags &&& 0x200 = 0) : Tested k c (checkCpuid p c).2 := by
  have hshown : c.pushfd.top = c.eflags &&& shownFlags := Cpu32.top_push _ _
  obtain ⟨c₁, hc₁⟩ : ∃ c₁ : Cpu32, { c.pushfd.drop with
      eax := c.pushfd.top ^^^ idFlag, ecx := c.pushfd.top } = c₁ := ⟨_, rfl⟩
  have hfirst : Tested k c c₁ := by
    have hdrop : Tested k c c.pushfd.drop := push_drop_tested hesp hmasked _
    rw [← hc₁]
    exact ⟨hdrop.esp, hdrop.cr4, hdrop.masked, hdrop.frame⟩
  have heax : c₁.eax &&& 0x200 = 0 := by
    rw [← hc₁, hshown]
    exact Cpu32.toggled_masked hmasked
  have hecx : c₁.ecx &&& 0x200 = 0 := by
    rw [← hc₁, hshown]
    exact Cpu32.shown_masked hmasked
  obtain ⟨c₂, hc₂⟩ : ∃ c₂ : Cpu32, (c₁.push c₁.eax).popfd p = c₂ := ⟨_, rfl⟩
  have hsecond : Tested k c c₂ := by
    rw [← hc₂]
    exact hfirst.trans (push_popfd_tested (by rw [hfirst.esp, hesp])
      hfirst.masked heax)
  have hesp₂ : c₂.esp.toNat = k.stackTop := by rw [hsecond.esp, hesp]
  have hkept : c₂.ecx = c₁.ecx := by rw [← hc₂]; rfl
  obtain ⟨c₃, hc₃⟩ : ∃ c₃ : Cpu32,
      { c₂.pushfd.drop with eax := c₂.pushfd.top } = c₃ := ⟨_, rfl⟩
  have hthird : Tested k c c₃ := by
    have hdrop : Tested k c₂ c₂.pushfd.drop :=
      push_drop_tested hesp₂ hsecond.masked _
    rw [← hc₃]
    exact hsecond.trans ⟨hdrop.esp, hdrop.cr4, hdrop.masked, hdrop.frame⟩
  have hlast : (checkCpuid p c).2 = (c₃.push c₃.ecx).popfd p := by
    rw [← hc₃, ← hc₂, ← hc₁]
    rfl
  have hecx₃ : c₃.ecx &&& 0x200 = 0 := by
    rw [← hc₃]
    exact hkept ▸ hecx
  rw [hlast]
  exact hthird.trans (push_popfd_tested (by rw [hthird.esp, hesp])
    hthird.masked hecx₃)

theorem checkLongMode_tested (hmasked : c.eflags &&& 0x200 = 0) :
    Tested k c (checkLongMode p c).2 := by
  dsimp only [checkLongMode]
  split
  · exact ⟨rfl, rfl, hmasked, fun _ _ => rfl⟩
  · exact ⟨rfl, rfl, hmasked, fun _ _ => rfl⟩

theorem checkLongMode_iff (c : Cpu32) : (checkLongMode p c).1 ↔
    0x80000001 ≤ (p.cpuid 0x80000000).eax ∧
      (p.cpuid 0x80000001).edx &&& 0x20000000 ≠ 0 := by
  unfold checkLongMode
  by_cases hleaf : (p.cpuid 0x80000000).eax < 0x80000001
  · have hnot : ¬ 0x80000001 ≤ (p.cpuid 0x80000000).eax :=
      UInt32.not_le.mpr hleaf
    simp [Cpu32.runCpuid, hleaf, hnot]
  · have hle : 0x80000001 ≤ (p.cpuid 0x80000000).eax := UInt32.not_lt.mp hleaf
    simp only [Cpu32.runCpuid, hleaf, hle, if_false, true_and]
    exact decide_eq_true_iff

/-! ## The tables -/

theorem setupTables_mem (k : BootImage) (c : Cpu32) : (setupTables k c).mem =
    ((c.mem.store k.p4Table 4 (UInt32.ofNat k.p3Table ||| 3).toNat).store
      k.p3Table 4 (UInt32.ofNat k.p2Table ||| 3).toNat).store k.p2Table 4 0x83 :=
  rfl

theorem pointsTo_table {table : ℕ} (haligned : table % 4096 = 0)
    (hlow : table < 2 ^ 21) :
    PointsTo (UInt32.ofNat table ||| 3).toNat table := by
  have hself : (UInt32.ofNat table).toNat = table :=
    UInt32.toNat_ofNat_of_lt' (Nat.lt_trans hlow (by decide))
  rw [UInt32.toNat_or, hself]
  exact pointsTo_three haligned (by omega)

theorem setupTables_firstPage
    (hzero : ∀ x, k.p4Table ≤ x → x < k.stackBottom → c.mem x = 0) :
    FirstPage (setupTables k c).mem k.p4Table k.p3Table k.p2Table := by
  have haligned := k.aligned
  have hlast := k.last
  simp only [BootImage.stackBottom] at hzero
  rw [setupTables_mem]
  simp only [BootImage.p3Table, BootImage.p2Table]
  refine ⟨⟨_, ?_, pointsTo_table (by omega) (by omega)⟩,
    ⟨_, ?_, pointsTo_table (by omega) (by omega)⟩, ?_⟩
  · have hone := OneEntry.of_store (fun x hx hlt => hzero x hx (by omega))
      (UInt32.ofNat (k.p4Table + 4096) ||| 3).toNat_lt
    refine hone.congr fun x hx hlt => ?_
    rw [Memory.store_outside _ _ (by omega), Memory.store_outside _ _ (by omega)]
  · refine (OneEntry.of_store (fun x hx hlt => ?_)
      (UInt32.ofNat (k.p4Table + 8192) ||| 3).toNat_lt).congr
      fun x hx hlt => Memory.store_outside _ _ (by omega)
    rw [Memory.store_outside _ _ (by omega)]
    exact hzero x (by omega) (by omega)
  · refine OneEntry.of_store (fun x hx hlt => ?_) (by decide)
    rw [Memory.store_outside _ _ (by omega), Memory.store_outside _ _ (by omega)]
    exact hzero x (by omega) (by omega)

theorem setupTables_frame : Memory.FrameOutside
    (fun x => k.p4Table ≤ x ∧ x < k.stackBottom) c.mem
    (setupTables k c).mem := by
  rw [setupTables_mem]
  simp only [BootImage.p3Table, BootImage.p2Table, BootImage.stackBottom]
  refine ((Memory.FrameOutside.store _ fun x hx hlt => ?_).trans
    (Memory.FrameOutside.store _ fun x hx hlt => ?_)).trans
    (Memory.FrameOutside.store _ fun x hx hlt => ?_)
  · exact ⟨hx, by omega⟩
  · exact ⟨by omega, by omega⟩
  · exact ⟨by omega, by omega⟩

/-! ## Turning paging on -/

theorem enablePaging_some (k : BootImage) (hlevels : c.cr4 &&& 0x1000 = 0) :
    ∃ c', enablePaging k c = some c' ∧ c'.longMode ∧
      c'.cr3 = UInt32.ofNat k.p4Table ∧ c'.mem = c.mem ∧ c'.esp = c.esp ∧
      c'.eflags = c.eflags := by
  obtain ⟨c₁, hc₁⟩ : ∃ c₁ : Cpu32, Cpu32.rdmsr
      { c with cr4 := c.cr4 ||| 0x20, ecx := eferNumber } = c₁ := ⟨_, rfl⟩
  have hecx : c₁.ecx = eferNumber := by rw [← hc₁]; rfl
  obtain ⟨c₂, hc₂⟩ : ∃ c₂ : Cpu32,
      Cpu32.wrmsr { c₁ with eax := c₁.eax ||| 0x100 } = c₂ := ⟨_, rfl⟩
  have hefer : c₂.efer &&& 0x100 ≠ 0 := by
    rw [← hc₂, ← hc₁]
    exact @Cpu32.wrmsr_rdmsr
      { c with cr4 := c.cr4 ||| 0x20, ecx := eferNumber } rfl
  have hcr4 : c₂.cr4 = c.cr4 ||| 0x20 := by
    rw [← hc₂, ← hc₁]
    rfl
  have hpae : c₂.cr4 &&& 0x20 ≠ 0 := by
    rw [hcr4]
    exact Cpu32.setBit32_ne_zero (by decide)
  have hlevels₂ : c₂.cr4 &&& 0x1000 = 0 := by
    rw [hcr4]
    exact Cpu32.clearBit_or hlevels (by decide)
  have hkept : c₂.mem = c.mem ∧ c₂.esp = c.esp ∧ c₂.eflags = c.eflags := by
    rw [← hc₂, ← hc₁]
    exact ⟨rfl, rfl, rfl⟩
  have hpaging := @Cpu32.setBit32_ne_zero c₂.cr0 0x80000000 (by decide)
  obtain ⟨c', hload, hlong, hcr3, hmem, hesp, heflags⟩ :=
    @Cpu32.loadCr0_longMode
      { c₂ with cr3 := UInt32.ofNat k.p4Table, eax := c₂.cr0 ||| 0x80000000 }
      _ hpaging hefer hpae hlevels₂
  refine ⟨c', ?_, hlong, hcr3, hmem.trans hkept.1, hesp.trans hkept.2.1,
    heflags.trans hkept.2.2⟩
  rw [← hload, ← hc₂, ← hc₁]
  rfl

/-! ## The jump -/

/-- Paging is on, with the tables and the descriptors in place. -/
structure Paged (k : BootImage) (c : Cpu32) : Prop where
  tables : FirstPage c.mem k.p4Table k.p3Table k.p2Table
  cr3 : frame c.cr3.toNat 12 = k.p4Table
  long : c.longMode
  esp : c.esp.toNat = k.stackTop
  masked : c.eflags &&& 0x200 = 0
  code : c.mem.load (k.gdt64 + BootImage.codeOffset) 8 =
    2 ^ 43 + 2 ^ 44 + 2 ^ 47 + 2 ^ 53
  limit : c.mem.load k.pointer 2 = 15
  base : c.mem.load (k.pointer + 2) 8 = k.gdt64

namespace Paged

theorem lgdt_eq (h : Paged k c) :
    c.lgdt k.pointer = some { c with gdtr := ⟨15, k.gdt64⟩ } := by
  have horder := k.order
  have hlast := k.last
  have hroom : k.pointer + 6 ≤ 2 ^ 21 := by
    unfold BootImage.pointer
    omega
  have hbase : c.mem.load (k.pointer + 2) 4 = k.gdt64 := by
    rw [Memory.load_prefix _ (show 4 ≤ 8 by omega), h.base,
      Nat.mod_eq_of_lt (by omega)]
  rw [Cpu32.lgdt, if_pos ((h.tables.mapped_iff h.cr3).mpr (Or.inr hroom))]
  simp only [h.tables.linear_load h.cr3 (show k.pointer + 2 ≤ 2 ^ 21 by omega),
    h.tables.linear_load h.cr3 (show k.pointer + 2 + 4 ≤ 2 ^ 21 by omega),
    h.limit, hbase]

theorem code_linear (h : Paged k c) :
    codeSelector (linear c.mem c.cr3.toNat) ⟨15, k.gdt64⟩ kernelCode := by
  have horder := k.order
  have hlast := k.last
  have hload : (linear c.mem c.cr3.toNat).load
      (k.gdt64 + kernelCode / 8 * 8) 8 = 2 ^ 43 + 2 ^ 44 + 2 ^ 47 + 2 ^ 53 := by
    rw [← h.code]
    exact h.tables.linear_load h.cr3 (by unfold kernelCode; omega)
  have hall : (decide (8 ≤ kernelCode) && !kernelCode.testBit 2 &&
      decide (kernelCode / 8 * 8 + 7 ≤ 15) &&
      isCode64 (2 ^ 43 + 2 ^ 44 + 2 ^ 47 + 2 ^ 53)) = true := by decide +kernel
  rw [codeSelector, hload]
  exact hall

/-- The state at `init_64`. -/
def jumped (p : Processor) (k : BootImage) (c : Cpu32) : Cpu where
  gpr := p.gpr
  rsp := c.esp.toUInt64
  rip := UInt64.ofNat k.init64
  rflags := c.eflags.toUInt64
  cs := UInt16.ofNat BootImage.codeOffset
  ss := c.ss
  gdtr := ⟨15, k.gdt64⟩
  idtr := c.idtr
  mem := linear c.mem c.cr3.toNat

theorem longJump_eq (h : Paged k c) (p : Processor) :
    Cpu32.longJump p { c with gdtr := ⟨15, k.gdt64⟩ } BootImage.codeOffset
      (UInt64.ofNat k.init64) = some (jumped p k c) := by
  have horder := k.order
  have hlast := k.last
  have htarget : (UInt64.ofNat k.init64).toNat = k.init64 :=
    UInt64.toNat_ofNat_of_lt' (Nat.lt_trans (show k.init64 < 2 ^ 21 by omega)
      (by decide))
  have hdescriptor :
      k.gdt64 + BootImage.codeOffset / 8 * 8 + 8 ≤ 2 ^ 21 := by
    unfold BootImage.codeOffset
    omega
  rw [Cpu32.longJump, if_pos]
  · rfl
  · refine ⟨h.long, (h.tables.mapped_iff h.cr3).mpr (Or.inr hdescriptor),
      h.code_linear, (h.tables.mapped_iff h.cr3).mpr (Or.inr ?_)⟩
    rw [htarget]
    omega

theorem handover (h : Paged k c) (p : Processor) {m : Memory}
    (hkept : Memory.FrameOutside
      (fun x => k.p4Table ≤ x ∧ x < k.stackTop) m c.mem) :
    ∃ cpu mem, init64 k (jumped p k c) c.mem c.cr3.toNat =
        .kmain cpu mem c.cr3.toNat ∧
      KernelReady k m cpu mem c.cr3.toNat := by
  have horder := k.order
  have hlast := k.last
  have htop := stackTop_eq k
  obtain ⟨cpu, hcpu⟩ : ∃ cpu : Cpu, { jumped p k c with ss := 0 } = cpu :=
    ⟨_, rfl⟩
  have hrsp : cpu.rsp.toNat = k.stackTop := by
    rw [← hcpu, ← h.esp]
    exact UInt32.toNat_toUInt64 _
  have hsub : (cpu.rsp - 8).toNat = k.stackTop - 8 := by
    rw [Cpu.toNat_sub_eight (by omega), hrsp]
  have hempty : cpu.Holds k.stackTop [] := ⟨trivial, hrsp⟩
  have hcpuMem : cpu.mem = linear c.mem c.cr3.toNat := by rw [← hcpu]; rfl
  have hgdtr : cpu.gdtr = ⟨15, k.gdt64⟩ := by rw [← hcpu]; rfl
  obtain ⟨mem, hmem⟩ : ∃ mem, c.mem.store (cpu.rsp - 8).toNat 8
      k.afterCall.toNat = mem := ⟨_, rfl⟩
  have hroom : (cpu.rsp - 8).toNat + 8 ≤ 2 ^ 21 := by omega
  have hoff : ∀ x, x < k.stackBottom → mem x = c.mem x := by
    intro x hx
    rw [← hmem]
    exact Memory.store_outside _ _
      (by simp only [BootImage.stackBottom] at hx; omega)
  have htables : FirstPage mem k.p4Table k.p3Table k.p2Table := by
    refine h.tables.congr fun x hx => hoff x ?_
    simp only [BootImage.p3Table, BootImage.p2Table,
      BootImage.stackBottom] at hx ⊢
    omega
  have hview : linear mem c.cr3.toNat = (linear c.mem c.cr3.toNat).store
      (cpu.rsp - 8).toNat 8 k.afterCall.toNat := by
    rw [← hmem] at htables ⊢
    exact h.tables.linear_store htables h.cr3 hroom
  refine ⟨{ cpu.push k.afterCall with rip := k.kmain }, mem, ?_, ?_⟩
  · have hstore := h.tables.storeLinear_eq
      (v := k.afterCall.toNat) h.cr3 hroom
    rw [hmem, ← hcpu] at hstore
    simp only [init64, hstore]
    rw [hcpu]
  · constructor
    · exact htables.translate_eq h.cr3
    · show cpu.mem.store (cpu.rsp - 8).toNat 8 k.afterCall.toNat = _
      rw [hcpuMem, hview]
    · rw [← hmem]
      refine hkept.trans (Memory.FrameOutside.store _ fun x hx hlt => ?_)
      omega
    · rfl
    · show (cpu.rsp - 8).toNat + 8 = k.stackTop
      omega
    · exact (hempty.push (v := k.afterCall) (by rw [hrsp]; omega)).top
    · have hmasked := congrArg UInt32.toUInt64 h.masked
      rw [UInt32.toUInt64_and] at hmasked
      show cpu.rflags &&& 0x200 = 0
      rw [← hcpu]
      exact hmasked
    · rw [← hcpu]
      exact ⟨rfl, rfl⟩
    · exact hgdtr
    · have hcode := h.code_linear
      rw [← hcpuMem, ← hgdtr] at hcode
      refine (codeSelector_congr fun x hx hlt => ?_).trans hcode
      refine Memory.store_outside _ _ (Or.inl ?_)
      rw [show ({ cpu.push k.afterCall with rip := k.kmain } : Cpu).gdtr =
        ⟨15, k.gdt64⟩ from hgdtr] at hlt
      have hend : x < k.gdt64 + 16 := hlt
      omega

end Paged

/-! ## From the loader to the kernel -/

theorem toNat_started (k : BootImage) (c : Cpu32) :
    (started k c).esp.toNat = k.stackTop := by
  have htop := stackTop_eq k
  have hlast := k.last
  exact UInt32.toNat_ofNat_of_lt'
    (Nat.lt_of_le_of_lt (show k.stackTop ≤ 2 ^ 21 by omega) (by decide))

theorem started_cr4 (k : BootImage) (c : Cpu32) : (started k c).cr4 = c.cr4 := by
  simp only [started, Cpu32.cli]

theorem started_mem (k : BootImage) (c : Cpu32) : (started k c).mem = c.mem := by
  simp only [started, Cpu32.cli]

theorem Loaded.paged (h : Loaded k c) (htested : Tested k (started k c) c') :
    ∃ c'', enablePaging k (setupTables k c') = some c'' ∧ Paged k c'' ∧
      Memory.FrameOutside (fun x => k.p4Table ≤ x ∧ x < k.stackTop) c.mem
        c''.mem := by
  have horder := k.order
  have hlast := k.last
  have hcr4 : (setupTables k c').cr4 &&& 0x1000 = 0 := by
    show c'.cr4 &&& 0x1000 = 0
    rw [htested.cr4, started_cr4]
    exact h.levels
  obtain ⟨c'', henable, hlong, hcr3, hmem, hesp, heflags⟩ :=
    enablePaging_some k hcr4
  have hstack := htested.frame
  rw [started_mem] at hstack
  have hframe : Memory.FrameOutside
      (fun x => k.p4Table ≤ x ∧ x < k.stackTop) c.mem c''.mem := by
    rw [hmem]
    refine (hstack.mono fun x hx => ?_).trans
      (setupTables_frame.mono fun x hx => ?_)
    · exact ⟨(stack_order k).1.trans hx.1, hx.2⟩
    · exact ⟨hx.1, hx.2.trans_le (stack_order k).2⟩
  have hload (a n : ℕ) (hend : a + n ≤ k.p4Table) :
      c''.mem.load a n = c.mem.load a n :=
    Memory.load_congr fun i hi => hframe _ (by omega)
  refine ⟨c'', henable, ?_, hframe⟩
  constructor
  · rw [hmem]
    refine setupTables_firstPage fun x hx hlt => ?_
    rw [hstack x fun hin => absurd hlt (Nat.not_lt.mpr hin.1)]
    exact h.bss x hx (hlt.trans_le (stack_order k).2)
  · have hself : (UInt32.ofNat k.p4Table).toNat = k.p4Table :=
      UInt32.toNat_ofNat_of_lt'
        (Nat.lt_trans (show k.p4Table < 2 ^ 21 by omega) (by decide))
    have haligned := k.aligned
    rw [hcr3, hself, frame]
    omega
  · exact hlong
  · rw [hesp]
    show c'.esp.toNat = k.stackTop
    rw [htested.esp]
    exact toNat_started k c
  · rw [heflags]
    exact htested.masked
  · rw [hload _ _ (by unfold BootImage.codeOffset; omega)]
    exact h.code
  · rw [hload _ _ (by unfold BootImage.pointer; omega)]
    exact h.limit
  · rw [hload _ _ (by unfold BootImage.pointer; omega)]
    exact h.base

theorem start_kmain (h : Loaded k c) (hhas : p.has64) :
    ∃ cpu mem cr3, start p k c = .kmain cpu mem cr3 ∧
      KernelReady k c.mem cpu mem cr3 := by
  obtain ⟨hflag, hleaf, hbit⟩ := hhas
  have hmasked : (started k c).eflags &&& 0x200 = 0 := Cpu32.cli_masked c
  have hcpuid := checkCpuid_tested (p := p) (toNat_started k c) hmasked
  obtain ⟨c₁, hc₁⟩ : ∃ c₁, checkCpuid p (started k c) = (true, c₁) :=
    ⟨_, Prod.ext ((checkCpuid_iff _).mpr hflag) rfl⟩
  rw [hc₁] at hcpuid
  have hmode := checkLongMode_tested (p := p) (k := k) hcpuid.masked
  obtain ⟨c₂, hc₂⟩ : ∃ c₂, checkLongMode p c₁ = (true, c₂) :=
    ⟨_, Prod.ext ((checkLongMode_iff _).mpr ⟨hleaf, hbit⟩) rfl⟩
  rw [hc₂] at hmode
  obtain ⟨c₃, henable, hpaged, hframe⟩ := h.paged (hcpuid.trans hmode)
  obtain ⟨cpu, mem, hinit, hready⟩ := hpaged.handover p hframe
  refine ⟨cpu, mem, _, ?_, hready⟩
  simp only [start, hc₁, hc₂, enterLongMode, henable, Option.bind_some,
    hpaged.lgdt_eq, hpaged.longJump_eq, hinit]

/-- The characters in the upper left corner of the screen. -/
def corner (m : Memory) : List Char :=
  [Char.ofNat (m 0xb8000).toNat, Char.ofNat (m 0xb8002).toNat]

theorem corner_store (m : Memory) (v : ℕ) :
    corner (m.store 0xb8000 4 v) = [Char.ofNat (UInt8.ofNat v).toNat,
      Char.ofNat (UInt8.ofNat (v / 256 ^ 2)).toNat] := by
  have hfirst := @Memory.store_inside m 0xb8000 4 0 v (by omega)
  have hsecond := @Memory.store_inside m 0xb8000 4 2 v (by omega)
  rw [Nat.pow_zero, Nat.div_one] at hfirst
  rw [corner, hfirst, hsecond]

/-- The processor has stopped with a text, interrupts off; otherwise only the
stack was written. -/
structure Stopped (k : BootImage) (m : Memory) (text : List Char)
    (c : Cpu32) : Prop where
  masked : c.eflags &&& 0x200 = 0
  text : corner c.mem = text
  kept : Memory.FrameOutside (fun x => (0xb8000 ≤ x ∧ x < 0xb8004) ∨
    (k.stackBottom ≤ x ∧ x < k.stackTop)) m c.mem

theorem Tested.stopped (h : Tested k (started k c) c') {v : UInt32}
    {text : List Char} (htext : [Char.ofNat (UInt8.ofNat v.toNat).toNat,
      Char.ofNat (UInt8.ofNat (v.toNat / 256 ^ 2)).toNat] = text) :
    Stopped k c.mem text (c'.storeDword 0xb8000 v) := by
  have hframe := h.frame
  rw [started_mem] at hframe
  refine ⟨h.masked, (corner_store _ _).trans htext, ?_⟩
  exact (hframe.mono fun x hx => Or.inr hx).trans
    (Memory.FrameOutside.store _ fun x hx hlt => Or.inl ⟨hx, hlt⟩)

theorem start_halted (hnot : ¬ p.has64) : ∃ c', start p k c = .halted c' ∧
    Stopped k c.mem (if p.flags &&& idFlag = 0 then ['E', 'R'] else ['L', 'M'])
      c' := by
  have hmasked : (started k c).eflags &&& 0x200 = 0 := Cpu32.cli_masked c
  have hcpuid := checkCpuid_tested (p := p) (toNat_started k c) hmasked
  by_cases hflag : p.flags &&& idFlag = 0
  · obtain ⟨c₁, hc₁⟩ : ∃ c₁, checkCpuid p (started k c) = (false, c₁) := by
      refine ⟨_, Prod.ext (Bool.eq_false_iff.mpr fun htrue => ?_) rfl⟩
      exact (checkCpuid_iff _).mp htrue hflag
    rw [hc₁] at hcpuid
    rw [if_pos hflag]
    refine ⟨c₁.storeDword 0xb8000 0x4f524f45, ?_, hcpuid.stopped (by decide)⟩
    simp only [start, hc₁]
  · obtain ⟨c₁, hc₁⟩ : ∃ c₁, checkCpuid p (started k c) = (true, c₁) :=
      ⟨_, Prod.ext ((checkCpuid_iff _).mpr hflag) rfl⟩
    rw [hc₁] at hcpuid
    have hmode := checkLongMode_tested (p := p) (k := k) hcpuid.masked
    obtain ⟨c₂, hc₂⟩ : ∃ c₂, checkLongMode p c₁ = (false, c₂) := by
      refine ⟨_, Prod.ext (Bool.eq_false_iff.mpr fun htrue => ?_) rfl⟩
      exact hnot ⟨hflag, (checkLongMode_iff _).mp htrue⟩
    rw [hc₂] at hmode
    rw [if_neg hflag]
    refine ⟨c₂.storeDword 0xb8000 0x4f4d4f4c, ?_,
      (hcpuid.trans hmode).stopped (by decide)⟩
    simp only [start, hc₁, hc₂]

/-- Whatever processor it is, the machine is not reset: with 64-bit mode the
kernel runs, and without it a text says what is missing. -/
theorem start_outcome (h : Loaded k c) (p : Processor) :
    (p.has64 → ∃ cpu mem cr3, start p k c = .kmain cpu mem cr3 ∧
      KernelReady k c.mem cpu mem cr3) ∧
    (¬ p.has64 → ∃ c', start p k c = .halted c' ∧ Stopped k c.mem
      (if p.flags &&& idFlag = 0 then ['E', 'R'] else ['L', 'M']) c') :=
  ⟨start_kmain h, start_halted⟩

/-! ## Up to the interrupts -/

/-- The table of `idt.c` is zero too and lies in the first two megabytes, apart
from what the start uses; its descriptor lies apart from the segments. -/
structure TablesApart (k : BootImage) (i : InterruptImage) (m : Memory) :
    Prop where
  zero : ∀ x, i.idt ≤ x → x < i.idt + 4096 → m x = 0
  low : i.idt + 4096 ≤ 2 ^ 21
  start : i.idt + 4096 ≤ k.p4Table ∨ k.stackTop ≤ i.idt
  code : k.gdt64 + 26 ≤ i.idt ∨ i.idt + 4096 ≤ k.gdt64
  codePtr : k.gdt64 + 26 ≤ i.idtPtr ∨ i.idtPtr + 10 ≤ k.gdt64

variable {i : InterruptImage} {m mem : Memory} {cpu cpu' : Cpu} {cr3 : ℕ}

theorem KernelReady.beforeIdt (h : KernelReady k m cpu mem cr3)
    (hapart : TablesApart k i m) (hgdtr : cpu'.gdtr = cpu.gdtr)
    (hstack : Memory.FrameOutside
      (fun x => k.stackBottom ≤ x ∧ x < k.stackTop) cpu.mem cpu'.mem) :
    BeforeIdt i cpu' := by
  have hcode := hapart.code
  have hcodePtr := hapart.codePtr
  have horder := k.order
  have hbase : cpu'.gdtr.base = k.gdt64 := by rw [hgdtr, h.gdtr]
  constructor
  · intro x hx hlt
    have hlow := hapart.low
    have hbefore : x < k.p4Table ∨ k.stackTop ≤ x := by
      rcases hapart.start with hbelow | habove
      · exact Or.inl (hlt.trans_le hbelow)
      · exact Or.inr (habove.trans hx)
    have hout : ¬ (k.p4Table ≤ x ∧ x < k.stackTop) := by
      rintro ⟨hfirst, hlast⟩
      rcases hbefore with hbelow | habove
      · exact absurd hbelow (Nat.not_lt.mpr hfirst)
      · exact absurd hlast (Nat.not_lt.mpr habove)
    rw [hstack x fun hin => hout ⟨(stack_order k).1.trans hin.1, hin.2⟩,
      h.view, linear, h.identity, if_pos (by omega)]
    show mem x = 0
    rw [h.kept x hout]
    exact hapart.zero x hx hlt
  · refine (codeSelector_congr fun x hx hlt => hstack x fun hin => ?_).trans
      (hgdtr ▸ h.code)
    rw [hbase] at hlt
    have htables : x < k.p4Table := by omega
    exact absurd htables (Nat.not_lt.mpr ((stack_order k).1.trans hin.1))
  · rw [hbase]
    omega
  · rw [hbase]
    omega

/-- When `init_idt` has run, its stubs get their vectors and the others none. -/
theorem start_delivers (h : Loaded k c) (hhas : p.has64)
    (hapart : TablesApart k i c.mem) : ∃ cpu mem cr3,
      start p k c = .kmain cpu mem cr3 ∧ ∀ cpu' : Cpu,
        cpu'.gdtr = cpu.gdtr → 48 ≤ cpu'.alignedRsp.toNat →
        Memory.FrameOutside (fun x => k.stackBottom ≤ x ∧ x < k.stackTop)
          cpu.mem cpu'.mem →
        ∀ s v errorCode rf,
          (v < 48 → ∃ c',
            (initIdt i cpu' s).1.deliver v errorCode rf = some c' ∧
            c'.rip = i.stub v) ∧
          (48 ≤ v → (initIdt i cpu' s).1.deliver v errorCode rf = none) := by
  obtain ⟨cpu, mem, cr3, hstart, hready⟩ := start_kmain h hhas
  refine ⟨cpu, mem, cr3, hstart, ?_⟩
  intro cpu' hgdtr hroom hstack s v errorCode rf
  have hloaded := (hready.beforeIdt hapart hgdtr hstack).loaded s
  refine ⟨fun hv => ?_, hloaded.deliver_none⟩
  obtain ⟨c', hdeliver, hrip, -, -⟩ :=
    @IdtLoaded.deliver_stub i _ v errorCode rf hloaded hv hroom
  exact ⟨c', hdeliver, hrip⟩

/-! ## A small machine -/

def smallBoot : BootImage where
  init64 := 0x100100
  gdt64 := 0x101000
  p4Table := 0x102000
  kmain := 0x100200
  afterCall := 0x100120
  aligned := by decide
  first := by decide
  order := by decide
  last := by decide

/-- The descriptors of `gdt64`, byte by byte. -/
def smallMemory : Memory := fun x =>
  if x = 0x10100D then 0x98
  else if x = 0x10100E then 0x20
  else if x = 0x101010 then 15
  else if x = 0x101013 then 0x10
  else if x = 0x101014 then 0x10
  else 0

def smallLoaded : Cpu32 where
  eax := 0x2BADB002
  ebx := 0
  ecx := 0
  edx := 0
  esp := 0
  eflags := 2
  ss := 0x10
  cr0 := 0x11
  cr3 := 0
  cr4 := 0
  efer := 0
  gdtr := ⟨0, 0⟩
  idtr := ⟨0, 0⟩
  mem := smallMemory

/-- With 64-bit mode, and nothing else. -/
def smallProcessor : Processor where
  cpuid := fun leaf =>
    ⟨0x80000008, 0, 0, if leaf = 0x80000001 then 0x20000000 else 0⟩
  flags := 0x247FD5
  gpr := fun _ => 0

theorem smallLoaded_loaded : Loaded smallBoot smallLoaded where
  unpaged := by decide
  levels := by decide
  bss := by
    intro x hx _
    have hlow : 0x102000 ≤ x := hx
    simp only [smallLoaded, smallMemory]
    rw [if_neg (by omega), if_neg (by omega), if_neg (by omega),
      if_neg (by omega), if_neg (by omega)]
  code := by decide +kernel
  limit := by decide +kernel
  base := by decide +kernel

theorem start_outcome_smallLoaded : ∃ cpu mem cr3,
    start smallProcessor smallBoot smallLoaded = .kmain cpu mem cr3 ∧
      KernelReady smallBoot smallLoaded.mem cpu mem cr3 :=
  (start_outcome smallLoaded_loaded smallProcessor).1
    ⟨by decide, by decide, by decide⟩

/-- The table of `idt.c` behind the stack. -/
def smallTables : InterruptImage where
  idt := 0x110000
  idtPtr := 0x111000
  stub := smallImage.stub
  low := by decide
  apart := by decide
  distinct := smallImage.distinct

theorem smallTables_apart :
    TablesApart smallBoot smallTables smallLoaded.mem where
  zero := by
    intro x hx _
    have hlow : 0x110000 ≤ x := hx
    simp only [smallLoaded, smallMemory]
    rw [if_neg (by omega), if_neg (by omega), if_neg (by omega),
      if_neg (by omega), if_neg (by omega)]
  low := by decide
  start := by decide
  code := by decide
  codePtr := by decide

theorem start_delivers_smallLoaded : ∃ cpu mem cr3,
    start smallProcessor smallBoot smallLoaded = .kmain cpu mem cr3 ∧
    ∀ cpu' : Cpu, cpu'.gdtr = cpu.gdtr → 48 ≤ cpu'.alignedRsp.toNat →
      Memory.FrameOutside
        (fun x => smallBoot.stackBottom ≤ x ∧ x < smallBoot.stackTop)
        cpu.mem cpu'.mem →
      ∀ s v errorCode rf,
        (v < 48 → ∃ c',
          (initIdt smallTables cpu' s).1.deliver v errorCode rf = some c' ∧
          c'.rip = smallTables.stub v) ∧
        (48 ≤ v →
          (initIdt smallTables cpu' s).1.deliver v errorCode rf = none) :=
  start_delivers smallLoaded_loaded
    ⟨by decide, by decide, by decide⟩ smallTables_apart

end Otsos
