import Otsos.Lib.Pic8259

/-!
# The interrupt controllers

`pic.c`, and what `irq_handler` makes of it.  A handler runs with interrupts
disabled, so the end of an interrupt is signalled before the next one can be
taken; the devices go on in the meantime.
-/

namespace Otsos

open Lib

def pic1 : ℕ := 0x20
def pic2 : ℕ := 0xA0
def pic1Command : ℕ := pic1
def pic1Data : ℕ := pic1 + 1
def pic2Command : ℕ := pic2
def pic2Data : ℕ := pic2 + 1

def icw1Icw4 : UInt8 := 0x01
def icw1Init : UInt8 := 0x10
def icw4Mode8086 : UInt8 := 0x01

def picRemap (s : PicPair) (offset1 offset2 : ℕ) : PicPair :=
  let a1 := s.inb pic1Data
  let a2 := s.inb pic2Data
  let s := s.outb pic1Command (icw1Init ||| icw1Icw4)
  let s := s.outb pic2Command (icw1Init ||| icw1Icw4)
  let s := s.outb pic1Data (UInt8.ofNat offset1)
  let s := s.outb pic2Data (UInt8.ofNat offset2)
  let s := s.outb pic1Data 4
  let s := s.outb pic2Data 2
  let s := s.outb pic1Data icw4Mode8086
  let s := s.outb pic2Data icw4Mode8086
  let s := s.outb pic1Data a1
  s.outb pic2Data a2

def picSendEoi (s : PicPair) (irq : UInt8) : PicPair :=
  let s := if 8 ≤ irq then s.outb pic2Command 0x20 else s
  s.outb pic1Command 0x20

/-- The last statement of `irq_handler`. -/
def irqEnd (s : PicPair) (intNo : UInt64) : PicPair :=
  picSendEoi s (intNo - 32).toUInt8

/-- Devices request and withdraw their lines at any time, also while the
handler of a vector runs. -/
inductive PicRun (s₀ : PicPair) : PicPair → Option ℕ → Prop where
  | start : PicRun s₀ s₀ none
  | request {s handled n} (before : PicRun s₀ s handled)
      (device : n ∈ PicPair.lines) : PicRun s₀ (s.request n) handled
  | withdraw {s handled n} (before : PicRun s₀ s handled)
      (device : n ∈ PicPair.lines) : PicRun s₀ (s.withdraw n) handled
  | take {s s' vector} (before : PicRun s₀ s none)
      (taken : s.acknowledge = some (vector, s')) :
      PicRun s₀ s' (some vector)
  | finish {s vector} (before : PicRun s₀ s (some vector)) :
      PicRun s₀ (irqEnd s (UInt64.ofNat vector)) none

/-! ## Remapping -/

/-- A controller as `pic_remap` leaves it, with the mask it had. -/
def remapped (offset : ℕ) (wiring mask : UInt8) : Pic where
  awaits := none
  single := false
  takesMode := true
  vectorBase := (UInt8.ofNat offset).toNat / 8 * 8
  wiring := wiring
  mode := icw4Mode8086
  mask := mask
  requested := fun _ => false
  inService := fun _ => false

variable {s s₀ : PicPair} {p : Pic} {n : ℕ}

theorem next_idle (h : p.requested = fun _ => false) : p.next = none := by
  have hfirst : firstLine p.pending = none := by
    unfold firstLine
    rw [List.find?_eq_none]
    intro n _
    rw [Pic.pending, h]
    exact Bool.false_ne_true
  rw [Pic.next, hfirst]
  rfl

theorem relay_idle (h : s.slave.requested = fun _ => false) :
    s.relay = s := by
  unfold PicPair.relay
  rw [next_idle h]
  rfl

/-- A controller that was sent the first control word. -/
def initialising (p : Pic) : Pic :=
  { p with
    awaits := some .vectors
    single := false
    takesMode := true
    mode := 0
    mask := 0
    requested := fun _ => false
    inService := fun _ => false }

theorem command_init (p : Pic) :
    p.command (icw1Init ||| icw1Icw4) = initialising p := by
  have hinit : (icw1Init ||| icw1Icw4).toNat.testBit 4 = true := by decide
  unfold Pic.command
  rw [if_pos hinit]
  rfl

theorem outb_master_init (q r : Pic) :
    PicPair.outb ⟨q, r⟩ pic1Command (icw1Init ||| icw1Icw4) =
      ⟨initialising q, r⟩ := by
  rw [← command_init]
  rfl

theorem outb_slave_init (q r : Pic) :
    PicPair.outb ⟨q, r⟩ pic2Command (icw1Init ||| icw1Icw4) =
      ⟨q, initialising r⟩ := by
  have hsent : PicPair.outb ⟨q, r⟩ pic2Command (icw1Init ||| icw1Icw4) =
      PicPair.relay ⟨q, r.command (icw1Init ||| icw1Icw4)⟩ := rfl
  rw [hsent, command_init]
  exact relay_idle rfl

theorem outb_master_data (q r : Pic) (v : UInt8) :
    PicPair.outb ⟨q, r⟩ pic1Data v = ⟨q.data v, r⟩ := rfl

theorem picRemap_eq (s : PicPair) (offset1 offset2 : ℕ) :
    picRemap s offset1 offset2 =
      ⟨remapped offset1 4 s.master.mask, remapped offset2 2 s.slave.mask⟩ := by
  obtain ⟨q, r⟩ := s
  simp only [picRemap, outb_master_init, outb_slave_init, outb_master_data]
  rfl

/-- After `init_idt` called it; `served` are the lines in service. -/
structure Remapped (masks : UInt8 × UInt8) (served : Option ℕ × Option ℕ)
    (s : PicPair) : Prop where
  settled : s.Settled served
  masterBase : s.master.vectorBase = 0x20
  slaveBase : s.slave.vectorBase = 0x28
  masterMask : s.master.mask = masks.1
  slaveMask : s.slave.mask = masks.2

theorem remapped_ready (offset : ℕ) (wiring mask : UInt8) :
    (remapped offset wiring mask).ready := by
  rw [Pic.ready, Bool.and_eq_true, decide_eq_true_eq, decide_eq_true_eq]
  have hmode : icw4Mode8086 &&& 0x13 = 1 := by decide
  exact ⟨rfl, hmode⟩

theorem picRemap_remapped (s : PicPair) :
    Remapped (s.inb pic1Data, s.inb pic2Data) (none, none)
      (picRemap s 0x20 0x28) := by
  rw [picRemap_eq]
  refine ⟨⟨remapped_ready _ _ _, remapped_ready _ _ _, ?_, fun _ => rfl,
    fun _ => rfl, ?_⟩, rfl, rfl, rfl, rfl⟩
  · have hwired : ((4 : UInt8).toNat.testBit 2 &&
        decide ((2 : UInt8).toNat % 8 = 2)) = true := by decide
    exact hwired
  · intro hnext
    rw [next_idle rfl] at hnext
    cases hnext

/-! ## Requests -/

namespace Remapped

variable {masks : UInt8 × UInt8} {served : Option ℕ × Option ℕ} {q r : Pic}

/-- Other requests change nothing else. -/
theorem update (h : Remapped masks served s)
    (hmaster : q = { s.master with requested := q.requested })
    (hslave : r = { s.slave with requested := r.requested })
    (hrelayed : r.next.isSome → q.requested 2 = true) :
    Remapped masks served ⟨q, r⟩ := by
  obtain ⟨⟨hmasterReady, hslaveReady, hwired, hmasterServes, hslaveServes, -⟩,
    hmasterBase, hslaveBase, hmasterMask, hslaveMask⟩ := h
  rw [hmaster, hslave] at *
  exact ⟨⟨hmasterReady, hslaveReady, hwired, hmasterServes, hslaveServes,
    hrelayed⟩, hmasterBase, hslaveBase, hmasterMask, hslaveMask⟩

theorem update_relay (h : Remapped masks served s)
    (hmaster : q = { s.master with requested := q.requested })
    (hslave : r = { s.slave with requested := r.requested }) :
    Remapped masks served (PicPair.relay ⟨q, r⟩) := by
  unfold PicPair.relay
  by_cases hnext : r.next.isSome
  · rw [if_pos hnext]
    refine h.update ?_ hslave fun _ => ?_
    · rw [hmaster]
      rfl
    · rw [Pic.request_requested, if_pos rfl]
  · rw [if_neg hnext]
    exact h.update hmaster hslave fun hsome => absurd hsome hnext

theorem request (h : Remapped masks served s) (n : ℕ) :
    Remapped masks served (s.request n) := by
  unfold PicPair.request
  by_cases hn : n < 8
  · rw [if_pos hn]
    refine h.update rfl rfl fun hsome => ?_
    rw [Pic.request_requested, h.settled.relayed hsome, ite_self]
  · rw [if_neg hn]
    exact h.update_relay rfl rfl

theorem withdraw (h : Remapped masks served s) (hn : n ∈ PicPair.lines) :
    Remapped masks served (s.withdraw n) := by
  unfold PicPair.withdraw
  by_cases hlow : n < 8
  · have htwo : 2 ≠ n := by
      rintro rfl
      exact absurd hn (by decide)
    rw [if_pos hlow]
    refine h.update rfl rfl fun hsome => ?_
    rw [Pic.withdraw_requested, if_neg htwo]
    exact h.settled.relayed hsome
  · rw [if_neg hlow]
    refine h.update rfl rfl fun hsome => h.settled.relayed ?_
    -- a line that is still reported was there before
    rw [Pic.next_isSome]
    obtain ⟨m, hm, hpending, hfree⟩ := Pic.next_isSome.mp hsome
    refine ⟨m, hm, ?_, hfree⟩
    rw [Pic.pending, Bool.and_eq_true, Pic.withdraw_requested] at hpending
    rw [Pic.pending, Bool.and_eq_true]
    obtain ⟨hrequested, hopen⟩ := hpending
    by_cases hsame : m = n - 8
    · rw [if_pos hsame] at hrequested
      cases hrequested
    · rw [if_neg hsame] at hrequested
      exact ⟨hrequested, hopen⟩

end Remapped

/-! ## The end of an interrupt -/

theorem eoi_slave_iff : ∀ n < 16,
    8 ≤ (UInt64.ofNat (32 + n) - 32).toUInt8 ↔ 8 ≤ n := by decide

theorem irqEnd_master (hn : n < 8) :
    irqEnd s (UInt64.ofNat (32 + n)) =
      ⟨s.master.command 0x20, s.slave⟩ := by
  have hlow : ¬ 8 ≤ (UInt64.ofNat (32 + n) - 32).toUInt8 := by
    rw [eoi_slave_iff n (by omega)]
    omega
  rw [irqEnd, picSendEoi, if_neg hlow]
  rfl

theorem irqEnd_slave (hn : n < 8) :
    irqEnd s (UInt64.ofNat (40 + n)) =
      PicPair.relay ⟨s.master.command 0x20, s.slave.command 0x20⟩ := by
  have hhigh : 8 ≤ (UInt64.ofNat (40 + n) - 32).toUInt8 := by
    rw [show 40 + n = 32 + (8 + n) by omega, eoi_slave_iff (8 + n) (by omega)]
    omega
  have hsent : irqEnd s (UInt64.ofNat (40 + n)) =
      (s.outb pic2Command 0x20).outb pic1Command 0x20 := by
    rw [irqEnd, picSendEoi, if_pos hhigh]
  have hslave : s.outb pic2Command 0x20 =
      PicPair.relay ⟨s.master, s.slave.command 0x20⟩ := rfl
  rw [hsent, hslave]
  unfold PicPair.relay
  by_cases hnext : (s.slave.command 0x20).next.isSome
  · rw [if_pos hnext, if_pos hnext]
    show PicPair.mk ((s.master.request 2).command 0x20) _ = _
    rw [Pic.request_command_end]
  · rw [if_neg hnext, if_neg hnext]
    rfl

theorem two_not_mem_lines : 2 ∉ PicPair.lines := by decide

/-- The requests at the pair, when line 2 of the master does not count. -/
theorem requested_relay {q r : Pic} {m : ℕ} (hm : m ∈ PicPair.lines) :
    (PicPair.relay ⟨q, r⟩).requested m = PicPair.requested ⟨q, r⟩ m := by
  have htwo : m ≠ 2 := fun h => two_not_mem_lines (h ▸ hm)
  unfold PicPair.relay
  by_cases hnext : r.next.isSome
  · rw [if_pos hnext]
    unfold PicPair.requested
    by_cases hlow : m < 8
    · rw [if_pos hlow, if_pos hlow]
      show (q.request 2).requested m = q.requested m
      rw [Pic.request_requested, if_neg htwo]
    · rw [if_neg hlow, if_neg hlow]
  · rw [if_neg hnext]

/-- What is in service while the handler of a vector runs. -/
inductive InService : ℕ → Option ℕ × Option ℕ → Prop where
  | master {n : ℕ} (line : n < 8) : InService (32 + n) (some n, none)
  | slave {n : ℕ} (line : n < 8) : InService (40 + n) (some 2, some n)
  | spuriousMaster : InService 39 (none, none)
  | spuriousSlave : InService 47 (some 2, none)

namespace Remapped

variable {masks : UInt8 × UInt8} {served : Option ℕ × Option ℕ} {vector : ℕ}

/-- The end of what is in service, on one controller or on both. -/
theorem ended (h : Remapped masks served s)
    (hmaster : ∀ n ∈ served.1, n < 8) (hslave : ∀ n ∈ served.2, n < 8) :
    Remapped masks (none, none)
        (PicPair.relay ⟨s.master.command 0x20, s.slave.command 0x20⟩) ∧
      ∀ m ∈ PicPair.lines,
        (PicPair.relay ⟨s.master.command 0x20, s.slave.command 0x20⟩).requested m =
          s.requested m := by
  rw [h.settled.masterServes.command_end hmaster,
    h.settled.slaveServes.command_end hslave]
  obtain ⟨⟨hmasterReady, hslaveReady, hwired, -, -, hrelayed⟩,
    hmasterBase, hslaveBase, hmasterMask, hslaveMask⟩ := h
  refine ⟨?_, fun m hm => requested_relay hm⟩
  unfold PicPair.relay
  split
  · refine ⟨⟨hmasterReady, hslaveReady, hwired, fun _ => rfl, fun _ => rfl,
      fun _ => ?_⟩, hmasterBase, hslaveBase, hmasterMask, hslaveMask⟩
    rw [Pic.request_requested, if_pos rfl]
  next hnone =>
    exact ⟨⟨hmasterReady, hslaveReady, hwired, fun _ => rfl, fun _ => rfl,
      fun hsome => absurd hsome hnone⟩, hmasterBase, hslaveBase, hmasterMask,
      hslaveMask⟩

theorem ended_master (h : Remapped masks served s)
    (hmaster : ∀ n ∈ served.1, n < 8) (hslave : served.2 = none) :
    Remapped masks (none, none) ⟨s.master.command 0x20, s.slave⟩ ∧
      ∀ m ∈ PicPair.lines,
        PicPair.requested ⟨s.master.command 0x20, s.slave⟩ m =
          s.requested m := by
  rw [h.settled.masterServes.command_end hmaster]
  obtain ⟨⟨hmasterReady, hslaveReady, hwired, -, hslaveServes, hrelayed⟩,
    hmasterBase, hslaveBase, hmasterMask, hslaveMask⟩ := h
  rw [hslave] at hslaveServes
  exact ⟨⟨⟨hmasterReady, hslaveReady, hwired, fun _ => rfl, hslaveServes,
    hrelayed⟩, hmasterBase, hslaveBase, hmasterMask, hslaveMask⟩,
    fun m hm => rfl⟩

theorem finish (h : Remapped masks served s)
    (hserved : InService vector served) :
    Remapped masks (none, none) (irqEnd s (UInt64.ofNat vector)) ∧
      ∀ m ∈ PicPair.lines,
        (irqEnd s (UInt64.ofNat vector)).requested m = s.requested m := by
  cases hserved with
  | @master n line =>
      rw [irqEnd_master line]
      exact h.ended_master (fun m hm => Option.some.inj hm ▸ line) rfl
  | @slave n line =>
      rw [irqEnd_slave line]
      refine h.ended (fun m hm => ?_) (fun m hm => Option.some.inj hm ▸ line)
      rw [← Option.some.inj hm]
      decide
  | spuriousMaster =>
      have hend := @irqEnd_master s 7 (by decide)
      rw [hend]
      refine h.ended_master (fun m hm => ?_) rfl
      cases hm
  | spuriousSlave =>
      have hend := @irqEnd_slave s 7 (by decide)
      rw [hend]
      refine h.ended (fun m hm => ?_) (fun m hm => ?_)
      · rw [← Option.some.inj hm]
        decide
      · cases hm

end Remapped

/-! ## The next interrupt -/

/-- The line that is served is no longer requested; a spurious interrupt
serves none. -/
inductive Taken (s : PicPair) : ℕ → PicPair → Prop where
  | line {n s'} (next : s.nextLine = some n)
      (requested : ∀ m ∈ PicPair.lines,
        s'.requested m = (decide (m ≠ n) && s.requested m)) :
      Taken s (32 + n) s'
  | spuriousMaster {s'} (next : s.nextLine = none)
      (requested : ∀ m ∈ PicPair.lines, s'.requested m = s.requested m) :
      Taken s 39 s'
  | spuriousSlave {s'} (stale : s.Stale)
      (answered : s'.master.requested 2 = false)
      (requested : ∀ m ∈ PicPair.lines, s'.requested m = s.requested m) :
      Taken s 47 s'

/-- A line taken back counts for itself only. -/
theorem requested_withdraw {k : ℕ} :
    (s.withdraw n).requested k = (decide (k ≠ n) && s.requested k) := by
  unfold PicPair.withdraw PicPair.requested
  by_cases hn : n < 8
  · rw [if_pos hn]
    by_cases hlow : k < 8
    · rw [if_pos hlow, if_pos hlow, Pic.withdraw_requested]
      by_cases hsame : k = n
      · simp [hsame]
      · simp [hsame]
    · have hne : k ≠ n := by omega
      rw [if_neg hlow, if_neg hlow, decide_eq_true hne, Bool.true_and]
  · rw [if_neg hn]
    by_cases hlow : k < 8
    · have hne : k ≠ n := by omega
      rw [if_pos hlow, if_pos hlow, decide_eq_true hne, Bool.true_and]
    · rw [if_neg hlow, if_neg hlow, Pic.withdraw_requested]
      by_cases hsame : k = n
      · simp [hsame]
      · have hne : k - 8 ≠ n - 8 := by omega
        simp [hsame, hne]

theorem requested_withdraw_two {q r : Pic} {k : ℕ}
    (hk : k ∈ PicPair.lines) :
    PicPair.requested ⟨q.withdraw 2, r⟩ k = PicPair.requested ⟨q, r⟩ k := by
  have htwo : k ≠ 2 := fun heq => two_not_mem_lines (heq ▸ hk)
  unfold PicPair.requested
  by_cases hlow : k < 8
  · rw [if_pos hlow, if_pos hlow, Pic.withdraw_requested, if_neg htwo]
  · rw [if_neg hlow, if_neg hlow]

namespace Remapped

variable {masks : UInt8 × UInt8}

theorem acknowledge (h : Remapped masks (none, none) s) :
    s.acknowledge =
      if s.master.next = some 2 then
        some (s.slave.acknowledge.1,
          ⟨s.master.acknowledge.2, s.slave.acknowledge.2⟩)
      else some (s.master.acknowledge.1, ⟨s.master.acknowledge.2, s.slave⟩) := by
  rw [PicPair.acknowledge, h.settled.masterReady, h.settled.slaveReady,
    h.settled.wired]
  rfl

theorem take_master (h : Remapped masks (none, none) s)
    (hline : s.nextLine = some n) (hnext : s.master.next = some n)
    (htwo : n ≠ 2) :
    ∃ vector s' served, s.acknowledge = some (vector, s') ∧
      Remapped masks served s' ∧ InService vector served ∧
      Taken s vector s' := by
  have hn := Pic.lt_of_next hnext
  have hserves := h.settled.masterServes.acknowledge
  have hack := Pic.acknowledge_some hnext
  have hother : s.master.next ≠ some 2 := by
    rw [hnext]
    exact fun heq => htwo (Option.some.inj heq)
  rw [hnext, hack] at hserves
  refine ⟨32 + n, ⟨s.master.serve n, s.slave⟩, (some n, none), ?_, ?_, .master hn, ?_⟩
  · rw [h.acknowledge, if_neg hother, hack, h.masterBase]
  · obtain ⟨⟨hmasterReady, hslaveReady, hwired, -, hslaveServes, hrelayed⟩,
      hmasterBase, hslaveBase, hmasterMask, hslaveMask⟩ := h
    refine ⟨⟨hmasterReady, hslaveReady, hwired, hserves, hslaveServes,
      fun hsome => ?_⟩, hmasterBase, hslaveBase, hmasterMask, hslaveMask⟩
    show (s.master.withdraw n).requested 2 = true
    rw [Pic.withdraw_requested, if_neg htwo.symm]
    exact hrelayed hsome
  · refine .line hline fun m _ => ?_
    rw [← requested_withdraw, PicPair.withdraw, if_pos hn]
    rfl

theorem take_slave (h : Remapped masks (none, none) s)
    (hline : s.nextLine = some (n + 8)) (hnext : s.master.next = some 2)
    (hslave : s.slave.next = some n) :
    ∃ vector s' served, s.acknowledge = some (vector, s') ∧
      Remapped masks served s' ∧ InService vector served ∧
      Taken s vector s' := by
  have hn := Pic.lt_of_next hslave
  have hmasterServes := h.settled.masterServes.acknowledge
  have hslaveServes := h.settled.slaveServes.acknowledge
  have hnone := h.settled.slaveServes.next_acknowledge hslave
  have hmaster := Pic.acknowledge_some hnext
  have hack := Pic.acknowledge_some hslave
  rw [hnext, hmaster] at hmasterServes
  rw [hslave, hack] at hslaveServes
  rw [hack] at hnone
  refine ⟨40 + n, ⟨s.master.serve 2, s.slave.serve n⟩, (some 2, some n), ?_,
    ?_, .slave hn, ?_⟩
  · rw [h.acknowledge, if_pos hnext, hmaster, hack, h.slaveBase]
  · obtain ⟨⟨hmasterReady, hslaveReady, hwired, -, -, -⟩,
      hmasterBase, hslaveBase, hmasterMask, hslaveMask⟩ := h
    refine ⟨⟨hmasterReady, hslaveReady, hwired, hmasterServes, hslaveServes,
      fun hsome => ?_⟩, hmasterBase, hslaveBase, hmasterMask, hslaveMask⟩
    rw [hnone] at hsome
    cases hsome
  · rw [show 40 + n = 32 + (n + 8) by omega]
    refine .line hline fun m hm => ?_
    rw [← requested_withdraw, PicPair.withdraw, if_neg (by omega),
      Nat.add_sub_cancel]
    exact requested_withdraw_two hm

theorem take_spurious_slave (h : Remapped masks (none, none) s)
    (hstale : s.Stale) :
    ∃ vector s' served, s.acknowledge = some (vector, s') ∧
      Remapped masks served s' ∧ InService vector served ∧
      Taken s vector s' := by
  obtain ⟨hnext, hslave⟩ := hstale
  have hserves := h.settled.masterServes.acknowledge
  have hmaster := Pic.acknowledge_some hnext
  rw [hnext, hmaster] at hserves
  refine ⟨47, ⟨s.master.serve 2, s.slave⟩, (some 2, none), ?_, ?_,
    .spuriousSlave, ?_⟩
  · rw [h.acknowledge, if_pos hnext, hmaster, Pic.acknowledge_none hslave,
      h.slaveBase]
  · obtain ⟨⟨hmasterReady, hslaveReady, hwired, -, hslaveServes, -⟩,
      hmasterBase, hslaveBase, hmasterMask, hslaveMask⟩ := h
    refine ⟨⟨hmasterReady, hslaveReady, hwired, hserves, hslaveServes,
      fun hsome => ?_⟩, hmasterBase, hslaveBase, hmasterMask, hslaveMask⟩
    rw [hslave] at hsome
    cases hsome
  · refine .spuriousSlave ⟨hnext, hslave⟩ ?_ fun m hm => ?_
    · show (s.master.withdraw 2).requested 2 = false
      rw [Pic.withdraw_requested, if_pos rfl]
    · exact requested_withdraw_two hm

theorem take (h : Remapped masks (none, none) s) :
    ∃ vector s' served, s.acknowledge = some (vector, s') ∧
      Remapped masks served s' ∧ InService vector served ∧
      Taken s vector s' := by
  rcases h.settled.next_cases with
    ⟨n, hline, hnext, -, htwo⟩ | ⟨n, hline, hnext, hslave, -⟩ |
    ⟨hline, hnext⟩ | hstale
  · exact h.take_master hline hnext htwo
  · exact h.take_slave hline hnext hslave
  · have hother : s.master.next ≠ some 2 := by
      rw [hnext]
      exact Option.some_ne_none _ ∘ Eq.symm
    refine ⟨39, s, (none, none), ?_, h, .spuriousMaster,
      .spuriousMaster hline fun _ _ => rfl⟩
    rw [h.acknowledge, if_neg hother, Pic.acknowledge_none hnext, h.masterBase]
  · exact h.take_spurious_slave hstale

end Remapped

/-! ## Runs -/

/-- Nothing is in service unless a handler runs. -/
def HandledService (handled : Option ℕ) (served : Option ℕ × Option ℕ) : Prop :=
  match handled with
  | none => served = (none, none)
  | some vector => InService vector served

theorem Remapped.run {masks : UInt8 × UInt8} {handled : Option ℕ}
    (h : Remapped masks (none, none) s₀) (hrun : PicRun s₀ s handled) :
    ∃ served, HandledService handled served ∧ Remapped masks served s := by
  induction hrun with
  | start => exact ⟨_, rfl, h⟩
  | request before device ih =>
      obtain ⟨served, hserved, hs⟩ := ih
      exact ⟨served, hserved, hs.request _⟩
  | withdraw before device ih =>
      obtain ⟨served, hserved, hs⟩ := ih
      exact ⟨served, hserved, hs.withdraw device⟩
  | take before taken ih =>
      obtain ⟨served, rfl, hs⟩ := ih
      obtain ⟨vector, s', served, htaken, hs', hserved, -⟩ := hs.take
      rw [htaken] at taken
      cases taken
      exact ⟨served, hserved, hs'⟩
  | finish before ih =>
      obtain ⟨served, hserved, hs⟩ := ih
      exact ⟨_, rfl, (hs.finish hserved).1⟩

/-- Whatever the devices request and withdraw after `pic_remap`, and whenever:
an interrupt that is taken serves the most urgent line that is let through,
under the vector 32 above its number, or nothing, and is taken with nothing in
service; the end that its handler signals leaves nothing in service and
forgets no request. -/
theorem interrupts_end {handled : Option ℕ} (s₀ : PicPair)
    (hrun : PicRun (picRemap s₀ 0x20 0x28) s handled) :
    match handled with
    | none =>
        Remapped (s₀.inb pic1Data, s₀.inb pic2Data) (none, none) s ∧
          ∃ vector s', s.acknowledge = some (vector, s') ∧ Taken s vector s'
    | some vector =>
        Remapped (s₀.inb pic1Data, s₀.inb pic2Data) (none, none)
            (irqEnd s (UInt64.ofNat vector)) ∧
          ∀ m ∈ PicPair.lines,
            (irqEnd s (UInt64.ofNat vector)).requested m = s.requested m := by
  obtain ⟨served, hserved, hs⟩ := (picRemap_remapped s₀).run hrun
  cases handled with
  | none =>
      cases hserved
      obtain ⟨vector, s', -, htaken, -, -, htake⟩ := hs.take
      exact ⟨hs, vector, s', htaken, htake⟩
  | some vector => exact hs.finish hserved

/-- The mouse's interrupt, a key pressed while its handler runs, and the end:
the key's interrupt is next. -/
theorem interrupts_end_mouse : ∃ s₀ s s', PicRun (picRemap s₀ 0x20 0x28) s
      (some 44) ∧
    PicRun (picRemap s₀ 0x20 0x28) s' none ∧
      s' = irqEnd s (UInt64.ofNat 44) ∧
      Remapped (0xB8, 0xEF) (none, none) s' ∧ s'.requested 1 = true ∧
      ∃ vector s'', s'.acknowledge = some (vector, s'') ∧
        Taken s' vector s'' := by
  let s₀ : PicPair := ⟨remapped 8 4 0xB8, remapped 0x70 2 0xEF⟩
  let idle := (picRemap s₀ 0x20 0x28).request 12
  have hrequested : PicRun (picRemap s₀ 0x20 0x28) idle none :=
    .request .start (by decide)
  obtain ⟨-, vector, s, hacknowledge, -⟩ := interrupts_end s₀ hrequested
  have hmouse : idle.acknowledge.map Prod.fst = some 44 := by decide +kernel
  rw [hacknowledge, Option.map_some, Option.some.injEq] at hmouse
  subst hmouse
  have hhandled : PicRun (picRemap s₀ 0x20 0x28) (s.request 1) (some 44) :=
    (hrequested.take hacknowledge).request (by decide)
  obtain ⟨-, hkept⟩ := interrupts_end s₀ hhandled
  have hkey : (s.request 1).requested 1 = true := by
    simp [PicPair.requested, PicPair.request, Pic.request_requested]
  obtain ⟨hidle, hnext⟩ := interrupts_end s₀ hhandled.finish
  exact ⟨s₀, _, _, hhandled, hhandled.finish, rfl, hidle,
    (hkept 1 (by decide)).trans hkey, hnext⟩

end Otsos
