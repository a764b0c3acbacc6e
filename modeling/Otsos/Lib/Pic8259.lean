import Mathlib.Logic.Function.Basic
import Mathlib.Tactic.Common

/-!
# The pair of 8259A interrupt controllers

Two programmable controllers as a PC has them: eight lines each, the second
one behind line 2 of the first.  Requests are latched, line 0 of a controller
comes first, and a line in service holds back itself and those behind it until
its end is signalled.  A request that is withdrawn in time leaves a spurious
interrupt behind, on line 7 of the controller that is asked for it.
-/

namespace Lib

/-- The control word for which an initialisation waits. -/
inductive ControlWord where
  | vectors
  | wiring
  | mode
deriving DecidableEq, Repr

structure Pic where
  awaits : Option ControlWord
  single : Bool
  takesMode : Bool
  vectorBase : ℕ
  wiring : UInt8
  mode : UInt8
  mask : UInt8
  requested : ℕ → Bool
  inService : ℕ → Bool

/-- The first of the eight lines with `p`. -/
def firstLine (p : ℕ → Bool) : Option ℕ := (List.range 8).find? p

namespace Pic

def masked (p : Pic) (n : ℕ) : Bool := p.mask.toNat.testBit n

def pending (p : Pic) (n : ℕ) : Bool := p.requested n && !p.masked n

/-- The line that the controller reports: the first pending one, if none
before it is in service. -/
def next (p : Pic) : Option ℕ :=
  (firstLine p.pending).filter fun n =>
    (List.range (n + 1)).all fun m => !p.inService m

/-- Initialised for the processors with vectors, every end to be signalled. -/
def ready (p : Pic) : Bool := p.awaits = none && p.mode &&& 0x13 = 1

def request (p : Pic) (n : ℕ) : Pic :=
  { p with requested := Function.update p.requested n true }

def withdraw (p : Pic) (n : ℕ) : Pic :=
  { p with requested := Function.update p.requested n false }

/-- A write to the command port: a first control word, or the end of an
interrupt, of the first line in service or of the one named.  Rotating
priorities and the special modes are left out. -/
def command (p : Pic) (v : UInt8) : Pic :=
  if v.toNat.testBit 4 then
    { p with
      awaits := some .vectors
      single := v.toNat.testBit 1
      takesMode := v.toNat.testBit 0
      mode := 0
      mask := 0
      requested := fun _ => false
      inService := fun _ => false }
  else if v.toNat.testBit 3 then p
  else if v.toNat / 32 = 1 then
    match firstLine p.inService with
    | some n => { p with inService := Function.update p.inService n false }
    | none => p
  else if v.toNat / 32 = 3 then
    { p with inService := Function.update p.inService (v.toNat % 8) false }
  else p

/-- A write to the data port: the control word awaited, or else the mask. -/
def data (p : Pic) (v : UInt8) : Pic :=
  let last := if p.takesMode then some .mode else none
  match p.awaits with
  | some .vectors =>
      { p with
        vectorBase := v.toNat / 8 * 8
        awaits := if p.single then last else some .wiring }
  | some .wiring => { p with wiring := v, awaits := last }
  | some .mode => { p with mode := v, awaits := none }
  | none => { p with mask := v }

/-- The vector that the controller gives, and the line in service then. -/
def acknowledge (p : Pic) : ℕ × Pic :=
  match p.next with
  | some n =>
      (p.vectorBase + n,
        { p with
          requested := Function.update p.requested n false
          inService := Function.update p.inService n true })
  | none => (p.vectorBase + 7, p)

end Pic

structure PicPair where
  master : Pic
  slave : Pic

namespace PicPair

/-- The slave requests line 2 of the master when it reports a line. -/
def relay (s : PicPair) : PicPair :=
  if s.slave.next.isSome then { s with master := s.master.request 2 } else s

/-- Line `n` of the sixteen; line 2 is the slave's. -/
def request (s : PicPair) (n : ℕ) : PicPair :=
  if n < 8 then { s with master := s.master.request n }
  else { s with slave := s.slave.request (n - 8) }.relay

def withdraw (s : PicPair) (n : ℕ) : PicPair :=
  if n < 8 then { s with master := s.master.withdraw n }
  else { s with slave := s.slave.withdraw (n - 8) }

/-- The ports of a PC. -/
def outb (s : PicPair) (port : ℕ) (v : UInt8) : PicPair :=
  if port = 0x20 then { s with master := s.master.command v }
  else if port = 0x21 then { s with master := s.master.data v }
  else if port = 0xA0 then { s with slave := s.slave.command v }.relay
  else if port = 0xA1 then { s with slave := s.slave.data v }.relay
  else s

/-- The mask at a data port. -/
def inb (s : PicPair) (port : ℕ) : UInt8 :=
  if port = 0x21 then s.master.mask
  else if port = 0xA1 then s.slave.mask
  else 0

/-- Each controller knows of the other one. -/
def wired (s : PicPair) : Bool :=
  s.master.wiring.toNat.testBit 2 && s.slave.wiring.toNat % 8 = 2

/-- The processor takes an interrupt: the vector it gets. -/
def acknowledge (s : PicPair) : Option (ℕ × PicPair) :=
  if s.master.ready && s.slave.ready && s.wired then
    if s.master.next = some 2 then
      some (s.slave.acknowledge.1,
        ⟨s.master.acknowledge.2, s.slave.acknowledge.2⟩)
    else some (s.master.acknowledge.1, ⟨s.master.acknowledge.2, s.slave⟩)
  else none

def requested (s : PicPair) (n : ℕ) : Bool :=
  if n < 8 then s.master.requested n else s.slave.requested (n - 8)

/-- Requested and let through. -/
def deliverable (s : PicPair) (n : ℕ) : Bool :=
  if n < 8 then s.master.pending n
  else s.slave.pending (n - 8) && !s.master.masked 2

/-- The lines of devices, the most urgent one first. -/
def lines : List ℕ := [0, 1, 8, 9, 10, 11, 12, 13, 14, 15, 3, 4, 5, 6, 7]

def nextLine (s : PicPair) : Option ℕ := lines.find? s.deliverable

end PicPair

variable {p : Pic} {s : PicPair} {m n : ℕ}

theorem Pic.request_requested :
    (p.request n).requested m = if m = n then true else p.requested m :=
  Function.update_apply _ _ _ _

theorem Pic.withdraw_requested :
    (p.withdraw n).requested m = if m = n then false else p.requested m :=
  Function.update_apply _ _ _ _

/-! ## Lines in service -/

/-- Just `line` is in service, or nothing. -/
def Pic.Serves (p : Pic) (line : Option ℕ) : Prop :=
  ∀ n, p.inService n = decide (line = some n)

/-- A line is reported if one is pending with none before it in service. -/
theorem Pic.next_isSome :
    p.next.isSome ↔
      ∃ n, n < 8 ∧ p.pending n = true ∧ ∀ m ≤ n, p.inService m = false := by
  unfold Pic.next
  constructor
  · intro hsome
    obtain ⟨n, hnext⟩ := Option.isSome_iff_exists.mp hsome
    obtain ⟨hfirst, hfree⟩ := Option.filter_eq_some_iff.mp hnext
    refine ⟨n, List.mem_range.mp (List.mem_of_find?_eq_some hfirst),
      List.find?_some hfirst, fun m hm => ?_⟩
    have hall := List.all_eq_true.mp hfree m (List.mem_range.mpr (by omega))
    rwa [Bool.not_eq_true'] at hall
  · rintro ⟨n, hn, hpending, hfree⟩
    obtain ⟨k, hfirst⟩ : ∃ k, firstLine p.pending = some k := by
      rw [← Option.isSome_iff_exists, firstLine, List.find?_isSome]
      exact ⟨n, List.mem_range.mpr hn, hpending⟩
    -- the first pending line is not behind `n`
    have hle : k ≤ n := by
      have hbefore := (List.find?_range_eq_some.mp hfirst).2.2
      by_contra hgt
      have hnot := hbefore n (by omega)
      rw [hpending] at hnot
      cases hnot
    rw [hfirst, Option.filter_some, if_pos]
    · rfl
    · rw [List.all_eq_true]
      intro m hm
      rw [hfree m (by have := List.mem_range.mp hm; omega)]
      rfl

theorem Pic.Serves.next (h : p.Serves none) :
    p.next = firstLine p.pending := by
  unfold Pic.next
  cases firstLine p.pending with
  | none => rfl
  | some n =>
      rw [Option.filter_some, if_pos]
      rw [List.all_eq_true]
      intro m _
      rw [h m]
      rfl

theorem firstLine_split (p : ℕ → Bool) :
    firstLine p =
      (([0, 1].find? p).or (if p 2 then some 2 else none)).or
        ([3, 4, 5, 6, 7].find? p) := by
  have hrange : List.range 8 = [0, 1] ++ [2] ++ [3, 4, 5, 6, 7] := rfl
  have htwo : [2].find? p = if p 2 then some 2 else none := by
    cases h : p 2 with
    | false => simp [h]
    | true => simp [h]
  rw [firstLine, hrange, List.find?_append, List.find?_append, htwo]

theorem firstLine_slave (p : ℕ → Bool) :
    [8, 9, 10, 11, 12, 13, 14, 15].find? (fun n => p (n - 8)) =
      (firstLine p).map (· + 8) := by
  have hmap : [8, 9, 10, 11, 12, 13, 14, 15] =
      (List.range 8).map (· + 8) := rfl
  rw [hmap, List.find?_map, firstLine]
  rfl

namespace Pic

theorem command_end (p : Pic) :
    p.command 0x20 =
      match firstLine p.inService with
      | some n => { p with inService := Function.update p.inService n false }
      | none => p := by
  unfold command
  rw [if_neg (by decide), if_neg (by decide), if_pos (by decide)]

/-- The end of an interrupt is that of the line in service. -/
theorem Serves.command_end {line : Option ℕ} (h : p.Serves line)
    (hline : ∀ n ∈ line, n < 8) :
    p.command 0x20 = { p with inService := fun _ => false } := by
  rw [Pic.command_end]
  cases line with
  | none =>
      have hquiet : p.inService = fun _ => false := funext h
      have hfirst : firstLine p.inService = none := by
        rw [hquiet]
        rfl
      rw [hfirst, ← hquiet]
  | some n =>
      have hfirst : firstLine p.inService = some n := by
        unfold firstLine
        rw [List.find?_range_eq_some]
        refine ⟨?_, List.mem_range.mpr (hline n rfl), ?_⟩
        · rw [h n]
          exact decide_eq_true rfl
        · intro m hm
          have hother : some n ≠ some m := by
            rintro ⟨rfl⟩
            omega
          rw [h m, decide_eq_false hother]
          rfl
      have hquiet : Function.update p.inService n false = fun _ => false := by
        funext m
        by_cases hm : m = n
        · rw [hm, Function.update_self]
        · have hother : some n ≠ some m := fun heq => hm (Option.some.inj heq).symm
          rw [Function.update_of_ne hm, h m, decide_eq_false hother]
      rw [hfirst]
      simp only [hquiet]

/-- The line is in service instead of requested. -/
def serve (p : Pic) (n : ℕ) : Pic :=
  { p.withdraw n with inService := Function.update p.inService n true }

theorem acknowledge_some (hnext : p.next = some n) :
    p.acknowledge = (p.vectorBase + n, p.serve n) := by
  unfold acknowledge
  rw [hnext]
  rfl

theorem acknowledge_none (hnext : p.next = none) :
    p.acknowledge = (p.vectorBase + 7, p) := by
  unfold acknowledge
  rw [hnext]

theorem Serves.acknowledge (h : p.Serves none) :
    p.acknowledge.2.Serves p.next := by
  cases hnext : p.next with
  | none =>
      rw [acknowledge_none hnext]
      exact h
  | some n =>
      rw [acknowledge_some hnext]
      intro m
      show Function.update p.inService n true m = _
      by_cases hm : m = n
      · rw [hm, Function.update_self]
        exact (decide_eq_true rfl).symm
      · have hother : some n ≠ some m := fun heq => hm (Option.some.inj heq).symm
        rw [Function.update_of_ne hm, h m, decide_eq_false hother]
        rfl

theorem lt_of_next (hnext : p.next = some n) : n < 8 := by
  obtain ⟨hfirst, -⟩ := Option.filter_eq_some_iff.mp hnext
  exact List.mem_range.mp (List.mem_of_find?_eq_some hfirst)

/-- The line in service holds back all that is behind it. -/
theorem Serves.next_acknowledge (h : p.Serves none) (hnext : p.next = some n) :
    p.acknowledge.2.next = none := by
  have hserves := h.acknowledge
  rw [hnext] at hserves
  rw [← Option.not_isSome_iff_eq_none, next_isSome]
  rintro ⟨m, hm, hpending, hfree⟩
  have hlt : m < n := by
    by_contra hge
    have hserved := hfree n (by omega)
    rw [hserves n, decide_eq_true rfl] at hserved
    cases hserved
  -- the line was pending before, and is more urgent
  have hbefore : p.pending m = true := by
    rw [acknowledge_some hnext, pending, Bool.and_eq_true] at hpending
    obtain ⟨hrequested, hopen⟩ := hpending
    have hwithdrawn : (p.withdraw n).requested m = true := hrequested
    rw [withdraw_requested, if_neg (Nat.ne_of_lt hlt)] at hwithdrawn
    rw [pending, Bool.and_eq_true]
    exact ⟨hwithdrawn, hopen⟩
  have hnot := (List.find?_range_eq_some.mp (h.next.symm.trans hnext)).2.2 m hlt
  rw [hbefore] at hnot
  cases hnot

theorem request_command_end :
    (p.request n).command 0x20 = (p.command 0x20).request n := by
  rw [command_end, command_end]
  show (match firstLine p.inService with
    | some m => _
    | none => _) = _
  cases firstLine p.inService with
  | none => rfl
  | some m => rfl

end Pic

/-! ## The next interrupt -/

namespace PicPair

/-- Both controllers can be asked, what the slave reports has reached the
master, and `served` are the lines in service. -/
structure Settled (served : Option ℕ × Option ℕ) (s : PicPair) : Prop where
  masterReady : s.master.ready
  slaveReady : s.slave.ready
  wired : s.wired
  masterServes : s.master.Serves served.1
  slaveServes : s.slave.Serves served.2
  relayed : s.slave.next.isSome → s.master.requested 2

/-- The slave's request is left of a line that was withdrawn. -/
def Stale (s : PicPair) : Prop := s.master.next = some 2 ∧ s.slave.next = none

theorem nextLine_split :
    s.nextLine =
      (([0, 1].find? s.master.pending).or
        (if s.master.masked 2 then none
          else (firstLine s.slave.pending).map (· + 8))).or
        ([3, 4, 5, 6, 7].find? s.master.pending) := by
  have hlines : lines =
      [0, 1] ++ [8, 9, 10, 11, 12, 13, 14, 15] ++ [3, 4, 5, 6, 7] := rfl
  have hlow : [0, 1].find? s.deliverable = [0, 1].find? s.master.pending := by
    simp [List.find?_cons, deliverable]
  have hhigh : [3, 4, 5, 6, 7].find? s.deliverable =
      [3, 4, 5, 6, 7].find? s.master.pending := by
    simp [List.find?_cons, deliverable]
  have hslave : [8, 9, 10, 11, 12, 13, 14, 15].find? s.deliverable =
      if s.master.masked 2 then none
      else (firstLine s.slave.pending).map (· + 8) := by
    rw [← firstLine_slave]
    cases hmask : s.master.masked 2 with
    | true => simp [deliverable, hmask]
    | false => simp [List.find?_cons, deliverable, hmask]
  rw [nextLine, hlines, List.find?_append, List.find?_append, hlow, hhigh,
    hslave]

theorem Settled.masterNext (h : s.Settled (none, none)) :
    s.master.next =
      (([0, 1].find? s.master.pending).or
        (if s.master.pending 2 then some 2 else none)).or
        ([3, 4, 5, 6, 7].find? s.master.pending) := by
  rw [h.masterServes.next, firstLine_split]

/-- What the controllers have in mind for the processor. -/
theorem Settled.next_cases (h : s.Settled (none, none)) :
    (∃ n, s.nextLine = some n ∧ s.master.next = some n ∧ n < 8 ∧ n ≠ 2) ∨
    (∃ n, s.nextLine = some (n + 8) ∧ s.master.next = some 2 ∧
      s.slave.next = some n ∧ n < 8) ∨
    (s.nextLine = none ∧ s.master.next = none) ∨ s.Stale := by
  have hslave := h.slaveServes.next
  have hmaster := h.masterNext
  rw [nextLine_split]
  cases hlow : [0, 1].find? s.master.pending with
  | some n =>
      have hmem := List.mem_of_find?_eq_some hlow
      rw [hlow] at hmaster
      refine Or.inl ⟨n, rfl, hmaster, ?_⟩
      simp only [List.mem_cons, List.not_mem_nil, or_false] at hmem
      omega
  | none =>
      rw [hlow, Option.none_or] at hmaster
      rw [Option.none_or]
      by_cases hpending : s.master.pending 2 = true
      · have hopen : s.master.masked 2 = false := by
          have hboth := hpending
          rw [Pic.pending, Bool.and_eq_true, Bool.not_eq_true'] at hboth
          exact hboth.2
        rw [if_pos hpending, Option.some_or] at hmaster
        cases hnext : firstLine s.slave.pending with
        | none =>
            right
            right
            right
            exact ⟨hmaster, hslave.trans hnext⟩
        | some n =>
            right
            left
            refine ⟨n, ?_, hmaster, hslave.trans hnext, ?_⟩
            · rw [hopen]
              rfl
            · exact List.mem_range.mp (List.mem_of_find?_eq_some hnext)
      · rw [if_neg hpending, Option.none_or] at hmaster
        have hnone : (if s.master.masked 2 then none
            else (firstLine s.slave.pending).map (· + 8)) = none := by
          by_cases hmasked : s.master.masked 2 = true
          · rw [if_pos hmasked]
          · rw [if_neg hmasked, ← hslave]
            cases hsome : s.slave.next with
            | none => rfl
            | some n =>
                have hrequested := h.relayed (by rw [hsome]; rfl)
                rw [Bool.not_eq_true] at hmasked
                rw [Pic.pending, hrequested, hmasked] at hpending
                exact absurd rfl hpending
        rw [hnone, Option.none_or]
        cases hhigh : [3, 4, 5, 6, 7].find? s.master.pending with
        | none => exact Or.inr (Or.inr (Or.inl ⟨rfl, hmaster.trans hhigh⟩))
        | some n =>
            have hmem := List.mem_of_find?_eq_some hhigh
            refine Or.inl ⟨n, rfl, hmaster.trans hhigh, ?_⟩
            simp only [List.mem_cons, List.not_mem_nil, or_false] at hmem
            omega

end PicPair

end Lib
