import Mathlib.Logic.Function.Iterate
import Otsos.Lib.ByteStrings

/-!
# Scanning a string with an escape character

A loop that takes the characters of a string one by one, and two of them at
once where the first is the escape character, looks for the end of the string
only between its steps.  It comes to an end there unless the last character is
an escape that is not itself behind an escape: then the step over it goes over
the terminator too.
-/

namespace Lib

/-- What is done with a plain character, and with the one behind an escape. -/
structure Scanner (σ : Type*) where
  escape : UInt8
  plain : σ → UInt8 → σ
  directive : σ → UInt8 → σ

/-- The scan between two steps, with the addresses that were read. -/
structure Scan (σ : Type*) where
  pos : ℕ
  reads : List ℕ
  state : σ
  stopped : Bool

inductive Piece where
  | plain (c : UInt8)
  | directive (c : UInt8)

def pieces (escape : UInt8) : List UInt8 → List Piece
  | [] => []
  | [c] => if c = escape then [] else [.plain c]
  | c :: d :: cs =>
      if c = escape then .directive d :: pieces escape cs
      else .plain c :: pieces escape (d :: cs)

/-- The string ends in an escape that nothing follows. -/
def LoneEscape (escape : UInt8) : List UInt8 → Prop
  | [] => False
  | [c] => c = escape
  | c :: d :: cs =>
      if c = escape then LoneEscape escape cs else LoneEscape escape (d :: cs)

variable {σ : Type*} {S : Scanner σ} {m : Memory} {s s' s'' : Scan σ}
  {cs : List UInt8}

namespace Scanner

def apply (S : Scanner σ) (state : σ) : Piece → σ
  | .plain c => S.plain state c
  | .directive c => S.directive state c

def pass (S : Scanner σ) (m : Memory) (s : Scan σ) : Scan σ :=
  if s.stopped then s
  else if m s.pos = 0 then
    { s with
      reads := s.pos :: s.reads
      stopped := true }
  else if m s.pos = S.escape then
    { s with
      pos := s.pos + 2
      reads := (s.pos + 1) :: s.pos :: s.reads
      state := S.directive s.state (m (s.pos + 1)) }
  else
    { s with
      pos := s.pos + 1
      reads := s.pos :: s.reads
      state := S.plain s.state (m s.pos) }

def Stops (S : Scanner σ) (m : Memory) (s s' : Scan σ) : Prop :=
  ∃ n, (S.pass m)^[n] s = s' ∧ s'.stopped = true

theorem pass_stopped (h : s.stopped = true) : S.pass m s = s := by
  rw [pass, if_pos h]

theorem iterate_stopped (h : s.stopped = true) (n : ℕ) :
    (S.pass m)^[n] s = s :=
  Function.iterate_fixed (pass_stopped h) n

theorem Stops.of_pass (h : S.Stops m (S.pass m s) s') : S.Stops m s s' := by
  obtain ⟨n, hn, hstopped⟩ := h
  exact ⟨n + 1, by rw [Function.iterate_succ_apply, hn], hstopped⟩

theorem Stops.pass (h : S.Stops m s s') : S.Stops m (S.pass m s) s' := by
  obtain ⟨n, hn, hstopped⟩ := h
  refine ⟨n, ?_, hstopped⟩
  rw [← Function.iterate_succ_apply, Function.iterate_succ_apply', hn,
    pass_stopped hstopped]

theorem Stops.unique (h : S.Stops m s s') (h' : S.Stops m s s'') :
    s' = s'' := by
  obtain ⟨n, rfl, hstopped⟩ := h
  obtain ⟨k, rfl, hstopped'⟩ := h'
  have hn := iterate_stopped (S := S) (m := m) hstopped k
  have hk := iterate_stopped (S := S) (m := m) hstopped' n
  rw [← Function.iterate_add_apply] at hn hk
  rw [← hn, ← hk, Nat.add_comm]

theorem Stops.reads_subset (h : S.Stops m s s') :
    ∀ r ∈ s.reads, r ∈ s'.reads := by
  obtain ⟨n, rfl, -⟩ := h
  intro r hr
  induction n generalizing s with
  | zero => exact hr
  | succ n ih =>
      rw [Function.iterate_succ_apply]
      apply ih
      unfold Scanner.pass
      split_ifs <;> simp [hr]

/-! ## One step -/

theorem pass_end (hopen : s.stopped = false) (hend : m s.pos = 0) :
    S.pass m s = { s with
      reads := s.pos :: s.reads
      stopped := true } := by
  rw [pass, if_neg (by simp [hopen]), if_pos hend]

theorem pass_plain (hopen : s.stopped = false) (hc : m s.pos ≠ 0)
    (hplain : m s.pos ≠ S.escape) :
    S.pass m s = { s with
      pos := s.pos + 1
      reads := s.pos :: s.reads
      state := S.plain s.state (m s.pos) } := by
  rw [pass, if_neg (by simp [hopen]), if_neg hc, if_neg hplain]

theorem pass_escape (hopen : s.stopped = false) (hc : m s.pos ≠ 0)
    (hescape : m s.pos = S.escape) :
    S.pass m s = { s with
      pos := s.pos + 2
      reads := (s.pos + 1) :: s.pos :: s.reads
      state := S.directive s.state (m (s.pos + 1)) } := by
  rw [pass, if_neg (by simp [hopen]), if_neg hc, if_pos hescape]

/-! ## The whole string -/

/-- The scan stops at the end of the string, with the pieces done in order. -/
def Scans (S : Scanner σ) (m : Memory) (s : Scan σ) (cs : List UInt8)
    (ps : List Piece) : Prop :=
  ∃ s', S.Stops m s s' ∧ s'.state = ps.foldl S.apply s.state ∧
    ∀ r ∈ s'.reads, r ∈ s.reads ∨ r ≤ s.pos + cs.length

theorem scans_nil (hopen : s.stopped = false) (hend : StringAt m s.pos []) :
    S.Scans m s [] [] := by
  refine ⟨_, ⟨1, pass_end hopen hend, rfl⟩, rfl, ?_⟩
  intro r hr
  rcases List.mem_cons.mp hr with rfl | hr
  · exact Or.inr (Nat.le_refl _)
  · exact Or.inl hr

theorem Scans.plain {c : UInt8} {ps : List Piece}
    (hopen : s.stopped = false) (hc : m s.pos = c) (hne : c ≠ 0)
    (hplain : c ≠ S.escape) (h : S.Scans m (S.pass m s) cs ps) :
    S.Scans m s (c :: cs) (.plain c :: ps) := by
  have hpass := pass_plain hopen (hc ▸ hne) (hc ▸ hplain)
  obtain ⟨s', hstops, hstate, hreads⟩ := h
  rw [hpass] at hstate hreads
  refine ⟨s', hstops.of_pass, by rw [hstate, hc]; rfl, ?_⟩
  intro r hr
  rw [List.length_cons]
  rcases hreads r hr with hold | hle
  · rcases List.mem_cons.mp hold with rfl | hold
    · exact Or.inr (by omega)
    · exact Or.inl hold
  · dsimp only at hle
    exact Or.inr (by omega)

theorem Scans.escape {c d : UInt8} {ps : List Piece}
    (hopen : s.stopped = false) (hc : m s.pos = c) (hne : c ≠ 0)
    (hescape : c = S.escape) (hd : m (s.pos + 1) = d)
    (h : S.Scans m (S.pass m s) cs ps) :
    S.Scans m s (c :: d :: cs) (.directive d :: ps) := by
  have hpass := pass_escape hopen (hc ▸ hne) (hc.trans hescape)
  obtain ⟨s', hstops, hstate, hreads⟩ := h
  rw [hpass] at hstate hreads
  refine ⟨s', hstops.of_pass, by rw [hstate, hd]; rfl, ?_⟩
  intro r hr
  rw [List.length_cons, List.length_cons]
  rcases hreads r hr with hold | hle
  · rcases List.mem_cons.mp hold with rfl | hold
    · exact Or.inr (by omega)
    · rcases List.mem_cons.mp hold with rfl | hold
      · exact Or.inr (by omega)
      · exact Or.inl hold
  · dsimp only at hle
    exact Or.inr (by omega)

theorem scans_string (hstring : StringAt m s.pos cs)
    (hpaired : ¬ LoneEscape S.escape cs) (hopen : s.stopped = false) :
    S.Scans m s cs (pieces S.escape cs) := by
  induction hcs : cs.length using Nat.strongRecOn generalizing s cs with
  | ind n ih =>
    match cs with
    | [] => exact scans_nil hopen hstring
    | [c] =>
        obtain ⟨hc, hne, hend⟩ := hstring
        have hplain : c ≠ S.escape := hpaired
        have hpass := pass_plain hopen (hc ▸ hne) (hc ▸ hplain)
        rw [pieces, if_neg hplain]
        refine Scans.plain hopen hc hne hplain ?_
        rw [hpass]
        exact scans_nil hopen hend
    | c :: d :: cs =>
        obtain ⟨hc, hne, hd, hdne, hrest⟩ := hstring
        simp only [List.length_cons] at hcs
        by_cases hescape : c = S.escape
        · have hpass := pass_escape hopen (hc ▸ hne) (hc.trans hescape)
          rw [LoneEscape, if_pos hescape] at hpaired
          rw [pieces, if_pos hescape]
          refine Scans.escape hopen hc hne hescape hd ?_
          rw [hpass]
          exact ih cs.length (by omega) hrest hpaired hopen rfl
        · have hpass := pass_plain hopen (hc ▸ hne) (hc ▸ hescape)
          rw [LoneEscape, if_neg hescape] at hpaired
          rw [pieces, if_neg hescape]
          refine Scans.plain hopen hc hne hescape ?_
          rw [hpass]
          exact ih (d :: cs).length (by rw [List.length_cons]; omega)
            ⟨hd, hdne, hrest⟩ hpaired hopen rfl

/-- Behind a lone escape the scan goes on with the byte after the
terminator. -/
theorem reads_beyond (hstops : S.Stops m s s')
    (hstring : StringAt m s.pos cs) (hlone : LoneEscape S.escape cs)
    (hopen : s.stopped = false) : s.pos + cs.length + 1 ∈ s'.reads := by
  induction hcs : cs.length using Nat.strongRecOn generalizing s cs with
  | ind n ih =>
    match cs with
    | [] => exact hlone.elim
    | [c] =>
        obtain ⟨hc, hne, -⟩ := hstring
        have hpass := pass_escape hopen (hc ▸ hne) (hc.trans hlone)
        -- the next step begins behind the terminator
        have hnext := hstops.pass
        have hread : s.pos + 2 ∈ (S.pass m (S.pass m s)).reads := by
          rw [hpass]
          unfold Scanner.pass
          split_ifs <;> simp_all
        have hmem := hnext.pass.reads_subset _ hread
        rw [← hcs]
        exact hmem
    | c :: d :: cs =>
        obtain ⟨hc, hne, hd, hdne, hrest⟩ := hstring
        simp only [List.length_cons] at hcs
        have hnext := hstops.pass
        by_cases hescape : c = S.escape
        · have hpass := pass_escape hopen (hc ▸ hne) (hc.trans hescape)
          rw [LoneEscape, if_pos hescape] at hlone
          rw [hpass] at hnext
          have hmem := ih cs.length (by omega) hnext hrest hlone hopen rfl
          rw [show s.pos + n + 1 = s.pos + 2 + cs.length + 1 by omega]
          exact hmem
        · have hpass := pass_plain hopen (hc ▸ hne) (hc ▸ hescape)
          rw [LoneEscape, if_neg hescape] at hlone
          rw [hpass] at hnext
          have hnextString : StringAt m (s.pos + 1) (d :: cs) :=
            ⟨hd, hdne, hrest⟩
          have hmem := ih (d :: cs).length (by rw [List.length_cons]; omega)
            hnext hnextString hlone hopen rfl
          rw [List.length_cons] at hmem
          rw [show s.pos + n + 1 = s.pos + 1 + (cs.length + 1) + 1 by omega]
          exact hmem

/-- The strings that a scan does not leave. -/
theorem stops_within_iff (hstring : StringAt m s.pos cs)
    (hopen : s.stopped = false) (hfresh : s.reads = []) :
    (∃ s', S.Stops m s s' ∧ ∀ r ∈ s'.reads, r ≤ s.pos + cs.length) ↔
      ¬ LoneEscape S.escape cs := by
  constructor
  · rintro ⟨s', hstops, hreads⟩ hlone
    have hle := hreads _ (reads_beyond hstops hstring hlone hopen)
    omega
  · intro hpaired
    obtain ⟨s', hstops, -, hreads⟩ := scans_string hstring hpaired hopen
    refine ⟨s', hstops, fun r hr => ?_⟩
    rcases hreads r hr with hold | hle
    · rw [hfresh] at hold
      cases hold
    · exact hle

end Scanner

end Lib
