import Otsos.Lib.Chains

/-!
# When a releasing walk ends

A walk that zeroes every link it follows can run into its own zeros.  In a map
whose links are zero, the end or larger than the block they leave, it ends
exactly if the links, as they were before the walk, lead from its first block
to the end; and then it visits no block twice.
-/

namespace Lib

variable {next next' : ℕ → ℕ} {eof limit b z : ℕ} {bs cs : List ℕ}
  {inside : ℕ → Bool}

/-- Following the links from a block one comes to the end. -/
inductive ReachesEnd (next : ℕ → ℕ) (eof : ℕ) : ℕ → Prop
  | done : ReachesEnd next eof eof
  | step {b : ℕ} (rest : ReachesEnd next eof (next b)) : ReachesEnd next eof b

theorem not_reachesEnd_self (hself : next b = b) (hb : b ≠ eof) :
    ¬ ReachesEnd next eof b := by
  intro h
  obtain ⟨c, hc⟩ : ∃ c, c = b := ⟨b, rfl⟩
  rw [← hc] at h
  induction h with
  | done => exact hb hc.symm
  | step rest ih =>
      subst hc
      exact ih hself

/-- The end is reached from the first block of a segment if it is reached from
where the segment leads. -/
theorem Links.reachesEnd (h : Links next z bs) (hz : ReachesEnd next eof z) :
    ReachesEnd next eof (bs.headD z) := by
  induction bs with
  | nil => exact hz
  | cons b bs ih =>
      rw [links_cons] at h
      rw [List.headD_cons]
      apply ReachesEnd.step
      rw [h.1]
      exact ih h.2

theorem Links.suffix (h : Links next eof (bs ++ cs)) : Links next eof cs := by
  induction bs with
  | nil => exact h
  | cons b bs ih => exact ih h.2

theorem ReachesEnd.links (h : ReachesEnd next eof b) :
    ∃ bs, Links next eof bs ∧ bs.headD eof = b ∧ bs.Nodup ∧ eof ∉ bs := by
  induction h with
  | done => exact ⟨[], trivial, rfl, List.nodup_nil, List.not_mem_nil⟩
  | @step b rest ih =>
      obtain ⟨bs, hlinks, hhead, hnodup, heof⟩ := ih
      by_cases hb : b = eof
      · exact ⟨[], trivial, hb.symm, List.nodup_nil, List.not_mem_nil⟩
      · have hlong : Links next eof (b :: bs) := ⟨hhead.symm, hlinks⟩
        have hmem : eof ∉ b :: bs := by
          rw [List.mem_cons, not_or]
          exact ⟨Ne.symm hb, heof⟩
        refine ⟨b :: bs, hlong, rfl, List.nodup_cons.mpr ⟨?_, hnodup⟩, hmem⟩
        -- a second visit would start the same way to the end once more
        intro hagain
        obtain ⟨before, after, rfl⟩ := List.append_of_mem hagain
        have hsame : b :: after = b :: (before ++ b :: after) :=
          hlinks.suffix.unique hlong
            (fun hend => heof (List.mem_append_right _ hend)) hmem rfl
        have hlen := congrArg List.length hsame
        simp only [List.length_cons, List.length_append] at hlen
        omega

/-- Every link is zero, the end, or a larger block inside the map. -/
def Increasing (next : ℕ → ℕ) (eof : ℕ) (inside : ℕ → Bool) : Prop :=
  ∀ b, inside b = true →
    next b = 0 ∨ next b = eof ∨ (b < next b ∧ inside (next b) = true)

theorem Increasing.congr (h : Increasing next eof inside)
    (hagree : ∀ b, inside b = true → next' b = next b) :
    Increasing next' eof inside := by
  intro b hb
  rw [hagree b hb]
  exact h b hb

theorem Increasing.unlinkAll (h : Increasing next eof inside) :
    Increasing (unlinkAll next bs) eof inside := by
  intro b hb
  by_cases hmem : b ∈ bs
  · exact Or.inl (unlinkAll_mem hmem)
  · rw [unlinkAll_not_mem hmem]
    exact h b hb

/-- Chaining increasing blocks keeps the links increasing. -/
theorem linkAll_increasing (hsorted : bs.Pairwise (· < ·)) :
    linkAll next eof bs b = next b ∨ linkAll next eof bs b = eof ∨
      (b < linkAll next eof bs b ∧ linkAll next eof bs b ∈ bs) := by
  induction bs generalizing next with
  | nil => exact Or.inl rfl
  | cons c bs ih =>
      obtain ⟨hlt, hsorted⟩ := List.pairwise_cons.mp hsorted
      rw [linkAll]
      rcases @ih (Function.update next c (bs.headD eof)) hsorted with
        hold | heof | ⟨hless, hmem⟩
      · rw [hold]
        by_cases hb : b = c
        · rw [hb, Function.update_self]
          cases bs with
          | nil => exact Or.inr (Or.inl rfl)
          | cons d bs =>
              exact Or.inr (Or.inr ⟨hlt d List.mem_cons_self, by simp⟩)
        · exact Or.inl (Function.update_of_ne hb _ _)
      · exact Or.inr (Or.inl heof)
      · exact Or.inr (Or.inr ⟨hless, List.mem_cons_of_mem c hmem⟩)

/-- The blocks up to the first link that does not increase. -/
theorem Increasing.segment (h : Increasing next eof inside)
    (hlimit : ∀ c, inside c = true → c < limit) (hin : inside b = true) :
    ∃ cs z, Links next z (b :: cs) ∧ (b :: cs).Pairwise (· < ·) ∧
      (∀ c ∈ b :: cs, inside c = true) ∧ (z = 0 ∨ z = eof) := by
  induction hk : limit - b using Nat.strong_induction_on generalizing b with
  | _ k ih =>
      have hone : ∀ c ∈ [b], inside c = true := by
        intro c hc
        rwa [List.mem_singleton.mp hc]
      rcases h b hin with hzero | heof | ⟨hlt, hnext⟩
      · exact ⟨[], 0, ⟨hzero, trivial⟩, List.pairwise_singleton _ _, hone,
          Or.inl rfl⟩
      · exact ⟨[], eof, ⟨heof, trivial⟩, List.pairwise_singleton _ _, hone,
          Or.inr rfl⟩
      · have hb := hlimit b hin
        obtain ⟨cs, z, hlinks, hsorted, hall, hz⟩ :=
          ih (limit - next b) (by omega) hnext rfl
        refine ⟨next b :: cs, z, ⟨rfl, hlinks⟩,
          List.pairwise_cons.mpr ⟨?_, hsorted⟩, ?_, hz⟩
        · intro c hc
          rcases List.mem_cons.mp hc with rfl | hc
          · exact hlt
          · exact hlt.trans ((List.pairwise_cons.mp hsorted).1 c hc)
        · intro c hc
          rcases List.mem_cons.mp hc with rfl | hc
          · exact hin
          · exact hall c hc

theorem Increasing.inside_of_links (h : Increasing next eof inside)
    (hzero : inside 0 = true) (hlinks : Links next eof bs) (heof : eof ∉ bs)
    (hhead : bs ≠ [] → inside (bs.headD eof) = true) :
    ∀ b ∈ bs, inside b = true := by
  induction bs with
  | nil => exact fun b hb => absurd hb List.not_mem_nil
  | cons b bs ih =>
      rw [List.mem_cons, not_or] at heof
      have hb : inside b = true := hhead (List.cons_ne_nil b bs)
      intro c hc
      rcases List.mem_cons.mp hc with rfl | hc
      · exact hb
      · refine ih hlinks.2 heof.2 ?_ c hc
        intro hne
        rw [← hlinks.1]
        rcases h b hb with hfree | hend | ⟨-, hnext⟩
        · rw [hfree]
          exact hzero
        · rw [hlinks.1] at hend
          have hmem : bs.headD eof ∈ bs := by
            cases bs with
            | nil => exact absurd rfl hne
            | cons d bs => exact List.mem_cons_self
          rw [hend] at hmem
          exact absurd hmem heof.2
        · exact hnext

theorem Increasing.way (h : Increasing next eof inside)
    (hzero : inside 0 = true) (hin : inside b = true)
    (hreach : ReachesEnd next eof b) :
    ∃ bs, Links next eof bs ∧ bs.headD eof = b ∧ bs.Nodup ∧ eof ∉ bs ∧
      ∀ c ∈ bs, inside c = true := by
  obtain ⟨bs, hlinks, hhead, hnodup, heof⟩ := hreach.links
  exact ⟨bs, hlinks, hhead, hnodup, heof,
    h.inside_of_links hzero hlinks heof fun _ => by rwa [hhead]⟩

theorem Increasing.ne_eof (hlimit : ∀ c, inside c = true → c < limit)
    (heof : limit ≤ eof) (hin : inside b = true) : b ≠ eof := by
  have hb := hlimit b hin
  omega

theorem releaseWalk_segment {fuel : ℕ} (hlinks : Links next z cs)
    (hnodup : cs.Nodup) (hinside : ∀ c ∈ cs, inside c = true)
    (heof : eof ∉ cs) :
    releaseWalk eof inside next (cs.length + fuel) (cs.headD z) =
      (releaseWalk eof inside (unlinkAll next cs) fuel z).map (cs ++ ·) := by
  induction cs generalizing next with
  | nil =>
      have hempty : unlinkAll next [] = next := by
        funext c
        exact unlinkAll_not_mem List.not_mem_nil
      simp [hempty]
  | cons b cs ih =>
      obtain ⟨hb, hnodup⟩ := List.nodup_cons.mp hnodup
      rw [List.mem_cons, not_or] at heof
      have hin := hinside b List.mem_cons_self
      have hrest : Links (Function.update next b 0) z cs := by
        refine hlinks.2.congr fun c hc => Function.update_of_ne ?_ _ _
        rintro rfl
        exact hb hc
      rw [List.headD_cons, List.length_cons, Nat.add_right_comm,
        releaseWalk_visit (by simp [hin, Ne.symm heof.1]), hlinks.1,
        ih hrest hnodup (fun c hc => hinside c (List.mem_cons_of_mem b hc))
          heof.2, unlinkAll_update, Option.map_map]
      rfl

/-- The segment that a walk has visited is followed by blocks in use only, so
it is not met again on the way to the end. -/
theorem Links.of_unlinkAll (h : Links (unlinkAll next cs) eof bs)
    (hsorted : bs.Pairwise (· < ·)) (heof : eof ≠ 0) :
    Links next eof bs := by
  refine h.congr fun b hb => ?_
  have hused := h.next_ne_zero hsorted heof hb
  by_cases hmem : b ∈ cs
  · exact absurd (unlinkAll_mem hmem) hused
  · exact (unlinkAll_not_mem hmem).symm

/-- A walk ends if and only if the links it starts with lead to the end. -/
theorem Increasing.releaseWalk_ends_iff (h : Increasing next eof inside)
    (hlimit : ∀ c, inside c = true → c < limit) (heof : limit ≤ eof)
    (hin : inside b = true) (hzero : inside 0 = true) :
    (∃ fuel bs, releaseWalk eof inside next fuel b = some bs) ↔
      ReachesEnd next eof b := by
  have hpos : eof ≠ 0 := Ne.symm (Increasing.ne_eof hlimit heof hzero)
  have hnot : ∀ {ds : List ℕ}, (∀ c ∈ ds, inside c = true) → eof ∉ ds :=
    fun hall hmem => Increasing.ne_eof hlimit heof (hall _ hmem) rfl
  constructor
  · rintro ⟨fuel, bs, hwalk⟩
    obtain ⟨cs, z, hlinks, hsorted, hall, hz | hz⟩ := h.segment hlimit hin
    · -- the first zero: the walk goes on from block zero
      subst hz
      refine hlinks.reachesEnd ?_
      have hlong := releaseWalk_mono hwalk
        (show fuel ≤ (b :: cs).length + fuel by omega)
      have hfirst := @releaseWalk_segment _ eof 0 _ inside fuel hlinks
        (hsorted.imp fun hlt => Nat.ne_of_lt hlt) hall (hnot hall)
      rw [List.headD_cons, hlong] at hfirst
      have hunlinked : Increasing (Lib.unlinkAll next (b :: cs)) eof inside :=
        h.unlinkAll
      obtain ⟨cs₀, z₀, hlinks₀, hsorted₀, hall₀, hz₀ | hz₀⟩ :=
        hunlinked.segment hlimit hzero
      · -- a second zero: block zero is free by now
        subst hz₀
        obtain ⟨bs₀, hwalk₀, -⟩ := Option.map_eq_some_iff.mp hfirst.symm
        have hlong₀ := releaseWalk_mono hwalk₀
          (show fuel ≤ (0 :: cs₀).length + fuel by omega)
        have hsecond := @releaseWalk_segment _ eof 0 _ inside fuel hlinks₀
          (hsorted₀.imp fun hlt => Nat.ne_of_lt hlt) hall₀ (hnot hall₀)
        rw [List.headD_cons, hlong₀, releaseWalk_stuck
          (by simp [hzero, Ne.symm hpos])
          (unlinkAll_mem List.mem_cons_self)] at hsecond
        cases hsecond
      · subst hz₀
        exact (hlinks₀.of_unlinkAll hsorted₀ hpos).reachesEnd .done
    · subst hz
      exact hlinks.reachesEnd .done
  · intro hreach
    obtain ⟨bs, hlinks, hhead, hnodup, hmem, hall⟩ := h.way hzero hin hreach
    exact ⟨bs.length + 1, bs, by
      rw [← hhead]
      exact releaseWalk_links hlinks hnodup hall hmem (by omega)⟩

end Lib
