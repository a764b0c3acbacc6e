import Mathlib.Data.List.Nodup
import Mathlib.Tactic.Common

/-!
# Walks along a partial function

From each node there is at most one step.  A walk that comes to a node without
a step has passed no node twice, since otherwise it would go round for ever; so
whether the walk from a node ends depends only on the nodes it passes.
Redirecting the step of one node matters to the walks that pass it, and to
those only as far as the walk from the new target is concerned.
-/

namespace Lib

variable {α : Type*} {next next' : α → Option α} {x y z e p : α}
  {xs ys : List α}

/-- The walk from `x` passes the nodes of the list and ends. -/
inductive Walk (next : α → Option α) : α → List α → Prop
  | stop {x : α} (h : next x = none) : Walk next x []
  | pass {x y : α} {xs : List α} (h : next x = some y)
      (rest : Walk next y xs) : Walk next x (x :: xs)

def Ends (next : α → Option α) (x : α) : Prop := ∃ xs, Walk next x xs

theorem Walk.unique (h : Walk next x xs) (h' : Walk next x ys) : xs = ys := by
  induction h generalizing ys with
  | stop hstop =>
      cases h' with
      | stop _ => rfl
      | pass hpass _ =>
          rw [hstop] at hpass
          cases hpass
  | pass hpass rest ih =>
      cases h' with
      | stop hstop =>
          rw [hstop] at hpass
          cases hpass
      | pass hpass' rest' =>
          rw [hpass] at hpass'
          cases hpass'
          rw [ih rest']

theorem Walk.next_ne_none (h : Walk next x xs) (hz : z ∈ xs) :
    next z ≠ none := by
  induction h with
  | stop _ => simp at hz
  | pass hpass rest ih =>
      rcases List.mem_cons.mp hz with rfl | hz
      · rw [hpass]
        simp
      · exact ih hz

/-- From a node that is passed the walk goes on in the same way. -/
theorem Walk.suffix (h : Walk next x xs) (hz : z ∈ xs) :
    ∃ before after, xs = before ++ z :: after ∧
      Walk next z (z :: after) := by
  induction h with
  | stop _ => simp at hz
  | @pass x y xs hpass rest ih =>
      rcases List.mem_cons.mp hz with rfl | hz
      · exact ⟨[], xs, rfl, .pass hpass rest⟩
      · obtain ⟨before, after, rfl, hwalk⟩ := ih hz
        exact ⟨x :: before, after, rfl, hwalk⟩

theorem Walk.nodup (h : Walk next x xs) : xs.Nodup := by
  induction h with
  | stop _ => exact List.nodup_nil
  | @pass x y xs hpass rest ih =>
      refine List.nodup_cons.mpr ⟨?_, ih⟩
      -- a second visit would be followed by the whole walk once more
      intro hagain
      obtain ⟨before, after, rfl, hwalk⟩ := rest.suffix hagain
      have hsame := hwalk.unique (.pass hpass rest)
      have hlen := congrArg List.length hsame
      simp only [List.length_cons, List.length_append] at hlen
      omega

/-- A walk that can take a step takes it. -/
theorem Walk.step_inv (hwalk : Walk next x xs) (h : next x = some y) :
    ∃ ys, xs = x :: ys ∧ Walk next y ys := by
  cases hwalk with
  | stop hstop =>
      rw [h] at hstop
      cases hstop
  | pass hpass rest =>
      rw [h] at hpass
      cases hpass
      exact ⟨_, rfl, rest⟩

theorem Ends.step (h : next x = some y) : Ends next x ↔ Ends next y := by
  constructor
  · rintro ⟨xs, hwalk⟩
    obtain ⟨ys, -, hrest⟩ := hwalk.step_inv h
    exact ⟨ys, hrest⟩
  · rintro ⟨xs, hwalk⟩
    exact ⟨_, .pass h hwalk⟩

theorem not_ends_self (h : next x = some x) : ¬ Ends next x := by
  rintro ⟨xs, hwalk⟩
  obtain ⟨ys, rfl, hrest⟩ := hwalk.step_inv h
  have hlen := congrArg List.length (hrest.unique hwalk)
  rw [List.length_cons] at hlen
  omega

/-! ## Changed steps -/

/-- `next'` stops where `next` does, and steps as it does but from `e`. -/
structure Redirected (next next' : α → Option α) (e : α) : Prop where
  stops : ∀ z, next' z = none ↔ next z = none
  other : ∀ z, z ≠ e → next' z = next z

theorem Redirected.symm (h : Redirected next next' e) :
    Redirected next' next e :=
  ⟨fun z => (h.stops z).symm, fun z hz => (h.other z hz).symm⟩

theorem Redirected.walk (h : Redirected next next' e)
    (hwalk : Walk next x xs) (he : e ∉ xs) : Walk next' x xs := by
  induction hwalk with
  | stop hstop => exact .stop ((h.stops _).mpr hstop)
  | @pass x y xs hpass rest ih =>
      rw [List.mem_cons, not_or] at he
      refine .pass ?_ (ih he.2)
      rw [h.other x (Ne.symm he.1), hpass]

theorem Redirected.ends_through (h : Redirected next next' e)
    (hwalk : Walk next x xs) (he : e ∈ xs) : Ends next' x ↔ Ends next' e := by
  induction hwalk with
  | stop _ => simp at he
  | @pass x y xs hpass rest ih =>
      by_cases hx : e = x
      · rw [hx]
      · have hpass' : next' x = some y := by
          rw [h.other x (Ne.symm hx), hpass]
        rw [Ends.step hpass']
        exact ih ((List.mem_cons.mp he).resolve_left hx)

/-- After a redirection to `p` the walk ends exactly if it does not pass the
node, or the walk from `p` ends without passing it. -/
theorem Redirected.ends_iff (h : Redirected next next' e)
    (hwalk : Walk next x xs) (htarget : next' e ≠ none → next' e = some p) :
    Ends next' x ↔ (e ∈ xs → ∃ ps, Walk next p ps ∧ e ∉ ps) := by
  by_cases he : e ∈ xs
  · have hsome : next' e = some p := by
      apply htarget
      rw [Ne, h.stops]
      exact hwalk.next_ne_none he
    rw [h.ends_through hwalk he, Ends.step hsome]
    constructor
    · rintro ⟨ps, hends⟩ _
      have havoid : e ∉ ps :=
        (List.nodup_cons.mp (Walk.pass hsome hends).nodup).1
      exact ⟨ps, h.symm.walk hends havoid, havoid⟩
    · intro hcond
      obtain ⟨ps, hends, havoid⟩ := hcond he
      exact ⟨ps, h.walk hends havoid⟩
  · exact ⟨fun _ hmem => absurd hmem he, fun _ => ⟨xs, h.walk hwalk he⟩⟩

/-! ## Computing the walk -/

/-- The nodes passed within `fuel` steps; `none` if the walk has not ended. -/
def walkFrom (next : α → Option α) : ℕ → α → Option (List α)
  | 0, _ => none
  | fuel + 1, x =>
      match next x with
      | none => some []
      | some y => (walkFrom next fuel y).map (x :: ·)

theorem walkFrom_sound {fuel : ℕ} (h : walkFrom next fuel x = some xs) :
    Walk next x xs := by
  induction fuel generalizing x xs with
  | zero => cases h
  | succ fuel ih =>
      rw [walkFrom] at h
      cases hnext : next x with
      | none =>
          rw [hnext] at h
          cases h
          exact .stop hnext
      | some y =>
          simp only [hnext] at h
          obtain ⟨ys, hys, rfl⟩ := Option.map_eq_some_iff.mp h
          exact .pass hnext (ih hys)

theorem walkFrom_complete (h : Walk next x xs) {fuel : ℕ}
    (hfuel : xs.length < fuel) : walkFrom next fuel x = some xs := by
  induction h generalizing fuel with
  | stop hstop =>
      cases fuel with
      | zero => omega
      | succ fuel => rw [walkFrom, hstop]
  | pass hpass rest ih =>
      cases fuel with
      | zero => omega
      | succ fuel =>
          rw [List.length_cons] at hfuel
          rw [walkFrom, hpass]
          simp only [ih (Nat.lt_of_succ_lt_succ hfuel), Option.map_some]

theorem walkFrom_iff :
    (∃ fuel, walkFrom next fuel x = some xs) ↔ Walk next x xs :=
  ⟨fun ⟨_, h⟩ => walkFrom_sound h,
    fun h => ⟨_, walkFrom_complete h (Nat.lt_succ_self _)⟩⟩

end Lib
