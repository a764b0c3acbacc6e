import Mathlib.Data.List.Basic
import Mathlib.Logic.Function.Basic

/-!
# Stores that share cells

A store over addresses may be kept in cells, several addresses to a cell.  It
answers like a store with a cell of its own for every address as long as no
read finds a cell last written through another address with something else.
-/

namespace Lib

variable {α β γ δ : Type*}

inductive StoreOp (α δ : Type*) where
  | read (a : α)
  | write (a : α) (v : δ)

variable [DecidableEq β] [DecidableEq γ]

/-- What the reads answer if `a` is kept in the cell `cell a`. -/
def answers (cell : α → β) (store : β → δ) : List (StoreOp α δ) → List δ
  | [] => []
  | .read a :: ops => store (cell a) :: answers cell store ops
  | .write a v :: ops => answers cell (Function.update store (cell a) v) ops

/-- The cells after a list of operations. -/
def afterOps (cell : α → β) (store : β → δ) : List (StoreOp α δ) → β → δ
  | [] => store
  | .read _ :: ops => afterOps cell store ops
  | .write a v :: ops => afterOps cell (Function.update store (cell a) v) ops

/-- What the last write to the cell of `a` put there. -/
def lastWrite (cell : α → β) (a : α) : List (StoreOp α δ) → Option δ
  | [] => none
  | .read _ :: ops => lastWrite cell a ops
  | .write b v :: ops =>
      (lastWrite cell a ops).or (if cell b = cell a then some v else none)

section

variable {cell : α → β} {store : β → δ} {ops : List (StoreOp α δ)} {a : α}

theorem afterOps_eq : afterOps cell store ops (cell a) =
    (lastWrite cell a ops).getD (store (cell a)) := by
  induction ops generalizing store with
  | nil => rfl
  | cons op ops ih =>
      cases op with
      | read b => exact ih
      | write b v =>
          rw [afterOps, ih, lastWrite]
          cases lastWrite cell a ops with
          | some w => rfl
          | none =>
              by_cases hcell : cell b = cell a
              · simp [hcell]
              · simp [hcell, Function.update_of_ne (Ne.symm hcell)]

/-- Without another address written to the cell of `a`, its last write is the
one through `a`. -/
theorem lastWrite_eq [DecidableEq α]
    (h : ∀ b v, .write b v ∈ ops → cell b = cell a → b = a) :
    lastWrite cell a ops = lastWrite id a ops := by
  induction ops with
  | nil => rfl
  | cons op ops ih =>
      have hrest := ih fun b v hb => h b v (List.mem_cons_of_mem op hb)
      cases op with
      | read b => exact hrest
      | write b v =>
          have hcell : cell b = cell a ↔ id b = id a :=
            ⟨h b v List.mem_cons_self, fun hb => congrArg cell hb⟩
          simp only [lastWrite, hrest, hcell]

end

/-! ## Two layouts of one store -/

variable {cell : α → β} {store : β → δ} {cell' : α → γ} {store' : γ → δ}
  {ops : List (StoreOp α δ)}

/-- The reads of `ops`, each after the operations before it. -/
def EveryRead (ops : List (StoreOp α δ))
    (P : List (StoreOp α δ) → α → Prop) : Prop :=
  ∀ before a after, ops = before ++ .read a :: after → P before a

theorem everyRead_cons {op : StoreOp α δ}
    {P : List (StoreOp α δ) → α → Prop} :
    EveryRead (op :: ops) P ↔
      (∀ a, op = .read a → P [] a) ∧
        EveryRead ops fun before => P (op :: before) := by
  constructor
  · intro h
    constructor
    · intro a hop
      exact h [] a ops (by rw [hop, List.nil_append])
    · intro before a after hsplit
      exact h (op :: before) a after (by rw [hsplit, List.cons_append])
  · rintro ⟨hhead, htail⟩ before a after hsplit
    cases before with
    | nil => exact hhead a (List.cons.inj hsplit).1
    | cons op' before =>
        rw [List.cons_append, List.cons.injEq] at hsplit
        rw [← hsplit.1]
        exact htail before a after hsplit.2

/-- Two layouts give the same answers exactly if every read finds the same in
both. -/
theorem answers_eq_iff : answers cell store ops = answers cell' store' ops ↔
    EveryRead ops fun before a =>
      afterOps cell store before (cell a) =
        afterOps cell' store' before (cell' a) := by
  induction ops generalizing store store' with
  | nil =>
      refine iff_of_true rfl ?_
      intro before a after hsplit
      simp at hsplit
  | cons op ops ih =>
      rw [everyRead_cons]
      cases op with
      | read b =>
          rw [answers, answers, List.cons.injEq, ih]
          refine and_congr ?_ Iff.rfl
          simp [afterOps]
      | write b v =>
          rw [answers, answers, ih]
          simp [afterOps]

end Lib
