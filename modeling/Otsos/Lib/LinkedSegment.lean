import Mathlib.Data.Nat.Notation
import Mathlib.Tactic.Common

/-!
# Doubly linked segments

The pointer fields of a doubly linked list are two functions from addresses to
addresses.  A segment lists the addresses reached by following `next`; in it
`prev` is the inverse of `next`.  The two ends are parameters, so a segment can
be taken apart at any place and one part of it exchanged for another.
-/

namespace Lib

/-- From `p` on, `next` visits exactly `xs` and then `q`, and `prev` leads
back. -/
def Linked (next prev : ℕ → ℕ) : ℕ → List ℕ → ℕ → Prop
  | _, [], _ => True
  | p, x :: xs, q =>
      prev x = p ∧ next x = xs.headD q ∧ Linked next prev x xs q

/-- The address before the end of a segment that starts after `p`. -/
def lastFrom : ℕ → List ℕ → ℕ
  | p, [] => p
  | _, x :: xs => lastFrom x xs

variable {next prev next' prev' : ℕ → ℕ}

@[simp] theorem linked_nil (p q : ℕ) : Linked next prev p [] q := trivial

@[simp] theorem linked_cons {p q x : ℕ} {xs : List ℕ} :
    Linked next prev p (x :: xs) q ↔
      prev x = p ∧ next x = xs.headD q ∧ Linked next prev x xs q := Iff.rfl

@[simp] theorem lastFrom_nil (p : ℕ) : lastFrom p [] = p := rfl

@[simp] theorem lastFrom_cons (p x : ℕ) (xs : List ℕ) :
    lastFrom p (x :: xs) = lastFrom x xs := rfl

@[simp] theorem lastFrom_append (p : ℕ) (xs ys : List ℕ) :
    lastFrom p (xs ++ ys) = lastFrom (lastFrom p xs) ys := by
  induction xs generalizing p with
  | nil => rfl
  | cons x xs ih => simp [ih]

@[simp] theorem headD_append (xs ys : List ℕ) (q : ℕ) :
    (xs ++ ys).headD q = xs.headD (ys.headD q) := by
  cases xs <;> rfl

/-- A segment of a concatenation: both halves and the seam. -/
theorem linked_append {p q : ℕ} {xs ys : List ℕ} :
    Linked next prev p (xs ++ ys) q ↔
      Linked next prev p xs (ys.headD q) ∧
        Linked next prev (lastFrom p xs) ys q := by
  induction xs generalizing p with
  | nil => simp
  | cons x xs ih =>
      simp only [List.cons_append, linked_cons, headD_append,
        lastFrom_cons, ih]
      constructor
      · rintro ⟨hp, hn, hxs, hys⟩
        exact ⟨⟨hp, hn, hxs⟩, hys⟩
      · rintro ⟨⟨hp, hn, hxs⟩, hys⟩
        exact ⟨hp, hn, hxs, hys⟩

theorem Linked.congr {p q : ℕ} {xs : List ℕ}
    (h : Linked next prev p xs q)
    (hagree : ∀ x ∈ xs, next' x = next x ∧ prev' x = prev x) :
    Linked next' prev' p xs q := by
  induction xs generalizing p with
  | nil => trivial
  | cons x xs ih =>
      obtain ⟨hp, hn, hrest⟩ := h
      have hx := hagree x (by simp)
      refine ⟨hx.2.trans hp, hx.1.trans hn, ih hrest ?_⟩
      intro y hy
      exact hagree y (List.mem_cons_of_mem x hy)

/-- Moving the predecessor of a segment touches only the `prev` field of its
first address. -/
theorem Linked.relink {p p' q : ℕ} {xs : List ℕ}
    (h : Linked next prev p xs q)
    (hhead : ∀ x ∈ xs.head?, next' x = next x ∧ prev' x = p')
    (htail : ∀ x ∈ xs.tail, next' x = next x ∧ prev' x = prev x) :
    Linked next' prev' p' xs q := by
  cases xs with
  | nil => trivial
  | cons x xs =>
      obtain ⟨-, hn, hrest⟩ := h
      have hx := hhead x (by simp)
      exact ⟨hx.2, hx.1.trans hn, hrest.congr htail⟩

/-- Exchange the middle of a linked segment.  The new middle must start at the
same address, and only the `prev` field after it has to change. -/
theorem Linked.exchange {p q m : ℕ} {xs mid mid' ys : List ℕ}
    (h : Linked next prev p (xs ++ (m :: mid) ++ ys) q)
    (hleft : ∀ x ∈ xs, next' x = next x ∧ prev' x = prev x)
    (hmid : Linked next' prev' (lastFrom p xs) (m :: mid') (ys.headD q))
    (hhead : ∀ y ∈ ys.head?, next' y = next y ∧ prev' y = lastFrom m mid')
    (htail : ∀ y ∈ ys.tail, next' y = next y ∧ prev' y = prev y) :
    Linked next' prev' p (xs ++ (m :: mid') ++ ys) q := by
  rw [linked_append, linked_append] at h ⊢
  obtain ⟨⟨hxs, -⟩, hys⟩ := h
  refine ⟨⟨hxs.congr hleft, hmid⟩, ?_⟩
  rw [lastFrom_append, lastFrom_cons]
  exact hys.relink hhead htail

end Lib
