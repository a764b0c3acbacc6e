import Mathlib.Order.Basic
import Mathlib.Tactic.Common

/-!
# Results that fuel does not change

A computation with fuel settles on a result if every large enough amount of
fuel gives it.
-/

namespace Lib

variable {α β : Type*} {f : ℕ → Option α} {a a' : α}

def Settles (f : ℕ → Option α) (a : α) : Prop :=
  ∃ least, ∀ fuel ≥ least, f fuel = some a

theorem Settles.unique (h : Settles f a) (h' : Settles f a') : a = a' := by
  obtain ⟨n, hn⟩ := h
  obtain ⟨n', hn'⟩ := h'
  have hboth := (hn (n + n') (by omega)).symm.trans (hn' (n + n') (by omega))
  exact Option.some.inj hboth

theorem settles_some (a : α) : Settles (fun _ => some a) a :=
  ⟨0, fun _ _ => rfl⟩

theorem Settles.bind {g : ℕ → α → Option β} {b : β} (h : Settles f a)
    (h' : Settles (fun fuel => g fuel a) b) :
    Settles (fun fuel => (f fuel).bind (g fuel)) b := by
  obtain ⟨n, hn⟩ := h
  obtain ⟨n', hn'⟩ := h'
  refine ⟨n + n', fun fuel hfuel => ?_⟩
  dsimp only
  rw [hn fuel (by omega)]
  exact hn' fuel (by omega)

theorem Settles.map {g : α → β} (h : Settles f a) :
    Settles (fun fuel => (f fuel).map g) (g a) := by
  obtain ⟨n, hn⟩ := h
  refine ⟨n, fun fuel hfuel => ?_⟩
  dsimp only
  rw [hn fuel hfuel, Option.map_some]

end Lib
