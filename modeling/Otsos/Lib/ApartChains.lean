import Otsos.Lib.Chains

/-!
# Chains that keep apart

What is left of an allocation table once its writes were cut short: the chains
of the owners still end, and share no block, but blocks may be in use that
belong to no owner.  New chains are taken from blocks that are free, so they
stay apart from the others.
-/

namespace Lib

variable {ι : Type*} {next next' : ℕ → ℕ} {eof limit : ℕ}
  {domain : ℕ → Prop} {chain : ι → List ℕ}

structure ApartChains (next : ℕ → ℕ) (eof limit : ℕ) (domain : ℕ → Prop)
    (chain : ι → List ℕ) : Prop where
  links : ∀ i, Links next eof (chain i)
  increasing : ∀ i, (chain i).Pairwise (· < ·)
  inside : ∀ i, ∀ b ∈ chain i, domain b ∧ b < limit
  disjoint : ∀ i j b, b ∈ chain i → b ∈ chain j → i = j

theorem ChainTable.apart (h : ChainTable next eof limit domain chain) :
    ApartChains next eof limit domain chain :=
  ⟨h.links, h.increasing, h.inside, h.disjoint⟩

/-- No block of a chain is free. -/
theorem ApartChains.used {i : ι} {b : ℕ}
    (h : ApartChains next eof limit domain chain) (heof : eof ≠ 0)
    (hb : b ∈ chain i) : next b ≠ 0 :=
  (h.links i).next_ne_zero (h.increasing i) heof hb

theorem ApartChains.nodup (h : ApartChains next eof limit domain chain)
    (i : ι) : (chain i).Nodup :=
  (h.increasing i).imp fun hlt => Nat.ne_of_lt hlt

variable [DecidableEq ι]

/-- An owner gets another chain, and no link of the others changes. -/
theorem ApartChains.exchange {i : ι} {bs : List ℕ}
    (h : ApartChains next eof limit domain chain)
    (hagree : ∀ j ≠ i, ∀ b ∈ chain j, next' b = next b)
    (hlinks : Links next' eof bs) (hsorted : bs.Pairwise (· < ·))
    (hinside : ∀ b ∈ bs, domain b ∧ b < limit)
    (hfresh : ∀ j ≠ i, ∀ b ∈ chain j, b ∉ bs) :
    ApartChains next' eof limit domain (Function.update chain i bs) := by
  refine ⟨?_, ?_, ?_, ?_⟩
  · intro j
    by_cases hj : j = i
    · rw [hj, Function.update_self]
      exact hlinks
    · rw [Function.update_of_ne hj]
      exact (h.links j).congr (hagree j hj)
  · intro j
    by_cases hj : j = i
    · rw [hj, Function.update_self]
      exact hsorted
    · rw [Function.update_of_ne hj]
      exact h.increasing j
  · intro j b hb
    by_cases hj : j = i
    · rw [hj, Function.update_self] at hb
      exact hinside b hb
    · rw [Function.update_of_ne hj] at hb
      exact h.inside j b hb
  · intro j k b hbj hbk
    by_cases hj : j = i <;> by_cases hk : k = i
    · rw [hj, hk]
    · rw [hj, Function.update_self] at hbj
      rw [Function.update_of_ne hk] at hbk
      exact absurd hbj (hfresh k hk b hbk)
    · rw [Function.update_of_ne hj] at hbj
      rw [hk, Function.update_self] at hbk
      exact absurd hbk (hfresh j hj b hbj)
    · rw [Function.update_of_ne hj] at hbj
      rw [Function.update_of_ne hk] at hbk
      exact h.disjoint j k b hbj hbk

/-- An owner gives up its chain. -/
theorem ApartChains.drop {i : ι}
    (h : ApartChains next eof limit domain chain)
    (hagree : ∀ j ≠ i, ∀ b ∈ chain j, next' b = next b) :
    ApartChains next' eof limit domain (Function.update chain i []) := by
  refine h.exchange hagree trivial List.Pairwise.nil ?_ ?_
  · intro b hb
    exact absurd hb List.not_mem_nil
  · intro j _ b _
    exact List.not_mem_nil

end Lib
