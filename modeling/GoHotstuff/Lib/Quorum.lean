import Mathlib.Data.Finset.Card

/-!
# Quorum intersection

Two subsets of a finite set that together have more elements than the set and a third set `Z` have an element in
common outside `Z`.  With `Z` the faulty members of a system this is the counting step of every quorum protocol.
-/

namespace Lib

theorem exists_mem_inter_notMem {α : Type*} [DecidableEq α] {A B U Z : Finset α} (hA : A ⊆ U) (hB : B ⊆ U)
    (h : U.card + Z.card < A.card + B.card) : ∃ x, x ∈ A ∧ x ∈ B ∧ x ∉ Z := by
  have hunion : (A ∪ B).card ≤ U.card := Finset.card_le_card (Finset.union_subset hA hB)
  have hcount := Finset.card_union_add_card_inter A B
  have hlt : Z.card < (A ∩ B).card := by omega
  obtain ⟨x, hx, hxZ⟩ := Finset.exists_mem_notMem_of_card_lt_card hlt
  rw [Finset.mem_inter] at hx
  exact ⟨x, hx.1, hx.2, hxZ⟩

end Lib
