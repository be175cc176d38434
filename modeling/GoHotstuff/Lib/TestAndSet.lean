import Mathlib.Order.Defs.PartialOrder

/-!
# A shared value that is tested and then written

Agents raise a shared value: each tests that what it wants to write is larger, and writes it later.  As long as an agent
tests only when no other is between its test and its write, the value never decreases and no two agents write the same.
-/

namespace Lib

/-- The value, for each agent what it may still write after its test, and what it has written and stands by. -/
structure Shared (ι α : Type) where
  value : α
  claim : ι → Option α
  own : ι → Option α

namespace Shared

variable {ι α : Type} [Preorder α] {r r' : Shared ι α} {i : ι}

/-- What agent `i` can do.  It may also give up. -/
inductive Access (r : Shared ι α) (i : ι) (r' : Shared ι α) : Prop
  | keep (hv : r'.value = r.value) (hc : ∀ x ∈ r'.claim i, x ∈ r.claim i) (ho : ∀ x ∈ r'.own i, x ∈ r.own i)
  | test {x : α} (hfree : ∀ j, r.claim j = none) (hv : r'.value = r.value) (hlt : r.value < x)
      (hc : r'.claim i = some x) (ho : r'.own i = none)
  | write {x : α} (hc : r.claim i = some x) (hv : r'.value = x) (hc' : r'.claim i = none) (ho : ∀ y ∈ r'.own i, y = x)

structure Ordered (r : Shared ι α) : Prop where
  single : ∀ {j k x y}, r.claim j = some x → r.claim k = some y → j = k
  above : ∀ {j x}, r.claim j = some x → r.value < x
  below : ∀ {j x}, r.own j = some x → x ≤ r.value
  distinct : ∀ {j k x}, r.own j = some x → r.own k = some x → j = k

theorem Ordered.mono (h : r.Ordered) (hv : r'.value = r.value) (hc : ∀ {j x}, r'.claim j = some x → r.claim j = some x)
    (ho : ∀ {j x}, r'.own j = some x → r.own j = some x) : r'.Ordered where
  single hj hk := h.single (hc hj) (hc hk)
  above hj := by
    rw [hv]
    exact h.above (hc hj)
  below hj := by
    rw [hv]
    exact h.below (ho hj)
  distinct hj hk := h.distinct (ho hj) (ho hk)

/-- One access keeps the invariant and does not decrease the value. -/
theorem Ordered.access (h : r.Ordered) (hothers : ∀ j, j ≠ i → r'.claim j = r.claim j ∧ r'.own j = r.own j)
    (a : Access r i r') : r.value ≤ r'.value ∧ r'.Ordered := by
  have hclaim : ∀ {j x}, r'.claim j = some x → j = i ∨ r.claim j = some x := by
    intro j x hj
    by_cases hji : j = i
    · exact Or.inl hji
    · exact Or.inr ((hothers j hji).1 ▸ hj)
  have hown : ∀ {j x}, r'.own j = some x → j = i ∨ r.own j = some x := by
    intro j x hj
    by_cases hji : j = i
    · exact Or.inl hji
    · exact Or.inr ((hothers j hji).2 ▸ hj)
  cases a with
  | keep hv hc ho =>
    refine ⟨le_of_eq hv.symm, h.mono hv (fun hj => ?_) (fun hj => ?_)⟩
    · rcases hclaim hj with rfl | hj'
      · exact hc _ hj
      · exact hj'
    · rcases hown hj with rfl | hj'
      · exact ho _ hj
      · exact hj'
  | @test x hfree hv hlt hc ho =>
    -- the only claim is the new one
    have honly : ∀ {j y}, r'.claim j = some y → j = i := fun hj => (hclaim hj).resolve_right (by simp [hfree])
    have hown' : ∀ {j y}, r'.own j = some y → r.own j = some y := by
      intro j y hj
      refine (hown hj).resolve_left ?_
      rintro rfl
      rw [ho] at hj
      cases hj
    refine ⟨le_of_eq hv.symm, ⟨fun hj hk => (honly hj).trans (honly hk).symm, fun {j y} hj => ?_, fun {j y} hj => ?_,
      fun hj hk => h.distinct (hown' hj) (hown' hk)⟩⟩
    · obtain rfl := honly hj
      rw [hc] at hj
      obtain rfl := Option.some.inj hj
      rw [hv]
      exact hlt
    · rw [hv]
      exact h.below (hown' hj)
  | @write x hc hv hc' ho =>
    have hlt : r.value < x := h.above hc
    -- the claim that is settled was the only one
    have hnone : ∀ {j y}, r'.claim j ≠ some y := by
      intro j y hj
      rcases hclaim hj with rfl | hj'
      · rw [hc'] at hj
        cases hj
      · obtain rfl := h.single hj' hc
        rw [hc'] at hj
        cases hj
    have hown' : ∀ {j y}, r'.own j = some y → (j = i ∧ y = x) ∨ r.own j = some y := by
      intro j y hj
      rcases hown hj with rfl | hj'
      · exact Or.inl ⟨rfl, ho _ hj⟩
      · exact Or.inr hj'
    -- nobody stands by what is written now
    have hnew : ∀ {j}, r.own j ≠ some x := fun hj => lt_irrefl _ (lt_of_lt_of_le hlt (h.below hj))
    refine ⟨hv ▸ le_of_lt hlt, ⟨fun hj => absurd hj hnone, fun hj => absurd hj hnone, fun {j y} hj => ?_,
      fun {j k y} hj hk => ?_⟩⟩
    · rw [hv]
      rcases hown' hj with ⟨-, rfl⟩ | hj
      · exact le_refl _
      · exact le_trans (h.below hj) (le_of_lt hlt)
    · rcases hown' hj with ⟨rfl, rfl⟩ | hj
      · rcases hown' hk with ⟨rfl, -⟩ | hk
        · rfl
        · exact absurd hk hnew
      · rcases hown' hk with ⟨rfl, rfl⟩ | hk
        · exact absurd hj hnew
        · exact h.distinct hj hk

end Shared

end Lib
