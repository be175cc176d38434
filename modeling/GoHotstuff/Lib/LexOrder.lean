import Mathlib.Data.List.Sort

/-!
# Ranges in the lexicographic order

Lists over a linear order, compared lexicographically.  What lies between two lists with a common prefix has that prefix
(`between_append`), so a range of prefixed lists is a range of the lists behind the prefix.  A list of entries with
different keys, sorted by key, is strictly increasing (`sortByKey_strict`).
-/

namespace Lib

theorem not_cons_le_nil {α : Type*} [LT α] (a : α) (l : List α) : ¬ a :: l ≤ [] := fun h => h (List.nil_lt_cons a l)

section Prefix

variable {α : Type*} [LT α] [LE α] [Std.IsLinearOrder α] [Std.LawfulOrderLT α]

/-- A list lies between two extensions of `p` if and only if it is itself one, by a list between the two tails. -/
theorem between_append (p u w x : List α) :
    (p ++ u ≤ x ∧ x < p ++ w) ↔ ∃ y, x = p ++ y ∧ u ≤ y ∧ y < w := by
  induction p generalizing x with
  | nil => simp
  | cons a p ih =>
    constructor
    · rintro ⟨hle, hlt⟩
      cases x with
      | nil => exact absurd hle (not_cons_le_nil a _)
      | cons b x =>
        rw [List.cons_append, List.cons_le_cons_iff] at hle
        rw [List.cons_append, List.cons_lt_cons_iff] at hlt
        -- the first elements cannot differ: one bound would be violated
        rcases hle with hab | ⟨rfl, hle⟩
        · exfalso
          rcases hlt with hba | ⟨rfl, -⟩
          · exact Std.Asymm.asymm a b hab hba
          · exact Std.Irrefl.irrefl b hab
        rcases hlt with haa | ⟨-, hlt⟩
        · exact absurd haa (Std.Irrefl.irrefl a)
        obtain ⟨y, rfl, hy⟩ := (ih x).1 ⟨hle, hlt⟩
        exact ⟨y, rfl, hy⟩
    · rintro ⟨y, rfl, hle, hlt⟩
      exact ⟨List.append_left_le hle, List.append_left_lt hlt⟩

theorem lt_of_append_lt_append {p u w : List α} (h : p ++ u < p ++ w) : u < w := by
  obtain ⟨y, heq, -, hlt⟩ := (between_append p u w (p ++ u)).1 ⟨List.le_refl _, h⟩
  rwa [← List.append_cancel_left heq] at hlt

end Prefix

section ByKey

variable {κ : Type*} {ν : Type*} [LE κ] [DecidableLE κ]

/-- The entries in the order of their keys. -/
def sortByKey (l : List (Sigma fun _ : κ => ν)) : List (Sigma fun _ : κ => ν) := l.insertionSort fun p q => p.1 ≤ q.1

theorem mem_sortByKey {l : List (Sigma fun _ : κ => ν)} {p : Sigma fun _ : κ => ν} : p ∈ sortByKey l ↔ p ∈ l :=
  (List.perm_insertionSort _ l).mem_iff

theorem sortByKey_strict [LT κ] [Std.IsLinearOrder κ] [Std.LawfulOrderLT κ] {l : List (Sigma fun _ : κ => ν)}
    (hnodup : (l.map fun p => p.1).Nodup) :
    (sortByKey l).Pairwise fun p q => p.1 < q.1 := by
  have : Std.Total fun p q : Sigma fun _ : κ => ν => p.1 ≤ q.1 := ⟨fun p q => Std.Total.total p.1 q.1⟩
  have : IsTrans (Sigma fun _ : κ => ν) fun p q => p.1 ≤ q.1 := ⟨fun _ _ _ h h' => Std.le_trans h h'⟩
  have hle : (sortByKey l).Pairwise fun p q => p.1 ≤ q.1 := List.pairwise_insertionSort _ l
  have hne : (sortByKey l).Pairwise fun p q => p.1 ≠ q.1 := by
    have hperm : ((sortByKey l).map fun p => p.1).Perm (l.map fun p => p.1) :=
      (List.perm_insertionSort _ l).map _
    exact List.pairwise_map.1 (hperm.nodup_iff.2 hnodup)
  exact hle.imp₂ (fun _ _ h h' => Std.lt_of_le_of_ne h h') hne

end ByKey

end Lib
