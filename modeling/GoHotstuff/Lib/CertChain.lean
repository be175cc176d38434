import Mathlib.Logic.Relation

/-!
# Chains of certified nodes

In a graph of nodes with heights some nodes are certified.  If no two certified nodes have the same height and every
certified node has a certified parent one below, down to height zero, the certified nodes lie on one path.
-/

namespace Lib

structure CertChain {α : Type} (parent : α → α → Prop) (height : α → Nat) (certified : α → Prop) : Prop where
  unique : ∀ {a b : α}, certified a → certified b → height a = height b → a = b
  down : ∀ {a : α}, certified a → 0 < height a → ∃ p, parent p a ∧ certified p ∧ height a = height p + 1

variable {α : Type} {parent : α → α → Prop} {height : α → Nat} {certified : α → Prop}

private theorem CertChain.ancestor (h : CertChain parent height certified) {a b : α} (ha : certified a)
    (hb : certified b) (hle : height a ≤ height b) : Relation.ReflTransGen parent a b := by
  obtain ⟨d, hd⟩ := Nat.exists_eq_add_of_le hle
  induction d generalizing b with
  | zero =>
    rw [h.unique ha hb (by omega)]
  | succ d ih =>
    obtain ⟨p, hp, hcert, hheight⟩ := h.down hb (by omega)
    exact (ih hcert (by omega) (by omega)).tail hp

theorem CertChain.comparable (h : CertChain parent height certified) {a b : α} (ha : certified a) (hb : certified b) :
    Relation.ReflTransGen parent a b ∨ Relation.ReflTransGen parent b a := by
  by_cases hle : height a ≤ height b
  · exact Or.inl (h.ancestor ha hb hle)
  · exact Or.inr (h.ancestor hb ha (by omega))

end Lib
