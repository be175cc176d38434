import Mathlib.Data.List.Basic

/-!
# Weights of the elements of a list

`tally w l` is the total weight of `l`.  When one element is replaced, removed or added, the total changes by the weights of
these elements only, so that what is conserved while a system moves its parts around can be shown part by part.
-/

namespace Lib

variable {α : Type}

/-- The total weight. -/
def tally (w : α → Nat) : List α → Nat
  | [] => 0
  | x :: l => w x + tally w l

@[simp]
theorem tally_nil (w : α → Nat) : tally w [] = 0 := rfl

@[simp]
theorem tally_cons (w : α → Nat) (x : α) (l : List α) : tally w (x :: l) = w x + tally w l := rfl

@[simp]
theorem tally_append (w : α → Nat) (l l' : List α) : tally w (l ++ l') = tally w l + tally w l' := by
  induction l with
  | nil => simp
  | cons x l ih =>
    simp only [List.cons_append, tally_cons, ih]
    omega

theorem tally_set {w : α → Nat} {l : List α} {i : Nat} {x : α} (y : α) (h : l[i]? = some x) :
    tally w (l.set i y) + w x = tally w l + w y := by
  induction l generalizing i with
  | nil => simp at h
  | cons z l ih =>
    cases i with
    | zero =>
      obtain rfl : z = x := by simpa using h
      simp only [List.set_cons_zero, tally_cons]
      omega
    | succ i =>
      have := ih (by simpa using h)
      simp only [List.set_cons_succ, tally_cons]
      omega

/-- A value that the new element shares with the old one stays where it is. -/
theorem map_set_of_eq {β : Type} {f : α → β} {l : List α} {i : Nat} {x y : α} (h : l[i]? = some x) (hf : f y = f x) :
    (l.set i y).map f = l.map f := by
  induction l generalizing i with
  | nil => rfl
  | cons z l ih =>
    cases i with
    | zero =>
      obtain rfl : z = x := by simpa using h
      simp [hf]
    | succ i =>
      have := ih (by simpa using h)
      simp [this]

theorem tally_eraseIdx {w : α → Nat} {l : List α} {i : Nat} {x : α} (h : l[i]? = some x) :
    tally w (l.eraseIdx i) + w x = tally w l := by
  induction l generalizing i with
  | nil => simp at h
  | cons z l ih =>
    cases i with
    | zero =>
      obtain rfl : z = x := by simpa using h
      simp only [List.eraseIdx_cons_zero, tally_cons]
      omega
    | succ i =>
      have := ih (by simpa using h)
      simp only [List.eraseIdx_cons_succ, tally_cons]
      omega

theorem tally_congr {w w' : α → Nat} {l : List α} (h : ∀ x ∈ l, w x = w' x) : tally w l = tally w' l := by
  induction l with
  | nil => rfl
  | cons x l ih =>
    have hx := h x (by simp)
    have hl := ih fun y hy => h y (List.mem_cons_of_mem x hy)
    simp [hx, hl]

theorem tally_eq_zero {w : α → Nat} {l : List α} : tally w l = 0 ↔ ∀ x ∈ l, w x = 0 := by
  induction l with
  | nil => simp
  | cons x l ih => simp [ih]

/-- What is counted by a test. -/
theorem tally_ite (p : α → Bool) (l : List α) : tally (fun x => if p x then 1 else 0) l = (l.filter p).length := by
  induction l with
  | nil => rfl
  | cons x l ih =>
    by_cases hx : p x = true
    · simp [hx, ih, Nat.add_comm]
    · simp [hx, ih]

end Lib
