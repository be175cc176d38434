import Mathlib.Data.List.Dedup
import Mathlib.Data.List.Induction
import Mathlib.Data.List.Perm.Subperm
import Mathlib.Data.List.TakeWhile

/-!
# Recency

Keys are used one after the other, and a list keeps keys in the order of their last uses, most recent first.  How far back
a key is in that order is the number of different keys used since its own last use (`distinctSince`).  In a list ordered
by recency no more keys stand before a key than were used since (`ByRecency.length_le`); in one that has lost no key used
after one it still has, fewer were used since than the list has keys (`Gapless.distinctSince_lt`).  Using a key and
dropping the last one keep both properties, and leaving out keys keeps the order.

With values, such a list stands for a part of a map.  It is `Recent` of degree `n` if it lacks only keys since whose last
use at least `n` different ones were used; a list of more than `n` entries may then drop its last one.
-/

namespace Lib

variable {κ : Type} [DecidableEq κ]

/-! ### What was used since -/

/-- The keys used since the last use of `k`, latest first; all keys used if `k` is not among them. -/
def since (k : κ) (ts : List κ) : List κ := ts.reverse.takeWhile fun t => t ≠ k

/-- The number of different keys used since the last use of `k`. -/
def distinctSince (k : κ) (ts : List κ) : Nat := (since k ts).dedup.length

@[simp]
theorem since_append_self (k : κ) (ts : List κ) : since k (ts ++ [k]) = [] := by simp [since]

private theorem since_append_of_ne {t k : κ} (h : t ≠ k) (ts : List κ) : since k (ts ++ [t]) = t :: since k ts := by
  simp [since, h]

private theorem notMem_since_self (k : κ) (ts : List κ) : k ∉ since k ts := by
  intro hmem
  have hne := List.mem_takeWhile_imp hmem
  simp at hne

private theorem mem_since_append {x k : κ} {ts : List κ} (t : κ) (hne : t ≠ k) (h : x ∈ since k ts) :
    x ∈ since k (ts ++ [t]) := by
  rw [since_append_of_ne hne]
  exact List.mem_cons_of_mem t h

/-- Of two keys only one was used since the last use of the other. -/
private theorem notMem_since_of_mem {x y : κ} {ts : List κ} (h : x ∈ since y ts) : y ∉ since x ts := by
  induction ts using List.reverseRecOn with
  | nil => exact absurd h List.not_mem_nil
  | append_singleton ts t ih =>
    by_cases hty : t = y
    · rw [hty, since_append_self] at h
      exact absurd h List.not_mem_nil
    by_cases htx : t = x
    · rw [htx, since_append_self]
      exact List.not_mem_nil
    rw [since_append_of_ne hty] at h
    rw [since_append_of_ne htx]
    have hx : x ∈ since y ts := (List.mem_cons.1 h).resolve_left (Ne.symm htx)
    exact List.not_mem_cons_of_ne_of_not_mem (Ne.symm hty) (ih hx)

/-- Different keys that were all used since are at most as many as the count. -/
private theorem length_le_distinctSince {l : List κ} {k : κ} {ts : List κ} (hnodup : l.Nodup) (hsub : l ⊆ since k ts) :
    l.length ≤ distinctSince k ts := by
  have hsub' : l ⊆ (since k ts).dedup := fun _ hx => List.mem_dedup.2 (hsub hx)
  exact (List.subperm_of_subset hnodup hsub').length_le

/-- The count grows until the key is used again. -/
private theorem distinctSince_append_of_ne {t k : κ} (h : t ≠ k) (ts : List κ) :
    distinctSince k ts ≤ distinctSince k (ts ++ [t]) := by
  apply length_le_distinctSince (List.nodup_dedup _)
  intro x hx
  exact mem_since_append t h (List.mem_dedup.1 hx)

/-! ### Lists ordered by recency -/

/-- Each key was used after the last use of every key behind it. -/
def ByRecency (ts l : List κ) : Prop := l.Pairwise fun x y => x ∈ since y ts

private theorem ByRecency.nodup {ts l : List κ} (h : ByRecency ts l) : l.Nodup := by
  refine List.Pairwise.imp ?_ h
  rintro x _ hx rfl
  exact notMem_since_self x ts hx

theorem ByRecency.sublist {ts l l' : List κ} (h : ByRecency ts l) (hsub : l'.Sublist l) : ByRecency ts l' :=
  List.Pairwise.sublist hsub h

theorem ByRecency.use {ts l : List κ} (h : ByRecency ts l) (k : κ) :
    ByRecency (ts ++ [k]) (k :: l.filter fun x => x ≠ k) := by
  have hne : ∀ y ∈ l.filter fun x => x ≠ k, k ≠ y := by
    intro y hy
    exact Ne.symm (of_decide_eq_true (List.mem_filter.1 hy).2)
  refine List.Pairwise.cons ?_ ?_
  · intro y hy
    rw [since_append_of_ne (hne y hy)]
    exact List.mem_cons_self
  · refine List.Pairwise.imp_of_mem ?_ (h.sublist List.filter_sublist)
    intro x y _ hy hxy
    exact mem_since_append k (hne y hy) hxy

/-- As many keys as stand before a key were used since its last use. -/
theorem ByRecency.length_le {ts l : List κ} {k : κ} (h : ByRecency ts (l ++ [k])) : l.length ≤ distinctSince k ts := by
  obtain ⟨hl, -, hk⟩ := List.pairwise_append.1 h
  exact length_le_distinctSince (ByRecency.nodup hl) fun x hx => hk x hx k (List.mem_singleton_self k)

/-- No key used since the last use of one of the list is missing. -/
def Gapless (ts l : List κ) : Prop := ∀ k ∈ l, since k ts ⊆ l

theorem Gapless.use {ts l : List κ} (h : Gapless ts l) (k : κ) :
    Gapless (ts ++ [k]) (k :: l.filter fun x => x ≠ k) := by
  intro y hy
  by_cases hyk : y = k
  · rw [hyk, since_append_self]
    exact List.nil_subset _
  · have hyl : y ∈ l := (List.mem_filter.1 ((List.mem_cons.1 hy).resolve_left hyk)).1
    rw [since_append_of_ne (Ne.symm hyk)]
    intro x hx
    rw [List.mem_cons, List.mem_filter, decide_eq_true_iff]
    by_cases hxk : x = k
    · exact Or.inl hxk
    · exact Or.inr ⟨h y hyl ((List.mem_cons.1 hx).resolve_left hxk), hxk⟩

/-- The last key of the list was not used since the last use of another one of the list. -/
theorem Gapless.dropLast {ts l : List κ} (h : Gapless ts l) (ho : ByRecency ts l) : Gapless ts l.dropLast := by
  obtain rfl | ⟨l, z, rfl⟩ := List.eq_nil_or_concat' l
  · exact h
  rw [List.dropLast_concat]
  intro y hy x hx
  have hxl : x ∈ l ++ [z] := h y (List.mem_append_left _ hy) hx
  have hyz : y ∈ since z ts := (List.pairwise_append.1 ho).2.2 y hy z (List.mem_singleton_self z)
  rw [List.mem_append, List.mem_singleton] at hxl
  refine hxl.resolve_right ?_
  rintro rfl
  exact notMem_since_of_mem hyz hx

theorem Gapless.distinctSince_lt {ts l : List κ} (h : Gapless ts l) {k : κ} (hk : k ∈ l) :
    distinctSince k ts < l.length := by
  have hsub : (since k ts).dedup ⊆ l.erase k := by
    intro x hx
    rw [List.mem_dedup] at hx
    have hne : x ≠ k := by
      rintro rfl
      exact notMem_since_self x ts hx
    exact (List.mem_erase_of_ne hne).2 (h k hk hx)
  have hle := (List.subperm_of_subset (List.nodup_dedup _) hsub).length_le
  have hpos := List.length_pos_of_mem hk
  rw [List.length_erase_of_mem hk] at hle
  unfold distinctSince
  omega

/-! ### Entries ordered by recency -/

variable {ν : Type}

/-- The entry of a key comes to the front, whether there was one or not. -/
def use (l : List (κ × ν)) (key : κ) (value : ν) : List (κ × ν) := (key, value) :: l.filter fun p => p.1 ≠ key

private theorem map_fst_filter (l : List (κ × ν)) (key : κ) :
    (l.filter fun p => p.1 ≠ key).map (fun p => p.1) = (l.map fun p => p.1).filter fun k => k ≠ key := by
  rw [List.filter_map]
  rfl

theorem map_fst_use (l : List (κ × ν)) (key : κ) (value : ν) :
    (use l key value).map (fun p => p.1) = key :: (l.map fun p => p.1).filter fun k => k ≠ key := by
  unfold use
  rw [List.map_cons, map_fst_filter]

/-- The list is ordered by recency, has entries of the map `m` only, and has all of them but those since whose last use
at least `n` different keys were used. -/
structure Recent (n : Int) (ts : List κ) (m : κ → Option ν) (l : List (κ × ν)) : Prop where
  ordered : ByRecency ts (l.map fun p => p.1)
  sound : ∀ p ∈ l, m p.1 = some p.2
  kept : ∀ k v, m k = some v → (k, v) ∈ l ∨ n ≤ distinctSince k ts

theorem Recent.use {n : Int} {ts : List κ} {m : κ → Option ν} {l : List (κ × ν)} (h : Recent n ts m l) (key : κ)
    (value : ν) : Recent n (ts ++ [key]) (Function.update m key (some value)) (use l key value) := by
  constructor
  · rw [map_fst_use]
    exact h.ordered.use key
  · intro p hp
    rcases List.mem_cons.1 hp with rfl | hp
    · exact Function.update_self key _ m
    · obtain ⟨hpl, hne⟩ := List.mem_filter.1 hp
      rw [Function.update_of_ne (of_decide_eq_true hne)]
      exact h.sound p hpl
  · intro k v hm
    by_cases hk : k = key
    · subst hk
      rw [Function.update_self] at hm
      left
      rw [Option.some.inj hm]
      exact List.mem_cons_self
    · rw [Function.update_of_ne hk] at hm
      rcases h.kept k v hm with hmem | hle
      · left
        exact List.mem_cons_of_mem _ (List.mem_filter.2 ⟨hmem, decide_eq_true hk⟩)
      · right
        have hmono := distinctSince_append_of_ne (Ne.symm hk) ts
        omega

/-- Since the last use of the last entry's key, the keys of all others were used. -/
theorem Recent.dropLast {n : Int} {ts : List κ} {m : κ → Option ν} {l : List (κ × ν)} (h : Recent n ts m l)
    (hlen : n < l.length) : Recent n ts m l.dropLast := by
  constructor
  · rw [List.map_dropLast]
    exact h.ordered.sublist (List.dropLast_sublist _)
  · intro p hp
    exact h.sound p ((List.dropLast_sublist l).subset hp)
  · intro k v hm
    rcases h.kept k v hm with hmem | hle
    · obtain rfl | ⟨l, z, rfl⟩ := List.eq_nil_or_concat' l
      · exact absurd hmem List.not_mem_nil
      rw [List.dropLast_concat]
      rcases List.mem_append.1 hmem with hmem | hz
      · exact Or.inl hmem
      · right
        have hord := h.ordered
        rw [← List.mem_singleton.1 hz, List.map_append, List.map_singleton] at hord
        have hle : (l.map fun p => p.1).length ≤ distinctSince k ts := hord.length_le
        rw [List.length_map] at hle
        rw [List.length_append, List.length_singleton] at hlen
        omega
    · exact Or.inr hle

theorem Recent.remove {n : Int} {ts : List κ} {m : κ → Option ν} {l : List (κ × ν)} (h : Recent n ts m l) (key : κ) :
    Recent n ts (Function.update m key none) (l.filter fun p => p.1 ≠ key) := by
  constructor
  · rw [map_fst_filter]
    exact h.ordered.sublist List.filter_sublist
  · intro p hp
    obtain ⟨hpl, hne⟩ := List.mem_filter.1 hp
    rw [Function.update_of_ne (of_decide_eq_true hne)]
    exact h.sound p hpl
  · intro k v hm
    by_cases hk : k = key
    · rw [hk, Function.update_self] at hm
      cases hm
    · rw [Function.update_of_ne hk] at hm
      refine (h.kept k v hm).imp_left fun hmem => ?_
      exact List.mem_filter.2 ⟨hmem, decide_eq_true hk⟩

/-! ### A window that moves along a sequence of keys -/

/-- The keys `f 0`, `f 1`, … come into use in this order, up to `f m`.  Since the last use of one of the latest `w + 1` of
them, no key more than `w` places before it has been used. -/
def Windowed (f : Nat → κ) (w m : Nat) (ts : List κ) : Prop :=
  ∀ j ≤ m, m ≤ j + w → ∀ x ∈ since (f j) ts, ∃ i ≤ m, j ≤ i + w ∧ x = f i

section Windowed

variable {f : Nat → κ} {w m : Nat} {ts : List κ}

theorem Windowed.use (h : Windowed f w m ts) {i : Nat} (hi : i ≤ m) (hw : m ≤ i + w) : Windowed f w m (ts ++ [f i]) := by
  intro j hj hjw x hx
  by_cases hij : f i = f j
  · rw [hij, since_append_self] at hx
    cases hx
  · rw [since_append_of_ne hij] at hx
    rcases List.mem_cons.1 hx with rfl | hx
    · exact ⟨i, hi, by omega, rfl⟩
    · exact h j hj hjw x hx

theorem Windowed.next (h : Windowed f w m ts) : Windowed f w (m + 1) (ts ++ [f (m + 1)]) := by
  intro j hj hjw x hx
  by_cases hij : f (m + 1) = f j
  · rw [hij, since_append_self] at hx
    cases hx
  · rw [since_append_of_ne hij] at hx
    rcases List.mem_cons.1 hx with rfl | hx
    · exact ⟨m + 1, Nat.le_refl _, by omega, rfl⟩
    · have hne : j ≠ m + 1 := fun hj => hij (by rw [hj])
      obtain ⟨i, hi, hji, hxi⟩ := h j (by omega) (by omega) x hx
      exact ⟨i, by omega, hji, hxi⟩

theorem Windowed.distinctSince_le (h : Windowed f w m ts) {j : Nat} (hj : j ≤ m) (hw : m ≤ j + w) :
    distinctSince (f j) ts ≤ 2 * w + 1 := by
  have hsub : (since (f j) ts).dedup ⊆ (List.range' (j - w) (2 * w + 1)).map f := by
    intro x hx
    obtain ⟨i, hi, hji, rfl⟩ := h j hj hw x (List.mem_dedup.1 hx)
    exact List.mem_map.2 ⟨i, List.mem_range'_1.2 (by omega), rfl⟩
  have hle := (List.subperm_of_subset (List.nodup_dedup _) hsub).length_le
  rwa [List.length_map, List.length_range'] at hle

end Windowed

end Lib
