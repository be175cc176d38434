import Mathlib.Data.List.AList
import Mathlib.Data.List.Perm.Basic
import GoHotstuff.Lib.Recency

/-!
# The in-memory LRU cache (`common/db/memorydb`)

The cache is a map from keys to elements of a doubly linked list that holds the key-value pairs, most recently used
first.  An element is a pointer in the source; here it is a number, and the map stores that number, so that the map
and the list are two structures which every operation has to keep in step (`WF`).

What the rest of the development uses is the partial function `find?` a cache stands for.  A read keeps it
(`find?_get`), a write changes it at the written key and may lose one other key (`find?_put_self`,
`find?_put_of_ne`): the one it evicts (`find?_put_of_not_evicts`), hence none while there is room
(`find?_put_retained`).  `Cache` is a cache of a fixed capacity together with its well-formedness.  In the order of the
list, the entries are a recency list of `Lib.Recency` (`entries_get`, `entries_put`, `entries_delete`).
-/

namespace GoHotstuff

open Lib

/-- Pair <key, value> -/
structure Pair (κ ν : Type) where
  key : κ
  value : ν

/-- LRUCache cache struct: `lru` is the list from front to back, an element being its number and its pair, `cache`
maps a key to the number of the element that holds it and `next` is the number of the next element. -/
structure LRUCache (κ ν : Type) where
  capacity : Int
  cache : AList (fun _ : κ => Nat)
  lru : List (Nat × Pair κ ν)
  next : Nat

/-- The errors of the operations, by the texts and their arguments. -/
inductive LRUError (κ : Type) where
  /-- `"Error retrieving memorydb key: %v"` -/
  | retrieving (key : κ)
  /-- `"error deleting leveldb key [%#v]"` -/
  | deleting (key : κ)
  /-- `"newCapacity[%d] must be larger than current[%d]"` -/
  | capacity (newCapacity current : Int)
deriving DecidableEq, Repr

namespace LRUCache

/-! ### The list operations of `container/list` -/

def moveToFront {κ ν : Type} (l : List (Nat × Pair κ ν)) (e : Nat) : List (Nat × Pair κ ν) :=
  match l.find? fun x => x.1 == e with
  | some x => x :: l.eraseP fun x => x.1 == e
  | none => l

/-- `elem.Value.(*Pair).value = value` -/
def setValue {κ ν : Type} (l : List (Nat × Pair κ ν)) (e : Nat) (value : ν) : List (Nat × Pair κ ν) :=
  l.map fun x => if x.1 = e then (x.1, ⟨x.2.key, value⟩) else x

/-! ### The operations of the cache -/

def newLRUCache {κ ν : Type} (capacity : Int) : LRUCache κ ν := ⟨capacity, ∅, [], 0⟩

/-- The value an element of the list holds. -/
def elemValue {κ ν : Type} (c : LRUCache κ ν) (e : Nat) : Option ν :=
  (c.lru.find? fun x => x.1 == e).map fun x => x.2.value

def get {κ ν : Type} [DecidableEq κ] (c : LRUCache κ ν) (key : κ) : Option ν × LRUCache κ ν :=
  match c.cache.lookup key with
  | some e => (c.elemValue e, { c with lru := moveToFront c.lru e })
  | none => (none, c)

def evict {κ ν : Type} [DecidableEq κ] (c : LRUCache κ ν) : LRUCache κ ν :=
  match c.lru.getLast? with
  | none => c
  | some elem => { c with lru := c.lru.dropLast, cache := c.cache.erase elem.2.key }

def put {κ ν : Type} [DecidableEq κ] (c : LRUCache κ ν) (key : κ) (value : ν) : LRUCache κ ν :=
  match c.cache.lookup key with
  | some e => { c with lru := setValue (moveToFront c.lru e) e value }
  | none =>
    let c' := { c with
      lru := (c.next, ⟨key, value⟩) :: c.lru, cache := c.cache.insert key c.next, next := c.next + 1 }
    if c.capacity < c'.lru.length then c'.evict else c'

/-- Del delete cached value from cache -/
def delete {κ ν : Type} [DecidableEq κ] (c : LRUCache κ ν) (key : κ) : Except (LRUError κ) Unit × LRUCache κ ν :=
  match c.cache.lookup key with
  | some e => (.ok (), { c with lru := c.lru.eraseP fun x => x.1 == e, cache := c.cache.erase key })
  | none => (.error (.deleting key), c)

def len {κ ν : Type} (c : LRUCache κ ν) : Nat := c.lru.length

/-- The keys of the map, which the source ranges over in no particular order. -/
def keys {κ ν : Type} (c : LRUCache κ ν) : List κ := c.cache.keys

def enlargeCapacity {κ ν : Type} (c : LRUCache κ ν) (newCapacity : Int) : Except (LRUError κ) Unit × LRUCache κ ν :=
  if newCapacity < c.capacity then (.error (.capacity newCapacity c.capacity), c)
  else (.ok (), { c with capacity := newCapacity })

/-- A write through the pointer a cached value is: every value becomes its image, nothing is moved. -/
def mapValue {κ ν : Type} (c : LRUCache κ ν) (f : ν → ν) : LRUCache κ ν :=
  { c with lru := c.lru.map fun x => (x.1, ⟨x.2.key, f x.2.value⟩) }

/-- The partial function the cache stands for. -/
def find? {κ ν : Type} [DecidableEq κ] (c : LRUCache κ ν) (key : κ) : Option ν :=
  (c.cache.lookup key).bind c.elemValue

/-! ### Well-formedness -/

/-- The map and the list agree. -/
structure WF {κ ν : Type} [DecidableEq κ] (c : LRUCache κ ν) : Prop where
  /-- Elements are distinct pointers. -/
  elems : (c.lru.map fun x => x.1).Nodup
  /-- Keys are pairwise distinct. -/
  keys : (c.lru.map fun x => x.2.key).Nodup
  /-- The map sends a key to the element that holds it. -/
  cache_iff : ∀ k e, c.cache.lookup k = some e ↔ ∃ v, (e, ⟨k, v⟩) ∈ c.lru
  /-- Elements were allocated before. -/
  old : ∀ x ∈ c.lru, x.1 < c.next
  /-- The list is within the capacity. -/
  bounded : (c.lru.length : Int) ≤ max c.capacity 0

theorem newLRUCache_wf {κ ν : Type} [DecidableEq κ] (capacity : Int) :
    (newLRUCache capacity : LRUCache κ ν).WF := by
  constructor
  · simp [newLRUCache]
  · simp [newLRUCache]
  · simp [newLRUCache]
  · simp [newLRUCache]
  · simp only [newLRUCache, List.length_nil]; omega

private theorem eq_of_fst {α β : Type} {l : List (α × β)} (h : (l.map fun x => x.1).Nodup) {x y : α × β}
    (hx : x ∈ l) (hy : y ∈ l) (hxy : x.1 = y.1) : x = y :=
  List.inj_on_of_nodup_map h hx hy hxy

private theorem elemValue_eq_some {κ ν : Type} [DecidableEq κ] {c : LRUCache κ ν} (h : c.WF) {e : Nat} {v : ν} :
    c.elemValue e = some v ↔ ∃ k, (e, ⟨k, v⟩) ∈ c.lru := by
  unfold elemValue
  rw [Option.map_eq_some_iff]
  constructor
  · rintro ⟨⟨e', k, v'⟩, hx, rfl⟩
    have hm := List.mem_of_find?_eq_some hx
    have he := List.find?_some hx
    simp only [beq_iff_eq] at he
    exact ⟨k, he ▸ hm⟩
  · rintro ⟨k, hm⟩
    obtain ⟨x, hx⟩ : ∃ x, (c.lru.find? fun x => x.1 == e) = some x := by
      rw [← Option.isSome_iff_exists, List.find?_isSome]
      exact ⟨_, hm, by simp⟩
    have he := List.find?_some hx
    simp only [beq_iff_eq] at he
    have := eq_of_fst h.elems (List.mem_of_find?_eq_some hx) hm he
    exact ⟨x, hx, by rw [this]⟩

theorem find?_eq_some {κ ν : Type} [DecidableEq κ] {c : LRUCache κ ν} (h : c.WF) {k : κ} {v : ν} :
    c.find? k = some v ↔ ∃ e, (e, ⟨k, v⟩) ∈ c.lru := by
  unfold find?
  rw [Option.bind_eq_some_iff]
  constructor
  · rintro ⟨e, he, hv⟩
    obtain ⟨v', hm⟩ := (h.cache_iff k e).1 he
    obtain ⟨k', hm'⟩ := (elemValue_eq_some h).1 hv
    have := eq_of_fst h.elems hm hm' rfl
    simp only [Prod.mk.injEq, true_and, Pair.mk.injEq] at this
    exact ⟨e, this.2 ▸ hm⟩
  · rintro ⟨e, hm⟩
    exact ⟨e, (h.cache_iff k e).2 ⟨v, hm⟩, (elemValue_eq_some h).2 ⟨k, hm⟩⟩

/-- Two well-formed caches whose lists have the same pairs stand for the same partial function. -/
private theorem find?_congr {κ ν : Type} [DecidableEq κ] {c d : LRUCache κ ν} (hc : c.WF) (hd : d.WF) {k k' : κ}
    (h : ∀ v, (∃ e, (e, ⟨k, v⟩) ∈ c.lru) ↔ ∃ e, (e, ⟨k', v⟩) ∈ d.lru) : c.find? k = d.find? k' := by
  apply Option.ext
  intro v
  rw [find?_eq_some hc, find?_eq_some hd, h]

/-! ### Reading -/

private theorem moveToFront_perm {κ ν : Type} (l : List (Nat × Pair κ ν)) (e : Nat) : (moveToFront l e).Perm l := by
  induction l with
  | nil => exact List.Perm.refl _
  | cons x l ih =>
    unfold moveToFront at ih ⊢
    by_cases hx : x.1 = e
    · simp [hx]
    · simp only [List.find?_cons, List.eraseP_cons, beq_false_of_ne hx]
      cases hf : l.find? fun x => x.1 == e with
      | none => simp
      | some y =>
        rw [hf] at ih
        exact (List.Perm.swap x y _).trans (ih.cons x)

/-- The element that holds a key comes to the front. -/
private theorem moveToFront_eq {κ ν : Type} [DecidableEq κ] {c : LRUCache κ ν} (h : c.WF) {x : Nat × Pair κ ν}
    (hx : x ∈ c.lru) : moveToFront c.lru x.1 = x :: c.lru.eraseP fun y => y.1 == x.1 := by
  obtain ⟨y, hy⟩ : ∃ y, (c.lru.find? fun y => y.1 == x.1) = some y := by
    rw [← Option.isSome_iff_exists, List.find?_isSome]
    exact ⟨x, hx, by simp⟩
  have he := List.find?_some hy
  simp only [beq_iff_eq] at he
  unfold moveToFront
  rw [hy, eq_of_fst h.elems (List.mem_of_find?_eq_some hy) hx he]

private theorem WF.perm {κ ν : Type} [DecidableEq κ] {c : LRUCache κ ν} (h : c.WF) {l : List (Nat × Pair κ ν)}
    (hp : l.Perm c.lru) : WF { c with lru := l } := by
  constructor
  · exact ((hp.map _).nodup_iff).2 h.elems
  · exact ((hp.map _).nodup_iff).2 h.keys
  · intro k e
    simp only [hp.mem_iff]
    exact h.cache_iff k e
  · intro x hx
    exact h.old x (hp.mem_iff.1 hx)
  · simp only [hp.length_eq]
    exact h.bounded

theorem get_wf {κ ν : Type} [DecidableEq κ] {c : LRUCache κ ν} (h : c.WF) (key : κ) : (c.get key).2.WF := by
  unfold get
  split
  · exact h.perm (moveToFront_perm _ _)
  · exact h

theorem capacity_get {κ ν : Type} [DecidableEq κ] (c : LRUCache κ ν) (key : κ) :
    (c.get key).2.capacity = c.capacity := by
  unfold get
  split <;> rfl

theorem get_fst {κ ν : Type} [DecidableEq κ] (c : LRUCache κ ν) (key : κ) : (c.get key).1 = c.find? key := by
  unfold get find?
  split <;> rename_i h <;> rw [h] <;> rfl

theorem find?_get {κ ν : Type} [DecidableEq κ] {c : LRUCache κ ν} (h : c.WF) (key k : κ) :
    (c.get key).2.find? k = c.find? k := by
  apply find?_congr (get_wf h key) h
  intro v
  unfold get
  split
  · simp only [(moveToFront_perm _ _).mem_iff]
  · rfl

/-! ### Writing through a pointer -/

private theorem mapValue_wf {κ ν : Type} [DecidableEq κ] {c : LRUCache κ ν} (h : c.WF) (f : ν → ν) :
    (c.mapValue f).WF := by
  constructor
  · simpa [mapValue, Function.comp_def] using h.elems
  · simpa [mapValue, Function.comp_def] using h.keys
  · intro k e
    simp only [mapValue, List.mem_map, Prod.mk.injEq, Pair.mk.injEq]
    rw [h.cache_iff]
    constructor
    · rintro ⟨v, hm⟩
      exact ⟨f v, _, hm, rfl, rfl, rfl⟩
    · rintro ⟨_, ⟨e', k', v'⟩, hm, rfl, rfl, _⟩
      exact ⟨v', hm⟩
  · simp only [mapValue, List.mem_map]
    rintro x ⟨y, hy, rfl⟩
    exact h.old y hy
  · simpa [mapValue] using h.bounded

private theorem find?_mapValue {κ ν : Type} [DecidableEq κ] (c : LRUCache κ ν) (f : ν → ν) (k : κ) :
    (c.mapValue f).find? k = (c.find? k).map f := by
  have key : ∀ e, (c.mapValue f).elemValue e = (c.elemValue e).map f := by
    intro e
    simp only [elemValue, mapValue, List.find?_map, Option.map_map, Function.comp_def]
  show (c.cache.lookup k).bind (c.mapValue f).elemValue = ((c.cache.lookup k).bind c.elemValue).map f
  cases c.cache.lookup k with
  | none => rfl
  | some e => exact key e

/-! ### Storing -/

private theorem mem_setValue {κ ν : Type} {l : List (Nat × Pair κ ν)} {e : Nat} {value : ν} {x : Nat × Pair κ ν} :
    x ∈ setValue l e value ↔ ∃ y ∈ l, x.1 = y.1 ∧ x.2.key = y.2.key ∧
      x.2.value = if y.1 = e then value else y.2.value := by
  simp only [setValue, List.mem_map]
  constructor
  · rintro ⟨y, hy, rfl⟩
    refine ⟨y, hy, ?_⟩
    split <;> simp
  · rintro ⟨y, hy, h1, h2, h3⟩
    refine ⟨y, hy, ?_⟩
    obtain ⟨e', k', v'⟩ := x
    simp only at h1 h2 h3
    subst h1 h2 h3
    split <;> simp_all

private theorem setValue_wf {κ ν : Type} [DecidableEq κ] {c : LRUCache κ ν} (h : c.WF) (e : Nat) (value : ν) :
    WF { c with lru := setValue c.lru e value } := by
  have hfst : (setValue c.lru e value).map (fun x => x.1) = c.lru.map fun x => x.1 := by
    unfold setValue
    rw [List.map_map]
    apply List.map_congr_left
    intro x _
    simp only [Function.comp]
    split <;> rfl
  have hkey : (setValue c.lru e value).map (fun x => x.2.key) = c.lru.map fun x => x.2.key := by
    unfold setValue
    rw [List.map_map]
    apply List.map_congr_left
    intro x _
    simp only [Function.comp]
    split <;> rfl
  constructor
  · rw [hfst]; exact h.elems
  · rw [hkey]; exact h.keys
  · intro k e'
    rw [h.cache_iff]
    constructor
    · rintro ⟨v, hm⟩
      exact ⟨if e' = e then value else v, mem_setValue.2 ⟨_, hm, rfl, rfl, rfl⟩⟩
    · rintro ⟨v, hm⟩
      obtain ⟨⟨e'', k'', v''⟩, hy, h1, h2, _⟩ := mem_setValue.1 hm
      simp only at h1 h2
      subst h1 h2
      exact ⟨v'', hy⟩
  · intro x hx
    obtain ⟨y, hy, h1, _⟩ := mem_setValue.1 hx
    rw [h1]
    exact h.old y hy
  · simpa [setValue] using h.bounded

/-- The cache with a pair pushed to the front, before any eviction. -/
private def push {κ ν : Type} [DecidableEq κ] (c : LRUCache κ ν) (key : κ) (value : ν) : LRUCache κ ν :=
  { c with lru := (c.next, ⟨key, value⟩) :: c.lru, cache := c.cache.insert key c.next, next := c.next + 1 }

/-- `WF` without the bound on the length, which a push breaks and an eviction restores. -/
private structure WF' {κ ν : Type} [DecidableEq κ] (c : LRUCache κ ν) : Prop where
  elems : (c.lru.map fun x => x.1).Nodup
  keys : (c.lru.map fun x => x.2.key).Nodup
  cache_iff : ∀ k e, c.cache.lookup k = some e ↔ ∃ v, (e, ⟨k, v⟩) ∈ c.lru
  old : ∀ x ∈ c.lru, x.1 < c.next

private theorem push_wf' {κ ν : Type} [DecidableEq κ] {c : LRUCache κ ν} (h : c.WF) {key : κ} (value : ν)
    (hk : c.cache.lookup key = none) : (c.push key value).WF' := by
  have hfresh : ∀ x ∈ c.lru, x.2.key ≠ key := by
    rintro ⟨e, k, v⟩ hx rfl
    have := (h.cache_iff k e).2 ⟨v, hx⟩
    rw [hk] at this
    cases this
  constructor
  · simp only [push, List.map_cons, List.nodup_cons]
    refine ⟨?_, h.elems⟩
    rw [List.mem_map]
    rintro ⟨x, hx, he⟩
    have := h.old x hx
    omega
  · simp only [push, List.map_cons, List.nodup_cons]
    refine ⟨?_, h.keys⟩
    rw [List.mem_map]
    rintro ⟨x, hx, he⟩
    exact hfresh x hx he
  · intro k e
    simp only [push, List.mem_cons, Prod.mk.injEq, Pair.mk.injEq]
    by_cases hkk : k = key
    · subst hkk
      rw [AList.lookup_insert]
      constructor
      · intro he
        obtain rfl := Option.some.inj he
        exact ⟨value, Or.inl ⟨rfl, rfl, rfl⟩⟩
      · rintro ⟨v, ⟨rfl, -, -⟩ | hm⟩
        · rfl
        · exact absurd rfl (hfresh _ hm)
    · rw [AList.lookup_insert_ne hkk, h.cache_iff]
      simp [hkk]
  · simp only [push, List.mem_cons]
    rintro x (rfl | hx)
    · exact Nat.lt_succ_self _
    · exact Nat.lt_succ_of_lt (h.old x hx)

/-- A pair is removed from the list and its key from the map. -/
private theorem WF'.remove {κ ν : Type} [DecidableEq κ] {c : LRUCache κ ν} (h : c.WF') {x : Nat × Pair κ ν}
    {l : List (Nat × Pair κ ν)} (hp : c.lru.Perm (x :: l)) :
    WF' { c with lru := l, cache := c.cache.erase x.2.key } := by
  have helems : ((x :: l).map fun y => y.1).Nodup := (hp.map _).nodup_iff.1 h.elems
  have hkeys : ((x :: l).map fun y => y.2.key).Nodup := (hp.map _).nodup_iff.1 h.keys
  rw [List.map_cons, List.nodup_cons] at helems hkeys
  refine ⟨helems.2, hkeys.2, ?_, fun y hy => h.old y (hp.mem_iff.2 (List.mem_cons_of_mem x hy))⟩
  intro k e
  by_cases hk : k = x.2.key
  · subst hk
    rw [AList.lookup_erase]
    constructor
    · intro he; cases he
    · rintro ⟨v, hm⟩
      exact absurd (List.mem_map.2 ⟨_, hm, rfl⟩) hkeys.1
  · rw [AList.lookup_erase_ne hk, h.cache_iff]
    simp only [hp.mem_iff, List.mem_cons]
    constructor
    · rintro ⟨v, rfl | hm⟩
      · exact absurd rfl hk
      · exact ⟨v, hm⟩
    · rintro ⟨v, hm⟩
      exact ⟨v, Or.inr hm⟩

private theorem evict_wf' {κ ν : Type} [DecidableEq κ] {c : LRUCache κ ν} (h : c.WF') : c.evict.WF' := by
  unfold evict
  split
  · exact h
  · rename_i elem hlast
    obtain ⟨l, hl⟩ := List.getLast?_eq_some_iff.1 hlast
    have hdrop : c.lru.dropLast = l := by rw [hl]; simp
    rw [hdrop]
    apply h.remove
    rw [hl]
    exact List.perm_append_singleton elem l

private theorem length_evict {κ ν : Type} [DecidableEq κ] (c : LRUCache κ ν) :
    c.evict.lru.length = c.lru.length - 1 := by
  unfold evict
  split
  · rename_i h
    rw [List.getLast?_eq_none_iff] at h
    simp [h]
  · simp

private theorem capacity_evict {κ ν : Type} [DecidableEq κ] (c : LRUCache κ ν) :
    c.evict.capacity = c.capacity := by
  unfold evict
  split <;> rfl

theorem capacity_put {κ ν : Type} [DecidableEq κ] (c : LRUCache κ ν) (key : κ) (value : ν) :
    (c.put key value).capacity = c.capacity := by
  unfold put
  split
  · rfl
  · dsimp only
    split
    · rw [capacity_evict]
    · rfl

private theorem put_of_none {κ ν : Type} [DecidableEq κ] {c : LRUCache κ ν} {key : κ} (value : ν)
    (hk : c.cache.lookup key = none) :
    c.put key value =
      if c.capacity < (c.lru.length : Int) + 1 then (c.push key value).evict else c.push key value := by
  unfold put
  rw [hk]
  simp [push]

theorem put_wf {κ ν : Type} [DecidableEq κ] {c : LRUCache κ ν} (h : c.WF) (key : κ) (value : ν) :
    (c.put key value).WF := by
  cases hk : c.cache.lookup key with
  | some e =>
    unfold put
    rw [hk]
    exact setValue_wf (h.perm (moveToFront_perm _ _)) e value
  | none =>
    rw [put_of_none value hk]
    have hpush := push_wf' h value hk
    have hb := h.bounded
    split
    · obtain ⟨h1, h2, h3, h4⟩ := evict_wf' hpush
      refine ⟨h1, h2, h3, h4, ?_⟩
      rw [length_evict, capacity_evict]
      simp only [push, List.length_cons]
      omega
    · obtain ⟨h1, h2, h3, h4⟩ := hpush
      refine ⟨h1, h2, h3, h4, ?_⟩
      simp only [push, List.length_cons]
      omega

/-- A stored key is found, provided there is room for one pair. -/
theorem find?_put_self {κ ν : Type} [DecidableEq κ] {c : LRUCache κ ν} (h : c.WF) (hc : 1 ≤ c.capacity) (key : κ)
    (value : ν) : (c.put key value).find? key = some value := by
  rw [find?_eq_some (put_wf h key value)]
  cases hk : c.cache.lookup key with
  | some e =>
    obtain ⟨v, hm⟩ := (h.cache_iff key e).1 hk
    unfold put
    rw [hk]
    exact ⟨e, mem_setValue.2 ⟨_, (moveToFront_perm _ _).mem_iff.2 hm, rfl, rfl, by simp⟩⟩
  | none =>
    rw [put_of_none value hk]
    refine ⟨c.next, ?_⟩
    split
    · -- the pushed pair is not the last one, since the capacity leaves room for it
      rename_i hfull
      have hne : c.lru ≠ [] := by
        intro he
        rw [he, List.length_nil] at hfull
        omega
      unfold evict
      split
      · simp [push]
      · simp only [push]
        rw [List.dropLast_cons_of_ne_nil hne]
        exact List.mem_cons_self
    · simp [push]

/-- Storing under one key adds nothing under another. -/
theorem find?_put_of_ne {κ ν : Type} [DecidableEq κ] {c : LRUCache κ ν} (h : c.WF) {key k : κ} {value w : ν}
    (hne : k ≠ key) (hf : (c.put key value).find? k = some w) : c.find? k = some w := by
  rw [find?_eq_some (put_wf h key value)] at hf
  rw [find?_eq_some h]
  obtain ⟨e', hm⟩ := hf
  have hpush : (e', ⟨k, w⟩) ∈ (c.push key value).lru → ∃ e, (e, ⟨k, w⟩) ∈ c.lru := by
    simp only [push, List.mem_cons, Prod.mk.injEq, Pair.mk.injEq]
    rintro (⟨-, rfl, -⟩ | hm)
    · exact absurd rfl hne
    · exact ⟨e', hm⟩
  cases hk : c.cache.lookup key with
  | some e =>
    unfold put at hm
    rw [hk] at hm
    obtain ⟨⟨e'', k'', v''⟩, hy, h1, h2, h3⟩ := mem_setValue.1 hm
    rw [(moveToFront_perm _ _).mem_iff] at hy
    simp only at h1 h2 h3
    subst h1 h2
    split at h3
    · -- the element written to holds `key`
      rename_i he
      obtain ⟨v, hv⟩ := (h.cache_iff key e).1 hk
      have := eq_of_fst h.elems hv hy he.symm
      simp only [Prod.mk.injEq, Pair.mk.injEq] at this
      exact absurd this.2.1.symm hne
    · exact ⟨e', h3 ▸ hy⟩
  | none =>
    rw [put_of_none value hk] at hm
    split at hm
    · apply hpush
      unfold evict at hm
      split at hm
      · exact hm
      · exact (List.dropLast_sublist _).subset hm
    · exact hpush hm

/-- Storing under `key` evicts `k`: the key is new, the list is full, and `k` is at its end. -/
def Evicts {κ ν : Type} [DecidableEq κ] (c : LRUCache κ ν) (key k : κ) : Prop :=
  c.find? key = none ∧ c.capacity ≤ c.lru.length ∧ c.lru.getLast?.map (fun x => x.2.key) = some k

instance {κ ν : Type} [DecidableEq κ] (c : LRUCache κ ν) (key k : κ) : Decidable (c.Evicts key k) :=
  inferInstanceAs (Decidable (_ ∧ _ ∧ _))

/-- A pair that is not the last one survives an eviction. -/
private theorem mem_evict_push {κ ν : Type} [DecidableEq κ] {c : LRUCache κ ν} {key k : κ} {value w : ν} {e : Nat}
    (hm : (e, ⟨k, w⟩) ∈ c.lru) (hlast : c.lru.getLast?.map (fun x => x.2.key) ≠ some k) :
    (e, ⟨k, w⟩) ∈ (c.push key value).evict.lru := by
  obtain ⟨l, x, hl⟩ := (List.eq_nil_or_concat' c.lru).resolve_left (List.ne_nil_of_mem hm)
  have hpush : (c.push key value).lru = ((c.next, ⟨key, value⟩) :: l) ++ [x] := by simp [push, hl]
  rw [hl, List.getLast?_append, List.getLast?_singleton] at hlast
  rw [hl, List.mem_append, List.mem_singleton] at hm
  unfold evict
  rw [hpush, List.getLast?_append, List.getLast?_singleton]
  simp only [List.dropLast_concat]
  rcases hm with hm | rfl
  · exact List.mem_cons_of_mem _ hm
  · exact absurd rfl hlast

/-- A store loses nothing but the pair it evicts. -/
theorem find?_put_of_not_evicts {κ ν : Type} [DecidableEq κ] {c : LRUCache κ ν} (h : c.WF) {key k : κ} {value : ν}
    (hne : k ≠ key) (hev : ¬ c.Evicts key k) : (c.put key value).find? k = c.find? k := by
  apply Option.ext
  intro w
  refine ⟨find?_put_of_ne h hne, ?_⟩
  rw [find?_eq_some (put_wf h key value), find?_eq_some h]
  rintro ⟨e', hm⟩
  refine ⟨e', ?_⟩
  cases hk : c.cache.lookup key with
  | some e =>
    unfold put
    rw [hk]
    have hne' : e' ≠ e := by
      rintro rfl
      obtain ⟨v, hv⟩ := (h.cache_iff key e').1 hk
      have := eq_of_fst h.elems hv hm rfl
      simp only [Prod.mk.injEq, Pair.mk.injEq] at this
      exact hne this.2.1.symm
    exact mem_setValue.2 ⟨_, (moveToFront_perm _ _).mem_iff.2 hm, rfl, rfl, by simp [hne']⟩
  | none =>
    rw [put_of_none value hk]
    split
    · rename_i hfull
      refine mem_evict_push hm fun hlast => hev ⟨?_, by omega, hlast⟩
      simp [find?, hk]
    · exact List.mem_cons_of_mem _ hm

/-- What has just been read is not what a store evicts, if there is room for two. -/
private theorem not_evicts_get {κ ν : Type} [DecidableEq κ] {c : LRUCache κ ν} (h : c.WF) (hc : 2 ≤ c.capacity)
    {key k : κ} {v : ν} (hk : c.find? k = some v) : ¬ (c.get k).2.Evicts key k := by
  rintro ⟨-, hfull, hlast⟩
  obtain ⟨e, hm⟩ := (find?_eq_some h).1 hk
  have hget : (c.get k).2 = { c with lru := moveToFront c.lru e } := by
    unfold get
    rw [(h.cache_iff k e).2 ⟨v, hm⟩]
  have hfront : moveToFront c.lru e = (e, ⟨k, v⟩) :: c.lru.eraseP fun x => x.1 == e := moveToFront_eq h hm
  have hkeys := (get_wf h k).keys
  rw [hget, hfront] at hkeys hfull hlast
  -- the entry is at the front, so it is at the end only if it is alone
  cases hrest : c.lru.eraseP fun x => x.1 == e with
  | nil =>
    rw [hrest] at hfull
    simp only [List.length_singleton] at hfull
    omega
  | cons y l =>
    rw [hrest] at hkeys hlast
    rw [List.getLast?_cons_cons] at hlast
    obtain ⟨z, hz, hzk⟩ := Option.map_eq_some_iff.1 hlast
    rw [List.map_cons, List.nodup_cons] at hkeys
    exact hkeys.1 (List.mem_map.2 ⟨z, List.mem_of_getLast? hz, hzk⟩)

/-- Nothing is lost by a store under a key that is already there or while there is room. -/
theorem find?_put_retained {κ ν : Type} [DecidableEq κ] {c : LRUCache κ ν} (h : c.WF) {key k : κ} {value : ν}
    (hne : k ≠ key) (hroom : c.find? key ≠ none ∨ (c.lru.length : Int) < c.capacity) :
    (c.put key value).find? k = c.find? k := by
  apply find?_put_of_not_evicts h hne
  rintro ⟨hnew, hfull, -⟩
  rcases hroom with hr | hr
  · exact hr hnew
  · omega

/-! ### Deleting and enlarging -/

theorem delete_wf {κ ν : Type} [DecidableEq κ] {c : LRUCache κ ν} (h : c.WF) (key : κ) : (c.delete key).2.WF := by
  unfold delete
  split
  · rename_i e hk
    obtain ⟨v, hm⟩ := (h.cache_iff key e).1 hk
    have hperm : c.lru.Perm ((e, ⟨key, v⟩) :: c.lru.eraseP fun x => x.1 == e) := by
      rw [← moveToFront_eq h hm]
      exact (moveToFront_perm _ _).symm
    obtain ⟨h1, h2, h3, h4⟩ := WF'.remove ⟨h.elems, h.keys, h.cache_iff, h.old⟩ hperm
    refine ⟨h1, h2, h3, h4, ?_⟩
    have hlen := hperm.length_eq
    have hb := h.bounded
    rw [List.length_cons] at hlen
    dsimp only
    omega
  · exact h

theorem enlargeCapacity_wf {κ ν : Type} [DecidableEq κ] {c : LRUCache κ ν} (h : c.WF) (newCapacity : Int) :
    (c.enlargeCapacity newCapacity).2.WF := by
  unfold enlargeCapacity
  split
  · exact h
  · refine ⟨h.elems, h.keys, h.cache_iff, h.old, ?_⟩
    have hb := h.bounded
    dsimp only
    omega

/-- The keys of the map are those of the list. -/
theorem keys_perm {κ ν : Type} [DecidableEq κ] {c : LRUCache κ ν} (h : c.WF) :
    c.keys.Perm (c.lru.map fun x => x.2.key) := by
  have hnodup : c.keys.Nodup := c.cache.keys_nodup
  rw [List.perm_ext_iff_of_nodup hnodup h.keys]
  intro k
  have hlookup : k ∈ c.keys ↔ ∃ e, c.cache.lookup k = some e := by
    rw [← Option.isSome_iff_exists, AList.lookup_isSome]
    rfl
  rw [hlookup, List.mem_map]
  constructor
  · rintro ⟨e, he⟩
    obtain ⟨v, hm⟩ := (h.cache_iff k e).1 he
    exact ⟨_, hm, rfl⟩
  · rintro ⟨⟨e, _, v⟩, hm, rfl⟩
    exact ⟨e, (h.cache_iff _ e).2 ⟨v, hm⟩⟩

/-! ### The entries in the order of use -/

/-- Keys and values from front to back. -/
def entries {κ ν : Type} (c : LRUCache κ ν) : List (κ × ν) := c.lru.map fun x => (x.2.key, x.2.value)

theorem mem_entries {κ ν : Type} [DecidableEq κ] {c : LRUCache κ ν} (h : c.WF) {k : κ} {v : ν} :
    (k, v) ∈ c.entries ↔ c.find? k = some v := by
  rw [find?_eq_some h]
  unfold entries
  rw [List.mem_map]
  constructor
  · rintro ⟨⟨e, _, _⟩, hm, heq⟩
    obtain ⟨rfl, rfl⟩ := Prod.mk.inj heq
    exact ⟨e, hm⟩
  · rintro ⟨e, hm⟩
    exact ⟨_, hm, rfl⟩

theorem length_entries {κ ν : Type} (c : LRUCache κ ν) : c.entries.length = c.lru.length := List.length_map _

/-- An element is the one of a key if and only if it holds that key. -/
private theorem elem_iff_key {κ ν : Type} [DecidableEq κ] {c : LRUCache κ ν} (h : c.WF) {x y : Nat × Pair κ ν}
    (hx : x ∈ c.lru) (hy : y ∈ c.lru) : y.1 = x.1 ↔ y.2.key = x.2.key := by
  constructor
  · intro he
    rw [eq_of_fst h.elems hy hx he]
  · intro hk
    rw [List.inj_on_of_nodup_map h.keys hy hx hk]

private theorem eraseP_eq_filter {α : Type} {p : α → Bool} {l : List α}
    (h : l.Pairwise fun x y => p x = true → p y = false) : l.eraseP p = l.filter fun x => !p x := by
  induction l with
  | nil => rfl
  | cons x l ih =>
    obtain ⟨hx, hl⟩ := List.pairwise_cons.1 h
    cases hp : p x with
    | false => rw [List.eraseP_cons_of_neg (by simp [hp]), List.filter_cons_of_pos (by simp [hp]), ih hl]
    | true =>
      rw [List.eraseP_cons_of_pos hp, List.filter_cons_of_neg (by simp [hp])]
      exact (List.filter_eq_self.2 fun y hy => by simp [hx y hy hp]).symm

/-- Without the element of a key, the list holds the other keys. -/
private theorem eraseP_elem {κ ν : Type} [DecidableEq κ] {c : LRUCache κ ν} (h : c.WF) {x : Nat × Pair κ ν}
    (hx : x ∈ c.lru) : (c.lru.eraseP fun y => y.1 == x.1) = c.lru.filter fun y => y.2.key ≠ x.2.key := by
  have hpair : c.lru.Pairwise fun y z => (y.1 == x.1) = true → (z.1 == x.1) = false := by
    refine (List.pairwise_map.1 h.elems).imp ?_
    intro y z hyz hy
    simp only [beq_iff_eq] at hy
    simp only [beq_eq_false_iff_ne]
    exact fun hz => hyz (hy.trans hz.symm)
  rw [eraseP_eq_filter hpair]
  apply List.filter_congr
  intro y hy
  rw [Bool.eq_iff_iff]
  simp [elem_iff_key h hx hy]

private theorem entries_filter {κ ν : Type} [DecidableEq κ] (l : List (Nat × Pair κ ν)) (key : κ) :
    (l.filter fun x => x.2.key ≠ key).map (fun x => (x.2.key, x.2.value)) =
      (l.map fun x => (x.2.key, x.2.value)).filter fun p => p.1 ≠ key := by
  rw [List.filter_map]
  rfl

theorem entries_get {κ ν : Type} [DecidableEq κ] {c : LRUCache κ ν} (h : c.WF) {key : κ} {value : ν}
    (hf : c.find? key = some value) : (c.get key).2.entries = use c.entries key value := by
  obtain ⟨e, hm⟩ := (find?_eq_some h).1 hf
  unfold get entries use
  rw [(h.cache_iff key e).2 ⟨value, hm⟩]
  dsimp only
  rw [moveToFront_eq h hm, eraseP_elem h hm, List.map_cons, entries_filter]

theorem entries_delete {κ ν : Type} [DecidableEq κ] {c : LRUCache κ ν} (h : c.WF) (key : κ) :
    (c.delete key).2.entries = c.entries.filter fun p => p.1 ≠ key := by
  unfold delete
  cases hk : c.cache.lookup key with
  | some e =>
    obtain ⟨v, hm⟩ := (h.cache_iff key e).1 hk
    unfold entries
    dsimp only
    rw [eraseP_elem h hm, entries_filter]
  | none =>
    refine (List.filter_eq_self.2 ?_).symm
    rintro ⟨k, v⟩ hm
    rw [mem_entries h] at hm
    refine decide_eq_true ?_
    rintro rfl
    simp [find?, hk] at hm

/-- A store uses the key and drops the last entry if there are more than the capacity allows. -/
theorem entries_put {κ ν : Type} [DecidableEq κ] {c : LRUCache κ ν} (h : c.WF) (key : κ) (value : ν) :
    (c.put key value).entries =
      if c.capacity < (use c.entries key value).length then (use c.entries key value).dropLast
      else use c.entries key value := by
  cases hk : c.cache.lookup key with
  | some e =>
    obtain ⟨v, hm⟩ := (h.cache_iff key e).1 hk
    have hput : (c.put key value).entries = use c.entries key value := by
      unfold put entries use
      rw [hk]
      dsimp only
      rw [moveToFront_eq h hm, eraseP_elem h hm, ← entries_filter]
      -- the value is written in the first element, and in no other
      unfold setValue
      rw [List.map_map, List.map_cons]
      congr 1
      · simp
      · apply List.map_congr_left
        intro y hy
        obtain ⟨hyl, hne⟩ := List.mem_filter.1 hy
        have hye : y.1 ≠ e := fun he => of_decide_eq_true hne ((elem_iff_key h hm hyl).1 he)
        simp [hye]
    have hlen : (use c.entries key value).length = c.lru.length := by
      rw [← hput, length_entries]
      unfold put
      rw [hk]
      simp [setValue, (moveToFront_perm _ _).length_eq]
    have hpos : 0 < c.lru.length := List.length_pos_of_mem hm
    have hb := h.bounded
    rw [hput, if_neg (by rw [hlen]; omega)]
  | none =>
    have hfresh : (c.entries.filter fun p => p.1 ≠ key) = c.entries := by
      rw [← entries_delete h]
      unfold delete
      rw [hk]
    have huse : use c.entries key value = (c.push key value).entries := by
      unfold use
      rw [hfresh]
      rfl
    have hevict : ∀ d : LRUCache κ ν, d.evict.entries = d.entries.dropLast := by
      intro d
      unfold evict entries
      split
      · rename_i hnone
        rw [List.getLast?_eq_none_iff.1 hnone]
        rfl
      · rw [List.map_dropLast]
    rw [put_of_none value hk, huse, length_entries, ← hevict]
    have hlen : (c.push key value).lru.length = c.lru.length + 1 := rfl
    rw [hlen, Int.natCast_succ]
    split <;> rfl

end LRUCache

/-! ### Caches of a fixed capacity -/

/-- A well-formed LRU cache of capacity `cap`. -/
structure Cache (κ ν : Type) [DecidableEq κ] (cap : Int) where
  val : LRUCache κ ν
  wf : val.WF
  capacity_eq : val.capacity = cap

namespace Cache

def new {κ ν : Type} [DecidableEq κ] (cap : Int) : Cache κ ν cap :=
  ⟨LRUCache.newLRUCache cap, LRUCache.newLRUCache_wf cap, rfl⟩

def find? {κ ν : Type} [DecidableEq κ] {cap : Int} (c : Cache κ ν cap) (key : κ) : Option ν := c.val.find? key

/-- The cache after a read: the key, if there, is the most recently used one. -/
def touch {κ ν : Type} [DecidableEq κ] {cap : Int} (c : Cache κ ν cap) (key : κ) : Cache κ ν cap :=
  ⟨(c.val.get key).2, LRUCache.get_wf c.wf key, by
    have h : (c.val.get key).2.capacity = c.val.capacity := by unfold LRUCache.get; split <;> rfl
    rw [h, c.capacity_eq]⟩

def get {κ ν : Type} [DecidableEq κ] {cap : Int} (c : Cache κ ν cap) (key : κ) : Option ν × Cache κ ν cap :=
  ((c.val.get key).1, c.touch key)

def put {κ ν : Type} [DecidableEq κ] {cap : Int} (c : Cache κ ν cap) (key : κ) (value : ν) : Cache κ ν cap :=
  ⟨c.val.put key value, LRUCache.put_wf c.wf key value, by rw [LRUCache.capacity_put, c.capacity_eq]⟩

def mapValue {κ ν : Type} [DecidableEq κ] {cap : Int} (c : Cache κ ν cap) (f : ν → ν) : Cache κ ν cap :=
  ⟨c.val.mapValue f, LRUCache.mapValue_wf c.wf f, c.capacity_eq⟩

@[simp]
theorem find?_new {κ ν : Type} [DecidableEq κ] {cap : Int} (k : κ) : (new cap : Cache κ ν cap).find? k = none := rfl

@[simp]
theorem get_fst {κ ν : Type} [DecidableEq κ] {cap : Int} (c : Cache κ ν cap) (key : κ) :
    (c.get key).1 = c.find? key := LRUCache.get_fst _ _

@[simp]
theorem get_snd {κ ν : Type} [DecidableEq κ] {cap : Int} (c : Cache κ ν cap) (key : κ) :
    (c.get key).2 = c.touch key := rfl

@[simp]
theorem find?_touch {κ ν : Type} [DecidableEq κ] {cap : Int} (c : Cache κ ν cap) (key k : κ) :
    (c.touch key).find? k = c.find? k := LRUCache.find?_get c.wf key k

@[simp]
theorem find?_mapValue {κ ν : Type} [DecidableEq κ] {cap : Int} (c : Cache κ ν cap) (f : ν → ν) (k : κ) :
    (c.mapValue f).find? k = (c.find? k).map f := LRUCache.find?_mapValue _ _ _

theorem find?_put_self {κ ν : Type} [DecidableEq κ] {cap : Int} (hcap : 1 ≤ cap) (c : Cache κ ν cap) (key : κ)
    (value : ν) : (c.put key value).find? key = some value :=
  LRUCache.find?_put_self c.wf (by rw [c.capacity_eq]; exact hcap) key value

theorem find?_put_of_ne {κ ν : Type} [DecidableEq κ] {cap : Int} {c : Cache κ ν cap} {key k : κ} {value w : ν}
    (hne : k ≠ key) (hf : (c.put key value).find? k = some w) : c.find? k = some w :=
  LRUCache.find?_put_of_ne c.wf hne hf

/-- Storing under `key` evicts `k`. -/
def Evicts {κ ν : Type} [DecidableEq κ] {cap : Int} (c : Cache κ ν cap) (key k : κ) : Prop := c.val.Evicts key k

instance {κ ν : Type} [DecidableEq κ] {cap : Int} (c : Cache κ ν cap) (key k : κ) : Decidable (c.Evicts key k) :=
  inferInstanceAs (Decidable (c.val.Evicts key k))

theorem find?_put_of_not_evicts {κ ν : Type} [DecidableEq κ] {cap : Int} {c : Cache κ ν cap} {key k : κ} {value : ν}
    (hne : k ≠ key) (hev : ¬ c.Evicts key k) : (c.put key value).find? k = c.find? k :=
  LRUCache.find?_put_of_not_evicts c.wf hne hev

theorem find?_put_touch {κ ν : Type} [DecidableEq κ] {cap : Int} (hcap : 2 ≤ cap) {c : Cache κ ν cap} {key k : κ}
    {value v : ν} (hne : k ≠ key) (hk : c.find? k = some v) : ((c.touch k).put key value).find? k = some v := by
  rw [find?_put_of_not_evicts hne, find?_touch, hk]
  exact LRUCache.not_evicts_get c.wf (by rw [c.capacity_eq]; exact hcap) hk

/-- Nothing is lost by a store while the keys in use are fewer than the capacity. -/
theorem find?_put_retained {κ ν : Type} [DecidableEq κ] {cap : Int} {c : Cache κ ν cap} {key k : κ} {value : ν}
    (hne : k ≠ key) {keys : List κ} (hkeys : ∀ k v, c.find? k = some v → k ∈ keys)
    (hroom : (keys.length : Int) < cap) : (c.put key value).find? k = c.find? k := by
  refine LRUCache.find?_put_retained c.wf hne (Or.inr ?_)
  have hsub : (c.val.lru.map fun x => x.2.key) ⊆ keys := by
    intro k' hk'
    obtain ⟨x, hx, rfl⟩ := List.mem_map.1 hk'
    exact hkeys x.2.key x.2.value ((LRUCache.find?_eq_some c.wf).2 ⟨x.1, hx⟩)
  have hle := (List.subperm_of_subset c.wf.keys hsub).length_le
  rw [List.length_map] at hle
  rw [c.capacity_eq]
  omega

end Cache

end GoHotstuff
