import GoHotstuff.LruCache
import GoHotstuff.Lib.Run

/-!
# Histories of the LRU cache

Any calls of `Get`, `Put`, `Delete` and `EnlargeCapacity` on a new cache.  What a call can do is said once (`call_cases`).
The map and the list stay in step, and a call that fails changes nothing (`representation_invariant`).  Which keys are
found is a matter of the history alone (`recency_law`): a key is found if fewer different keys were used since its own
last use than the capacity the cache started with, and, as long as nothing is deleted and the capacity stays, only then.
-/

namespace GoHotstuff

open Lib

namespace LRUCache

variable {κ ν : Type} [DecidableEq κ]

/-! ### Calls -/

inductive Op (κ ν : Type) where
  | get (key : κ)
  | put (key : κ) (value : ν)
  | delete (key : κ)
  | enlargeCapacity (newCapacity : Int)
deriving DecidableEq

/-- What a call returns, where only `Get` returns a value, and the cache after it. -/
def call (c : LRUCache κ ν) : Op κ ν → Except (LRUError κ) (Option ν) × LRUCache κ ν
  | .get key =>
    match c.get key with
    | (some value, c') => (.ok (some value), c')
    | (none, c') => (.error (.retrieving key), c')
  | .put key value => (.ok none, c.put key value)
  | .delete key =>
    match c.delete key with
    | (.ok _, c') => (.ok none, c')
    | (.error err, c') => (.error err, c')
  | .enlargeCapacity newCapacity =>
    match c.enlargeCapacity newCapacity with
    | (.ok _, c') => (.ok none, c')
    | (.error err, c') => (.error err, c')

def step (c : LRUCache κ ν) (op : Op κ ν) : LRUCache κ ν := (c.call op).2

theorem lookup_eq_none {c : LRUCache κ ν} (h : c.WF) {key : κ} (hf : c.find? key = none) :
    c.cache.lookup key = none := by
  cases hk : c.cache.lookup key with
  | none => rfl
  | some e =>
    obtain ⟨v, hm⟩ := (h.cache_iff key e).1 hk
    rw [(find?_eq_some h).2 ⟨e, hm⟩] at hf
    cases hf

private theorem lookup_of_find? {c : LRUCache κ ν} (h : c.WF) {key : κ} {value : ν} (hf : c.find? key = some value) :
    ∃ e, c.cache.lookup key = some e := by
  obtain ⟨e, hm⟩ := (find?_eq_some h).1 hf
  exact ⟨e, (h.cache_iff key e).2 ⟨value, hm⟩⟩

/-- A call fails and changes nothing, or it succeeds and has the effect of its method. -/
theorem call_cases {c : LRUCache κ ν} (h : c.WF) (op : Op κ ν) :
    (∃ err, c.call op = (.error err, c)) ∨
    (∃ key value, op = .get key ∧ c.find? key = some value ∧ c.call op = (.ok (some value), (c.get key).2)) ∨
    (∃ key value, op = .put key value ∧ c.call op = (.ok none, c.put key value)) ∨
    (∃ key, op = .delete key ∧ c.call op = (.ok none, (c.delete key).2)) ∨
    ∃ newCapacity, op = .enlargeCapacity newCapacity ∧ c.capacity ≤ newCapacity ∧
      c.call op = (.ok none, { c with capacity := newCapacity }) := by
  cases op with
  | get key =>
    cases hf : c.find? key with
    | none =>
      have hget : c.get key = (none, c) := by
        unfold get
        rw [lookup_eq_none h hf]
      exact Or.inl ⟨.retrieving key, by rw [call, hget]⟩
    | some value =>
      have hget : c.get key = (some value, (c.get key).2) := Prod.ext ((get_fst c key).trans hf) rfl
      exact Or.inr (Or.inl ⟨key, value, rfl, hf, by rw [call, hget]⟩)
  | put key value => exact Or.inr (Or.inr (Or.inl ⟨key, value, rfl, rfl⟩))
  | delete key =>
    cases hf : c.find? key with
    | none =>
      have hdelete : c.delete key = (.error (.deleting key), c) := by
        unfold delete
        rw [lookup_eq_none h hf]
      exact Or.inl ⟨.deleting key, by rw [call, hdelete]⟩
    | some value =>
      obtain ⟨e, he⟩ := lookup_of_find? h hf
      have hdelete : c.delete key = (.ok (), (c.delete key).2) := by
        unfold delete
        rw [he]
      exact Or.inr (Or.inr (Or.inr (Or.inl ⟨key, rfl, by rw [call, hdelete]⟩)))
  | enlargeCapacity newCapacity =>
    by_cases hlt : newCapacity < c.capacity
    · exact Or.inl ⟨.capacity newCapacity c.capacity, by rw [call, enlargeCapacity, if_pos hlt]⟩
    · refine Or.inr (Or.inr (Or.inr (Or.inr ⟨newCapacity, rfl, by omega, ?_⟩)))
      rw [call, enlargeCapacity, if_neg hlt]

/-! ### The representation -/

private theorem step_wf {c : LRUCache κ ν} (h : c.WF) (op : Op κ ν) : (c.step op).WF := by
  unfold step
  rcases call_cases h op with ⟨_, hc⟩ | ⟨key, _, -, -, hc⟩ | ⟨key, value, -, hc⟩ | ⟨key, -, hc⟩ | ⟨n, -, hle, hc⟩
  · rw [hc]; exact h
  · rw [hc]; exact get_wf h key
  · rw [hc]; exact put_wf h key value
  · rw [hc]; exact delete_wf h key
  · rw [hc]
    have henlarge := enlargeCapacity_wf h n
    rwa [enlargeCapacity, if_neg (by omega)] at henlarge

private theorem run_wf {c : LRUCache κ ν} (h : c.WF) (ops : List (Op κ ν)) : (run step c ops).WF := by
  induction ops generalizing c with
  | nil => exact h
  | cons op ops ih => exact ih (step_wf h op)

/-- After any calls on a new cache of any capacity, the keys of the list are distinct, the map sends exactly these keys,
each to the element that holds it, and the list is within the capacity.  Hence `Keys` and `Len` agree.  A call that
fails leaves the cache as it was. -/
theorem representation_invariant (capacity : Int) (ops : List (Op κ ν)) :
    let c := run step (newLRUCache capacity : LRUCache κ ν) ops
    (c.lru.map fun x => x.2.key).Nodup ∧ (c.lru.map fun x => x.1).Nodup ∧
    (∀ k e, c.cache.lookup k = some e ↔ ∃ v, (e, ⟨k, v⟩) ∈ c.lru) ∧
    (∀ k, k ∈ c.cache ↔ k ∈ c.lru.map fun x => x.2.key) ∧
    (c.lru.length : Int) ≤ max c.capacity 0 ∧
    c.keys.Perm (c.lru.map fun x => x.2.key) ∧ c.keys.length = c.len ∧
    ∀ op err, (c.call op).1 = .error err → (c.call op).2 = c := by
  intro c
  have h : c.WF := run_wf (newLRUCache_wf capacity) ops
  have hperm := keys_perm h
  refine ⟨h.keys, h.elems, h.cache_iff, fun k => hperm.mem_iff, h.bounded, hperm, ?_, ?_⟩
  · rw [hperm.length_eq, List.length_map]
    rfl
  · intro op err herr
    rcases call_cases h op with ⟨_, hc⟩ | ⟨_, _, -, -, hc⟩ | ⟨_, _, -, hc⟩ | ⟨_, -, hc⟩ | ⟨_, -, -, hc⟩
    · rw [hc]
    all_goals
      rw [hc] at herr
      cases herr

/-! ### What a history says -/

/-- The calls that succeed when they are made one after the other. -/
def succeeded : LRUCache κ ν → List (Op κ ν) → List (Op κ ν)
  | _, [] => []
  | c, op :: ops => if (c.call op).1.isOk then op :: succeeded (c.step op) ops else succeeded (c.step op) ops

/-- The key a call touches: that of a store or of a read. -/
def Op.touched : Op κ ν → Option κ
  | .get key => some key
  | .put key _ => some key
  | .delete _ => none
  | .enlargeCapacity _ => none

/-- The keys touched, one after the other. -/
def touches (log : List (Op κ ν)) : List κ := log.filterMap Op.touched

/-- A map after a call. -/
def Op.store (m : κ → Option ν) : Op κ ν → κ → Option ν
  | .get _ => m
  | .put key value => Function.update m key (some value)
  | .delete key => Function.update m key none
  | .enlargeCapacity _ => m

/-- The value of the latest `Put` of each key, unless the key was deleted since. -/
def stored (log : List (Op κ ν)) : κ → Option ν := run Op.store (fun _ => none) log

private theorem succeeded_append (c : LRUCache κ ν) (ops : List (Op κ ν)) (op : Op κ ν) :
    succeeded c (ops ++ [op]) =
      if ((run step c ops).call op).1.isOk then succeeded c ops ++ [op] else succeeded c ops := by
  induction ops generalizing c with
  | nil => rfl
  | cons op' ops ih =>
    rw [List.cons_append, succeeded, succeeded, ih, run_cons]
    split <;> split <;> rfl

omit [DecidableEq κ] in
private theorem touches_append (log : List (Op κ ν)) (op : Op κ ν) :
    touches (log ++ [op]) = touches log ++ op.touched.toList := by
  unfold touches
  rw [List.filterMap_append]
  cases op <;> rfl

private theorem stored_append (log : List (Op κ ν)) (op : Op κ ν) : stored (log ++ [op]) = op.store (stored log) :=
  run_append _ _ _ _

/-! ### The entries and the history -/

/-- The cache keeps what its history says, and forgets no key before `n` others were used. -/
structure Follows (n : Int) (log : List (Op κ ν)) (c : LRUCache κ ν) : Prop where
  wf : c.WF
  capacity : n ≤ c.capacity
  recent : Recent n (touches log) (stored log) c.entries

private theorem Follows.get {n : Int} {log : List (Op κ ν)} {c : LRUCache κ ν} (h : Follows n log c) {key : κ}
    {value : ν} (hf : c.find? key = some value) : Follows n (log ++ [.get key]) (c.get key).2 := by
  refine ⟨get_wf h.wf key, capacity_get c key ▸ h.capacity, ?_⟩
  have hstored : stored log key = some value := h.recent.sound (key, value) ((mem_entries h.wf).2 hf)
  have huse := h.recent.use key value
  rw [← hstored, Function.update_eq_self] at huse
  rw [touches_append, stored_append, entries_get h.wf hf]
  exact huse

private theorem Follows.put {n : Int} {log : List (Op κ ν)} {c : LRUCache κ ν} (h : Follows n log c) (key : κ)
    (value : ν) :
    Follows n (log ++ [.put key value]) (c.put key value) := by
  refine ⟨put_wf h.wf key value, capacity_put c key value ▸ h.capacity, ?_⟩
  have huse := h.recent.use key value
  rw [touches_append, stored_append, entries_put h.wf]
  split
  · rename_i hfull
    exact huse.dropLast (Int.lt_of_le_of_lt h.capacity hfull)
  · exact huse

private theorem Follows.delete {n : Int} {log : List (Op κ ν)} {c : LRUCache κ ν} (h : Follows n log c) (key : κ) :
    Follows n (log ++ [.delete key]) (c.delete key).2 := by
  have hcap : (c.delete key).2.capacity = c.capacity := by
    unfold LRUCache.delete
    split <;> rfl
  refine ⟨delete_wf h.wf key, hcap ▸ h.capacity, ?_⟩
  have htouches : touches (log ++ [.delete key]) = touches log := (touches_append log _).trans (List.append_nil _)
  rw [htouches, stored_append, entries_delete h.wf]
  exact h.recent.remove key

private theorem Follows.enlargeCapacity {n : Int} {log : List (Op κ ν)} {c : LRUCache κ ν} (h : Follows n log c)
    {newCapacity : Int} (hle : c.capacity ≤ newCapacity) :
    Follows n (log ++ [.enlargeCapacity newCapacity]) { c with capacity := newCapacity } := by
  have hwf := enlargeCapacity_wf h.wf newCapacity
  rw [LRUCache.enlargeCapacity, if_neg (by omega)] at hwf
  refine ⟨hwf, Int.le_trans h.capacity hle, ?_⟩
  have htouches : touches (log ++ [.enlargeCapacity newCapacity]) = touches log :=
    (touches_append log _).trans (List.append_nil _)
  rw [htouches, stored_append]
  exact h.recent

theorem Follows.step {n : Int} {log : List (Op κ ν)} {c : LRUCache κ ν} (h : Follows n log c) (op : Op κ ν) :
    Follows n (if (c.call op).1.isOk then log ++ [op] else log) (c.step op) := by
  unfold LRUCache.step
  rcases call_cases h.wf op with
    ⟨_, hc⟩ | ⟨key, value, rfl, hf, hc⟩ | ⟨key, value, rfl, hc⟩ | ⟨key, rfl, hc⟩ | ⟨newCapacity, rfl, hle, hc⟩
  · rw [hc]; exact h
  · rw [hc]; exact h.get hf
  · rw [hc]; exact h.put key value
  · rw [hc]; exact h.delete key
  · rw [hc]; exact h.enlargeCapacity hle

private theorem follows_run (capacity : Int) (ops : List (Op κ ν)) :
    Follows capacity (succeeded (newLRUCache capacity) ops) (run step (newLRUCache capacity : LRUCache κ ν) ops) := by
  induction ops using List.reverseRecOn with
  | nil =>
    refine ⟨newLRUCache_wf capacity, Int.le_refl _, List.Pairwise.nil, ?_, nofun⟩
    intro p hp
    exact absurd hp List.not_mem_nil
  | append_singleton ops op ih =>
    rw [succeeded_append, run_append]
    exact ih.step op

/-! ### Reads and stores only -/

/-- A call that neither deletes nor enlarges. -/
def Op.isAccess : Op κ ν → Bool
  | .get _ => true
  | .put _ _ => true
  | .delete _ => false
  | .enlargeCapacity _ => false

/-- The cache has its capacity still and has lost no key used after one it has. -/
structure Exact (n : Int) (log : List (Op κ ν)) (c : LRUCache κ ν) : Prop where
  capacity : c.capacity = n
  gapless : Gapless (touches log) (c.entries.map fun p => p.1)

theorem Exact.step {n : Int} {log : List (Op κ ν)} {c : LRUCache κ ν} (h : Exact n log c) (hfollows : Follows n log c)
    {op : Op κ ν} (hop : op.isAccess) :
    Exact n (if (c.call op).1.isOk then log ++ [op] else log) (c.step op) := by
  unfold LRUCache.step
  rcases call_cases hfollows.wf op with
    ⟨_, hc⟩ | ⟨key, value, rfl, hf, hc⟩ | ⟨key, value, rfl, hc⟩ | ⟨_, rfl, -⟩ | ⟨_, rfl, -⟩
  · rw [hc]; exact h
  · rw [hc]
    refine ⟨(capacity_get c key).trans h.capacity, ?_⟩
    change Gapless (touches (log ++ [.get key])) ((c.get key).2.entries.map fun p => p.1)
    rw [touches_append, entries_get hfollows.wf hf, map_fst_use]
    exact h.gapless.use key
  · rw [hc]
    refine ⟨(capacity_put c key value).trans h.capacity, ?_⟩
    change Gapless (touches (log ++ [.put key value])) ((c.put key value).entries.map fun p => p.1)
    have huse := h.gapless.use key
    rw [touches_append, entries_put hfollows.wf]
    split
    · rw [List.map_dropLast, map_fst_use]
      exact huse.dropLast (hfollows.recent.ordered.use key)
    · rw [map_fst_use]
      exact huse
  · cases hop
  · cases hop

private theorem exact_run (capacity : Int) (ops : List (Op κ ν)) (hops : ∀ op ∈ ops, op.isAccess) :
    Exact capacity (succeeded (newLRUCache capacity) ops) (run step (newLRUCache capacity : LRUCache κ ν) ops) := by
  induction ops using List.reverseRecOn with
  | nil => exact ⟨rfl, fun k hk => absurd hk List.not_mem_nil⟩
  | append_singleton ops op ih =>
    rw [succeeded_append, run_append]
    have hpre : ∀ op' ∈ ops, op'.isAccess := fun op' hop' => hops op' (List.mem_append_left _ hop')
    exact (ih hpre).step (follows_run capacity ops) (hops op (by simp))

/-! ### Deleted keys -/

private theorem find?_step_none {c : LRUCache κ ν} (h : c.WF) {k : κ} (hf : c.find? k = none) {op : Op κ ν}
    (hop : ∀ v, op ≠ .put k v) : (c.step op).find? k = none := by
  unfold step
  rcases call_cases h op with ⟨_, hc⟩ | ⟨key, _, -, -, hc⟩ | ⟨key, value, rfl, hc⟩ | ⟨key, -, hc⟩ | ⟨_, -, -, hc⟩
  · rw [hc]; exact hf
  · rw [hc]; exact (find?_get h key k).trans hf
  · rw [hc]
    have hne : k ≠ key := by
      rintro rfl
      exact hop value rfl
    rw [Option.eq_none_iff_forall_ne_some]
    intro w hw
    rw [find?_put_of_ne h hne hw] at hf
    cases hf
  · rw [hc, Option.eq_none_iff_forall_ne_some]
    intro w hw
    rw [← mem_entries (delete_wf h key), entries_delete h] at hw
    rw [(mem_entries h).1 (List.mem_filter.1 hw).1] at hf
    cases hf
  · rw [hc]; exact hf

private theorem find?_run_none {c : LRUCache κ ν} (h : c.WF) {k : κ} (hf : c.find? k = none) {ops : List (Op κ ν)}
    (hops : ∀ v, .put k v ∉ ops) : (run step c ops).find? k = none := by
  induction ops generalizing c with
  | nil => exact hf
  | cons op ops ih =>
    refine ih (step_wf h op) (find?_step_none h hf ?_) fun v hv => hops v (List.mem_cons_of_mem _ hv)
    rintro v rfl
    exact hops v List.mem_cons_self

private theorem find?_delete {c : LRUCache κ ν} (h : c.WF) (key : κ) : (c.step (.delete key)).find? key = none := by
  have hstep : c.step (.delete key) = (c.delete key).2 := by
    change (c.call (.delete key)).2 = _
    rw [call]
    split <;> rename_i hd <;> rw [hd]
  rw [hstep, Option.eq_none_iff_forall_ne_some]
  intro w hw
  rw [← mem_entries (delete_wf h key), entries_delete h] at hw
  exact of_decide_eq_true (List.mem_filter.1 hw).2 rfl

/-! ### The recency law -/

/-- After calls of `Get` and `Put` on a new cache, a key is found if and only if it has been stored and the number of
different keys touched since its last touch is less than the capacity; the value is that of the latest `Put`.  With
`Delete` and `EnlargeCapacity` among the calls it is still found then, unless it was deleted since, and a deleted key is
not found before it is stored again. -/
theorem recency_law (capacity : Int) (ops : List (Op κ ν)) (k : κ) :
    let c := run step (newLRUCache capacity : LRUCache κ ν) ops
    let log := succeeded (newLRUCache capacity) ops
    ((∀ op ∈ ops, op.isAccess) → ∀ v, (c.get k).1 = some v ↔
      stored log k = some v ∧ (distinctSince k (touches log) : Int) < capacity) ∧
    (∀ v, stored log k = some v → (distinctSince k (touches log) : Int) < capacity → (c.get k).1 = some v) ∧
    ∀ before after, ops = before ++ .delete k :: after → (∀ v, .put k v ∉ after) → (c.get k).1 = none := by
  intro c log
  have h : Follows capacity log c := follows_run capacity ops
  have hfound : ∀ v, stored log k = some v → (distinctSince k (touches log) : Int) < capacity →
      (c.get k).1 = some v := by
    intro v hv hlt
    rw [get_fst, ← mem_entries h.wf]
    refine (h.recent.kept k v hv).resolve_right ?_
    omega
  refine ⟨fun hops v => ⟨fun hget => ?_, fun hv => hfound v hv.1 hv.2⟩, hfound, ?_⟩
  · rw [get_fst, ← mem_entries h.wf] at hget
    refine ⟨h.recent.sound (k, v) hget, ?_⟩
    have hexact : Exact capacity log c := exact_run capacity ops hops
    have hkey : k ∈ c.entries.map fun p => p.1 := List.mem_map.2 ⟨(k, v), hget, rfl⟩
    have hlt := hexact.gapless.distinctSince_lt hkey
    have hbound := h.wf.bounded
    rw [List.length_map, length_entries] at hlt
    rw [hexact.capacity] at hbound
    omega
  · rintro before after hops hafter
    have hc : c = run step ((run step (newLRUCache capacity) before).step (.delete k)) after := by
      change run step (newLRUCache capacity) ops = _
      rw [hops, run_append, run_cons]
    have hwf : (run step (newLRUCache capacity : LRUCache κ ν) before).WF := run_wf (newLRUCache_wf capacity) before
    rw [get_fst, hc]
    exact find?_run_none (step_wf hwf _) (find?_delete hwf k) hafter

/-- In a cache of capacity two, a key read before the third one is stored is found, and the one not read is not; a key is
not found once it is deleted. -/
theorem recency_law_two :
    ((run step (newLRUCache 2 : LRUCache Nat Nat) [.put 1 10, .put 2 20, .get 1, .put 3 30]).get 1).1 = some 10 ∧
    ((run step (newLRUCache 2 : LRUCache Nat Nat) [.put 1 10, .put 2 20, .get 1, .put 3 30]).get 2).1 ≠ some 20 ∧
    ((run step (newLRUCache 2 : LRUCache Nat Nat) [.put 1 10, .delete 1, .put 2 20]).get 1).1 = none := by
  refine ⟨?_, ?_, ?_⟩
  · exact ((recency_law 2 _ 1).1 (by decide) 10).2 (by decide)
  · rw [Ne, (recency_law 2 _ 2).1 (by decide) 20]
    decide
  · exact (recency_law 2 _ 1).2.2 [.put 1 10] [.put 2 20] rfl (by simp)

end LRUCache

end GoHotstuff
