import Mathlib.Data.Set.List
import GoHotstuff.LevelDb
import GoHotstuff.Lib.LexOrder

/-!
# Iterators over a logical database

`GetIterator` of a handle is an iterator of the shared store over a range of the store's keys, and `Key` cuts the name of
the logical database off again.  The range is the handle's part of the store (`inRange_iff`), whatever the other names
are: for a nil end key the upper bound is the name followed by the byte after the separator, and no key of the handle
lies beyond it.  As names contain no zero byte, the cut recovers the key, and an iterator goes through exactly the
handle's own entries of the range in increasing order (`iterator_exact`).

An iterator of goleveldb is what it goes through: the entries of the store whose keys are in its range, in bytewise
order, which is the order of `Bytes`.
-/

namespace GoHotstuff

open Lib

/-! ### The iterators of the store and of a handle -/

def lastKeyIndicator : UInt8 := 0x01

/-- The iterator of the store, by the entries it goes through.  A nil start key represents the first available key and a
nil end key a logical key after the last available key. -/
def DB.getIterator (db : DB) (startKey endKey : Option Bytes) : List (Sigma fun _ : Bytes => Bytes) :=
  sortByKey (db.db.entries.filter fun p => (∀ s ∈ startKey, s ≤ p.1) ∧ ∀ e ∈ endKey, p.1 < e)

/-- `bytes.SplitN(s, dbNameKeySep, 2)`: what stands before the first separator and what stands behind it. -/
def splitN (s : Bytes) : List Bytes :=
  if 0x00 ∈ s then [s.takeWhile (· ≠ 0x00), (s.dropWhile (· ≠ 0x00)).tail] else [s]

/-- The second part of the key; the index is out of range if there is no separator. -/
def retrieveAppKey (levelKey : Bytes) : Option Bytes := (splitN levelKey)[1]?

/-- Iterator extends actual leveldb iterator -/
structure Iterator where
  iterator : List (Sigma fun _ : Bytes => Bytes)

namespace Iterator

/-- What `Key` returns at the entries, one after the other; `none` where it panics. -/
def keys (itr : Iterator) : List (Option Bytes) := itr.iterator.map fun p => retrieveAppKey p.1

def values (itr : Iterator) : List Bytes := itr.iterator.map fun p => p.2

end Iterator

def DBHandle.sKey (h : DBHandle) (startKey : Option Bytes) : Bytes := constructLevelKey h.dbName (startKey.getD [])

/-- The upper bound; if the end key is nil, the last byte, which is the separator, is replaced. -/
def DBHandle.eKey (h : DBHandle) : Option Bytes → Bytes
  | some endKey => constructLevelKey h.dbName endKey
  | none =>
    let eKey := constructLevelKey h.dbName []
    eKey.set (eKey.length - 1) lastKeyIndicator

def DBHandle.getIterator (h : DBHandle) (db : DB) (startKey endKey : Option Bytes) : Iterator :=
  ⟨db.getIterator (some (h.sKey startKey)) (some (h.eKey endKey))⟩

def Provider.getIterator (p : Provider) (dbName : Bytes) (startKey endKey : Option Bytes) : Iterator :=
  let hp := p.getDBHandle dbName
  hp.1.getIterator hp.2.db startKey endKey

/-! ### The range of a handle -/

def InRange (startKey endKey : Option Bytes) (key : Bytes) : Prop :=
  startKey.getD [] ≤ key ∧ ∀ e ∈ endKey, key < e

private theorem DBHandle.eKey_none (h : DBHandle) : h.eKey none = h.dbName ++ [lastKeyIndicator] := by
  unfold DBHandle.eKey constructLevelKey dbNameKeySep
  simp

private theorem between_sep {s y : Bytes} :
    (0x00 :: s ≤ y ∧ y < [lastKeyIndicator]) ↔ ∃ key, y = 0x00 :: key ∧ s ≤ key := by
  constructor
  · rintro ⟨hle, hlt⟩
    cases y with
    | nil => exact absurd hle (not_cons_le_nil _ s)
    | cons b key =>
      have hb : b = 0x00 := by
        rcases List.cons_lt_cons_iff.1 hlt with hlt | ⟨-, hnil⟩
        · exact UInt8.lt_one_iff.1 hlt
        · exact absurd hnil (List.not_lt_nil key)
      subst hb
      rcases List.cons_le_cons_iff.1 hle with hlt | ⟨-, hle⟩
      · exact absurd hlt (UInt8.lt_irrefl _)
      · exact ⟨key, rfl, hle⟩
  · rintro ⟨key, rfl, hle⟩
    exact ⟨List.cons_le_cons_iff.2 (Or.inr ⟨rfl, hle⟩), List.cons_lt_cons_iff.2 (Or.inl (by decide))⟩

theorem inRange_iff (h : DBHandle) (startKey endKey : Option Bytes) (x : Bytes) :
    (h.sKey startKey ≤ x ∧ x < h.eKey endKey) ↔
      ∃ key, x = constructLevelKey h.dbName key ∧ InRange startKey endKey key := by
  cases endKey with
  | some endKey =>
    refine (between_append (h.dbName ++ dbNameKeySep) (startKey.getD []) endKey x).trans ?_
    simp [constructLevelKey, InRange]
  | none =>
    have hs : h.sKey startKey = h.dbName ++ 0x00 :: startKey.getD [] := by
      simp [DBHandle.sKey, constructLevelKey, dbNameKeySep]
    rw [hs, DBHandle.eKey_none, between_append]
    constructor
    · rintro ⟨y, rfl, hy⟩
      obtain ⟨key, rfl, hle⟩ := between_sep.1 hy
      exact ⟨key, by simp [constructLevelKey, dbNameKeySep], hle, fun _ he => absurd he (Option.not_mem_none _)⟩
    · rintro ⟨key, rfl, hle, -⟩
      exact ⟨0x00 :: key, by simp [constructLevelKey, dbNameKeySep], between_sep.2 ⟨key, rfl, hle⟩⟩

/-! ### The keys an iterator returns -/

private theorem retrieveAppKey_constructLevelKey {dbName : Bytes} (hname : 0x00 ∉ dbName) (key : Bytes) :
    retrieveAppKey (constructLevelKey dbName key) = some key := by
  have hsep : constructLevelKey dbName key = dbName ++ 0x00 :: key := by simp [constructLevelKey, dbNameKeySep]
  have hdrop : (dbName ++ 0x00 :: key).dropWhile (· ≠ 0x00) = 0x00 :: key := by
    rw [List.dropWhile_append_of_pos]
    · rfl
    · intro b hb
      exact decide_eq_true fun h => hname (h ▸ hb)
  unfold retrieveAppKey splitN
  rw [hsep, if_pos (by simp), hdrop]
  rfl

def levelEntry (dbName : Bytes) (kv : Bytes × Bytes) : Sigma fun _ : Bytes => Bytes :=
  ⟨constructLevelKey dbName kv.1, kv.2⟩

/-- The iterator of a handle goes through the entries of the store under the handle's keys of the range, in the order of
the keys. -/
private theorem getIterator_entries (h : DBHandle) (db : DB) (startKey endKey : Option Bytes) :
    ∃ kvs : List (Bytes × Bytes),
      (h.getIterator db startKey endKey).iterator = kvs.map (levelEntry h.dbName) ∧
      kvs.Pairwise (fun kv kv' => kv.1 < kv'.1) ∧
      ∀ key value, (key, value) ∈ kvs ↔
        db.content (constructLevelKey h.dbName key) = some value ∧ InRange startKey endKey key := by
  have hmem : ∀ p, p ∈ (h.getIterator db startKey endKey).iterator ↔
      p ∈ db.db.entries ∧ ∃ key, p.1 = constructLevelKey h.dbName key ∧ InRange startKey endKey key := by
    intro p
    refine mem_sortByKey.trans ?_
    rw [List.mem_filter, decide_eq_true_iff, ← inRange_iff]
    simp
  have hentry : Function.Injective (levelEntry h.dbName) := by
    rintro ⟨key, value⟩ ⟨key', value'⟩ heq
    obtain ⟨hkey, hvalue⟩ := Sigma.mk.inj heq
    exact Prod.ext (constructLevelKey_injective _ hkey) (eq_of_heq hvalue)
  have hrange : (h.getIterator db startKey endKey).iterator ∈ Set.range (List.map (levelEntry h.dbName)) := by
    rw [Set.range_list_map]
    rintro ⟨x, value⟩ hp
    obtain ⟨-, key, hkey, -⟩ := (hmem _).1 hp
    exact ⟨(key, value), by rw [levelEntry, ← hkey]⟩
  obtain ⟨kvs, hkvs⟩ := hrange
  refine ⟨kvs, hkvs.symm, ?_, ?_⟩
  · have hstrict : (h.getIterator db startKey endKey).iterator.Pairwise fun p q => p.1 < q.1 := by
      refine sortByKey_strict ?_
      exact (List.filter_sublist.map _).nodup db.db.nodupKeys
    rw [← hkvs, List.pairwise_map] at hstrict
    exact hstrict.imp fun hlt => lt_of_append_lt_append hlt
  · intro key value
    rw [← List.mem_map_of_injective hentry, hkvs, hmem]
    constructor
    · rintro ⟨hp, key', heq, hin⟩
      have hkey : key = key' := constructLevelKey_injective _ heq
      exact ⟨AList.mem_lookup_iff.2 hp, hkey ▸ hin⟩
    · rintro ⟨hlookup, hin⟩
      exact ⟨AList.mem_lookup_iff.1 hlookup, key, rfl, hin⟩

/-- What the calls of the handle of a name have written, in a map of its own. -/
def written (calls : List (Bytes × DBHandle.Op)) (dbName : Bytes) : Bytes → Option Bytes :=
  run (fun m (c : Bytes × DBHandle.Op) => writes m c.2.writes) (fun _ => none) (calls.filter fun c => c.1 = dbName)

private theorem not_clash_of_zero_free {name name' : Bytes} (hname : 0x00 ∉ name) (hname' : 0x00 ∉ name') :
    ¬ Clash name name' := by
  rintro (hp | hp)
  · exact hname' (hp.subset (by simp [dbNameKeySep]))
  · exact hname (hp.subset (by simp [dbNameKeySep]))

/-- Iterators return exactly the handle's range.  After any calls of handles whose names contain no zero byte, the
iterator of such a handle goes through the keys that the handle's own calls have left written and that lie in the range,
each once and in increasing order, with the values written last. -/
theorem iterator_exact (dbName : Bytes) (calls : List (Bytes × DBHandle.Op)) (startKey endKey : Option Bytes)
    (hname : 0x00 ∉ dbName) (hcalls : ∀ c ∈ calls, 0x00 ∉ c.1) :
    ∃ kvs : List (Bytes × Bytes),
      ((run Provider.step Provider.empty calls).getIterator dbName startKey endKey).keys =
        kvs.map (fun kv => some kv.1) ∧
      ((run Provider.step Provider.empty calls).getIterator dbName startKey endKey).values = kvs.map (fun kv => kv.2) ∧
      kvs.Pairwise (fun kv kv' => kv.1 < kv'.1) ∧
      ∀ key value, (key, value) ∈ kvs ↔
        written calls dbName key = some value ∧ startKey.getD [] ≤ key ∧ ∀ e ∈ endKey, key < e := by
  obtain ⟨p, hp⟩ : ∃ p, p = run Provider.step Provider.empty calls := ⟨_, rfl⟩
  obtain ⟨kvs, hentries, hstrict, hmem⟩ := getIterator_entries ⟨dbName⟩ p.db startKey endKey
  have hitr : (p.getIterator dbName startKey endKey).iterator = kvs.map (levelEntry dbName) := by
    have hhandle : (p.getDBHandle dbName).1 = ⟨dbName⟩ := congrArg DBHandle.mk (p.getDBHandle_dbName dbName)
    change ((p.getDBHandle dbName).1.getIterator (p.getDBHandle dbName).2.db startKey endKey).iterator = _
    rw [hhandle, Provider.getDBHandle_db]
    exact hentries
  have hwritten : p.db.content ∘ constructLevelKey dbName = written calls dbName := by
    rw [hp, handle_refines_map fun c hc => not_clash_of_zero_free hname (hcalls c hc)]
    rfl
  rw [← hp]
  refine ⟨kvs, ?_, ?_, hstrict, ?_⟩
  · unfold Iterator.keys
    rw [hitr, List.map_map]
    exact List.map_congr_left fun kv _ => retrieveAppKey_constructLevelKey hname kv.1
  · unfold Iterator.values
    rw [hitr, List.map_map]
    rfl
  · intro key value
    rw [hmem, ← hwritten]
    rfl

/-- The names `a` and `ab`: the iterator of `a` over all its keys returns them in order, with the zero byte one of them
contains, and none of `ab`. -/
theorem iterator_exact_prefix :
    ((run Provider.step Provider.empty
      [([0x61], .put [0x63] [0x01]), ([0x61, 0x62], .put [0x62] [0x02]), ([0x61], .put [0x62, 0x00] [0x03])]).getIterator
        [0x61] none none).keys = [some [0x62, 0x00], some [0x63]] ∧
    ∃ kvs : List (Bytes × Bytes),
      ((run Provider.step Provider.empty
        [([0x61], .put [0x63] [0x01]), ([0x61, 0x62], .put [0x62] [0x02]), ([0x61], .put [0x62, 0x00] [0x03])]).getIterator
          [0x61] none none).keys = kvs.map fun kv => some kv.1 := by
  obtain ⟨kvs, hkeys, -⟩ := iterator_exact [0x61]
    [([0x61], .put [0x63] [0x01]), ([0x61, 0x62], .put [0x62] [0x02]), ([0x61], .put [0x62, 0x00] [0x03])] none none
    (by decide) (by simp only [List.forall_mem_cons]; decide)
  exact ⟨by decide, kvs, hkeys⟩

end GoHotstuff
