import Mathlib.Data.List.AList
import Mathlib.Data.List.Infix
import GoHotstuff.Lib.Bytes
import GoHotstuff.Lib.KeySpace

/-!
# Logical databases in one goleveldb store

`common/db/leveldb`: a `Provider` hands out a `DBHandle` for each name, and all handles share one store, in which the key
of a handle's entry is its name, a zero byte and the key.  The handles are compared with maps of their own
(`Lib.KeySpace`): they are isolated as long as no name, followed by a zero byte, begins another name
(`handles_isolated`), which is exactly the case in which no two of their keys are one (`clash_iff`).  A name may contain
the zero byte, and then one handle reads what another one wrote (`handle_reads_other`).  A batch is a map, written in the
order in which it happens to be ranged over; it has the effect of its updates made one by one (`batch_in_order`).

goleveldb itself is a map from byte strings to byte strings whose writes do not fail.  The options of a write say only
whether it waits for the disk and are left out, as is the opening and closing of the store.
-/

namespace GoHotstuff

open Lib

/-! ### The store -/

/-- A record of a `leveldb.Batch`. -/
inductive BatchRecord where
  | put (key value : Bytes)
  | delete (key : Bytes)

/-- The error of a read: `errors.Wrapf(err, "error retrieving leveldb key [%#v]", key)` about a key without value. -/
structure RetrievingError where
  key : Bytes
deriving DecidableEq, Repr

/-- The `DB` of the package, by what its goleveldb store holds. -/
structure DB where
  db : AList (fun _ : Bytes => Bytes)

namespace DB

def get (db : DB) (key : Bytes) : Except RetrievingError Bytes :=
  match db.db.lookup key with
  | none => .error ⟨key⟩
  | some value => .ok value

def put (db : DB) (key value : Bytes) : DB := ⟨db.db.insert key value⟩

def delete (db : DB) (key : Bytes) : DB := ⟨db.db.erase key⟩

def applyRecord (db : DB) : BatchRecord → DB
  | .put key value => db.put key value
  | .delete key => db.delete key

/-- The records of a batch take effect in their order. -/
def writeBatch (db : DB) (batch : List BatchRecord) : DB := batch.foldl applyRecord db

end DB

/-! ### Batches -/

/-- The updates collected for a batch; the value `nil` stands for a deletion. -/
structure UpdateBatch where
  kvs : AList (fun _ : Bytes => Option Bytes)

namespace UpdateBatch

def newUpdateBatch : UpdateBatch := ⟨∅⟩

/-- Panics if the value is `nil`. -/
def put (batch : UpdateBatch) (key : Bytes) : Option Bytes → Except String UpdateBatch
  | none => .error "Nil value not allowed"
  | some value => .ok ⟨batch.kvs.insert key (some value)⟩

def delete (batch : UpdateBatch) (key : Bytes) : UpdateBatch := ⟨batch.kvs.insert key none⟩

def len (batch : UpdateBatch) : Nat := batch.kvs.entries.length

/-- The pairs of the map in the order in which `range` happens to give them. -/
structure Range (batch : UpdateBatch) where
  pairs : List (Sigma fun _ : Bytes => Option Bytes)
  perm : pairs.Perm batch.kvs.entries

end UpdateBatch

/-! ### Handles -/

def dbNameKeySep : Bytes := [0x00]

def constructLevelKey (dbName key : Bytes) : Bytes := dbName ++ dbNameKeySep ++ key

/-- A handle; the store it points to is passed to its methods. -/
structure DBHandle where
  dbName : Bytes
deriving DecidableEq, Repr

namespace DBHandle

def get (h : DBHandle) (db : DB) (key : Bytes) : Except RetrievingError Bytes :=
  db.get (constructLevelKey h.dbName key)

def put (h : DBHandle) (db : DB) (key value : Bytes) : DB := db.put (constructLevelKey h.dbName key) value

def delete (h : DBHandle) (db : DB) (key : Bytes) : DB := db.delete (constructLevelKey h.dbName key)

/-- The record of a pair of the map. -/
def levelRecord (h : DBHandle) (p : Sigma fun _ : Bytes => Option Bytes) : BatchRecord :=
  match p.2 with
  | none => .delete (constructLevelKey h.dbName p.1)
  | some value => .put (constructLevelKey h.dbName p.1) value

def writeBatch (h : DBHandle) (db : DB) (batch : UpdateBatch) (range : batch.Range) : DB :=
  if batch.len = 0 then db else db.writeBatch (range.pairs.map h.levelRecord)

/-- A writing call of a handle. -/
inductive Op where
  | put (key value : Bytes)
  | delete (key : Bytes)
  | writeBatch (batch : UpdateBatch) (range : batch.Range)

def call (h : DBHandle) (db : DB) : Op → DB
  | .put key value => h.put db key value
  | .delete key => h.delete db key
  | .writeBatch batch range => h.writeBatch db batch range

end DBHandle

/-- The provider; the handle kept under a name has that name. -/
structure Provider where
  db : DB
  dbHandles : AList (fun _ : Bytes => DBHandle)
  named : ∀ dbName h, dbHandles.lookup dbName = some h → h.dbName = dbName

namespace Provider

/-- A provider of a store with the given content. -/
def newProvider (db : DB) : Provider := ⟨db, ∅, nofun⟩

private theorem named_insert {hs : AList (fun _ : Bytes => DBHandle)}
    (hnamed : ∀ dbName h, hs.lookup dbName = some h → h.dbName = dbName) (dbName : Bytes) :
    ∀ dbName' h, (hs.insert dbName ⟨dbName⟩).lookup dbName' = some h → h.dbName = dbName' := by
  intro dbName' h hl
  by_cases heq : dbName' = dbName
  · subst heq
    rw [AList.lookup_insert] at hl
    rw [← Option.some.inj hl]
  · rw [AList.lookup_insert_ne heq] at hl
    exact hnamed dbName' h hl

/-- The handle kept under the name, or a new one. -/
def getDBHandle (p : Provider) (dbName : Bytes) : DBHandle × Provider :=
  match p.dbHandles.lookup dbName with
  | some h => (h, p)
  | none => (⟨dbName⟩, ⟨p.db, p.dbHandles.insert dbName ⟨dbName⟩, named_insert p.named dbName⟩)

/-- A writing call of the handle of a name. -/
def step (p : Provider) (c : Bytes × DBHandle.Op) : Provider :=
  let hp := p.getDBHandle c.1
  { hp.2 with db := hp.1.call hp.2.db c.2 }

/-- `Get` of the handle of a name. -/
def get (p : Provider) (dbName key : Bytes) : Except RetrievingError Bytes :=
  let hp := p.getDBHandle dbName
  hp.1.get hp.2.db key

theorem getDBHandle_dbName (p : Provider) (dbName : Bytes) : (p.getDBHandle dbName).1.dbName = dbName := by
  unfold getDBHandle
  split
  · rename_i h hl
    exact p.named dbName h hl
  · rfl

theorem getDBHandle_db (p : Provider) (dbName : Bytes) : (p.getDBHandle dbName).2.db = p.db := by
  unfold getDBHandle
  split <;> rfl

end Provider

/-! ### The store as a map -/

namespace DB

/-- What the store holds. -/
def content (db : DB) : Bytes → Option Bytes := fun key => db.db.lookup key

private theorem content_put (db : DB) (key value : Bytes) :
    (db.put key value).content = Function.update db.content key (some value) := by
  funext key'
  by_cases heq : key' = key
  · subst heq
    rw [Function.update_self]
    exact AList.lookup_insert _
  · rw [Function.update_of_ne heq]
    exact AList.lookup_insert_ne heq

private theorem content_delete (db : DB) (key : Bytes) :
    (db.delete key).content = Function.update db.content key none := by
  funext key'
  by_cases heq : key' = key
  · subst heq
    rw [Function.update_self]
    exact AList.lookup_erase _ _
  · rw [Function.update_of_ne heq]
    exact AList.lookup_erase_ne heq

end DB

namespace DBHandle

/-- The writes a call makes, under the handle's own keys. -/
def Op.writes : Op → List (Bytes × Option Bytes)
  | .put key value => [(key, some value)]
  | .delete key => [(key, none)]
  | .writeBatch _ range => range.pairs.map fun p => (p.1, p.2)

private theorem content_applyRecord (h : DBHandle) (db : DB) (p : Sigma fun _ : Bytes => Option Bytes) :
    (db.applyRecord (h.levelRecord p)).content =
      Function.update db.content (constructLevelKey h.dbName p.1) p.2 := by
  obtain ⟨key, value⟩ := p
  cases value with
  | none => exact DB.content_delete db _
  | some value => exact DB.content_put db _ value

private theorem content_writeRecords (h : DBHandle) (db : DB) (pairs : List (Sigma fun _ : Bytes => Option Bytes)) :
    (db.writeBatch (pairs.map h.levelRecord)).content =
      writes db.content (encoded (constructLevelKey h.dbName) (pairs.map fun p => (p.1, p.2))) := by
  induction pairs generalizing db with
  | nil => rfl
  | cons p pairs ih =>
    rw [List.map_cons, List.map_cons, encoded_cons, writes_cons, ← content_applyRecord]
    exact ih _

/-- A call makes its writes in the store, under the keys of the handle. -/
private theorem content_call (h : DBHandle) (db : DB) (op : Op) :
    (h.call db op).content = writes db.content (encoded (constructLevelKey h.dbName) op.writes) := by
  cases op with
  | put key value => exact DB.content_put db _ value
  | delete key => exact DB.content_delete db _
  | writeBatch batch range =>
    change (h.writeBatch db batch range).content = _
    unfold writeBatch
    split
    · -- the map is empty, so nothing is ranged over
      rename_i hlen
      have hnil : range.pairs = [] := List.length_eq_zero_iff.1 (range.perm.length_eq.trans hlen)
      simp only [Op.writes, hnil, List.map_nil, encoded_nil, writes_nil]
    · exact content_writeRecords h db range.pairs

end DBHandle

namespace Provider

private theorem content_step (p : Provider) (c : Bytes × DBHandle.Op) :
    (p.step c).db.content = sharedStep constructLevelKey p.db.content (c.1, c.2.writes) := by
  change ((p.getDBHandle c.1).1.call (p.getDBHandle c.1).2.db c.2).content = _
  rw [DBHandle.content_call, getDBHandle_dbName, getDBHandle_db]
  rfl

private theorem content_run (p : Provider) (calls : List (Bytes × DBHandle.Op)) :
    (run step p calls).db.content =
      run (sharedStep constructLevelKey) p.db.content (calls.map fun c => (c.1, c.2.writes)) := by
  induction calls generalizing p with
  | nil => rfl
  | cons c calls ih => rw [run_cons, ih, List.map_cons, run_cons, content_step]

private theorem get_eq (p : Provider) (dbName key : Bytes) :
    p.get dbName key = (match (p.db.content ∘ constructLevelKey dbName) key with
      | none => .error ⟨constructLevelKey dbName key⟩
      | some value => .ok value) := by
  change (p.getDBHandle dbName).2.db.get (constructLevelKey (p.getDBHandle dbName).1.dbName key) = _
  rw [getDBHandle_dbName, getDBHandle_db]
  rfl

end Provider

/-! ### Isolation -/

/-- One of the names, followed by the separator, begins the other. -/
def Clash (name name' : Bytes) : Prop :=
  name ++ dbNameKeySep <+: name' ∨ name' ++ dbNameKeySep <+: name

instance (name name' : Bytes) : Decidable (Clash name name') :=
  inferInstanceAs (Decidable (name ++ dbNameKeySep <+: name' ∨ name' ++ dbNameKeySep <+: name))

theorem constructLevelKey_injective (dbName : Bytes) : Function.Injective (constructLevelKey dbName) :=
  fun _ _ h => List.append_cancel_left h

private theorem sep_isPrefix {name name' : Bytes} (hne : name ≠ name')
    (h : name ++ dbNameKeySep <+: name' ++ dbNameKeySep) : name ++ dbNameKeySep <+: name' := by
  rcases List.prefix_concat_iff.1 h with heq | h
  · exact absurd (List.append_cancel_right heq) hne
  · exact h

/-- The condition is exact: two names share a key if and only if they clash. -/
theorem clash_iff {name name' : Bytes} (hne : name ≠ name') :
    Clash name name' ↔ ∃ key key', constructLevelKey name key = constructLevelKey name' key' := by
  constructor
  · rintro (⟨rest, rfl⟩ | ⟨rest, rfl⟩)
    · exact ⟨rest ++ dbNameKeySep, [], by simp [constructLevelKey]⟩
    · exact ⟨[], rest ++ dbNameKeySep, by simp [constructLevelKey]⟩
  · rintro ⟨key, key', heq⟩
    have hp : name ++ dbNameKeySep <+: constructLevelKey name key := List.prefix_append _ _
    have hp' : name' ++ dbNameKeySep <+: constructLevelKey name key := heq ▸ List.prefix_append _ _
    rcases List.prefix_or_prefix_of_prefix hp hp' with h | h
    · exact Or.inl (sep_isPrefix hne h)
    · exact Or.inr (sep_isPrefix (Ne.symm hne) h)

/-- What the handle of a name sees after a run is a map of its own after the writes of its own calls. -/
theorem handle_refines_map {p : Provider} {dbName : Bytes} {calls : List (Bytes × DBHandle.Op)}
    (hcalls : ∀ c ∈ calls, ¬ Clash dbName c.1) :
    (run Provider.step p calls).db.content ∘ constructLevelKey dbName =
      run (fun m (c : Bytes × DBHandle.Op) => writes m c.2.writes) (p.db.content ∘ constructLevelKey dbName)
        (calls.filter fun c => c.1 = dbName) := by
  rw [Provider.content_run, run_sharedStep_comp (constructLevelKey_injective dbName)]
  · rw [List.filter_map, run, List.foldl_map]
    rfl
  · intro call hcall hne key key' heq
    obtain ⟨c, hc, rfl⟩ := List.mem_map.1 hcall
    exact hcalls c hc ((clash_iff (Ne.symm hne)).2 ⟨key, key', heq⟩)

namespace Provider

/-- A provider of an empty store. -/
def empty : Provider := newProvider ⟨∅⟩

end Provider

/-- A handle whose name clashes with another one reads what is put there. -/
private theorem get_put_of_clash {dbName name : Bytes} (h : Clash dbName name) :
    name ≠ dbName ∧ ∃ key key',
      (run Provider.step Provider.empty [(name, .put key' [])]).get dbName key = .ok [] ∧
      Provider.empty.get dbName key ≠ .ok [] := by
  have hne : name ≠ dbName := by
    rintro rfl
    rcases h with h | h
    all_goals
      have hlen := h.length_le
      rw [List.length_append] at hlen
      have hsep : dbNameKeySep.length = 1 := rfl
      omega
  obtain ⟨key, key', hkey⟩ := (clash_iff (Ne.symm hne)).1 h
  refine ⟨hne, key, key', ?_, ?_⟩
  · have hcontent : ((run Provider.step Provider.empty [(name, .put key' [])]).db.content ∘ constructLevelKey dbName) key =
        some [] := by
      show (DB.put ⟨∅⟩ (constructLevelKey name key') []).content (constructLevelKey dbName key) = some []
      rw [hkey, DB.content_put, Function.update_self]
    rw [Provider.get_eq, hcontent]
  · rw [Provider.get_eq]
    intro h
    cases h

/-- Calls of handles with the given names leave a handle alone, which then returns from `Get` what it would return if only
its own calls had been made, whatever the store held before: exactly if none of the names clashes with its own. -/
theorem handles_isolated (dbName : Bytes) (names : List Bytes) :
    (∀ (p : Provider) (key : Bytes) (calls : List (Bytes × DBHandle.Op)), (∀ c ∈ calls, c.1 ∈ names) →
      (run Provider.step p calls).get dbName key =
        (run Provider.step p (calls.filter fun c => c.1 = dbName)).get dbName key) ↔
    ∀ name ∈ names, ¬ Clash dbName name := by
  constructor
  · intro hall name hname hclash
    obtain ⟨hne, key, key', hput, hempty⟩ := get_put_of_clash hclash
    have h := hall Provider.empty key [(name, .put key' [])] (by simpa using hname)
    rw [hput, List.filter_cons_of_neg (by simpa using hne), List.filter_nil] at h
    exact hempty h.symm
  · intro hnames p key calls hcalls
    have hclash : ∀ c ∈ calls, ¬ Clash dbName c.1 := fun c hc => hnames c.1 (hcalls c hc)
    have hown : ∀ c ∈ calls.filter fun c => c.1 = dbName, ¬ Clash dbName c.1 :=
      fun c hc => hclash c (List.mem_of_mem_filter hc)
    rw [Provider.get_eq, Provider.get_eq, handle_refines_map hclash, handle_refines_map hown, List.filter_filter]
    simp only [Bool.and_self]

/-- The names `a` and `ab`: each handle reads what it wrote under the key `c`. -/
theorem handles_isolated_prefix :
    (run Provider.step Provider.empty [([0x61], .put [0x63] [0x01]), ([0x61, 0x62], .put [0x63] [0x02])]).get
        [0x61] [0x63] =
      (run Provider.step Provider.empty [([0x61], .put [0x63] [0x01])]).get [0x61] [0x63] :=
  (handles_isolated [0x61] [[0x61], [0x61, 0x62]]).2 (by simp only [List.forall_mem_cons]; decide) Provider.empty [0x63]
    [([0x61], .put [0x63] [0x01]), ([0x61, 0x62], .put [0x63] [0x02])] (by simp)

/-- The names `a` and `a`, zero byte, `b`: the first handle writes under the key `b`, zero byte, `c`, and the second one,
which has made no call, reads the value under the key `c`. -/
theorem handle_reads_other :
    (run Provider.step Provider.empty [([0x61], .put [0x62, 0x00, 0x63] [0x01])]).get [0x61, 0x00, 0x62] [0x63] =
      .ok [0x01] ∧
    Provider.empty.get [0x61, 0x00, 0x62] [0x63] = .error ⟨[0x61, 0x00, 0x62, 0x00, 0x63]⟩ := by
  constructor <;> rfl

/-! ### Batches and single calls -/

/-- An update, as it is collected in a batch or made directly; the value of a `Put` is not nil. -/
inductive Update where
  | put (key value : Bytes)
  | delete (key : Bytes)

namespace Update

def onBatch (batch : UpdateBatch) : Update → Except String UpdateBatch
  | put key value => batch.put key (some value)
  | delete key => .ok (batch.delete key)

def onHandle (h : DBHandle) (db : DB) : Update → DB
  | put key value => h.put db key value
  | delete key => h.delete db key

/-- The batch with the updates, made one after the other from a new one. -/
def collect (updates : List Update) : Except String UpdateBatch := updates.foldlM onBatch UpdateBatch.newUpdateBatch

/-- The write an update stands for. -/
def write : Update → Bytes × Option Bytes
  | put key value => (key, some value)
  | delete key => (key, none)

private theorem onBatch_eq (batch : UpdateBatch) (u : Update) :
    u.onBatch batch = .ok ⟨batch.kvs.insert u.write.1 u.write.2⟩ := by
  cases u <;> rfl

private theorem content_onHandle (h : DBHandle) (db : DB) (u : Update) :
    (u.onHandle h db).content = Function.update db.content (constructLevelKey h.dbName u.write.1) u.write.2 := by
  cases u with
  | put key value => exact DB.content_put db _ value
  | delete key => exact DB.content_delete db _

/-- No update fails, and under each key the batch holds the last one. -/
private theorem exists_collect (updates : List Update) :
    ∃ batch, collect updates = .ok batch ∧ ∀ key, batch.kvs.lookup key = lastWrite (updates.map write) key := by
  induction updates using List.reverseRecOn with
  | nil => exact ⟨UpdateBatch.newUpdateBatch, rfl, fun _ => rfl⟩
  | append_singleton updates u ih =>
    obtain ⟨batch, hcollect, hlookup⟩ := ih
    refine ⟨⟨batch.kvs.insert u.write.1 u.write.2⟩, ?_, fun key => ?_⟩
    · unfold collect at hcollect ⊢
      rw [List.foldlM_append, hcollect]
      change (onBatch batch u >>= fun batch' => pure batch') = _
      rw [onBatch_eq]
      rfl
    · rw [List.map_append, List.map_singleton, lastWrite_append_singleton, ← hlookup]
      by_cases h : u.write.1 = key
      · rw [if_pos h, ← h]
        exact AList.lookup_insert _
      · rw [if_neg h]
        exact AList.lookup_insert_ne (Ne.symm h)

private theorem content_run_onHandle (h : DBHandle) (db : DB) (updates : List Update) :
    (run (fun db u => onHandle h db u) db updates).content =
      writes db.content (encoded (constructLevelKey h.dbName) (updates.map write)) := by
  induction updates generalizing db with
  | nil => rfl
  | cons u updates ih => rw [run_cons, ih, content_onHandle, List.map_cons, encoded_cons, writes_cons]

end Update

/-- Whatever the order in which the map is ranged over, the pairs are the last updates of their keys. -/
private theorem UpdateBatch.Range.lastWrite_pairs {batch : UpdateBatch} (range : batch.Range) (key : Bytes) :
    lastWrite (range.pairs.map fun p => (p.1, p.2)) key = batch.kvs.lookup key := by
  have hkeys : (range.pairs.map fun p => p.1).Nodup := by
    rw [(range.perm.map fun p => p.1).nodup_iff]
    exact batch.kvs.nodupKeys
  have hnodup : ((range.pairs.map fun p => (p.1, p.2)).map fun w => w.1).Nodup := by
    rw [List.map_map]
    exact hkeys
  apply Option.ext
  intro value
  rw [lastWrite_eq_some_iff hnodup]
  constructor
  · intro hmem
    obtain ⟨⟨key', value'⟩, hp, heq⟩ := List.mem_map.1 hmem
    obtain ⟨rfl, rfl⟩ := Prod.mk.inj heq
    exact AList.mem_lookup_iff.2 (range.perm.mem_iff.1 hp)
  · intro hl
    exact List.mem_map.2 ⟨⟨key, value⟩, range.perm.mem_iff.2 (AList.mem_lookup_iff.1 hl), rfl⟩

/-- A batch equals its operations in order.  `WriteBatch` of the batch with the given updates leaves in the store what the
same `Put` and `Delete` calls on the handle would, in whatever order it ranges over the map. -/
theorem batch_in_order (h : DBHandle) (db : DB) (updates : List Update) :
    ∃ batch, Update.collect updates = .ok batch ∧ ∀ range : batch.Range,
      (h.writeBatch db batch range).content = (run (fun db u => Update.onHandle h db u) db updates).content := by
  obtain ⟨batch, hcollect, hlookup⟩ := Update.exists_collect updates
  refine ⟨batch, hcollect, fun range => ?_⟩
  have hcall : (h.writeBatch db batch range).content =
      writes db.content (encoded (constructLevelKey h.dbName) (range.pairs.map fun p => (p.1, p.2))) :=
    DBHandle.content_call h db (.writeBatch batch range)
  rw [hcall, Update.content_run_onHandle]
  apply writes_encoded_congr (constructLevelKey_injective h.dbName)
  intro key
  rw [range.lastWrite_pairs, hlookup]

end GoHotstuff
