import Mathlib.Logic.Relation
import GoHotstuff.CoreStep
import GoHotstuff.Server

/-!
# The block store

A block is stored under the hash its `SelfQc` carries.  Whatever arrives, the key of an entry is that hash, entries are
distinct objects and every entry was given to `StoreBlock` (`StoreInv`).  That the key is the hash of the block, and
the height one more than the parent's, is true of the blocks a core makes itself and of nothing else: `OnReceiveProposal`
checks neither (`store_unchecked`).  If the blocks that arrive pass the checks `OnPropose` makes (`StoreGuard`), the store
is a tree in which no hash ever changes its meaning (`block_store_integrity`).
-/

namespace GoHotstuff

open Lib (Bytes encodeToString run StepsMeet)

/-! ### Blocks up to collected votes -/

theorem body_selfQc_blockHash {b b' : Block} (h : b.body = b'.body) : b.selfQc.blockHash = b'.selfQc.blockHash := by
  have hbody := congrArg (fun c : Block => c.selfQc.blockHash) h
  exact hbody

theorem body_selfQc_viewNumber {b b' : Block} (h : b.body = b'.body) : b.selfQc.viewNumber = b'.selfQc.viewNumber := by
  have hbody := congrArg (fun c : Block => c.selfQc.viewNumber) h
  exact hbody

theorem getBlockHash_body {b b' : Block} (h : b.body = b'.body) : getBlockHash b = getBlockHash b' := by
  have hbody := congrArg getBlockHash h
  exact hbody

theorem parentHash_body {b b' : Block} (h : b.body = b'.body) : b.parentHash = b'.parentHash := by
  have hbody := congrArg Block.parentHash h
  exact hbody

theorem height_body {b b' : Block} (h : b.body = b'.body) : b.height = b'.height := by
  have hbody := congrArg Block.height h
  exact hbody

theorem justify_body {b b' : Block} (h : b.body = b'.body) : b.justify = b'.justify := by
  have hbody := congrArg Block.justify h
  exact hbody

/-! ### Any store -/

namespace Core

structure StoreInv (s : Core) : Prop where
  key : ∀ k o, s.blockCache.find? k = some o → k = encodeToString o.block.selfQc.blockHash
  fresh : ∀ k o, s.blockCache.find? k = some o → o.obj < s.objects
  inj : ∀ k o k' o', s.blockCache.find? k = some o → s.blockCache.find? k' = some o' → o.obj = o'.obj → o = o'
  mem : ∀ k o, s.blockCache.find? k = some o → ∃ b ∈ s.stored, b.body = o.block.body

theorem StoreInv.of_find? {s s' : Core} (h : StoreInv s) (ho : s'.objects = s.objects)
    (hs : s'.stored = s.stored) (hk : ∀ key, s'.blockCache.find? key = s.blockCache.find? key) : StoreInv s' where
  key k o := by rw [hk]; exact h.key k o
  fresh k o := by rw [hk, ho]; exact h.fresh k o
  inj k o k' o' := by rw [hk, hk]; exact h.inj k o k' o'
  mem k o := by rw [hk, hs]; exact h.mem k o

theorem Quiet.storeInv {s s' : Core} (q : Quiet s s') (h : StoreInv s) : StoreInv s' := by
  obtain ⟨c, w, k, x, hc, hp, rfl⟩ := q
  exact h.of_find? rfl rfl hc

theorem SameEntries.storeInv {s s' : Core} (e : SameEntries s s') (h : StoreInv s) : StoreInv s' := by
  obtain ⟨ho, hs, hk | ⟨obj, signs, hk⟩⟩ := e
  · exact h.of_find? ho hs hk
  -- an entry of `s'` is an entry of `s` with other votes
  have hold : ∀ {k o}, s'.blockCache.find? k = some o →
      ∃ o₀, s.blockCache.find? k = some o₀ ∧ writeSigns obj signs o₀ = o := by
    intro k o hf
    rw [hk, Option.map_eq_some_iff] at hf
    exact hf
  constructor
  · intro k o hf
    obtain ⟨o₀, hf₀, rfl⟩ := hold hf
    rw [body_selfQc_blockHash (body_writeSigns obj signs o₀)]
    exact h.key k o₀ hf₀
  · intro k o hf
    obtain ⟨o₀, hf₀, rfl⟩ := hold hf
    rw [obj_writeSigns, ho]
    exact h.fresh k o₀ hf₀
  · intro k o k' o' hf hf' heq
    obtain ⟨o₀, hf₀, rfl⟩ := hold hf
    obtain ⟨o₀', hf₀', rfl⟩ := hold hf'
    rw [obj_writeSigns, obj_writeSigns] at heq
    rw [h.inj k o₀ k' o₀' hf₀ hf₀' heq]
  · intro k o hf
    obtain ⟨o₀, hf₀, rfl⟩ := hold hf
    rw [body_writeSigns, hs]
    exact h.mem k o₀ hf₀

theorem find?_storeBlock {s : Core} {b : Block} {k : List Char} {o : Stored}
    (h : (s.storeBlock b).blockCache.find? k = some o) :
    (k = encodeToString b.selfQc.blockHash ∧ o = ⟨s.objects, b⟩) ∨ s.blockCache.find? k = some o := by
  by_cases hk : k = encodeToString b.selfQc.blockHash
  · left
    rw [hk] at h
    have hself : (s.storeBlock b).blockCache.find? (encodeToString b.selfQc.blockHash) = some ⟨s.objects, b⟩ :=
      object?_storeBlock_self s b
    rw [hself] at h
    exact ⟨hk, (Option.some.inj h).symm⟩
  · exact Or.inr (Cache.find?_put_of_ne hk h)

theorem StoreInv.storeBlock {s : Core} (h : StoreInv s) (b : Block) : StoreInv (s.storeBlock b) := by
  have hobj : ∀ k o, s.blockCache.find? k = some o → o.obj ≠ s.objects := by
    intro k o hf
    have := h.fresh k o hf
    omega
  constructor
  · intro k o hf
    rcases find?_storeBlock hf with ⟨hk, rfl⟩ | hf'
    · exact hk
    · exact h.key k o hf'
  · intro k o hf
    show o.obj < s.objects + 1
    rcases find?_storeBlock hf with ⟨hk, rfl⟩ | hf'
    · exact Nat.lt_succ_self _
    · exact Nat.lt_succ_of_lt (h.fresh k o hf')
  · intro k o k' o' hf hf' heq
    rcases find?_storeBlock hf with ⟨hk, rfl⟩ | hf₀
    · rcases find?_storeBlock hf' with ⟨hk', rfl⟩ | hf₀'
      · rfl
      · exact absurd heq.symm (hobj k' o' hf₀')
    · rcases find?_storeBlock hf' with ⟨hk', rfl⟩ | hf₀'
      · exact absurd heq (hobj k o hf₀)
      · exact h.inj k o k' o' hf₀ hf₀' heq
  · intro k o hf
    rcases find?_storeBlock hf with ⟨hk, rfl⟩ | hf'
    · exact ⟨b, List.mem_append_right _ (List.mem_singleton_self b), rfl⟩
    · obtain ⟨b', hb', hbody⟩ := h.mem k o hf'
      exact ⟨b', List.mem_append_left _ hb', hbody⟩

theorem StoreInv.step {s : Core} (h : StoreInv s) (env : Env) (op : CoreOp) : StoreInv (s.step env op) := by
  rcases step_entries env s op with e | ⟨b, s1, -, q, e⟩
  · exact e.storeInv h
  · exact e.storeInv ((q.storeInv h).storeBlock b)

theorem storeInv_newHotStuffCore : StoreInv newHotStuffCore := by
  apply StoreInv.storeBlock
  have hempty : ∀ k o, (Cache.new 30 : Cache (List Char) Stored 30).find? k ≠ some o := by
    intro k o hf
    rw [Cache.find?_new] at hf
    cases hf
  constructor
  · intro k o hf
    exact absurd hf (hempty k o)
  · intro k o hf
    exact absurd hf (hempty k o)
  · intro k o k' o' hf
    exact absurd hf (hempty k o)
  · intro k o hf
    exact absurd hf (hempty k o)

theorem StoreInv.selfQc_blockHash {s : Core} (h : StoreInv s) {hash : Bytes} {b : Block}
    (hl : s.load hash = some b) : b.selfQc.blockHash = hash := by
  obtain ⟨obj, ho⟩ := load_eq_some.1 hl
  have hkey := h.key _ _ ho
  rw [Lib.encodeToString_inj] at hkey
  exact hkey.symm

/-- When the votes of one object are replaced, exactly the entry of that object changes. -/
theorem StoreInv.object?_setSigns {s : Core} (h : StoreInv s) {hash hash' : Bytes} {o o' : Stored}
    (ho : s.object? hash = some o) {signs : Signs} {vs : AList (fun _ : List Char => List Vote)}
    (ho' : (setSigns { s with voteSet := vs } o.obj signs).object? hash' = some o') :
    (hash' = hash ∧ o' = ⟨o.obj, { o.block with selfQc := { o.block.selfQc with signs := signs } }⟩) ∨
    (hash' ≠ hash ∧ s.object? hash' = some o') := by
  rw [Core.object?_setSigns, Option.map_eq_some_iff] at ho'
  obtain ⟨o₀, ho₀, rfl⟩ := ho'
  have ho₀ : s.object? hash' = some o₀ := ho₀
  by_cases hobj : o₀.obj = o.obj
  · -- distinct entries are distinct objects
    left
    obtain rfl := h.inj _ _ _ _ ho₀ ho hobj
    have hkey := (h.key _ _ ho₀).trans (h.key _ _ ho).symm
    rw [Lib.encodeToString_inj] at hkey
    exact ⟨hkey, if_pos rfl⟩
  · right
    rw [writeSigns, if_neg hobj]
    refine ⟨?_, ho₀⟩
    rintro rfl
    exact hobj (congrArg Stored.obj (Option.some.inj (ho₀.symm.trans ho)))

theorem StoreInv.exists_stored {s : Core} (h : StoreInv s) {hash : Bytes} {b : Block} (hl : s.load hash = some b) :
    ∃ b₀ ∈ s.stored, b₀.body = b.body := by
  obtain ⟨obj, ho⟩ := load_eq_some.1 hl
  exact h.mem _ _ ho

/-! ### A guarded store -/

/-- The checks of `OnPropose`, made on the block of a proposal that arrives. -/
def StoreGuard (s : Core) : CoreOp → Prop
  | .receive prop => prop.block.selfQc.blockHash = getBlockHash prop.block ∧
      ∃ parent ∈ s.load prop.block.parentHash, prop.block.height = parent.height + 1
  | _ => True

instance (s : Core) : (op : CoreOp) → Decidable (s.StoreGuard op)
  | .receive prop => inferInstanceAs (Decidable (prop.block.selfQc.blockHash = getBlockHash prop.block ∧
      ∃ parent ∈ s.load prop.block.parentHash, prop.block.height = parent.height + 1))
  | .propose .. | .resume _ | .vote _ | .newView .. | .look _ | .adopt _ | .sign _ | .crash => .isTrue trivial

end Core

/-- No two blocks of the list show a collision of SHA-256. -/
def CollisionFree (l : List Block) : Prop :=
  ∀ b ∈ l, ∀ b' ∈ l, getBlockHash b = getBlockHash b' → hashInput b = hashInput b'

instance (l : List Block) : Decidable (CollisionFree l) :=
  inferInstanceAs (Decidable (∀ b ∈ l, ∀ b' ∈ l, getBlockHash b = getBlockHash b' → hashInput b = hashInput b'))

/-- The list starts with the genesis block, every other block stands behind its parent, and every block carries its own
hash. -/
structure Rooted (l : List Block) : Prop where
  selfHash : ∀ b ∈ l, b.selfQc.blockHash = getBlockHash b
  parent : ∀ (i : Nat) (b : Block), l[i]? = some b → b = genesis ∨
    ∃ (j : Nat) (p : Block), j < i ∧ l[j]? = some p ∧ b.parentHash = getBlockHash p ∧ b.height = p.height + 1

private theorem rooted_genesis : Rooted [genesis] := by
  constructor
  · intro b hb
    rw [List.mem_singleton.1 hb]
    rfl
  · intro i b hi
    exact Or.inl (List.mem_singleton.1 (List.mem_of_getElem? hi))

private theorem Rooted.append {l : List Block} (h : Rooted l) {b p : Block}
    (hself : b.selfQc.blockHash = getBlockHash b)
    (hp : p ∈ l) (hparent : b.parentHash = getBlockHash p) (hheight : b.height = p.height + 1) :
    Rooted (l ++ [b]) := by
  constructor
  · intro b' hb'
    rcases List.mem_append.1 hb' with hb' | hb'
    · exact h.selfHash b' hb'
    · rw [List.mem_singleton.1 hb']
      exact hself
  · intro i b' hi
    have hprefix : ∀ (j : Nat) (p' : Block), l[j]? = some p' → (l ++ [b])[j]? = some p' := by
      intro j p' hj
      rw [List.getElem?_append_left (List.getElem?_eq_some_iff.1 hj).1]
      exact hj
    by_cases hlt : i < l.length
    · rw [List.getElem?_append_left hlt] at hi
      rcases h.parent i b' hi with hg | ⟨j, p', hj, hp', hrest⟩
      · exact Or.inl hg
      · exact Or.inr ⟨j, p', hj, hprefix j p' hp', hrest⟩
    · rw [List.getElem?_append_right (by omega)] at hi
      obtain rfl := List.mem_singleton.1 (List.mem_of_getElem? hi)
      obtain ⟨j, hj⟩ := List.getElem?_of_mem hp
      have hjlt := (List.getElem?_eq_some_iff.1 hj).1
      exact Or.inr ⟨j, p, by omega, hprefix j p hj, hparent, hheight⟩

theorem length_hashInput (b : Block) : (hashInput b).length = b.parentHash.length + 8 + b.cmds.length := by
  unfold hashInput
  rw [List.length_append, List.length_append, Lib.length_putUint64]

/-- The genesis block, or a block whose parent hash has the length of a hash. -/
def Block.Sized (b : Block) : Prop := b.body = genesis.body ∨ b.parentHash.length = 32

/-- For such blocks the input of the hash function determines parent and height. -/
theorem Block.Sized.eq_of_hashInput {b b' : Block} (hb : b.Sized) (hb' : b'.Sized) (h : hashInput b = hashInput b') :
    b.parentHash = b'.parentHash ∧ b.height = b'.height := by
  have hgen : ∀ {c : Block}, c.body = genesis.body → c.parentHash.length = 0 ∧ c.cmds.length = 0 := by
    intro c hc
    have hp := congrArg (fun c : Block => c.parentHash.length) hc
    have hcmds := congrArg (fun c : Block => c.cmds.length) hc
    exact ⟨hp, hcmds⟩
  have hlen : b.parentHash.length = b'.parentHash.length := by
    have hl := congrArg List.length h
    rw [length_hashInput, length_hashInput] at hl
    rcases hb with hg | h32
    · have := hgen hg
      rcases hb' with hg' | h32'
      · have := hgen hg'
        omega
      · omega
    · rcases hb' with hg' | h32'
      · have := hgen hg'
        omega
      · omega
  obtain ⟨hp, hh, -⟩ := hashInput_inj hlen h
  exact ⟨hp, hh⟩

private theorem Rooted.sized {l : List Block} (h : Rooted l) {b : Block} (hb : b ∈ l) : b.Sized := by
  obtain ⟨i, hi⟩ := List.getElem?_of_mem hb
  rcases h.parent i b hi with hg | ⟨j, p, -, -, hparent, -⟩
  · exact Or.inl (congrArg Block.body hg)
  · right
    rw [hparent, length_getBlockHash]

/-- Without collisions, a hash determines parent and height. -/
private theorem Rooted.eq_of_hash {l : List Block} (h : Rooted l) (hcf : CollisionFree l) {b b' : Block} (hb : b ∈ l)
    (hb' : b' ∈ l) (heq : getBlockHash b = getBlockHash b') :
    b.parentHash = b'.parentHash ∧ b.height = b'.height :=
  (h.sized hb).eq_of_hashInput (h.sized hb') (hcf b hb b' hb' heq)

namespace Core

/-- The invariant of a guarded store. -/
structure GuardedStore (s : Core) : Prop extends StoreInv s where
  rooted : Rooted s.stored

private theorem GuardedStore.exists_stored_hash {s : Core} (h : GuardedStore s) {hash : Bytes} {b : Block}
    (hl : s.load hash = some b) : ∃ b₀ ∈ s.stored, b₀.body = b.body ∧ getBlockHash b₀ = hash := by
  obtain ⟨b₀, hb₀, hbody⟩ := h.exists_stored hl
  refine ⟨b₀, hb₀, hbody, ?_⟩
  rw [← h.rooted.selfHash b₀ hb₀, body_selfQc_blockHash hbody]
  exact h.selfQc_blockHash hl

/-- The blocks a core makes itself pass the checks. -/
private theorem stores_guarded {env : Env} {s : Core} {op : CoreOp} {b : Block} (hst : Stores env s op b)
    (hg : s.StoreGuard op) : b.selfQc.blockHash = getBlockHash b ∧
      ∃ parent, s.load b.parentHash = some parent ∧ b.height = parent.height + 1 := by
  cases hst with
  | receive prop => exact hg
  | propose hl hh => exact ⟨rfl, _, hl, rfl⟩

theorem GuardedStore.step {env : Env} {s : Core} {op : CoreOp} (h : GuardedStore s) (hg : s.StoreGuard op) :
    GuardedStore (s.step env op) := by
  refine ⟨h.toStoreInv.step env op, ?_⟩
  rcases step_entries env s op with ⟨-, hs, -⟩ | ⟨b, s1, hst, q, -, hs, -⟩
  · rw [hs]
    exact h.rooted
  · obtain ⟨hself, parent, hl, hheight⟩ := stores_guarded hst hg
    obtain ⟨p, hp, hbody, hhash⟩ := h.exists_stored_hash hl
    have hs1 : (s1.storeBlock b).stored = s.stored ++ [b] := congrArg (· ++ [b]) q.stored
    rw [hs, hs1]
    rw [← height_body hbody] at hheight
    exact h.rooted.append hself hp hhash.symm hheight

private theorem guardedStore_newHotStuffCore : GuardedStore newHotStuffCore :=
  ⟨storeInv_newHotStuffCore, rooted_genesis⟩

private theorem guardedStore_run {env : Env} {ops : List CoreOp}
    (hg : StepsMeet (step env) StoreGuard newHotStuffCore ops) :
    GuardedStore (run (step env) newHotStuffCore ops) :=
  hg.invariant (fun _ _ h hg => h.step hg) guardedStore_newHotStuffCore

/-- `hash'` is the parent hash of the block cached under `hash`, and is cached too. -/
def ParentLink (s : Core) (hash hash' : Bytes) : Prop :=
  ∃ b, s.load hash = some b ∧ b.parentHash = hash' ∧ (s.load hash').isSome

private theorem GuardedStore.height_parent {s : Core} (h : GuardedStore s) (hcf : CollisionFree s.stored) {hash : Bytes}
    {b parent : Block} (hb : s.load hash = some b) (hparent : s.load b.parentHash = some parent) :
    b.height = parent.height + 1 := by
  obtain ⟨b₀, hb₀, hbody, hhash⟩ := h.exists_stored_hash hb
  obtain ⟨p₀, hp₀, hpbody, hphash⟩ := h.exists_stored_hash hparent
  obtain ⟨i, hi⟩ := List.getElem?_of_mem hb₀
  rcases h.rooted.parent i b₀ hi with hg | ⟨j, p, -, hj, hpar, hheight⟩
  · -- the parent hash of the genesis block is empty, and no block has an empty hash
    rw [← parentHash_body hbody, hg] at hphash
    have hlen := congrArg List.length hphash
    rw [length_getBlockHash] at hlen
    exact absurd hlen (by decide)
  · rw [← parentHash_body hbody, hpar] at hphash
    obtain ⟨-, hh⟩ := h.rooted.eq_of_hash hcf hp₀ (List.mem_of_getElem? hj) hphash
    rw [← height_body hbody, ← height_body hpbody, hh]
    exact hheight

/-- The position of the first stored block with a given hash falls along a parent link. -/
private theorem GuardedStore.findIdx_lt {s : Core} (h : GuardedStore s) (hcf : CollisionFree s.stored)
    {hash hash' : Bytes} (hlink : s.ParentLink hash hash') :
    s.stored.findIdx (fun b => getBlockHash b = hash') < s.stored.findIdx (fun b => getBlockHash b = hash) := by
  obtain ⟨b, hb, rfl, hsome⟩ := hlink
  obtain ⟨parent, hparent⟩ := Option.isSome_iff_exists.1 hsome
  obtain ⟨b₀, hb₀, hbody, hhash⟩ := h.exists_stored_hash hb
  have hlt : s.stored.findIdx (fun b => getBlockHash b = hash) < s.stored.length :=
    List.findIdx_lt_length_of_exists ⟨b₀, hb₀, by simpa using hhash⟩
  generalize hi : s.stored.findIdx (fun b => getBlockHash b = hash) = i at hlt
  have hfirst : getBlockHash s.stored[i] = hash := by
    subst hi
    have hget := @List.findIdx_getElem _ (fun b => decide (getBlockHash b = hash)) s.stored hlt
    simpa using hget
  obtain ⟨hpar, -⟩ := h.rooted.eq_of_hash hcf (List.getElem_mem hlt) hb₀ (hfirst.trans hhash.symm)
  rcases h.rooted.parent i _ (List.getElem?_eq_getElem hlt) with hg | ⟨j, p, hj, hp, hpp, -⟩
  · obtain ⟨p₀, -, -, hphash⟩ := h.exists_stored_hash hparent
    rw [← parentHash_body hbody, ← hpar, hg] at hphash
    have hlen := congrArg List.length hphash
    rw [length_getBlockHash] at hlen
    exact absurd hlen (by decide)
  · have hle : s.stored.findIdx (fun b' => getBlockHash b' = b.parentHash) ≤ j := by
      by_contra hcon
      have hnot := List.not_of_lt_findIdx (Nat.lt_of_not_le hcon)
      obtain ⟨hjlt, hjeq⟩ := List.getElem?_eq_some_iff.1 hp
      rw [hjeq, ← hpp, hpar, parentHash_body hbody] at hnot
      simp at hnot
    omega

private theorem GuardedStore.acyclic {s : Core} (h : GuardedStore s) (hcf : CollisionFree s.stored) (hash : Bytes) :
    ¬ Relation.TransGen s.ParentLink hash hash := by
  have hlt : ∀ {x y}, Relation.TransGen s.ParentLink x y →
      s.stored.findIdx (fun b => getBlockHash b = y) < s.stored.findIdx (fun b => getBlockHash b = x) := by
    intro x y hxy
    induction hxy with
    | single hlink => exact h.findIdx_lt hcf hlink
    | tail _ hlink ih => exact (h.findIdx_lt hcf hlink).trans ih
  exact fun hcycle => absurd (hlt hcycle) (Nat.lt_irrefl _)

end Core

/-- Block store integrity, for runs in which every block that arrives passes the checks `OnPropose` makes on its own
blocks: its `SelfQc` carries its hash, its parent is cached and its height is one more.  In every state reached the key
of an entry is the hash of its block, heights go up by one along parent links, these links are acyclic, and later states
agree on the height and the parent of a hash.  `hcf` excludes a collision of SHA-256 within the run. -/
theorem block_store_integrity (env : Env) (ops later : List CoreOp)
    (hguard : StepsMeet (Core.step env) Core.StoreGuard newHotStuffCore (ops ++ later))
    (hcf : CollisionFree (run (Core.step env) newHotStuffCore (ops ++ later)).stored) :
    (∀ k o, (run (Core.step env) newHotStuffCore ops).blockCache.find? k = some o →
      k = encodeToString (getBlockHash o.block)) ∧
    (∀ hash b parent, (run (Core.step env) newHotStuffCore ops).load hash = some b →
      (run (Core.step env) newHotStuffCore ops).load b.parentHash = some parent → b.height = parent.height + 1) ∧
    (∀ hash, ¬ Relation.TransGen (run (Core.step env) newHotStuffCore ops).ParentLink hash hash) ∧
    (∀ hash b b', (run (Core.step env) newHotStuffCore ops).load hash = some b →
      (run (Core.step env) newHotStuffCore (ops ++ later)).load hash = some b' →
      b'.height = b.height ∧ b'.parentHash = b.parentHash) := by
  have hlast := Core.guardedStore_run hguard
  have hnow := Core.guardedStore_run (Lib.stepsMeet_append.1 hguard).1
  have hsub : (run (Core.step env) newHotStuffCore ops).stored ⊆
      (run (Core.step env) newHotStuffCore (ops ++ later)).stored := by
    rw [Lib.run_append]
    exact (Core.stored_prefix_run env _ later).subset
  have hcf' : CollisionFree (run (Core.step env) newHotStuffCore ops).stored :=
    fun b hb b' hb' => hcf b (hsub hb) b' (hsub hb')
  refine ⟨?_, ?_, hnow.acyclic hcf', ?_⟩
  · intro k o hf
    obtain ⟨b₀, hb₀, hbody⟩ := hnow.mem k o hf
    rw [hnow.key k o hf, ← body_selfQc_blockHash hbody, hnow.rooted.selfHash b₀ hb₀, getBlockHash_body hbody]
  · intro hash b parent hb hparent
    exact hnow.height_parent hcf' hb hparent
  · intro hash b b' hb hb'
    obtain ⟨b₀, hb₀, hbody, hhash⟩ := hnow.exists_stored_hash hb
    obtain ⟨b₁, hb₁, hbody', hhash'⟩ := hlast.exists_stored_hash hb'
    obtain ⟨hp, hh⟩ := hlast.rooted.eq_of_hash hcf hb₁ (hsub hb₀) (hhash'.trans hhash.symm)
    rw [← height_body hbody, ← height_body hbody', ← parentHash_body hbody, ← parentHash_body hbody']
    exact ⟨hh, hp⟩

/-- Two proposals of the four-replica deployment arrive, one after the other. -/
theorem block_store_integrity_server :
    ((run (Core.step (Server.env 0)) newHotStuffCore [.receive ⟨0, Server.chain 1⟩]).load
      (Server.chain 1).selfQc.blockHash).isSome = true ∧
    ¬ Relation.TransGen (run (Core.step (Server.env 0)) newHotStuffCore [.receive ⟨0, Server.chain 1⟩]).ParentLink
      (Server.chain 1).selfQc.blockHash (Server.chain 1).selfQc.blockHash :=
  ⟨by decide +kernel, (block_store_integrity (Server.env 0) [.receive ⟨0, Server.chain 1⟩]
    [.receive ⟨1, Server.chain 2⟩] (by decide +kernel) (by decide +kernel)).2.2.1 _⟩

/-- A block of height `5` on the genesis block, under a hash that is not its own. -/
def Server.misfiled : Block := ⟨genesisHash, [], 3, 5, 0, some genesisQC, ⟨0, [7], ∅⟩⟩

/-- One proposal suffices to store a block under a key that is not its hash, with a height that is not its parent's plus
one. -/
theorem store_unchecked :
    ∃ k o parent,
      (run (Core.step (Server.env 0)) newHotStuffCore [.receive ⟨0, Server.misfiled⟩]).blockCache.find? k = some o ∧
      (run (Core.step (Server.env 0)) newHotStuffCore [.receive ⟨0, Server.misfiled⟩]).load o.block.parentHash =
        some parent ∧
      k ≠ encodeToString (getBlockHash o.block) ∧ o.block.height ≠ parent.height + 1 := by
  have hentry : ((run (Core.step (Server.env 0)) newHotStuffCore [.receive ⟨0, Server.misfiled⟩]).object? [7]).map
      (fun o => (o.block.parentHash, o.block.height)) = some (genesisHash, 5) := by decide +kernel
  have hroot : ((run (Core.step (Server.env 0)) newHotStuffCore [.receive ⟨0, Server.misfiled⟩]).load genesisHash).map
      (fun b => b.height) = some 0 := by decide +kernel
  obtain ⟨o, ho, hfields⟩ := Option.map_eq_some_iff.1 hentry
  obtain ⟨parent, hparent, hheight⟩ := Option.map_eq_some_iff.1 hroot
  obtain ⟨hp, hh⟩ := Prod.mk.inj hfields
  refine ⟨encodeToString [7], o, parent, ho, hp ▸ hparent, ?_, ?_⟩
  · rw [Ne, Lib.encodeToString_inj]
    intro heq
    have hlen := congrArg List.length heq
    rw [length_getBlockHash] at hlen
    exact absurd hlen (by decide)
  · rw [hh, hheight]
    decide

end GoHotstuff
