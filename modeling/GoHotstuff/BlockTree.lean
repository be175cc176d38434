import GoHotstuff.Locks
import GoHotstuff.Network

/-!
# The tree of blocks

A block that `OnPropose` makes carries its own hash and the highest certificate, which is for its parent; it is one higher
than its parent.  Blocks of this kind, whoever stores them, form a tree over the genesis block (`BlockTree`): a hash
determines parent and height, and the justify block of a block is its parent.  The blocks stored by a set of replicas stay
such a tree as long as the blocks that arrive from outside fit in (`Net.tree_step`).
-/

namespace GoHotstuff

open Lib (Bytes run StepsMeet)

/-! ### Trees -/

/-- The block is as `OnPropose` makes it, on a block of the list. -/
structure Linked (rc : ReplicaConf) (l : List Block) (b : Block) : Prop where
  selfHash : b.selfQc.blockHash = getBlockHash b
  justify : ∃ qc, b.justify = some qc ∧ qc.blockHash = b.parentHash ∧ qc.Sound rc
  parent : ∃ p ∈ l, getBlockHash p = b.parentHash ∧ b.height = p.height + 1
  pos : 0 < b.height

/-- The genesis block, up to votes collected for it, or a linked block. -/
def InTree (rc : ReplicaConf) (l : List Block) (b : Block) : Prop := b.body = genesis.body ∨ Linked rc l b

def BlockTree (rc : ReplicaConf) (l : List Block) : Prop := ∀ b ∈ l, InTree rc l b

/-- The block is in the list, up to collected votes. -/
def Known (l : List Block) (b : Block) : Prop := ∃ b₀ ∈ l, b₀.body = b.body

theorem Known.mono {l l' : List Block} {b : Block} (h : Known l b) (hl : l ⊆ l') : Known l' b := by
  obtain ⟨b₀, hmem, hbody⟩ := h
  exact ⟨b₀, hl hmem, hbody⟩

theorem Linked.mono {rc : ReplicaConf} {l l' : List Block} {b : Block} (h : Linked rc l b) (hl : l ⊆ l') :
    Linked rc l' b := by
  obtain ⟨p, hp, hrest⟩ := h.parent
  exact ⟨h.selfHash, h.justify, ⟨p, hl hp, hrest⟩, h.pos⟩

private theorem InTree.mono {rc : ReplicaConf} {l l' : List Block} {b : Block} (h : InTree rc l b) (hl : l ⊆ l') :
    InTree rc l' b := by
  rcases h with hg | h
  · exact Or.inl hg
  · exact Or.inr (h.mono hl)

private theorem InTree.of_body {rc : ReplicaConf} {l : List Block} {b b' : Block} (h : InTree rc l b)
    (hb : b.body = b'.body) :
    InTree rc l b' := by
  rcases h with hg | h
  · exact Or.inl (hb.symm.trans hg)
  · right
    constructor
    · rw [← body_selfQc_blockHash hb, ← getBlockHash_body hb]
      exact h.selfHash
    · rw [← justify_body hb, ← parentHash_body hb]
      exact h.justify
    · rw [← parentHash_body hb, ← height_body hb]
      exact h.parent
    · rw [← height_body hb]
      exact h.pos

theorem InTree.selfHash {rc : ReplicaConf} {l : List Block} {b : Block} (h : InTree rc l b) :
    b.selfQc.blockHash = getBlockHash b := by
  rcases h with hg | h
  · rw [body_selfQc_blockHash hg, getBlockHash_body hg]
    rfl
  · exact h.selfHash

private theorem InTree.sized {rc : ReplicaConf} {l : List Block} {b : Block} (h : InTree rc l b) : b.Sized := by
  rcases h with hg | h
  · exact Or.inl hg
  · obtain ⟨p, -, hp, -⟩ := h.parent
    right
    rw [← hp, length_getBlockHash]

/-- A successor that is positive has not overflowed. -/
theorem toInt_succ_of_pos {x : Int64} (h : 0 < x + 1) : (x + 1).toInt = x.toInt + 1 := by
  have hx := Int64.lt_iff_toInt_lt.1 h
  have hlt := x.toInt_lt
  have hle := x.le_toInt
  rw [Int64.toInt_zero] at hx
  rw [Int64.toInt_add, Int64.toInt_one] at hx ⊢
  by_cases hmax : x.toInt + 1 < 2 ^ 63
  · rw [Int.bmod_eq_of_le] <;> omega
  · have heq : x.toInt = 2 ^ 63 - 1 := by omega
    rw [heq] at hx
    exact absurd hx (by decide)

section Tree

variable {rc : ReplicaConf} {l : List Block}

theorem known_of_mem {b : Block} (h : b ∈ l) : Known l b := ⟨b, h, rfl⟩

theorem BlockTree.inTree (T : BlockTree rc l) {b : Block} (hb : Known l b) : InTree rc l b := by
  obtain ⟨b₀, hmem, hbody⟩ := hb
  exact (T b₀ hmem).of_body hbody

/-- Without collisions, a hash determines parent and height. -/
theorem Known.eq_of_hash (hsized : ∀ b ∈ l, b.Sized) (hcf : CollisionFree l) {b b' : Block} (hb : Known l b)
    (hb' : Known l b') (h : getBlockHash b = getBlockHash b') :
    b.parentHash = b'.parentHash ∧ b.height = b'.height := by
  obtain ⟨b₀, hmem, hbody⟩ := hb
  obtain ⟨b₀', hmem', hbody'⟩ := hb'
  rw [← getBlockHash_body hbody, ← getBlockHash_body hbody'] at h
  rw [← parentHash_body hbody, ← parentHash_body hbody', ← height_body hbody, ← height_body hbody']
  exact (hsized b₀ hmem).eq_of_hashInput (hsized b₀' hmem') (hcf b₀ hmem b₀' hmem' h)

theorem BlockTree.eq_of_hash (T : BlockTree rc l) (hcf : CollisionFree l) {b b' : Block} (hb : Known l b)
    (hb' : Known l b') (h : getBlockHash b = getBlockHash b') : b.parentHash = b'.parentHash ∧ b.height = b'.height :=
  hb.eq_of_hash (fun b hb => (T b hb).sized) hcf hb' h

/-- A block whose parent hash is that of a block is not the genesis block. -/
private theorem InTree.linked_of_parent {b p : Block} (h : InTree rc l b) (hp : getBlockHash p = b.parentHash) :
    Linked rc l b := by
  rcases h with hg | h
  · have hlen := congrArg List.length hp
    rw [length_getBlockHash, parentHash_body hg] at hlen
    cases hlen
  · exact h

theorem BlockTree.height_parent (T : BlockTree rc l) (hcf : CollisionFree l) {b p : Block} (hb : Known l b)
    (hp : Known l p) (h : getBlockHash p = b.parentHash) :
    p.height < b.height ∧ b.height.toInt = p.height.toInt + 1 := by
  have hlink := (T.inTree hb).linked_of_parent h
  obtain ⟨p', hp', hhash, hheight⟩ := hlink.parent
  have hsame := (T.eq_of_hash hcf hp (known_of_mem hp') (h.trans hhash.symm)).2
  have hpos := hlink.pos
  rw [hheight, ← hsame] at hpos
  have hsucc := toInt_succ_of_pos hpos
  rw [hheight, ← hsame]
  refine ⟨Int64.lt_iff_toInt_lt.2 ?_, hsucc⟩
  omega

theorem BlockTree.genesis_of_hash (T : BlockTree rc l) (hcf : CollisionFree l) (hroot : genesis ∈ l) {b : Block}
    (hb : Known l b) (h : getBlockHash b = genesisHash) : b.body = genesis.body := by
  rcases T.inTree hb with hg | hlink
  · exact hg
  · obtain ⟨p, -, hp, -⟩ := hlink.parent
    have heq := (T.eq_of_hash hcf hb (known_of_mem hroot) h).1
    have hlen := congrArg List.length (hp.trans heq)
    rw [length_getBlockHash] at hlen
    cases hlen

/-- What a store of the tree finds under a hash is a block with this hash. -/
theorem BlockTree.load (T : BlockTree rc l) {s : Core} (h : s.StoreInv) (hs : s.stored ⊆ l) {hash : Bytes} {b : Block}
    (hl : s.load hash = some b) : Known l b ∧ getBlockHash b = hash := by
  obtain ⟨b₀, hmem, hbody⟩ := h.exists_stored hl
  have hknown : Known l b := ⟨b₀, hs hmem, hbody⟩
  refine ⟨hknown, ?_⟩
  rw [← (T.inTree hknown).selfHash]
  exact h.selfQc_blockHash hl

/-- The justify block of a block of the tree is its parent, and the certificate is sound. -/
theorem BlockTree.justify (T : BlockTree rc l) (hcf : CollisionFree l) {s : Core} (h : s.StoreInv) (hs : s.stored ⊆ l)
    {b jb : Block} {qc : QuorumCert} (hb : Known l b) (hj : s.justifyBlock? b = some (qc, jb)) :
    Known l jb ∧ getBlockHash jb = qc.blockHash ∧ getBlockHash jb = b.parentHash ∧ qc.Sound rc ∧
      jb.height < b.height := by
  obtain ⟨hqc, hl⟩ := Core.justifyBlock?_eq_some.1 hj
  obtain ⟨hknown, hhash⟩ := T.load h hs hl
  rcases T.inTree hb with hg | hlink
  · rw [justify_body hg] at hqc
    cases hqc
  · obtain ⟨qc', hqc', hparent, hsound⟩ := hlink.justify
    rw [hqc] at hqc'
    obtain rfl := Option.some.inj hqc'
    have hp := hhash.trans hparent
    exact ⟨hknown, hhash, hp, hsound, (T.height_parent hcf hb hknown hp).1⟩

end Tree

/-! ### Every replica -/

/-- What holds in a core whatever calls are made on it. -/
structure Core.Base (env : Env) (s : Core) : Prop extends HighInv env s where
  pending : s.PendingStored
  voteHeight : 0 ≤ s.voteHeight

theorem Core.Quiet.base {env : Env} {s s' : Core} (q : Quiet s s') (h : s.Base env) : s'.Base env := by
  refine ⟨q.highInv h.toHighInv, ?_, ?_⟩
  · intro p hp
    have hmem := h.pending p (q.pending hp)
    obtain ⟨c, w, k, x, hc, hp, rfl⟩ := q
    exact hmem
  · obtain ⟨c, w, k, x, hc, hp, rfl⟩ := q
    exact h.voteHeight

theorem Core.Base.step {env : Env} {s : Core} (h : s.Base env) (op : CoreOp) : (s.step env op).Base env := by
  refine ⟨(h.toHighInv.step op).1, h.pending.step env op, ?_⟩
  have h0 := h.voteHeight
  have hle := voteHeight_le_step env s op
  lia

theorem Core.base_newHotStuffCore (env : Env) : newHotStuffCore.Base env where
  toHighInv := highInv_newHotStuffCore env
  pending p hp := by cases hp
  voteHeight := Int64.le_refl 0

/-- What the events say of the blocks stored so far, when each call's events say it of the blocks stored by then. -/
theorem Core.notified_run {env : Env} {Q : List Block → Event → Prop} (hmono : ∀ {l l' e}, l ⊆ l' → Q l e → Q l' e)
    (hstep : ∀ {s op}, StoreInv s → Notifies (Q (s.step env op).stored) s (s.step env op)) (ops : List CoreOp) {s : Core}
    (hst : s.StoreInv) (h : ∀ e ∈ s.notified, Q s.stored e) :
    ∀ e ∈ (run (step env) s ops).notified, Q (run (step env) s ops).stored e := by
  induction ops generalizing s with
  | nil => exact h
  | cons op ops ih =>
    refine ih (hst.step env op) ((hstep hst).all fun e he => ?_)
    exact hmono (stored_prefix_step env s op).subset (h e he)

namespace Node

/-- An action is a list of calls on the core. -/
theorem core_step (env : NodeEnv) (n : Node) (a : Action) :
    ∃ ops, (n.step env a).core = run (Core.step env.toEnv) n.core ops := by
  cases step_case env n a with
  | minor m =>
    obtain ⟨ops, hcore, -⟩ := m.core
    exact ⟨ops, hcore⟩
  | main hop hcore m =>
    obtain ⟨ops, hcore, -⟩ := m.core
    exact ⟨ops, hcore⟩

theorem base_step {env : NodeEnv} {n : Node} (h : n.core.Base env.toEnv) (a : Action) :
    (n.step env a).core.Base env.toEnv := by
  obtain ⟨ops, hcore⟩ := core_step env n a
  rw [hcore]
  clear hcore
  generalize n.core = s at h
  induction ops generalizing s with
  | nil => exact h
  | cons op ops ih => exact ih (s.step env.toEnv op) (h.step op)

theorem stored_prefix_node (env : NodeEnv) (n : Node) (a : Action) : n.core.stored <+: (n.step env a).core.stored := by
  obtain ⟨ops, hcore⟩ := core_step env n a
  rw [hcore]
  exact Core.stored_prefix_run env.toEnv n.core ops

/-- A minor call stores nothing. -/
theorem MinorCall.stored_run {env : NodeEnv} {n : Node} {a : Action} {ops : List CoreOp}
    (h : ∀ op ∈ ops, MinorCall env n a op) (s : Core) :
    (run (Core.step env.toEnv) s ops).stored = s.stored := by
  induction ops generalizing s with
  | nil => rfl
  | cons op ops ih =>
    rw [Lib.run_cons, ih (fun op' hop' => h op' (List.mem_cons_of_mem _ hop'))]
    exact ((h op List.mem_cons_self).sameEntries s).2.1

/-- The replica makes the block `b` itself, on the block of its highest certificate. -/
def MakesBlock (env : NodeEnv) (n : Node) (b : Block) : Prop :=
  ∃ parent cmds now, n.core.load n.core.genericQC.blockHash = some parent ∧ n.core.voteHeight < b.height ∧
    b = n.core.newBlock env.toEnv n.curView n.core.genericQC.blockHash cmds parent now

/-- The action is the beat in which the replica makes the block `b`. -/
def BeatMakes (env : NodeEnv) (n : Node) (a : Action) (b : Block) : Prop :=
  ∃ i conn now cmds parent, a = .task i conn now ∧ n.beatCmds i = some cmds ∧
    n.core.load n.core.genericQC.blockHash = some parent ∧ n.core.voteHeight < b.height ∧
    b = n.core.newBlock env.toEnv n.curView n.core.genericQC.blockHash cmds parent now

private theorem BeatMakes.makesBlock {env : NodeEnv} {n : Node} {a : Action} {b : Block} (h : n.BeatMakes env a b) :
    n.MakesBlock env b := by
  obtain ⟨-, -, now, cmds, parent, -, -, hrest⟩ := h
  exact ⟨parent, cmds, now, hrest⟩

/-- A block that an action stores has arrived with it or is made by it. -/
theorem stored_beat {env : NodeEnv} {n : Node} {a : Action} {b : Block} (hb : b ∈ (n.step env a).core.stored) :
    b ∈ n.core.stored ∨
    (∃ src viewNumber pb, a = .message src (.proposal viewNumber (some pb)) ∧ pb.toBlock? = some b) ∨
    n.BeatMakes env a b := by
  cases step_case env n a with
  | minor m =>
    obtain ⟨ops, hcore, hops⟩ := m.core
    rw [hcore, MinorCall.stored_run hops] at hb
    exact Or.inl hb
  | @main op s hop hcore m =>
    rw [hcore] at hb
    have hstored : s.stored = n.core.stored := by
      obtain ⟨c, w, k, x, hc, hp, heq⟩ := hop.quiet
      rw [heq]
    rcases Core.step_entries env.toEnv s op with ⟨-, hs, -⟩ | ⟨b', s1, hst, q, -, hs, -⟩
    · rw [hs, hstored] at hb
      exact Or.inl hb
    · have hs1 : (s1.storeBlock b').stored = n.core.stored ++ [b'] := by
        obtain ⟨c, w, k, x, hc, hp, rfl⟩ := q
        exact congrArg (· ++ [b']) hstored
      rw [hs, hs1, List.mem_append, List.mem_singleton] at hb
      rcases hb with hb | rfl
      · exact Or.inl hb
      · right
        cases hop with
        | receive ha hpb =>
          cases hst with
          | receive prop => exact Or.inl ⟨_, _, _, ha, hpb⟩
        | resume ha => cases hst
        | @propose i conn now cmds rest ha hi hcmds =>
          cases hst with
          | propose hl hh => exact Or.inr ⟨i, conn, now, cmds, _, ha, beatCmds_eq hi hcmds, hl, hh, rfl⟩

/-- A block that an action stores has arrived with it or is the replica's own. -/
theorem stored_cases {env : NodeEnv} {n : Node} {a : Action} {b : Block} (hb : b ∈ (n.step env a).core.stored) :
    b ∈ n.core.stored ∨
    (∃ src viewNumber pb, a = .message src (.proposal viewNumber (some pb)) ∧ pb.toBlock? = some b) ∨
    n.MakesBlock env b := by
  rcases stored_beat hb with hold | harrived | hmakes
  · exact Or.inl hold
  · exact Or.inr (Or.inl harrived)
  · exact Or.inr (Or.inr hmakes.makesBlock)

/-- The own block fits into the tree of the blocks stored so far. -/
private theorem MakesBlock.linked {env : NodeEnv} {n : Node} {b : Block} {l : List Block} (h : n.MakesBlock env b)
    (hbase : n.core.Base env.toEnv) (T : BlockTree env.replicas l) (hs : n.core.stored ⊆ l) :
    Linked env.replicas l b := by
  obtain ⟨parent, cmds, now, hl, hh, rfl⟩ := h
  obtain ⟨p, hmem, hbody⟩ := hbase.exists_stored hl
  refine ⟨rfl, ⟨n.core.genericQC, rfl, rfl, hbase.high⟩, ⟨p, hs hmem, ?_, ?_⟩, ?_⟩
  · rw [getBlockHash_body hbody]
    exact (T.load hbase.toStoreInv hs hl).2
  · rw [height_body hbody]
    rfl
  · have h0 := hbase.voteHeight
    lia

end Node

/-! ### A set of replicas -/

namespace Net

/-- The blocks the replicas `ids` have stored. -/
def blocks (ids : List Int64) (net : Net) : List Block := ids.flatMap fun id => (net id).core.stored

theorem mem_blocks {ids : List Int64} {net : Net} {b : Block} :
    b ∈ net.blocks ids ↔ ∃ id ∈ ids, b ∈ (net id).core.stored := List.mem_flatMap

theorem stored_subset_blocks {ids : List Int64} {id : Int64} (h : id ∈ ids) (net : Net) :
    (net id).core.stored ⊆ net.blocks ids := fun _ hb => mem_blocks.2 ⟨id, h, hb⟩

theorem blocks_subset_step (E : NetEnv) (ids : List Int64) (net : Net) (x : Int64 × Action) :
    net.blocks ids ⊆ (net.step E x).blocks ids := by
  intro b hb
  obtain ⟨id, hid, hb⟩ := mem_blocks.1 hb
  refine mem_blocks.2 ⟨id, hid, ?_⟩
  by_cases h : id = x.1
  · subst h
    rw [step_self]
    exact (Node.stored_prefix_node _ _ _).subset hb
  · rw [step_of_ne E net h]
    exact hb

theorem base_run (E : NetEnv) (acts : List (Int64 × Action)) (id : Int64) :
    (run (step E) start acts id).core.Base (E.node id).toEnv := by
  induction acts using List.reverseRecOn with
  | nil => exact Core.base_newHotStuffCore _
  | append_singleton acts x ih =>
    rw [Lib.run_append]
    show (step E _ x id).core.Base _
    by_cases h : id = x.1
    · subst h
      rw [step_self]
      exact Node.base_step ih x.2
    · rw [step_of_ne E _ h]
      exact ih

/-- The blocks stay a tree if the block of a proposal that arrives at one of the replicas fits in. -/
theorem tree_step {E : NetEnv} {ids : List Int64} {net : Net} (T : BlockTree E.replicas (net.blocks ids))
    (hbase : ∀ id, (net id).core.Base (E.node id).toEnv) (x : Int64 × Action)
    (hmsg : x.1 ∈ ids → ∀ src viewNumber pb b, x.2 = .message src (.proposal viewNumber (some pb)) →
      pb.toBlock? = some b → InTree E.replicas (net.blocks ids) b) :
    BlockTree E.replicas ((net.step E x).blocks ids) := by
  intro b hb
  refine InTree.mono ?_ (blocks_subset_step E ids net x)
  obtain ⟨id, hid, hb⟩ := mem_blocks.1 hb
  by_cases h : id = x.1
  · subst h
    rw [step_self] at hb
    rcases Node.stored_cases hb with hb | ⟨src, viewNumber, pb, ha, hpb⟩ | hmakes
    · exact T b (mem_blocks.2 ⟨_, hid, hb⟩)
    · exact hmsg hid src viewNumber pb b ha hpb
    · exact Or.inr (hmakes.linked (hbase _) T (stored_subset_blocks hid net))
  · rw [step_of_ne E net h] at hb
    exact T b (mem_blocks.2 ⟨id, hid, hb⟩)

theorem tree_start (rc : ReplicaConf) (ids : List Int64) : BlockTree rc (start.blocks ids) := by
  intro b hb
  obtain ⟨id, -, hb⟩ := mem_blocks.1 hb
  left
  rw [List.mem_singleton.1 (show b ∈ [genesis] from hb)]

end Net

end GoHotstuff
