import GoHotstuff.Locks

/-!
# The order of execution

When the blocks of one chain are processed in chain order, each once, every block decides the one three below it, and the
decisions are the chain in ascending order (`execution_order`).  Nothing in `update` provides for any other order.  The
decide loop walks from the new block down to the last executed one and sends its events on the way, so a gap is decided
in descending order (`gap_decided_backwards`); and `execQC` is set to whatever block ends the three-chain at hand, so a
late block moves it back and the blocks above are decided again.
-/

namespace GoHotstuff

open Lib (Bytes run StepsMeet)

/-- `chain 0` to `chain n` is a chain on the genesis block as honest leaders make it: each block carries its own hash, has
its predecessor as parent and names it in its `Justify`.  The hashes are distinct, which only a collision of SHA-256 could
spoil. -/
structure HonestChain (chain : Nat → Block) (n : Nat) : Prop where
  zero : chain 0 = genesis
  self : ∀ k ≤ n, (chain k).selfQc.blockHash = getBlockHash (chain k)
  parent : ∀ k < n, (chain (k + 1)).parentHash = (chain k).selfQc.blockHash
  justify : ∀ k < n, ∃ qc ∈ (chain (k + 1)).justify, qc.blockHash = (chain k).selfQc.blockHash
  height : ∀ k < n, (chain (k + 1)).height = (chain k).height + 1
  inj : ∀ j ≤ n, ∀ k ≤ n, (chain j).selfQc.blockHash = (chain k).selfQc.blockHash → j = k

/-- The certificate a block of the chain carries for its predecessor. -/
def Block.justifyQC (b : Block) : QuorumCert := b.justify.getD genesisQC

theorem HonestChain.justifyQC {chain : Nat → Block} {n k : Nat} (hc : HonestChain chain n) (hk : k < n) :
    (chain (k + 1)).justify = some (chain (k + 1)).justifyQC ∧
      (chain (k + 1)).justifyQC.blockHash = (chain k).selfQc.blockHash := by
  obtain ⟨qc, hqc, hhash⟩ := hc.justify k hk
  unfold Block.justifyQC
  rw [show (chain (k + 1)).justify = some qc from hqc]
  exact ⟨rfl, hhash⟩

namespace Core

variable {chain : Nat → Block} {n : Nat}

/-! ### A store with the blocks of a chain -/

/-- All stored blocks are blocks of the chain. -/
structure ChainStore (chain : Nat → Block) (n : Nat) (s : Core) : Prop extends StoreInv s where
  blocks : ∀ b ∈ s.stored, ∃ k ≤ n, b.body = (chain k).body

/-- The block found under the hash of `chain k`. -/
theorem ChainStore.load_body {s : Core} (hc : HonestChain chain n) (h : ChainStore chain n s) {k : Nat} (hk : k ≤ n)
    {b : Block} (hl : s.load (chain k).selfQc.blockHash = some b) : b.body = (chain k).body := by
  obtain ⟨b₀, hb₀, hbody⟩ := h.exists_stored hl
  obtain ⟨j, hjn, hbj⟩ := h.blocks b₀ hb₀
  have hhash : (chain j).selfQc.blockHash = (chain k).selfQc.blockHash := by
    rw [← body_selfQc_blockHash hbj, body_selfQc_blockHash hbody]
    exact h.selfQc_blockHash hl
  rw [← hc.inj j hjn k hk hhash, ← hbj, hbody]

/-- The justify block of a block of the chain. -/
theorem ChainStore.justifyBlock? {s : Core} (hc : HonestChain chain n) (h : ChainStore chain n s) {k : Nat} (hk : k < n)
    {b : Block} (hb : b.body = (chain (k + 1)).body) (hl : (s.load (chain k).selfQc.blockHash).isSome) :
    ∃ jb, s.justifyBlock? b = some ((chain (k + 1)).justifyQC, jb) ∧ jb.body = (chain k).body := by
  obtain ⟨hqc, hhash⟩ := hc.justifyQC hk
  obtain ⟨jb, hjb⟩ := Option.isSome_iff_exists.1 hl
  refine ⟨jb, justifyBlock?_eq_some.2 ⟨?_, ?_⟩, h.load_body hc (by omega) hjb⟩
  · rw [justify_body hb]
    exact hqc
  · rw [hhash]
    exact hjb

theorem justifyBlock?_genesis {s : Core} {b : Block} (hb : b.body = genesis.body) : s.justifyBlock? b = none := by
  have hnone : b.justify = none := justify_body hb
  unfold Core.justifyBlock?
  rw [hnone]
  rfl

/-- The blocks `update` looks at when it is called with `chain (m + 1)`: the three below, and the one below these, which is
the last executed block. -/
def Window (chain : Nat → Block) (m : Nat) (s : Core) : Prop :=
  ∀ k ≤ m, m ≤ k + 3 → (s.load (chain k).selfQc.blockHash).isSome

private theorem ancestors_one {s : Core} (hc : HonestChain chain n) (h : ChainStore chain n s) {k : Nat} (hk : k < n)
    {b xb : Block} (hb : b.body = (chain (k + 1)).body) (hx : xb.body = (chain k).body)
    (hl : (s.load (chain (k + 1)).selfQc.blockHash).isSome) :
    (s.ancestors (b.height - xb.height).toNatClampNeg (getBlockHash b)).map Block.body = [(chain (k + 1)).body] ∧
      (b.height - xb.height).toNatClampNeg = 1 := by
  have hone : (b.height - xb.height).toNatClampNeg = 1 := by
    have hdiff : b.height - xb.height = 1 := by
      rw [height_body hb, height_body hx, hc.height k hk]
      lia
    rw [hdiff]
    rfl
  obtain ⟨b', hb'⟩ := Option.isSome_iff_exists.1 hl
  have hhash : getBlockHash b = (chain (k + 1)).selfQc.blockHash := by
    rw [hc.self (k + 1) (by omega), getBlockHash_body hb]
  rw [hone, hhash]
  refine ⟨?_, rfl⟩
  unfold ancestors
  rw [hb']
  show [b'.body] = _
  rw [h.load_body hc (by omega) hb']

private theorem UpdateResult.exec_of_short {env : Env} {s s' : Core} {b : Block} {r : Except CoreError Unit}
    (u : UpdateResult env s b r s')
    (hshort : ∀ qc2 b2 qc1 b1, s.justifyBlock? b = some (qc2, b2) → s.justifyBlock? b2 = some (qc1, b1) →
      s.justifyBlock? b1 = none) : s'.execQC = s.execQC ∧ s'.decided = s.decided := by
  rcases u.exec with hsame | ⟨qc2, b2, qc1, b1, qc0, b0, xb, h2, h1, h0, -⟩
  · exact hsame
  · rw [hshort qc2 b2 qc1 b1 h2 h1] at h0
    cases h0

private theorem UpdateResult.ok_of_short {env : Env} {s s' : Core} {b : Block} {x : QuorumCert × Block}
    {r : Except CoreError Unit} (u : UpdateResult env s b r s') (h2 : s.justifyBlock? b = some x)
    (hshort : ∀ qc2 b2 qc1 b1, s.justifyBlock? b = some (qc2, b2) → s.justifyBlock? b2 = some (qc1, b1) →
      s.justifyBlock? b1 = none) : r = .ok () := by
  cases u with
  | noJustify h2' =>
    rw [h2] at h2'
    cases h2'
  | preCommit => rfl
  | commit => rfl
  | noExec h2' h1' h0' =>
    rw [hshort _ _ _ _ h2' h1'] at h0'
    cases h0'
  | decide h2' h1' h0' =>
    rw [hshort _ _ _ _ h2' h1'] at h0'
    cases h0'

/-- With a three-chain below, `update` moves to its end. -/
theorem UpdateResult.exec_of_threeChain {env : Env} {s s' : Core} {b b2 b1 b0 xb : Block} {qc2 qc1 qc0 : QuorumCert}
    {r : Except CoreError Unit} (u : UpdateResult env s b r s') (h2 : s.justifyBlock? b = some (qc2, b2))
    (h1 : s.justifyBlock? b2 = some (qc1, b1)) (h0 : s.justifyBlock? b1 = some (qc0, b0))
    (hp2 : b2.parentHash = qc1.blockHash) (hp1 : b1.parentHash = qc0.blockHash)
    (hx : s.load s.execQC.blockHash = some xb) :
    s'.execQC = qc0 ∧
      s'.decided = s.decided ++ s.ancestors (b0.height - xb.height).toNatClampNeg (getBlockHash b0) ∧
      (r = .ok () ↔ (s.ancestors (b0.height - xb.height).toNatClampNeg (getBlockHash b0)).length =
        (b0.height - xb.height).toNatClampNeg) := by
  -- `update` cannot have stopped earlier
  cases u with
  | noJustify h2' =>
    rw [h2] at h2'
    cases h2'
  | preCommit h2' h1' =>
    rw [h2] at h2'
    cases h2'
    rw [h1] at h1'
    cases h1'
  | commit h2' h1' h0' =>
    rw [h2] at h2'
    cases h2'
    rw [h1] at h1'
    cases h1'
    exact absurd ⟨hp2, hp1⟩ (h0' qc0 b0 h0)
  | noExec h2' h1' h0' _ _ hx' =>
    rw [hx] at hx'
    cases hx'
  | decide h2' h1' h0' _ _ hx' hr q =>
    rw [h2] at h2'
    cases h2'
    rw [h1] at h1'
    cases h1'
    rw [h0] at h0'
    cases h0'
    rw [hx] at hx'
    cases hx'
    exact ⟨(exec_of_decide q).1, (exec_of_decide q).2, hr⟩

/-- What `update` does with the next block of a chain: the block three below becomes the last executed one and, unless it
is the genesis block, is decided. -/
theorem UpdateResult.exec_chain {env : Env} {s s' : Core} {b : Block} {r : Except CoreError Unit}
    (u : UpdateResult env s b r s') (hc : HonestChain chain n) (h : ChainStore chain n s) {m : Nat} (hm : m < n)
    (hb : b.body = (chain (m + 1)).body) (hw : s.Window chain m)
    (hx : s.execQC.blockHash = (chain (m - 3)).selfQc.blockHash) :
    (s'.execQC = if 2 ≤ m then (chain (m - 1)).justifyQC else s.execQC) ∧
      (s'.decided.map Block.body = s.decided.map Block.body ++ if 3 ≤ m then [(chain (m - 2)).body] else []) ∧
      r = .ok () := by
  have hjust : ∀ {k : Nat} {b : Block}, k ≤ m → m ≤ k + 3 → b.body = (chain (k + 1)).body →
      ∃ jb, s.justifyBlock? b = some ((chain (k + 1)).justifyQC, jb) ∧ jb.body = (chain k).body := by
    intro k b hkm hmk hb
    exact h.justifyBlock? hc (by omega) hb (hw k hkm hmk)
  obtain ⟨b2, h2, hb2⟩ := hjust (Nat.le_refl m) (by omega) hb
  have hgen : (chain 0).body = genesis.body := congrArg Block.body hc.zero
  have hshort : m < 2 → ∀ qc2 b2 qc1 b1, s.justifyBlock? b = some (qc2, b2) → s.justifyBlock? b2 = some (qc1, b1) →
      s.justifyBlock? b1 = none := by
    intro hlt qc2' b2' qc1' b1' h2' h1'
    rw [h2] at h2'
    cases h2'
    rcases Nat.eq_zero_or_pos m with rfl | hpos
    · -- the justify block is the genesis block
      rw [justifyBlock?_genesis (hb2.trans hgen)] at h1'
      cases h1'
    · obtain rfl : m = 1 := by omega
      obtain ⟨b1, h1, hb1⟩ := hjust (Nat.zero_le 1) (by omega) hb2
      rw [h1] at h1'
      cases h1'
      exact justifyBlock?_genesis (hb1.trans hgen)
  rcases Nat.lt_or_ge m 2 with hlt | hge
  · obtain ⟨hsame, hdec⟩ := u.exec_of_short (hshort hlt)
    rw [hsame, hdec, if_neg (by omega), if_neg (by omega), List.append_nil]
    exact ⟨rfl, rfl, u.ok_of_short h2 (hshort hlt)⟩
  obtain ⟨k, rfl⟩ : ∃ k, m = k + 2 := ⟨m - 2, by omega⟩
  obtain ⟨b1, h1, hb1⟩ := hjust (k := k + 1) (by omega) (by omega) hb2
  obtain ⟨b0, h0, hb0⟩ := hjust (k := k) (by omega) (by omega) hb1
  have hp2 : b2.parentHash = (chain (k + 2)).justifyQC.blockHash := by
    rw [parentHash_body hb2, (hc.justifyQC (by omega : k + 1 < n)).2]
    exact hc.parent (k + 1) (by omega)
  have hp1 : b1.parentHash = (chain (k + 1)).justifyQC.blockHash := by
    rw [parentHash_body hb1, (hc.justifyQC (by omega : k < n)).2]
    exact hc.parent k (by omega)
  obtain ⟨xb, hxb⟩ := Option.isSome_iff_exists.1 (hw (k + 2 - 3) (by omega) (by omega))
  have hxbody := h.load_body hc (by omega) hxb
  rw [← hx] at hxb
  obtain ⟨hexec, hdec, hok⟩ := u.exec_of_threeChain h2 h1 h0 hp2 hp1 hxb
  refine ⟨by rw [hexec, if_pos (by omega)]; rfl, ?_⟩
  rw [hdec, List.map_append]
  rcases Nat.eq_zero_or_pos k with rfl | hpos
  · -- the three-chain ends at the genesis block
    have hzero : (b0.height - xb.height).toNatClampNeg = 0 := by
      have hdiff : b0.height - xb.height = 0 := by
        rw [height_body hb0, height_body hxbody]
        lia
      rw [hdiff]
      rfl
    rw [hzero] at hok ⊢
    rw [if_neg (by omega)]
    exact ⟨rfl, hok.2 rfl⟩
  · obtain ⟨j, rfl⟩ : ∃ j, k = j + 1 := ⟨k - 1, by omega⟩
    have hk : j + 1 + 2 - 3 = j := by omega
    rw [hk] at hxbody
    obtain ⟨hanc, hone⟩ := ancestors_one hc h (by omega) hb0 hxbody (hw (j + 1) (by omega) (by omega))
    have hlen := congrArg List.length hanc
    rw [List.length_map] at hlen
    rw [if_pos (by omega), hanc]
    refine ⟨rfl, hok.2 ?_⟩
    rw [hlen, hone]
    rfl

/-! ### Runs -/

/-- The block is the next one of the chain, and once it is stored the blocks below that `update` asks for are still
cached. -/
def NextInChain (chain : Nat → Block) (n : Nat) (s : Core) (b : Block) : Prop :=
  s.stored.length ≤ n ∧ b.body = (chain s.stored.length).body ∧
    ∀ k < s.stored.length, s.stored.length ≤ k + 4 → ((s.storeBlock b).load (chain k).selfQc.blockHash).isSome

instance (chain : Nat → Block) (n : Nat) (s : Core) (b : Block) : Decidable (s.NextInChain chain n b) :=
  inferInstanceAs (Decidable (s.stored.length ≤ n ∧ b.body = (chain s.stored.length).body ∧
    ∀ k < s.stored.length, s.stored.length ≤ k + 4 → ((s.storeBlock b).load (chain k).selfQc.blockHash).isSome))

/-- Every proposal that arrives, and every own one, is the next block of the chain. -/
def ExecGuard (env : Env) (chain : Nat → Block) (n : Nat) (s : Core) : CoreOp → Prop
  | .receive prop => s.NextInChain chain n prop.block
  | .propose curView parentHash cmds now => ∀ parent ∈ s.load parentHash,
      s.voteHeight < (s.newBlock env curView parentHash cmds parent now).height →
        (s.touch parentHash).NextInChain chain n (s.newBlock env curView parentHash cmds parent now)
  | _ => True

instance (env : Env) (chain : Nat → Block) (n : Nat) (s : Core) : (op : CoreOp) → Decidable (s.ExecGuard env chain n op)
  | .receive prop => inferInstanceAs (Decidable (s.NextInChain chain n prop.block))
  | .propose curView parentHash cmds now => inferInstanceAs (Decidable (∀ parent ∈ s.load parentHash,
      s.voteHeight < (s.newBlock env curView parentHash cmds parent now).height →
        (s.touch parentHash).NextInChain chain n (s.newBlock env curView parentHash cmds parent now)))
  | .resume _ | .vote _ | .newView .. | .look _ | .adopt _ | .sign _ | .crash => .isTrue trivial

/-- The blocks stored so far are `chain 0` to `chain m`; the last executed block is three below the last one. -/
structure ChainInv (chain : Nat → Block) (n : Nat) (s : Core) : Prop extends ChainStore chain n s where
  pos : 0 < s.stored.length
  le : s.stored.length ≤ n + 1
  pending : s.waiting ++ s.woken = []
  exec : s.execQC.blockHash = (chain (s.stored.length - 4)).selfQc.blockHash
  decided : s.decided.map Block.body = (List.range (s.stored.length - 4)).map fun k => (chain (k + 1)).body

theorem chainInv_newHotStuffCore (hc : HonestChain chain n) : ChainInv chain n newHotStuffCore := by
  refine ⟨⟨storeInv_newHotStuffCore, fun b hb => ⟨0, Nat.zero_le n, ?_⟩⟩, Nat.zero_lt_one, Nat.le_add_left 1 n, rfl, ?_,
    rfl⟩
  · rw [hc.zero, List.mem_singleton.1 hb]
  · show genesisQC.blockHash = (chain 0).selfQc.blockHash
    rw [hc.zero]
    rfl

private theorem ChainInv.congr {s s' : Core} (h : ChainInv chain n s) (e : SameEntries s s') (hx : s'.execQC = s.execQC)
    (hd : s'.decided = s.decided) (hp : ∀ p, p ∈ s'.waiting ++ s'.woken → p ∈ s.waiting ++ s.woken) :
    ChainInv chain n s' := by
  have hstored := e.2.1
  refine ⟨⟨e.storeInv h.toStoreInv, ?_⟩, ?_, ?_, ?_, ?_, ?_⟩
  · rw [hstored]
    exact h.blocks
  · rw [hstored]
    exact h.pos
  · rw [hstored]
    exact h.le
  · refine List.eq_nil_iff_forall_not_mem.2 fun p hp' => ?_
    have hmem := hp p hp'
    rw [h.pending] at hmem
    cases hmem
  · rw [hstored, hx]
    exact h.exec
  · rw [hstored, hd]
    exact h.decided

private theorem ChainInv.store {s t : Core} (h : ChainInv chain n s) {b : Block} (hb : s.NextInChain chain n b)
    (q : Quiet (s.storeBlock b) t) : ChainStore chain n t ∧ t.Window chain (s.stored.length - 1) := by
  have hload := q.load
  have hinv := q.storeInv (h.toStoreInv.storeBlock b)
  obtain ⟨c, w, k, x, hcc, hp, rfl⟩ := q
  obtain ⟨hn, hbody, hwin⟩ := hb
  refine ⟨⟨hinv, fun b' hb' => ?_⟩, fun k hk hk3 => ?_⟩
  · rcases List.mem_append.1 hb' with hb' | hb'
    · exact h.blocks b' hb'
    · rw [List.mem_singleton.1 hb']
      exact ⟨s.stored.length, hn, hbody⟩
  · have hpos := h.pos
    rw [hload]
    exact hwin k (by omega) (by omega)

/-- The call that processes the next block. -/
theorem ChainInv.update {env : Env} {s t s' : Core} (hc : HonestChain chain n) (h : ChainInv chain n s) {b : Block}
    (hb : s.NextInChain chain n b) (q : Quiet (s.storeBlock b) t) (e : SameEntries t s')
    (hx : s'.execQC = (t.update env b).2.execQC) (hd : s'.decided = (t.update env b).2.decided)
    (hp : ∀ p, p ∈ s'.waiting ++ s'.woken → p ∈ t.waiting ++ t.woken) : ChainInv chain n s' := by
  obtain ⟨hstore, hwin⟩ := h.store hb q
  obtain ⟨hn, hbody, -⟩ := hb
  have hpos := h.pos
  obtain ⟨m, hm⟩ : ∃ m, s.stored.length = m + 1 := ⟨s.stored.length - 1, by omega⟩
  rw [hm] at hbody hn
  rw [hm, Nat.add_sub_cancel] at hwin
  have hsame : t.execQC = s.execQC ∧ t.decided = s.decided ∧ t.stored.length = m + 2 := by
    obtain ⟨c, w, k, x, hcc, hpp, rfl⟩ := q
    refine ⟨rfl, rfl, ?_⟩
    show (s.stored ++ [b]).length = m + 2
    rw [List.length_append, hm, List.length_singleton]
  have hexec : t.execQC.blockHash = (chain (m - 3)).selfQc.blockHash := by
    rw [hsame.1, h.exec, hm]
    rfl
  obtain ⟨hxq, hdq, -⟩ := (update_cases env t b).exec_chain hc hstore (by omega) hbody hwin hexec
  have hstored : s'.stored.length = m + 2 := by rw [e.2.1, hsame.2.2]
  refine ⟨⟨e.storeInv hstore.toStoreInv, ?_⟩, by omega, by omega, ?_, ?_, ?_⟩
  · rw [e.2.1]
    exact hstore.blocks
  · refine List.eq_nil_iff_forall_not_mem.2 fun p hp' => ?_
    have hnil : p ∈ s.waiting ++ s.woken := q.pending (hp p hp')
    rw [h.pending] at hnil
    cases hnil
  · rw [hx, hxq, hstored]
    rcases Nat.lt_or_ge m 2 with hlt | hge
    · have hidx : m - 3 = m + 2 - 4 := by omega
      rw [if_neg (by omega), hexec, hidx]
    · obtain ⟨k, rfl⟩ : ∃ k, m = k + 2 := ⟨m - 2, by omega⟩
      rw [if_pos (by omega)]
      exact (hc.justifyQC (by omega : k < n)).2
  · rw [hd, hdq, hsame.2.1, h.decided, hm, hstored]
    rcases Nat.lt_or_ge m 3 with hlt | hge
    · have hidx : m + 2 - 4 = m + 1 - 4 := by omega
      rw [if_neg (by omega), List.append_nil, hidx]
    · obtain ⟨k, rfl⟩ : ∃ k, m = k + 3 := ⟨m - 3, by omega⟩
      rw [if_pos (by omega), show k + 3 + 2 - 4 = k + 1 by omega, show k + 3 + 1 - 4 = k by omega, List.range_succ,
        List.map_append]
      rfl

theorem ChainInv.step {env : Env} {s : Core} {op : CoreOp} (hc : HonestChain chain n) (h : ChainInv chain n s)
    (hg : s.ExecGuard env chain n op) : ChainInv chain n (s.step env op) := by
  have hres := step_cases env s op
  generalize s.step env op = s' at hres
  cases hres with
  | quiet hop q =>
    refine h.congr q.sameEntries ?_ q.decided fun p => q.pending
    obtain ⟨c, w, k, x, hcc, hp, rfl⟩ := q
    rfl
  | @propose curView now parentHash cmds parent _ hl hh p =>
    have htouch : ChainInv chain n (s.touch parentHash) :=
      h.congr (quiet_touch s parentHash).sameEntries rfl rfl fun p hp => hp
    exact htouch.update hc (hg parent hl hh) (Quiet.refl _) p.sameEntries p.update.2.1 p.update.2.2 fun _ => p.pending
  | store hw q hj =>
    -- the justify block is cached
    obtain ⟨hstore, hwin⟩ := h.store hg (Quiet.refl _)
    obtain ⟨hlen, hbody, -⟩ := hg
    have hpos := h.pos
    rw [← Nat.sub_add_cancel hpos] at hbody
    obtain ⟨jb, hj', -⟩ := hstore.justifyBlock? hc (by omega) hbody (hwin _ (Nat.le_refl _) (by omega))
    rw [hj] at hj'
    cases hj'
  | receive q hj p => exact h.update hc hg q p.sameEntries p.update.2.1 p.update.2.2 fun _ => p.pending
  | @resume i prop _ _ _ hi q hj p =>
    have hmem : prop ∈ s.waiting ++ s.woken := List.mem_append_right _ (List.mem_of_getElem? hi)
    rw [h.pending] at hmem
    cases hmem
  | vote v =>
    obtain ⟨-, hexec, -, -, -, -, -, hdec⟩ := v.frame
    exact h.congr v.sameEntries hexec hdec fun _ => v.pending
  | newView => exact h.congr ⟨rfl, rfl, Or.inl fun _ => rfl⟩ rfl (decided_notify _ (fun b h => by cases h)) fun _ hp => hp
  | @adopt qc b _ hl q =>
    have hdec := q.decided.trans (decided_highQC env s b qc none)
    obtain ⟨g, o, m, heq⟩ := highQC_frame env s b qc none
    rw [heq] at q
    refine h.congr (SameEntries.trans_quiet ?_ q) ?_ hdec fun _ => q.pending
    · exact ⟨rfl, rfl, Or.inl fun _ => rfl⟩
    · obtain ⟨c, w, k, x, hcc, hp, rfl⟩ := q
      rfl
  | sign => exact h.congr ⟨rfl, rfl, Or.inl fun _ => rfl⟩ rfl rfl fun _ hp => hp

end Core

/-- Execution order, for runs in which every proposal the replica processes, its own included, is the next block of the
chain.  The blocks decided are, up to collected votes, `chain 1`, `chain 2`, … in this order, each once: all but the last
three of the blocks stored so far. -/
theorem execution_order (env : Env) (chain : Nat → Block) (n : Nat) (hchain : HonestChain chain n) (ops : List CoreOp)
    (hguard : StepsMeet (Core.step env) (Core.ExecGuard env chain n) newHotStuffCore ops) :
    (run (Core.step env) newHotStuffCore ops).decided.map Block.body =
      (List.range ((run (Core.step env) newHotStuffCore ops).stored.length - 4)).map fun k => (chain (k + 1)).body :=
  (hguard.invariant (fun _ _ h hg => h.step hchain hg) (Core.chainInv_newHotStuffCore hchain)).decided

instance (chain : Nat → Block) (n : Nat) : Decidable (HonestChain chain n) :=
  decidable_of_iff (chain 0 = genesis ∧ (∀ k ≤ n, (chain k).selfQc.blockHash = getBlockHash (chain k)) ∧
    (∀ k < n, (chain (k + 1)).parentHash = (chain k).selfQc.blockHash) ∧
    (∀ k < n, ∃ qc ∈ (chain (k + 1)).justify, qc.blockHash = (chain k).selfQc.blockHash) ∧
    (∀ k < n, (chain (k + 1)).height = (chain k).height + 1) ∧
    ∀ j ≤ n, ∀ k ≤ n, (chain j).selfQc.blockHash = (chain k).selfQc.blockHash → j = k)
    ⟨fun ⟨h1, h2, h3, h4, h5, h6⟩ => ⟨h1, h2, h3, h4, h5, h6⟩,
      fun ⟨h1, h2, h3, h4, h5, h6⟩ => ⟨h1, h2, h3, h4, h5, h6⟩⟩

/-- A replica receives the blocks `i + 1` to `i + k` of the chain. -/
def Server.receivesFrom (i k : Nat) : List CoreOp :=
  (List.range k).map fun j => .receive ⟨.ofNat (i + j), chain (i + j + 1)⟩

/-- Five proposals in order decide the first two blocks. -/
theorem execution_order_server :
    (run (Core.step (Server.env 3)) newHotStuffCore [.receive ⟨0, Server.chain 1⟩, .receive ⟨1, Server.chain 2⟩,
      .receive ⟨2, Server.chain 3⟩, .receive ⟨3, Server.chain 4⟩, .receive ⟨4, Server.chain 5⟩]).decided.map Block.body =
      [(Server.chain 1).body, (Server.chain 2).body] := by
  have horder := execution_order (Server.env 3) Server.chain 5 (by decide +kernel) [.receive ⟨0, Server.chain 1⟩,
    .receive ⟨1, Server.chain 2⟩, .receive ⟨2, Server.chain 3⟩, .receive ⟨3, Server.chain 4⟩,
    .receive ⟨4, Server.chain 5⟩] (by decide +kernel)
  have hlen : (run (Core.step (Server.env 3)) newHotStuffCore [.receive ⟨0, Server.chain 1⟩, .receive ⟨1, Server.chain 2⟩,
      .receive ⟨2, Server.chain 3⟩, .receive ⟨3, Server.chain 4⟩, .receive ⟨4, Server.chain 5⟩]).stored.length = 6 := by
    decide +kernel
  rw [hlen] at horder
  exact horder

/-- The proposals of a chain arrive in the order `1, 4, 3, 2, 5`.  The handler of the fourth block is woken by the arrival
of the third, finds the second missing and decides nothing; the fifth block then decides two blocks, the higher one
first. -/
theorem gap_decided_backwards :
    HonestChain Server.chain 5 ∧
    (run (Core.step (Server.env 3)) newHotStuffCore [.receive ⟨0, Server.chain 1⟩, .receive ⟨3, Server.chain 4⟩,
      .receive ⟨2, Server.chain 3⟩, .resume 0, .receive ⟨1, Server.chain 2⟩, .resume 0,
      .receive ⟨4, Server.chain 5⟩]).decided.map (fun b => b.height) = [2, 1] := by
  decide +kernel

end GoHotstuff
