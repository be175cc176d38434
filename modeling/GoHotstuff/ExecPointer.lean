import GoHotstuff.PhaseOrder
import GoHotstuff.Execution
import GoHotstuff.VoteRule

/-!
# The execution pointer

`update` replaces `genericQC` and `lockedQC` only by certificates of higher blocks, but it sets `execQC` to `block1.Justify`
whenever `block` completes a three-chain.  A proposal that is delivered once more, or late, takes `execQC` back to the
block its own three-chain ends at (`exec_moves_back`), and the next proposals decide blocks again.

The pointer stays or moves forward in every step in which the three-chain, if one is completed, does not end below the
last executed block (`EndsAhead`).  Along a run that takes in only blocks as `OnPropose` makes them (`Block.Formed`) and
evicts nothing, a hash names one height for good, so the height of the executed block never decreases
(`exec_moves_forward`).
-/

namespace GoHotstuff

open Lib (Bytes run StepsMeet)

/-- A block as `OnPropose` makes it: its certificate carries its own hash, and its parent hash is a hash. -/
def Block.Formed (b : Block) : Prop := b.selfQc.blockHash = getBlockHash b ∧ b.parentHash.length = 32

instance (b : Block) : Decidable b.Formed :=
  inferInstanceAs (Decidable (b.selfQc.blockHash = getBlockHash b ∧ b.parentHash.length = 32))

namespace Core

/-! ### Stores of formed blocks -/

structure FormedStore (s : Core) : Prop extends StoreInv s where
  formed : ∀ b ∈ s.stored, b.body = genesis.body ∨ b.Formed

private theorem FormedStore.selfHash {s : Core} (h : s.FormedStore) {b : Block} (hb : b ∈ s.stored) :
    b.selfQc.blockHash = getBlockHash b := by
  rcases h.formed b hb with hg | hf
  · rw [body_selfQc_blockHash hg, getBlockHash_body hg]
    rfl
  · exact hf.1

private theorem FormedStore.sized {s : Core} (h : s.FormedStore) {b : Block} (hb : b ∈ s.stored) : b.Sized := by
  rcases h.formed b hb with hg | hf
  · exact .inl hg
  · exact .inr hf.2

/-- What is found under a hash has that hash. -/
private theorem FormedStore.hash_of_load {s : Core} (h : s.FormedStore) {hash : Bytes} {b : Block}
    (hl : s.load hash = some b) : getBlockHash b = hash := by
  obtain ⟨b₀, hb₀, hbody⟩ := h.exists_stored hl
  rw [← getBlockHash_body hbody, ← h.selfHash hb₀, body_selfQc_blockHash hbody]
  exact h.selfQc_blockHash hl

/-- `OnPropose` makes a formed block on a block of the store. -/
private theorem FormedStore.newBlock {s : Core} (h : s.FormedStore) {parentHash : Bytes} {parent : Block}
    (hl : s.load parentHash = some parent) (env : Env) (curView : Int64) (cmds : Bytes) (now : Int64) :
    (s.newBlock env curView parentHash cmds parent now).Formed := by
  refine ⟨rfl, ?_⟩
  show parentHash.length = 32
  rw [← h.hash_of_load hl]
  exact length_getBlockHash parent

/-- Later, the block found under a hash has the same height, and without eviction one is found. -/
private theorem FormedStore.load_later {s s' : Core} (h : s.FormedStore) (h' : s'.FormedStore)
    (hsub : s.stored ⊆ s'.stored)
    (hcf : CollisionFree s'.stored) (hkept : s'.Kept) {hash : Bytes} {b : Block} (hl : s.load hash = some b) :
    ∃ b', s'.load hash = some b' ∧ b'.height = b.height := by
  obtain ⟨b₀, hb₀, hbody⟩ := h.exists_stored hl
  have hself : b₀.selfQc.blockHash = hash := (body_selfQc_blockHash hbody).trans (h.selfQc_blockHash hl)
  have hsome := hkept b₀ (hsub hb₀)
  rw [hself] at hsome
  obtain ⟨b', hl'⟩ := Option.isSome_iff_exists.1 hsome
  have hhash : getBlockHash b' = getBlockHash b := (h'.hash_of_load hl').trans (h.hash_of_load hl).symm
  have heq := Known.eq_of_hash (fun c hc => h'.sized hc) hcf (h'.exists_stored hl') ⟨b₀, hsub hb₀, hbody⟩ hhash
  exact ⟨b', hl', heq.2⟩

/-! ### One step -/

/-- If `b` completes a three-chain, it does not end below the last executed block. -/
def EndsAhead (s : Core) (b : Block) : Prop :=
  ∀ x2 ∈ s.justifyBlock? b, ∀ x1 ∈ s.justifyBlock? x2.2, ∀ x0 ∈ s.justifyBlock? x1.2,
    x2.2.parentHash = x1.1.blockHash → x1.2.parentHash = x0.1.blockHash →
      ∀ xb ∈ s.load s.execQC.blockHash, xb.height ≤ x0.2.height

instance (s : Core) (b : Block) : Decidable (s.EndsAhead b) :=
  inferInstanceAs (Decidable (∀ x2 ∈ s.justifyBlock? b, ∀ x1 ∈ s.justifyBlock? x2.2, ∀ x0 ∈ s.justifyBlock? x1.2,
    x2.2.parentHash = x1.1.blockHash → x1.2.parentHash = x0.1.blockHash →
      ∀ xb ∈ s.load s.execQC.blockHash, xb.height ≤ x0.2.height))

private theorem EndsAhead.of_quiet {s s' : Core} {b : Block} (h : s.EndsAhead b) (q : Quiet s s') : s'.EndsAhead b := by
  intro x2 h2 x1 h1 x0 h0 hp2 hp1 xb hxb
  rw [q.justifyBlock?] at h2 h1 h0
  have hexec : s'.execQC = s.execQC := by
    obtain ⟨c, w, k, x, -, -, rfl⟩ := q
    rfl
  rw [hexec, q.load] at hxb
  exact h x2 h2 x1 h1 x0 h0 hp2 hp1 xb hxb

/-- The step calls `update` on the block `b` in the state `s1`. -/
inductive UpdatesOn (env : Env) (s : Core) : CoreOp → Core → Block → Prop
  | receive {prop : Proposal} {s1 : Core} (q : Quiet (s.storeBlock prop.block) s1) :
      UpdatesOn env s (.receive prop) s1 prop.block
  | resume {i : Nat} {prop : Proposal} {s1 : Core} (hi : s.woken[i]? = some prop) (q : Quiet s s1) :
      UpdatesOn env s (.resume i) s1 prop.block
  | propose {curView now : Int64} {parentHash cmds : Bytes} {parent : Block} (hl : s.load parentHash = some parent)
      (hh : s.voteHeight < (s.newBlock env curView parentHash cmds parent now).height) :
      UpdatesOn env s (.propose curView parentHash cmds now)
        ((s.touch parentHash).storeBlock (s.newBlock env curView parentHash cmds parent now))
        (s.newBlock env curView parentHash cmds parent now)

/-- `execQC` is written by `update` alone. -/
private theorem execQC_step (env : Env) (s : Core) (op : CoreOp) :
    (s.step env op).execQC = s.execQC ∨
    ∃ s1 b, UpdatesOn env s op s1 b ∧ SameEntries s1 (s.step env op) ∧ s1.execQC = s.execQC ∧
      (s.step env op).execQC = (s1.update env b).2.execQC := by
  have hres := step_cases env s op
  generalize s.step env op = s' at hres
  cases hres with
  | quiet hop q =>
    obtain ⟨c, w, k, x, -, -, rfl⟩ := q
    exact .inl rfl
  | propose hl hh p => exact .inr ⟨_, _, .propose hl hh, p.sameEntries, rfl, p.update.2.1⟩
  | store hw q hj =>
    obtain ⟨c, w, k, x, -, -, rfl⟩ := q
    exact .inl rfl
  | receive q hj p =>
    refine .inr ⟨_, _, .receive q, p.sameEntries, ?_, p.update.2.1⟩
    obtain ⟨c, w, k, x, -, -, rfl⟩ := q
    rfl
  | resume hi q hj p =>
    refine .inr ⟨_, _, .resume hi q, p.sameEntries, ?_, p.update.2.1⟩
    obtain ⟨c, w, k, x, -, -, rfl⟩ := q
    rfl
  | vote v => exact .inl v.frame.2.1
  | newView => exact .inl rfl
  | @adopt qc b _ hl q =>
    have hexec := execQC_highQC env s b qc none
    obtain ⟨c, w, k, x, -, -, rfl⟩ := q
    exact .inl hexec
  | sign => exact .inl rfl

/-- The block a step takes in is formed, and the block it calls `update` on does not lead behind the last executed
one. -/
def Forward (env : Env) (s : Core) : CoreOp → Prop
  | .receive prop => prop.block.Formed ∧ (s.storeBlock prop.block).EndsAhead prop.block
  | .resume i => ∀ prop ∈ s.woken[i]?, s.EndsAhead prop.block
  | .propose curView parentHash cmds now => ∀ parent ∈ s.load parentHash,
      s.voteHeight < (s.newBlock env curView parentHash cmds parent now).height →
        ((s.touch parentHash).storeBlock (s.newBlock env curView parentHash cmds parent now)).EndsAhead
          (s.newBlock env curView parentHash cmds parent now)
  | _ => True

instance (env : Env) (s : Core) : (op : CoreOp) → Decidable (s.Forward env op)
  | .receive prop => inferInstanceAs (Decidable (prop.block.Formed ∧ (s.storeBlock prop.block).EndsAhead prop.block))
  | .resume i => inferInstanceAs (Decidable (∀ prop ∈ s.woken[i]?, s.EndsAhead prop.block))
  | .propose curView parentHash cmds now => inferInstanceAs (Decidable (∀ parent ∈ s.load parentHash,
      s.voteHeight < (s.newBlock env curView parentHash cmds parent now).height →
        ((s.touch parentHash).storeBlock (s.newBlock env curView parentHash cmds parent now)).EndsAhead
          (s.newBlock env curView parentHash cmds parent now)))
  | .vote _ | .newView .. | .look _ | .adopt _ | .sign _ | .crash => .isTrue trivial

private theorem UpdatesOn.endsAhead {env : Env} {s s1 : Core} {op : CoreOp} {b : Block} (h : UpdatesOn env s op s1 b)
    (hf : s.Forward env op) : s1.EndsAhead b := by
  cases h with
  | receive q => exact hf.2.of_quiet q
  | resume hi q => exact (hf _ hi).of_quiet q
  | propose hl hh => exact hf _ hl hh

theorem FormedStore.step {env : Env} {s : Core} {op : CoreOp} (h : s.FormedStore) (hf : s.Forward env op) :
    (s.step env op).FormedStore := by
  refine { toStoreInv := h.toStoreInv.step env op, formed := ?_ }
  intro c hc
  obtain he | ⟨b, s1, hstores, q, he⟩ := step_entries env s op
  · rw [he.2.1] at hc
    exact h.formed c hc
  · have hstored : (s.step env op).stored = s.stored ++ [b] := by
      rw [he.2.1]
      obtain ⟨d, w, k, x, -, -, rfl⟩ := q
      rfl
    rw [hstored, List.mem_append, List.mem_singleton] at hc
    rcases hc with hc | rfl
    · exact h.formed c hc
    · cases hstores with
      | receive prop => exact .inr hf.1
      | propose hl hh => exact .inr (h.newBlock hl env _ _ _)

/-- Nothing that the replica has stored is evicted, and no two of these blocks have the same hash by accident. -/
def Intact (s : Core) : Prop := s.Kept ∧ CollisionFree s.stored

instance (s : Core) : Decidable s.Intact := inferInstanceAs (Decidable (s.Kept ∧ CollisionFree s.stored))

/-- The step lemma: the last executed block is found behind the step, and it is as high as before. -/
private theorem FormedStore.exec_step {env : Env} {s : Core} {op : CoreOp} (h : s.FormedStore) (hf : s.Forward env op)
    (hc : (s.step env op).Intact) {xb : Block} (hx : s.load s.execQC.blockHash = some xb) :
    ∃ xb', (s.step env op).load (s.step env op).execQC.blockHash = some xb' ∧ xb.height ≤ xb'.height := by
  obtain ⟨hkept, hcf⟩ := hc
  have h' := h.step hf
  obtain ⟨xc, hxc, hheight⟩ := h.load_later h' (stored_prefix_step env s op).subset hcf hkept hx
  have hstay : (s.step env op).execQC = s.execQC →
      ∃ xb', (s.step env op).load (s.step env op).execQC.blockHash = some xb' ∧ xb.height ≤ xb'.height := by
    intro he
    rw [he]
    exact ⟨xc, hxc, by lia⟩
  obtain he | ⟨s1, b, hon, hsame, he1, he⟩ := execQC_step env s op
  · exact hstay he
  · obtain ⟨hstill, -⟩ | ⟨qc2, b2, qc1, b1, qc0, b0, xb1, h2, h1, h0, hp2, hp1, hx1, hmoved, -⟩ :=
      (update_cases env s1 b).exec
    · exact hstay (he.trans (hstill.trans he1))
    · -- the look-up of the last executed block in `update` has found the block that is there behind the step
      obtain ⟨xb2, hl2, hbody2⟩ := hsame.load_body hx1
      rw [he1] at hl2
      obtain rfl : xb2 = xc := Option.some.inj (hl2.symm.trans hxc)
      have hahead : xb1.height ≤ b0.height := hon.endsAhead hf _ h2 _ h1 _ h0 hp2 hp1 _ hx1
      obtain ⟨xb', hl', hbody'⟩ := hsame.load_body (justifyBlock?_eq_some.1 h0).2
      refine ⟨xb', ?_, ?_⟩
      · rw [he, hmoved]
        exact hl'
      · rw [← hheight, height_body hbody2, height_body hbody']
        exact hahead

/-! ### Runs -/

/-- What is asked of a step: it goes forward and leaves the store intact. -/
def ForwardStep (env : Env) (s : Core) (op : CoreOp) : Prop := s.Forward env op ∧ (s.step env op).Intact

instance (env : Env) (s : Core) (op : CoreOp) : Decidable (s.ForwardStep env op) :=
  inferInstanceAs (Decidable (s.Forward env op ∧ (s.step env op).Intact))

/-- The run lemma: whatever the last executed block is at the end, it is as high as at the start. -/
private theorem FormedStore.exec_run {env : Env} {s : Core} {ops : List CoreOp} (h : s.FormedStore)
    (hg : StepsMeet (Core.step env) (ForwardStep env) s ops) {xb : Block} (hx : s.load s.execQC.blockHash = some xb) :
    (run (Core.step env) s ops).FormedStore ∧
    ∃ xb', (run (Core.step env) s ops).load (run (Core.step env) s ops).execQC.blockHash = some xb' ∧
      xb.height ≤ xb'.height := by
  have hstep : ∀ (t : Core) (op : CoreOp),
      (t.FormedStore ∧ ∃ xb', t.load t.execQC.blockHash = some xb' ∧ xb.height ≤ xb'.height) → t.ForwardStep env op →
      (t.step env op).FormedStore ∧
        ∃ xb', (t.step env op).load (t.step env op).execQC.blockHash = some xb' ∧ xb.height ≤ xb'.height := by
    rintro t op ⟨ht, yb, hy, hle⟩ ⟨hf, hc⟩
    obtain ⟨yb', hy', hle'⟩ := ht.exec_step hf hc hy
    exact ⟨ht.step hf, yb', hy', by lia⟩
  exact hg.invariant hstep ⟨h, xb, hx, Int64.le_refl _⟩

private theorem formedStore_newHotStuffCore : newHotStuffCore.FormedStore where
  toStoreInv := storeInv_newHotStuffCore
  formed b hb := by
    obtain rfl := List.mem_singleton.1 hb
    exact .inl rfl

end Core

/-- The execution pointer never moves back.  In a run that takes in blocks as `OnPropose` makes them, in any order and
any number of times, that evicts nothing and that completes no three-chain which ends below the last executed block, the
block named by `execQC` is at least as high later as it was before. -/
theorem exec_moves_forward (env : Env) (ops later : List CoreOp)
    (hguard : StepsMeet (Core.step env) (Core.ForwardStep env) newHotStuffCore (ops ++ later)) :
    ∃ xb xb', (run (Core.step env) newHotStuffCore ops).load
        (run (Core.step env) newHotStuffCore ops).execQC.blockHash = some xb ∧
      (run (Core.step env) newHotStuffCore (ops ++ later)).load
        (run (Core.step env) newHotStuffCore (ops ++ later)).execQC.blockHash = some xb' ∧
      xb.height ≤ xb'.height := by
  obtain ⟨hops, hlater⟩ := Lib.stepsMeet_append.1 hguard
  have hstart : newHotStuffCore.load newHotStuffCore.execQC.blockHash = some genesis := Core.load_storeBlock_self _ genesis
  obtain ⟨h, xb, hx, -⟩ := Core.formedStore_newHotStuffCore.exec_run hops hstart
  obtain ⟨-, xb', hx', hle⟩ := h.exec_run hlater hx
  rw [Lib.run_append]
  exact ⟨xb, xb', hx, hx', hle⟩

/-- Out of order: block `5` is received before block `4` and waits for it, and block `2` comes twice. -/
theorem exec_moves_forward_server :
    ∃ xb xb', (run (Core.step (Server.env 3)) newHotStuffCore (Server.receivesFrom 0 3)).load
        (run (Core.step (Server.env 3)) newHotStuffCore (Server.receivesFrom 0 3)).execQC.blockHash = some xb ∧
      (run (Core.step (Server.env 3)) newHotStuffCore (Server.receivesFrom 0 3 ++
        [.receive ⟨4, Server.chain 5⟩, .receive ⟨1, Server.chain 2⟩, .receive ⟨3, Server.chain 4⟩, .resume 0])).load
        (run (Core.step (Server.env 3)) newHotStuffCore (Server.receivesFrom 0 3 ++ [.receive ⟨4, Server.chain 5⟩,
          .receive ⟨1, Server.chain 2⟩, .receive ⟨3, Server.chain 4⟩, .resume 0])).execQC.blockHash = some xb' ∧
      xb.height ≤ xb'.height :=
  exec_moves_forward (Server.env 3) (Server.receivesFrom 0 3)
    [.receive ⟨4, Server.chain 5⟩, .receive ⟨1, Server.chain 2⟩, .receive ⟨3, Server.chain 4⟩, .resume 0]
    (by decide +kernel)

/-- Block `4` of an honest chain is delivered a second time behind block `5`: `execQC` named block `2` and names block `1`
again. -/
theorem exec_moves_back :
    HonestChain Server.chain 5 ∧
    (run (Core.step (Server.env 3)) newHotStuffCore (Server.receivesFrom 0 5)).Intact ∧
    (run (Core.step (Server.env 3)) newHotStuffCore (Server.receivesFrom 0 5 ++ [.receive ⟨3, Server.chain 4⟩])).Intact ∧
    ((run (Core.step (Server.env 3)) newHotStuffCore (Server.receivesFrom 0 5)).load
      (run (Core.step (Server.env 3)) newHotStuffCore (Server.receivesFrom 0 5)).execQC.blockHash).map
        (fun b => b.height) = some 2 ∧
    ((run (Core.step (Server.env 3)) newHotStuffCore (Server.receivesFrom 0 5 ++ [.receive ⟨3, Server.chain 4⟩])).load
      (run (Core.step (Server.env 3)) newHotStuffCore
        (Server.receivesFrom 0 5 ++ [.receive ⟨3, Server.chain 4⟩])).execQC.blockHash).map (fun b => b.height) = some 1 := by
  decide +kernel

end GoHotstuff
