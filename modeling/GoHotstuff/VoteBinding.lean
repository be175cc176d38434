import GoHotstuff.Agreement

/-!
# What a vote commits to

A vote signs the hash of a block, and `GetBlockHash` covers the parent's hash, the height and the commands, but not the
justify.  Where the justify of every proposal names the parent, two replicas that keep a block under one hash walk from
it through the same blocks (`votes_bind_justify`); one proposer can send two replicas the same block with different
justifies, and both vote for it (`justify_unbound`).

What the hash covers is concatenated without lengths.  The fields can be read back if the length of one of the two byte
strings is known (`hash_input_unambiguous`), but `OnReceiveProposal` checks neither, and a byte can be moved from one
field to the next (`hash_input_ambiguous`).
-/

namespace GoHotstuff

open Lib (Bytes encodeToString run StepsMeet)

/-- The hash of the block is its own, and it covers the hash its justify names. -/
def Pinned (b : Block) : Prop :=
  b.selfQc.blockHash = getBlockHash b ∧ b.parentHash.length = 32 ∧ ∃ qc ∈ b.justify, qc.blockHash = b.parentHash

instance (b : Block) : Decidable (Pinned b) :=
  inferInstanceAs (Decidable (b.selfQc.blockHash = getBlockHash b ∧ b.parentHash.length = 32 ∧
    ∃ qc ∈ b.justify, qc.blockHash = b.parentHash))

/-- The hash a block's justify names. -/
def Block.justifyHash (b : Block) : Option Bytes := b.justify.map fun qc => qc.blockHash

def AllPinned (l : List Block) : Prop := ∀ b ∈ l, b.body = genesis.body ∨ Pinned b

private theorem pinned_body {b b' : Block} (h : Pinned b) (hb : b.body = b'.body) : Pinned b' := by
  unfold Pinned
  rw [← body_selfQc_blockHash hb, ← getBlockHash_body hb, ← parentHash_body hb, ← justify_body hb]
  exact h

section

variable {l : List Block} (hpin : AllPinned l)
include hpin

private theorem AllPinned.known {b : Block} (hb : Known l b) : b.body = genesis.body ∨ Pinned b := by
  obtain ⟨b₀, hmem, hbody⟩ := hb
  rcases hpin b₀ hmem with hg | h
  · exact Or.inl (hbody.symm.trans hg)
  · exact Or.inr (pinned_body h hbody)

private theorem AllPinned.selfHash {b : Block} (hb : Known l b) : b.selfQc.blockHash = getBlockHash b := by
  rcases hpin.known hb with hg | h
  · rw [body_selfQc_blockHash hg, getBlockHash_body hg]
    rfl
  · exact h.1

private theorem AllPinned.load {s : Core} (hst : s.StoreInv) (hs : s.stored ⊆ l) {hash : Bytes} {b : Block}
    (hl : s.load hash = some b) : Known l b ∧ getBlockHash b = hash := by
  obtain ⟨b₀, hmem, hbody⟩ := hst.exists_stored hl
  have hknown : Known l b := ⟨b₀, hs hmem, hbody⟩
  exact ⟨hknown, (hpin.selfHash hknown).symm.trans (hst.selfQc_blockHash hl)⟩

private theorem AllPinned.justifyHash_eq (hcf : CollisionFree l) {b b' : Block} (hb : Known l b) (hb' : Known l b')
    (h : getBlockHash b = getBlockHash b') : b.justifyHash = b'.justifyHash := by
  have hsized : ∀ b ∈ l, b.Sized := fun b hb => (hpin b hb).imp id fun h => h.2.1
  obtain ⟨hparent, -⟩ := Known.eq_of_hash hsized hcf hb hb' h
  unfold Block.justifyHash
  rcases hpin.known hb with hg | ⟨-, hlen, qc, hqc, hqp⟩
  · rcases hpin.known hb' with hg' | ⟨-, hlen', -⟩
    · rw [justify_body hg, justify_body hg']
    · rw [← hparent, parentHash_body hg] at hlen'
      cases hlen'
  · rcases hpin.known hb' with hg' | ⟨-, -, qc', hqc', hqp'⟩
    · rw [hparent, parentHash_body hg'] at hlen
      cases hlen
    · rw [show b.justify = some qc from hqc, show b'.justify = some qc' from hqc', Option.map_some, Option.map_some, hqp,
        hqp', hparent]

end

namespace Core

/-- The block `k` justifies on. -/
def justified (s : Core) : Nat → Block → Option Block
  | 0, b => some b
  | k + 1, b => (s.justifyBlock? b).bind fun x => justified s k x.2

private theorem justified_hash {l : List Block} (hpin : AllPinned l) (hcf : CollisionFree l) {s s' : Core}
    (hst : s.StoreInv)
    (hst' : s'.StoreInv) (hs : s.stored ⊆ l) (hs' : s'.stored ⊆ l) (k : Nat) {b b' x x' : Block} (hb : Known l b)
    (hb' : Known l b') (h : getBlockHash b = getBlockHash b') (hx : s.justified k b = some x)
    (hx' : s'.justified k b' = some x') : getBlockHash x = getBlockHash x' ∧ x.justifyHash = x'.justifyHash := by
  induction k generalizing b b' with
  | zero =>
    obtain rfl := Option.some.inj hx
    obtain rfl := Option.some.inj hx'
    exact ⟨h, hpin.justifyHash_eq hcf hb hb' h⟩
  | succ k ih =>
    obtain ⟨⟨qc, jb⟩, hj, hx⟩ := Option.bind_eq_some_iff.1 hx
    obtain ⟨⟨qc', jb'⟩, hj', hx'⟩ := Option.bind_eq_some_iff.1 hx'
    obtain ⟨hqc, hl⟩ := justifyBlock?_eq_some.1 hj
    obtain ⟨hqc', hl'⟩ := justifyBlock?_eq_some.1 hj'
    obtain ⟨hknown, hhash⟩ := hpin.load hst hs hl
    obtain ⟨hknown', hhash'⟩ := hpin.load hst' hs' hl'
    have hsame := hpin.justifyHash_eq hcf hb hb' h
    rw [Block.justifyHash, Block.justifyHash, hqc, hqc'] at hsame
    exact ih hknown hknown' (hhash.trans ((Option.some.inj hsame).trans hhash'.symm)) hx hx'

end Core

/-! ### Runs -/

/-- A proposal that arrives is pinned. -/
def Action.PinGuard : Action → Prop
  | .message _ (.proposal _ (some pb)) => ∀ b ∈ pb.toBlock?, Pinned b
  | _ => True

instance : (a : Action) → Decidable a.PinGuard
  | .message _ (.proposal _ (some pb)) => inferInstanceAs (Decidable (∀ b ∈ pb.toBlock?, Pinned b))
  | .message _ (.proposal _ none) | .message _ (.viewChange ..) | .message _ (.vote ..) | .message _ (.forward _)
  | .message _ .unset | .submit _ | .task .. | .resumeProposal _ | .resumeNewView _ | .timeout => .isTrue trivial

namespace Node

private theorem pinned_step {env : NodeEnv} {n : Node} (hbase : n.core.Base env.toEnv) (h : AllPinned n.core.stored)
    {a : Action} (hg : a.PinGuard) : AllPinned (n.step env a).core.stored := by
  intro b hb
  rcases stored_cases hb with hb | ⟨src, viewNumber, pb, rfl, hpb⟩ | ⟨parent, cmds, now, hl, -, rfl⟩
  · exact h b hb
  · exact Or.inr (hg b hpb)
  · -- an own block has the highest certificate for its parent
    obtain ⟨-, hhash⟩ := h.load hbase.toStoreInv (List.Subset.refl _) hl
    refine Or.inr ⟨rfl, ?_, n.core.genericQC, rfl, rfl⟩
    show n.core.genericQC.blockHash.length = 32
    rw [← hhash]
    exact length_getBlockHash parent

private theorem pinned_run {env : NodeEnv} {as : List Action}
    (hg : StepsMeet (step env) (fun _ a => a.PinGuard) newNode as) :
    AllPinned (run (step env) newNode as).core.stored :=
  (hg.invariant (I := fun n => n.core.Base env.toEnv ∧ AllPinned n.core.stored)
    (fun _ a h hg => ⟨base_step h.1 a, pinned_step h.1 h.2 hg⟩)
    ⟨Core.base_newHotStuffCore env.toEnv, fun _ hb => Or.inl (congrArg Block.body (List.mem_singleton.1 hb))⟩).2

end Node

/-- Votes bind the justify, for every run in which the proposals that reach honest replicas are pinned, and whatever the
others send: if two honest replicas keep a block under the same key, the blocks have the same justify hash, and each
number of justifies leads both to blocks with the same hash. -/
theorem votes_bind_justify (E : NetEnv) (byzantine : Finset Int64) (acts : List (Int64 × Action)) (net : Net)
    (hnet : net = run (Net.step E) Net.start acts)
    (hguard : StepsMeet (Net.step E) (fun _ x => x.1 ∉ byzantine → x.2.PinGuard) Net.start acts)
    (hcf : CollisionFree (net.blocks (E.honest byzantine))) (i j : Int64) (hi : i ∈ E.honest byzantine)
    (hj : j ∈ E.honest byzantine) (key : List Char) (o o' : Stored) (ho : (net i).core.blockCache.find? key = some o)
    (ho' : (net j).core.blockCache.find? key = some o') :
    o.block.justifyHash = o'.block.justifyHash ∧
    ∀ k b b', (net i).core.justified k o.block = some b → (net j).core.justified k o'.block = some b' →
      getBlockHash b = getBlockHash b' := by
  have hnode : ∀ id ∈ E.honest byzantine, AllPinned (net id).core.stored ∧ (net id).core.StoreInv := by
    intro id hid
    have hhonest := (NetEnv.mem_honest.1 hid).2
    constructor
    · rw [hnet, Net.run_apply]
      exact Node.pinned_run (Net.stepsMeet_apply (fun _ _ h => h hhonest) hguard)
    · rw [hnet]
      exact (Net.base_run E acts id).toStoreInv
  have hpin : AllPinned (net.blocks (E.honest byzantine)) := by
    intro b hb
    obtain ⟨id, hid, hb⟩ := Net.mem_blocks.1 hb
    exact (hnode id hid).1 b hb
  have hknown : ∀ {id o}, id ∈ E.honest byzantine → (net id).core.blockCache.find? key = some o →
      Known (net.blocks (E.honest byzantine)) o.block := by
    intro id o hid ho
    obtain ⟨b, hb, hbody⟩ := (hnode id hid).2.mem key o ho
    exact ⟨b, Net.stored_subset_blocks hid net hb, hbody⟩
  have hhash : getBlockHash o.block = getBlockHash o'.block := by
    rw [← hpin.selfHash (hknown hi ho), ← hpin.selfHash (hknown hj ho')]
    exact Lib.encodeToString_injective
      (((hnode i hi).2.key key o ho).symm.trans ((hnode j hj).2.key key o' ho'))
  refine ⟨hpin.justifyHash_eq hcf (hknown hi ho) (hknown hj ho') hhash, fun k b b' hb hb' => ?_⟩
  exact (Core.justified_hash hpin hcf (hnode i hi).2 (hnode j hj).2 (Net.stored_subset_blocks hi net)
    (Net.stored_subset_blocks hj net) k (hknown hi ho) (hknown hj ho') hhash hb hb').1

/-- Replicas 0, 1 and 2 vote for the first block of the chain; replica 3 then sends replica 0 the second block with the
certificate for the first, and replica 1 the second block with the justify `qc`. -/
def Server.variantRun (qc : QuorumCert) : List (Int64 × Action) :=
  voteRun ++ [(0, .message 3 (.proposal 1 (some (chain 2).toPb))),
    (1, .message 3 (.proposal 1 (some { chain 2 with justify := some qc }.toPb)))]

def Server.variantNet (qc : QuorumCert) : Net := run (Net.step netEnv) Net.start (variantRun qc)

/-- Another certificate for the first block makes no difference. -/
theorem votes_bind_justify_server :
    ∃ o o', (Server.variantNet (Server.quorumCert 5 (Server.chain 1).selfQc.blockHash []) 0).core.blockCache.find?
        (encodeToString (Server.chain 2).selfQc.blockHash) = some o ∧
      (Server.variantNet (Server.quorumCert 5 (Server.chain 1).selfQc.blockHash []) 1).core.blockCache.find?
        (encodeToString (Server.chain 2).selfQc.blockHash) = some o' ∧
      o.block.justifyHash = o'.block.justifyHash := by
  have hfound : ((Server.variantNet (Server.quorumCert 5 (Server.chain 1).selfQc.blockHash []) 0).core.blockCache.find?
        (encodeToString (Server.chain 2).selfQc.blockHash)).isSome ∧
      ((Server.variantNet (Server.quorumCert 5 (Server.chain 1).selfQc.blockHash []) 1).core.blockCache.find?
        (encodeToString (Server.chain 2).selfQc.blockHash)).isSome := by
    decide +kernel
  obtain ⟨o, ho⟩ := Option.isSome_iff_exists.1 hfound.1
  obtain ⟨o', ho'⟩ := Option.isSome_iff_exists.1 hfound.2
  refine ⟨o, o', ho, ho', ?_⟩
  exact (votes_bind_justify Server.netEnv {3} (Server.variantRun _) (Server.variantNet _) rfl (by decide +kernel)
    (by decide +kernel) 0 1 (by decide +kernel) (by decide +kernel) _ o o' ho ho').1

/-- With the genesis certificate as the second justify, both replicas keep the block under one key and have voted for
its hash, and their justifies name different blocks.  No signature is forged and no two blocks collide. -/
theorem justify_unbound :
    CollisionFree ((Server.variantNet genesisQC).blocks (Server.netEnv.honest {3})) ∧
    (∀ b ∈ (Server.variantNet genesisQC).blocks (Server.netEnv.honest {3}), ∀ qc ∈ b.justify,
      (Server.variantNet genesisQC).Unforged Server.netEnv {3} qc) ∧
    (∃ c ∈ (Server.variantNet genesisQC 0).core.votes, c.vote.blockHash = (Server.chain 2).selfQc.blockHash) ∧
    (∃ c ∈ (Server.variantNet genesisQC 1).core.votes, c.vote.blockHash = (Server.chain 2).selfQc.blockHash) ∧
    ((Server.variantNet genesisQC 0).core.load (Server.chain 2).selfQc.blockHash).map Block.justifyHash =
      some (some (Server.chain 1).selfQc.blockHash) ∧
    ((Server.variantNet genesisQC 1).core.load (Server.chain 2).selfQc.blockHash).map Block.justifyHash =
      some (some genesisHash) ∧
    (Server.chain 1).selfQc.blockHash ≠ genesisHash := by
  decide +kernel

/-! ### The hash input -/

/-- Two blocks with the same hash input agree in parent hash, height and commands exactly if their parent hashes have the
same length, or their commands. -/
theorem hash_input_unambiguous (b b' : Block) (h : hashInput b = hashInput b') :
    (b.parentHash = b'.parentHash ∧ b.height = b'.height ∧ b.cmds = b'.cmds) ↔
      (b.parentHash.length = b'.parentHash.length ∨ b.cmds.length = b'.cmds.length) := by
  constructor
  · rintro ⟨hparent, -, -⟩
    exact .inl (congrArg List.length hparent)
  · rintro (hlen | hlen)
    · exact hashInput_inj hlen h
    · have htotal := congrArg List.length h
      rw [length_hashInput, length_hashInput] at htotal
      exact hashInput_inj (by omega) h

/-- A block and the same block with another justify. -/
theorem hash_input_unambiguous_chain :
    hashInput (Server.chain 2) = hashInput { Server.chain 2 with justify := some genesisQC } ∧
    (Server.chain 2).cmds = { Server.chain 2 with justify := some genesisQC }.cmds :=
  ⟨rfl, ((hash_input_unambiguous (Server.chain 2) { Server.chain 2 with justify := some genesisQC } rfl).2 (.inl rfl)).2.2⟩

/-- The second block of the chain with the fields moved by one byte: the first byte of the height belongs to the parent
hash and the one of the commands to the height. -/
def Server.shifted : Block :=
  { chain 2 with parentHash := (chain 1).selfQc.blockHash ++ [2], height := 0x0100000000000000, cmds := [] }

/-- Replicas 0, 1 and 2 vote for the first block of the chain; replica 3 then sends replicas 0 and 2 the second block, and
replica 1 the one with the fields moved. -/
def Server.shiftedRun : List (Int64 × Action) :=
  voteRun ++ [(0, .message 3 (.proposal 1 (some (chain 2).toPb))), (1, .message 3 (.proposal 1 (some shifted.toPb))),
    (2, .message 3 (.proposal 1 (some (chain 2).toPb)))]

def Server.shiftedNet : Net := run (Net.step netEnv) Net.start shiftedRun

/-- The two blocks have one hash input.  Each of the three replicas has voted for the hash, and a certificate with their
signatures is valid for both blocks; replica 0 keeps one of them under the hash and replica 1 the other. -/
theorem hash_input_ambiguous :
    hashInput (Server.chain 2) = hashInput Server.shifted ∧
    ((Server.chain 2).parentHash ≠ Server.shifted.parentHash ∧ (Server.chain 2).height ≠ Server.shifted.height ∧
      (Server.chain 2).cmds ≠ Server.shifted.cmds) ∧
    (∃ c ∈ (Server.shiftedNet 0).core.votes, c.vote.blockHash = getBlockHash (Server.chain 2)) ∧
    (∃ c ∈ (Server.shiftedNet 1).core.votes, c.vote.blockHash = getBlockHash (Server.chain 2)) ∧
    (∃ c ∈ (Server.shiftedNet 2).core.votes, c.vote.blockHash = getBlockHash (Server.chain 2)) ∧
    ((Server.shiftedNet 0).core.load (getBlockHash (Server.chain 2))).map (fun b => b.height) = some 2 ∧
    ((Server.shiftedNet 1).core.load (getBlockHash (Server.chain 2))).map (fun b => b.height) =
      some 0x0100000000000000 ∧
    Server.replicas.verifyQuorumCert (Server.quorumCert 1 (getBlockHash (Server.chain 2)) [0, 1, 2]) = true := by
  decide +kernel

end GoHotstuff
