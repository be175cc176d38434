import GoHotstuff.BlockTree
import GoHotstuff.Certificates
import GoHotstuff.VoteRule
import GoHotstuff.Lib.CertChain

/-!
# Agreement

A Byzantine leader can make two replicas decide different blocks, because a proposal is processed without a look at its
certificate (`conflicting_decisions`).  `AgreeGuard` is the condition that a replica processes a block only if what the
program fails to check holds: the block carries its own hash, its `Justify` is a sound certificate for its parent, it is
one above its parent, and the guards of the vote rule hold or the replica has voted for it before.

Then a replica votes for one block of a height at most, and only for blocks whose parent is certified.  Two certificates
have an honest signer in common, so the certified blocks form one chain (`certChain`), and every block that is decided is
certified (`agreement`).
-/

namespace GoHotstuff

open Lib (Bytes run StepsMeet CertChain)

/-! ### The condition -/

/-- The block carries its own hash, and a sound certificate for its parent. -/
def Fits (rc : ReplicaConf) (b : Block) : Prop :=
  b.selfQc.blockHash = getBlockHash b ∧ b.parentHash.length = 32 ∧
    ∃ qc ∈ b.justify, qc.blockHash = b.parentHash ∧ qc.Sound rc

instance (rc : ReplicaConf) (b : Block) : Decidable (Fits rc b) :=
  inferInstanceAs (Decidable (b.selfQc.blockHash = getBlockHash b ∧ b.parentHash.length = 32 ∧
    ∃ qc ∈ b.justify, qc.blockHash = b.parentHash ∧ qc.Sound rc))

namespace Core

/-- Both guards of the vote rule hold and the block is one above its justify block, or the replica has voted for it. -/
def MayHandle (s : Core) (b : Block) : Prop :=
  (s.VoteSafe b ∧ ∀ x ∈ s.justifyBlock? b, b.height = x.2.height + 1) ∨
    ∃ c ∈ s.votes, c.vote.blockHash = b.selfQc.blockHash

instance (s : Core) (b : Block) : Decidable (s.MayHandle b) :=
  inferInstanceAs (Decidable ((s.VoteSafe b ∧ ∀ x ∈ s.justifyBlock? b, b.height = x.2.height + 1) ∨
    ∃ c ∈ s.votes, c.vote.blockHash = b.selfQc.blockHash))

/-- The condition on calls.  That the parent is the block of the highest certificate is what `OnBeat` asks for. -/
def AgreeGuard (rc : ReplicaConf) (s : Core) : CoreOp → Prop
  | .receive prop => Fits rc prop.block ∧ (s.storeBlock prop.block).MayHandle prop.block
  | .resume i => ∀ prop ∈ s.woken[i]?, s.MayHandle prop.block
  | .propose _ parentHash _ _ => parentHash = s.genericQC.blockHash
  | _ => True

end Core

/-- The condition on the actions of a replica: it concerns proposals that arrive and those that have waited. -/
def Node.AgreeGuard (env : NodeEnv) (n : Node) : Action → Prop
  | .message _ (.proposal _ (some pb)) => ∀ b ∈ pb.toBlock?, Fits env.replicas b ∧
      ((n.core.touch n.core.execQC.blockHash).storeBlock b).MayHandle b
  | .resumeProposal i => ∀ prop ∈ n.core.woken[i]?, n.core.MayHandle prop.block
  | _ => True

instance (env : NodeEnv) (n : Node) : (a : Action) → Decidable (n.AgreeGuard env a)
  | .message _ (.proposal _ (some pb)) => inferInstanceAs (Decidable (∀ b ∈ pb.toBlock?, Fits env.replicas b ∧
      ((n.core.touch n.core.execQC.blockHash).storeBlock b).MayHandle b))
  | .resumeProposal i => inferInstanceAs (Decidable (∀ prop ∈ n.core.woken[i]?, n.core.MayHandle prop.block))
  | .message _ (.proposal _ none) | .message _ (.viewChange ..) | .message _ (.vote ..) | .message _ (.forward _)
  | .message _ .unset | .submit _ | .task .. | .resumeNewView _ | .timeout => .isTrue trivial

/-! ### Fitting blocks -/

/-- The hash is that of the genesis block, or a block of the list has a certificate for it. -/
def Named (l : List Block) (hash : Bytes) : Prop :=
  hash = genesisHash ∨ ∃ b ∈ l, ∃ qc, b.justify = some qc ∧ qc.blockHash = hash

private theorem Named.mono {l l' : List Block} {hash : Bytes} (h : Named l hash) (hl : l ⊆ l') : Named l' hash := by
  rcases h with hg | ⟨b, hb, hrest⟩
  · exact Or.inl hg
  · exact Or.inr ⟨b, hl hb, hrest⟩

/-- Every block but the genesis block fits. -/
def AllFit (rc : ReplicaConf) (l : List Block) : Prop := ∀ b ∈ l, b.body = genesis.body ∨ Fits rc b

section

variable {rc : ReplicaConf} {l : List Block} (hfit : AllFit rc l)

include hfit

private theorem AllFit.sized {b : Block} (hb : b ∈ l) : b.Sized := by
  rcases hfit b hb with hg | h
  · exact Or.inl hg
  · exact Or.inr h.2.1

private theorem AllFit.selfHash {b : Block} (hb : b ∈ l) : b.selfQc.blockHash = getBlockHash b := by
  rcases hfit b hb with hg | h
  · rw [body_selfQc_blockHash hg, getBlockHash_body hg]
    rfl
  · exact h.1

/-- A block with a certificate fits. -/
private theorem AllFit.fits {b : Block} {qc : QuorumCert} (hb : b ∈ l) (hqc : b.justify = some qc) :
    Fits rc b ∧ qc.blockHash = b.parentHash ∧ qc.Sound rc := by
  rcases hfit b hb with hg | h
  · rw [justify_body hg] at hqc
    cases hqc
  · obtain ⟨qc', hqc', hparent, hsound⟩ := h.2.2
    obtain rfl : qc = qc' := Option.some.inj (hqc.symm.trans hqc')
    exact ⟨h, hparent, hsound⟩

private theorem AllFit.load {s : Core} (hst : s.StoreInv) (hs : s.stored = l) {hash : Bytes} {b : Block}
    (hl : s.load hash = some b) : ∃ b₀ ∈ l, b₀.body = b.body ∧ getBlockHash b₀ = hash := by
  obtain ⟨b₀, hmem, hbody⟩ := hst.exists_stored hl
  rw [hs] at hmem
  refine ⟨b₀, hmem, hbody, ?_⟩
  rw [← hfit.selfHash hmem, body_selfQc_blockHash hbody]
  exact hst.selfQc_blockHash hl

/-- The walk of the decide loop stays on hashes for which there is a certificate. -/
theorem AllFit.ancestors {s : Core} (hst : s.StoreInv) (hs : s.stored = l) (k : Nat) {hash : Bytes}
    (hname : Named l hash) {b : Block} (hb : b ∈ s.ancestors k hash) : Known l b ∧ Named l (getBlockHash b) := by
  induction k generalizing hash with
  | zero => cases hb
  | succ k ih =>
    unfold Core.ancestors at hb
    cases hl : s.load hash with
    | none =>
      rw [hl] at hb
      cases hb
    | some b1 =>
      rw [hl] at hb
      obtain ⟨b₀, hmem, hbody, hhash⟩ := hfit.load hst hs hl
      rcases List.mem_cons.1 hb with rfl | hb
      · refine ⟨⟨b₀, hmem, hbody⟩, ?_⟩
        rw [← getBlockHash_body hbody, hhash]
        exact hname
      · rcases hfit b₀ hmem with hg | h
        · -- nothing is stored under the empty parent hash of the genesis block
          have hparent : b1.parentHash = [] := by
            rw [← parentHash_body hbody, parentHash_body hg]
            rfl
          cases k with
          | zero => cases hb
          | succ k =>
            unfold Core.ancestors at hb
            cases hl' : s.load b1.parentHash with
            | none =>
              rw [hl'] at hb
              cases hb
            | some b2 =>
              obtain ⟨b₀', -, -, hhash'⟩ := hfit.load hst hs hl'
              have hlen := congrArg List.length hhash'
              rw [length_getBlockHash, hparent] at hlen
              cases hlen
        · obtain ⟨-, -, qc, hqc, hparent, -⟩ := h
          refine ih (Or.inr ⟨b₀, hmem, qc, hqc, ?_⟩) hb
          rw [hparent, parentHash_body hbody]

end

/-! ### The invariant of an honest replica -/

namespace Core

structure Agreeing (rc : ReplicaConf) (s : Core) : Prop where
  fits : AllFit rc s.stored
  voted : ∀ c ∈ s.votes, ∃ b ∈ s.stored, Linked rc s.stored b ∧ getBlockHash b = c.vote.blockHash ∧ b.height = c.height
  once : ∀ c ∈ s.votes, ∀ d ∈ s.votes, c.height = d.height → c.vote.blockHash = d.vote.blockHash
  le : ∀ c ∈ s.votes, c.height ≤ s.voteHeight
  decided : ∀ b ∈ s.decided, Known s.stored b ∧ Named s.stored (getBlockHash b)

private theorem Agreeing.congr {rc : ReplicaConf} {s s' : Core} (h : s.Agreeing rc) (hs : s'.stored = s.stored)
    (hv : s'.votes = s.votes) (hh : s.voteHeight ≤ s'.voteHeight)
    (hd : ∀ b ∈ s'.decided, Known s.stored b ∧ Named s.stored (getBlockHash b)) : s'.Agreeing rc := by
  refine ⟨hs ▸ h.fits, ?_, ?_, ?_, hs ▸ hd⟩
  · rw [hv, hs]
    exact h.voted
  · rw [hv]
    exact h.once
  · intro c hc
    rw [hv] at hc
    have := h.le c hc
    lia

private theorem Quiet.agreeing {rc : ReplicaConf} {s s' : Core} (q : Quiet s s') (h : s.Agreeing rc) :
    s'.Agreeing rc := by
  have hd := q.decided
  refine h.congr ?_ ?_ ?_ ?_
  · exact q.stored
  · exact q.votes
  · rw [q.voteHeight]
    exact Int64.le_refl _
  · rw [hd]
    exact h.decided

private theorem Agreeing.storeBlock {rc : ReplicaConf} {s : Core} (h : s.Agreeing rc) {b : Block} (hb : Fits rc b) :
    (s.storeBlock b).Agreeing rc := by
  have hsub : s.stored ⊆ (s.storeBlock b).stored := List.subset_append_left _ _
  refine ⟨?_, ?_, h.once, h.le, ?_⟩
  · intro b' hb'
    rcases List.mem_append.1 hb' with hb' | hb'
    · exact h.fits b' hb'
    · rw [List.mem_singleton.1 hb']
      exact Or.inr hb
  · intro c hc
    obtain ⟨b', hb', hlink, hrest⟩ := h.voted c hc
    exact ⟨b', hsub hb', hlink.mono hsub, hrest⟩
  · intro b' hb'
    obtain ⟨hknown, hname⟩ := h.decided b' hb'
    exact ⟨hknown.mono hsub, hname.mono hsub⟩

/-- One more vote, for a linked block, at a height at which there is no vote for another block. -/
private theorem Agreeing.addVote {rc : ReplicaConf} {s s' : Core} (h : s.Agreeing rc) (hs : s'.stored = s.stored)
    {c : CastVote} (hv : s'.votes = s.votes ++ [c]) (hh : s.voteHeight ≤ s'.voteHeight)
    (hd : ∀ b ∈ s'.decided, Known s.stored b ∧ Named s.stored (getBlockHash b))
    (hvoted : ∃ b ∈ s.stored, Linked rc s.stored b ∧ getBlockHash b = c.vote.blockHash ∧ b.height = c.height)
    (honce : ∀ d ∈ s.votes, d.height = c.height → d.vote.blockHash = c.vote.blockHash) (hle : c.height ≤ s'.voteHeight) :
    s'.Agreeing rc := by
  have hmem : ∀ {d}, d ∈ s'.votes → d ∈ s.votes ∨ d = c := by
    intro d hd
    rw [hv, List.mem_append, List.mem_singleton] at hd
    exact hd
  refine ⟨hs ▸ h.fits, ?_, ?_, ?_, hs ▸ hd⟩
  · rw [hs]
    intro d hd
    rcases hmem hd with hd | rfl
    · exact h.voted d hd
    · exact hvoted
  · intro d hd d' hd' heq
    rcases hmem hd with hd | rfl
    · rcases hmem hd' with hd' | rfl
      · exact h.once d hd d' hd' heq
      · exact honce d hd heq
    · rcases hmem hd' with hd' | rfl
      · exact (honce d' hd' heq.symm).symm
      · rfl
  · intro d hd
    rcases hmem hd with hd | rfl
    · have := h.le d hd
      lia
    · exact hle

/-- What `update` decides is on the walk from a block for which there is a certificate. -/
theorem Agreeing.update {env : Env} {s s' : Core} {b : Block} {r : Except CoreError Unit} (h : s.Agreeing env.replicas)
    (hst : s.StoreInv) (u : UpdateResult env s b r s') :
    ∀ b ∈ s'.decided, Known s.stored b ∧ Named s.stored (getBlockHash b) := by
  intro b' hb'
  rcases u.exec with ⟨-, hd⟩ | ⟨qc2, b2, qc1, b1, qc0, b0, xb, h2, h1, h0, -, -, -, -, hd⟩
  · rw [hd] at hb'
    exact h.decided b' hb'
  · rw [hd] at hb'
    rcases List.mem_append.1 hb' with hb' | hb'
    · exact h.decided b' hb'
    · obtain ⟨-, hl1⟩ := justifyBlock?_eq_some.1 h1
      obtain ⟨hqc0, hl0⟩ := justifyBlock?_eq_some.1 h0
      obtain ⟨c1, hc1, hbody1, -⟩ := h.fits.load hst rfl hl1
      obtain ⟨c0, hc0, hbody0, hhash0⟩ := h.fits.load hst rfl hl0
      refine h.fits.ancestors hst rfl _ ?_ hb'
      refine Or.inr ⟨c1, hc1, qc0, ?_, ?_⟩
      · rw [justify_body hbody1]
        exact hqc0
      · rw [← getBlockHash_body hbody0, hhash0]

private theorem MayHandle.of_quiet {s s' : Core} {b : Block} (h : s.MayHandle b) (q : Quiet s s') : s'.MayHandle b := by
  have hj := q.justifyBlock? b
  have hload := q.load
  obtain ⟨c, w, k, x, hc, hp, rfl⟩ := q
  rcases h with ⟨⟨hvh, hsafe⟩, hheight⟩ | hvoted
  · refine Or.inl ⟨⟨?_, (lockSafe_of_load hload rfl b).2 hsafe⟩, ?_⟩
    · rw [hj]
      exact hvh
    · rw [hj]
      exact hheight
  · exact Or.inr hvoted

/-- A proposal is processed whose justify block has been found. -/
private theorem Agreeing.process {env : Env} {l : List Block} (hcf : CollisionFree l) {s s' : Core} {prop : Proposal}
    {x : QuorumCert × Block} (h : s.Agreeing env.replicas) (hst : s.StoreInv) (h0 : 0 ≤ s.voteHeight)
    (hs : s.stored ⊆ l) (hb : prop.block ∈ s.stored) (hj : s.justifyBlock? prop.block = some x)
    (hg : s.MayHandle prop.block) (p : ProcessResult env s prop s') : s'.Agreeing env.replicas := by
  obtain ⟨qc, jb⟩ := x
  obtain ⟨hqc, hl⟩ := justifyBlock?_eq_some.1 hj
  obtain ⟨hfit, hparent, hsound⟩ := h.fits.fits hb hqc
  have hstored := p.sameEntries.2.1
  have hle := p.voteHeight_le
  have hd : ∀ b ∈ s'.decided, Known s.stored b ∧ Named s.stored (getBlockHash b) := by
    rw [p.update.2.2]
    exact h.update hst (update_cases env s prop.block)
  rcases hg with ⟨⟨hvh, hsafe⟩, hheight⟩ | ⟨c, hc, hsame⟩
  · have hlt : s.voteHeight < prop.block.height := hvh (by rw [hj]; rfl)
    rcases p.voteStep hlt hsafe with ⟨hv, -⟩ | ⟨vote, hvote, hv, hh, -⟩
    · exact h.congr hstored hv hle hd
    · obtain ⟨p₀, hp₀, hbody, hhash⟩ := h.fits.load hst rfl hl
      refine h.addVote hstored hv hle hd ⟨prop.block, hb, ⟨hfit.1, ⟨qc, hqc, hparent, hsound⟩, ⟨p₀, hp₀, ?_, ?_⟩, ?_⟩,
        ?_, rfl⟩ (fun d hd' heq => ?_) ?_
      · rw [hhash, hparent]
      · rw [height_body hbody]
        exact hheight (qc, jb) hj
      · lia
      · rw [hvote]
        exact hfit.1.symm
      · -- the earlier votes are lower
        have hdle := h.le d hd'
        have heq' : d.height = prop.block.height := heq
        lia
      · rw [hh]
        exact Int64.le_refl _
  · rcases p.votes_append with hv | ⟨vote, -, hvote, hv⟩
    · exact h.congr hstored hv hle hd
    · obtain ⟨b', hb', hlink, hhash', hheight'⟩ := h.voted c hc
      have hsized : ∀ b ∈ s.stored, b.Sized := fun b hb => h.fits.sized hb
      have hcfs : CollisionFree s.stored := fun b hb b' hb' => hcf b (hs hb) b' (hs hb')
      have heq : b'.height = prop.block.height := by
        refine ((known_of_mem hb').eq_of_hash hsized hcfs (known_of_mem hb) ?_).2
        rw [hhash', hsame]
        exact hfit.1
      refine h.addVote hstored hv hle hd ⟨b', hb', hlink, ?_, heq⟩ (fun d hd' hheight => ?_) ?_
      · rw [hhash', hsame]
        exact hvote.symm
      · show d.vote.blockHash = vote.blockHash
        rw [hvote, ← hsame]
        refine h.once d hd' c hc ?_
        rw [← hheight', heq]
        exact hheight
      · have hcle := h.le c hc
        show prop.block.height ≤ s'.voteHeight
        lia

/-- The replica makes a block itself. -/
private theorem Agreeing.propose {env : Env} {s s' : Core} {curView : Int64} {b : Block} (h : s.Agreeing env.replicas)
    (hst : s.StoreInv) (hb : b ∈ s.stored) (hlink : Linked env.replicas s.stored b) (hlt : s.voteHeight < b.height)
    (p : ProposeResult env s curView b s') : s'.Agreeing env.replicas := by
  have hstored := p.sameEntries.2.1
  have hle := p.voteHeight_le hlt
  have hd : ∀ b ∈ s'.decided, Known s.stored b ∧ Named s.stored (getBlockHash b) := by
    rw [p.update.2.2]
    exact h.update hst (update_cases env s b)
  rcases p.votes_append with hv | ⟨vote, hvote, hv, hh⟩
  · exact h.congr hstored hv hle hd
  · refine h.addVote hstored hv hle hd ⟨b, hb, hlink, ?_, rfl⟩ (fun d hd' heq => ?_) ?_
    · rw [hvote]
      exact hlink.selfHash.symm
    · have hdle := h.le d hd'
      have heq' : d.height = b.height := heq
      lia
    · rw [hh]
      exact Int64.le_refl _

theorem Agreeing.step {env : Env} {l : List Block} (hcf : CollisionFree l) {s : Core} {op : CoreOp}
    (h : s.Agreeing env.replicas) (hbase : s.Base env) (hlen : s.genericQC.blockHash.length = 32)
    (hg : s.AgreeGuard env.replicas op) (hs' : (s.step env op).stored ⊆ l) :
    (s.step env op).Agreeing env.replicas := by
  have hres := step_cases env s op
  generalize s.step env op = s' at hres hs'
  cases hres with
  | quiet hop q => exact q.agreeing h
  | @propose curView now parentHash cmds parent _ hl hh p =>
    obtain rfl : parentHash = s.genericQC.blockHash := hg
    have hq := quiet_touch s s.genericQC.blockHash
    have hfit : Fits env.replicas (s.newBlock env curView s.genericQC.blockHash cmds parent now) :=
      ⟨rfl, hlen, s.genericQC, rfl, rfl, hbase.high⟩
    obtain ⟨p₀, hp₀, hbody, hhash⟩ := h.fits.load hbase.toStoreInv rfl hl
    refine ((hq.agreeing h).storeBlock hfit).propose ((hq.storeInv hbase.toStoreInv).storeBlock _) ?_ ?_ hh p
    · exact List.mem_append_right _ (List.mem_singleton_self _)
    · refine ⟨rfl, ⟨s.genericQC, rfl, rfl, hbase.high⟩, ⟨p₀, List.mem_append_left _ hp₀, hhash, ?_⟩, ?_⟩
      · rw [height_body hbody]
        rfl
      · have h0 := hbase.voteHeight
        lia
  | @store prop w _ hw q =>
    refine q.agreeing ?_
    refine (h.storeBlock hg.1).congr ?_ ?_ ?_ ?_
    · rfl
    · rfl
    · exact Int64.le_refl _
    · exact (h.storeBlock hg.1).decided
  | @receive prop s1 _ x q hj p =>
    have hstored : s1.stored = s.stored ++ [prop.block] := q.stored
    have hvh : s1.voteHeight = s.voteHeight := q.voteHeight
    refine Agreeing.process hcf (q.agreeing (h.storeBlock hg.1)) (q.storeInv (hbase.toStoreInv.storeBlock _)) ?_ ?_ ?_ hj
      (MayHandle.of_quiet hg.2 q) p
    · rw [hvh]
      exact hbase.voteHeight
    · rw [← p.sameEntries.2.1]
      exact hs'
    · rw [hstored]
      exact List.mem_append_right _ (List.mem_singleton_self _)
  | @resume i prop s1 _ x hi q hj p =>
    have hstored : s1.stored = s.stored := q.stored
    have hvh : s1.voteHeight = s.voteHeight := q.voteHeight
    refine Agreeing.process hcf (q.agreeing h) (q.storeInv hbase.toStoreInv) ?_ ?_ ?_ hj (MayHandle.of_quiet (hg prop hi) q) p
    · rw [hvh]
      exact hbase.voteHeight
    · rw [← p.sameEntries.2.1]
      exact hs'
    · rw [hstored]
      exact hbase.pending prop (List.mem_append_right _ (List.mem_of_getElem? hi))
  | vote v =>
    obtain ⟨-, -, hheight, -, -, hvotes, hstored, hdec⟩ := v.frame
    refine h.congr hstored hvotes ?_ ?_
    · rw [hheight]
      exact Int64.le_refl _
    · rw [hdec]
      exact h.decided
  | @newView id view =>
    refine h.congr ?_ ?_ ?_ ?_
    · rfl
    · rfl
    · exact Int64.le_refl _
    · rw [decided_notify s (fun b h => by cases h)]
      exact h.decided
  | @adopt qc b _ hl q =>
    have hdec := decided_highQC env s b qc none
    obtain ⟨g, o, n, heq⟩ := highQC_frame env s b qc none
    rw [heq] at q hdec
    refine q.agreeing (h.congr ?_ ?_ ?_ ?_)
    · rfl
    · rfl
    · exact Int64.le_refl _
    · rw [hdec]
      exact h.decided
  | sign =>
    refine h.congr ?_ ?_ ?_ ?_
    · rfl
    · rfl
    · exact Int64.le_refl _
    · exact h.decided

/-- The highest certificate is for the hash of a block. -/
theorem length_generic {s s' : Core} (hhigh : HighStep s s')
    (hload : ∀ {hash b}, s'.load hash = some b → getBlockHash b = hash) (hlen : s.genericQC.blockHash.length = 32) :
    s'.genericQC.blockHash.length = 32 := by
  rcases hhigh with hkept | ⟨x, y, -, hy, -⟩
  · rw [hkept.blockHash]
    exact hlen
  · obtain ⟨b, hl, -⟩ := Option.map_eq_some_iff.1 hy
    rw [← hload hl, length_getBlockHash]

end Core

namespace Node

/-- The invariant of an honest replica. -/
structure AgreeInv (env : NodeEnv) (n : Node) : Prop where
  base : n.core.Base env.toEnv
  agreeing : n.core.Agreeing env.replicas
  length : n.core.genericQC.blockHash.length = 32
  signs : Core.SignsFor env (fun qc => qc.blockHash.length = 32) n.core
  root : genesis ∈ n.core.stored

theorem AgreeInv.step {env : NodeEnv} {l : List Block} (hcf : CollisionFree l) {n : Node} {a : Action}
    (h : n.AgreeInv env) (hg : n.AgreeGuard env a) (hs' : (n.step env a).core.stored ⊆ l) :
    (n.step env a).AgreeInv env := by
  -- what the states on the way store is in `l` because the last one does
  have hstep : ∀ {s : Core} {op : CoreOp}, s.AgreeGuard env.replicas op →
      (s.Base env.toEnv ∧ (s.stored ⊆ l → s.Agreeing env.replicas ∧ s.genericQC.blockHash.length = 32)) →
      (s.step env.toEnv op).Base env.toEnv ∧ ((s.step env.toEnv op).stored ⊆ l →
        (s.step env.toEnv op).Agreeing env.replicas ∧ (s.step env.toEnv op).genericQC.blockHash.length = 32) := by
    rintro s op hop ⟨hbase, hs⟩
    refine ⟨hbase.step op, fun hsub => ?_⟩
    obtain ⟨hagree, hlen⟩ := hs (List.Subset.trans (Core.stored_prefix_step env.toEnv s op).subset hsub)
    have hagree' := hagree.step hcf hbase hlen hop hsub
    obtain ⟨hinv, hhigh⟩ := hbase.toHighInv.step op
    refine ⟨hagree', Core.length_generic hhigh (fun hl => ?_) hlen⟩
    obtain ⟨b₀, -, hbody, hhash⟩ := hagree'.fits.load hinv.toStoreInv rfl hl
    rw [← getBlockHash_body hbody]
    exact hhash
  have key := step_keeps (I := fun s => s.Base env.toEnv ∧
      (s.stored ⊆ l → s.Agreeing env.replicas ∧ s.genericQC.blockHash.length = 32)) (n := n) (a := a)
    ?_ (fun hop => hstep ?_) (fun hop => hstep ?_) ⟨h.base, fun _ => ⟨h.agreeing, h.length⟩⟩
  · obtain ⟨hagree, hlen⟩ := key.2 hs'
    exact ⟨key.1, hagree, hlen, signsFor_step h.signs h.length a, (stored_prefix_node env n a).subset h.root⟩
  · rintro s s' q ⟨hbase, hs⟩
    refine ⟨q.base hbase, fun hsub => ?_⟩
    have hagree : s.Agreeing env.replicas → s'.Agreeing env.replicas := q.agreeing
    obtain ⟨c, w, k, x, hc, hp, rfl⟩ := q
    exact ⟨hagree (hs hsub).1, (hs hsub).2⟩
  · cases hop <;> exact trivial
  · cases hop with
    | receive ha hb =>
      subst ha
      exact hg _ hb
    | resume ha =>
      subst ha
      exact hg
    | propose ha hi hs => exact rfl

private theorem agreeInv_newNode (env : NodeEnv) : newNode.AgreeInv env where
  base := Core.base_newHotStuffCore env.toEnv
  agreeing := by
    refine ⟨?_, ?_, ?_, ?_, ?_⟩
    · intro b hb
      rw [List.mem_singleton.1 (show b ∈ [genesis] from hb)]
      exact Or.inl rfl
    · intro c hc
      cases hc
    · intro c hc
      cases hc
    · intro c hc
      cases hc
    · intro b hb
      cases hb
  length := length_getBlockHash _
  signs digest sig hmem := by cases hmem
  root := List.mem_singleton_self _

private theorem agreeInv_run {env : NodeEnv} {l : List Block} (hcf : CollisionFree l) {as : List Action}
    (hg : StepsMeet (step env) (AgreeGuard env) newNode as) (hs : (run (step env) newNode as).core.stored ⊆ l) :
    (run (step env) newNode as).AgreeInv env := by
  induction as using List.reverseRecOn with
  | nil => exact agreeInv_newNode env
  | append_singleton as a ih =>
    rw [Lib.stepsMeet_append] at hg
    rw [Lib.run_append] at hs ⊢
    have hsub := (stored_prefix_node env (run (step env) newNode as) a).subset
    exact (ih hg.1 (List.Subset.trans hsub hs)).step hcf hg.2.1 hs

end Node

/-! ### The chain of certified blocks -/

/-- The block with the hash `hash'` has the parent hash `hash`. -/
def ParentOf (l : List Block) (hash hash' : Bytes) : Prop := ∃ b ∈ l, getBlockHash b = hash' ∧ b.parentHash = hash

/-- The height of the block with this hash. -/
def hashHeight (l : List Block) (hash : Bytes) : Nat :=
  ((l.find? fun b => getBlockHash b = hash).map fun b => b.height.toInt.toNat).getD 0

private theorem hashHeight_eq {l : List Block} (hsized : ∀ b ∈ l, b.Sized) (hcf : CollisionFree l) {b : Block}
    (hb : Known l b) :
    hashHeight l (getBlockHash b) = b.height.toInt.toNat := by
  unfold hashHeight
  cases hf : l.find? fun b' => getBlockHash b' = getBlockHash b with
  | none =>
    obtain ⟨b₀, hmem, hbody⟩ := hb
    have hno := List.find?_eq_none.1 hf b₀ hmem
    rw [getBlockHash_body hbody] at hno
    simp at hno
  | some b' =>
    have hhash : getBlockHash b' = getBlockHash b := by simpa using List.find?_some hf
    rw [Option.map_some, Option.getD_some,
      ((known_of_mem (List.mem_of_find?_eq_some hf)).eq_of_hash hsized hcf hb hhash).2]

/-- The replicas that are not Byzantine. -/
def NetEnv.honest (E : NetEnv) (byzantine : Finset Int64) : List Int64 :=
  E.replicas.replicas.keys.filter fun id => id ∉ byzantine

theorem NetEnv.mem_honest {E : NetEnv} {byzantine : Finset Int64} {id : Int64} :
    id ∈ E.honest byzantine ↔ id ∈ E.replicas.replicas.keys ∧ id ∉ byzantine := by
  unfold honest
  rw [List.mem_filter, decide_eq_true_iff]

/-- What is known of a network at the end of a run: the size of the quorums, the honest replicas, that no signature of
theirs is forged in a certificate they have stored, and that hashes and encodings of messages do not collide. -/
structure Net.Sound (E : NetEnv) (byzantine : Finset Int64) (net : Net) : Prop where
  count : (E.replicas.replicas.keys.length : Int) = E.replicas.metadata.n.toInt
  faults : 0 ≤ E.replicas.metadata.f.toInt
  quorum : 3 * E.replicas.metadata.f.toInt + 1 ≤ E.replicas.metadata.n.toInt
  bound : (byzantine.card : Int) ≤ E.replicas.metadata.f.toInt
  marshal : ∀ newView data, E.marshal newView = .ok data → newView.genericQc.blockHash.length < data.length
  unforged : ∀ b ∈ net.blocks (E.honest byzantine), ∀ qc ∈ b.justify, net.Unforged E byzantine qc
  collision : CollisionFree (net.blocks (E.honest byzantine))
  inv : ∀ id ∈ E.honest byzantine, (net id).AgreeInv (E.node id)
  root : genesis ∈ net.blocks (E.honest byzantine)

namespace Net.Sound

variable {E : NetEnv} {byzantine : Finset Int64} {net : Net}

private theorem allFit (h : net.Sound E byzantine) : AllFit E.replicas (net.blocks (E.honest byzantine)) := by
  intro b hb
  obtain ⟨id, hid, hb⟩ := Net.mem_blocks.1 hb
  exact (h.inv id hid).agreeing.fits b hb

private theorem hashHeight (h : net.Sound E byzantine) {b : Block} (hb : Known (net.blocks (E.honest byzantine)) b) :
    hashHeight (net.blocks (E.honest byzantine)) (getBlockHash b) = b.height.toInt.toNat :=
  hashHeight_eq (fun _ hb => h.allFit.sized hb) h.collision hb

/-- An honest replica whose signature counts in a stored certificate has voted, for a linked block. -/
private theorem exists_vote (h : net.Sound E byzantine) {b : Block} {qc : QuorumCert} {id : Int64}
    (hb : b ∈ net.blocks (E.honest byzantine)) (hqc : b.justify = some qc) (hid : id ∈ E.replicas.verifiedIds qc)
    (hhonest : id ∉ byzantine) :
    id ∈ E.honest byzantine ∧ ∃ c ∈ (net id).core.votes, c.vote.blockHash = qc.blockHash ∧
      ∃ b' ∈ net.blocks (E.honest byzantine), Linked E.replicas (net.blocks (E.honest byzantine)) b' ∧
        getBlockHash b' = qc.blockHash ∧ b'.height = c.height := by
  have hmem : id ∈ E.honest byzantine :=
    NetEnv.mem_honest.2 ⟨ReplicaConf.mem_replicas_of_mem_verifiedIds hid, hhonest⟩
  refine ⟨hmem, ?_⟩
  obtain ⟨hfit, hparent, -⟩ := h.allFit.fits hb hqc
  obtain ⟨pc, -, hsigned⟩ := (h.unforged b hb qc hqc).signed hid hhonest
  rcases (h.inv id hmem).signs _ _ hsigned with ⟨c, hc, hhash, -⟩ | ⟨view, qc', hlen, hm⟩
  · obtain ⟨b', hb', hlink, hhash', hheight⟩ := (h.inv id hmem).agreeing.voted c hc
    have hsub := Net.stored_subset_blocks hmem net
    exact ⟨c, hc, hhash, b', hsub hb', hlink.mono hsub, hhash'.trans hhash, hheight⟩
  · -- the encoding of a new-view message is longer than a hash
    have hlt : qc'.blockHash.length < qc.blockHash.length := h.marshal _ _ hm
    have heq : qc'.blockHash.length = 32 := hlen
    rw [hparent, hfit.2.1] at hlt
    omega

/-- A certificate that is not for the genesis block verifies. -/
private theorem verified (h : net.Sound E byzantine) {hash : Bytes}
    (hname : Named (net.blocks (E.honest byzantine)) hash) (hne : hash ≠ genesisHash) :
    ∃ b ∈ net.blocks (E.honest byzantine), ∃ qc, b.justify = some qc ∧ qc.blockHash = hash ∧
      E.replicas.verifyQuorumCert qc = true := by
  rcases hname with hg | ⟨b, hb, qc, hqc, hhash⟩
  · exact absurd hg hne
  · obtain ⟨-, -, hsound⟩ := h.allFit.fits hb hqc
    rcases hsound with ⟨-, hgen⟩ | hver
    · exact absurd (hhash.symm.trans hgen) hne
    · exact ⟨b, hb, qc, hqc, hhash, hver⟩

private theorem hashHeight_genesis (h : net.Sound E byzantine) :
    GoHotstuff.hashHeight (net.blocks (E.honest byzantine)) genesisHash = 0 := by
  have hroot := h.hashHeight (known_of_mem h.root)
  exact hroot

/-- Two verified certificates for blocks of one height have an honest voter in common, who votes once. -/
private theorem unique (h : net.Sound E byzantine) {hash hash' : Bytes}
    (hn : Named (net.blocks (E.honest byzantine)) hash)
    (hn' : Named (net.blocks (E.honest byzantine)) hash') (hne : hash ≠ genesisHash) (hne' : hash' ≠ genesisHash)
    (heq : GoHotstuff.hashHeight (net.blocks (E.honest byzantine)) hash =
      GoHotstuff.hashHeight (net.blocks (E.honest byzantine)) hash') : hash = hash' := by
  obtain ⟨b, hb, qc, hqc, rfl, hver⟩ := h.verified hn hne
  obtain ⟨b', hb', qc', hqc', rfl, hver'⟩ := h.verified hn' hne'
  obtain ⟨id, hid, hmem, hmem'⟩ :=
    ReplicaConf.exists_common_verified h.count h.faults h.quorum h.bound hver hver'
  obtain ⟨hhonest, c, hc, hhash, x, hx, hlink, hxhash, hxheight⟩ := h.exists_vote hb hqc hmem hid
  obtain ⟨-, c', hc', hhash', x', hx', hlink', hxhash', hxheight'⟩ := h.exists_vote hb' hqc' hmem' hid
  rw [← hxhash, ← hxhash', h.hashHeight (known_of_mem hx), h.hashHeight (known_of_mem hx')] at heq
  have hheight : c.height = c'.height := by
    rw [← hxheight, ← hxheight']
    have hpos := Int64.lt_iff_toInt_lt.1 hlink.pos
    have hpos' := Int64.lt_iff_toInt_lt.1 hlink'.pos
    rw [Int64.toInt_zero] at hpos hpos'
    apply Int64.toInt_inj.1
    omega
  rw [← hhash, ← hhash']
  exact (h.inv id hhonest).agreeing.once c hc c' hc' hheight

private theorem linked (h : net.Sound E byzantine) {hash : Bytes} (hn : Named (net.blocks (E.honest byzantine)) hash)
    (hne : hash ≠ genesisHash) :
    ∃ b ∈ net.blocks (E.honest byzantine), Linked E.replicas (net.blocks (E.honest byzantine)) b ∧
      getBlockHash b = hash := by
  obtain ⟨b, hb, qc, hqc, rfl, hver⟩ := h.verified hn hne
  obtain ⟨id, hid, hmem, -⟩ := ReplicaConf.exists_common_verified h.count h.faults h.quorum h.bound hver hver
  obtain ⟨-, c, -, -, x, hx, hlink, hhash, -⟩ := h.exists_vote hb hqc hmem hid
  exact ⟨x, hx, hlink, hhash⟩

private theorem hashHeight_pos (h : net.Sound E byzantine) {hash : Bytes}
    (hn : Named (net.blocks (E.honest byzantine)) hash)
    (hne : hash ≠ genesisHash) : 0 < GoHotstuff.hashHeight (net.blocks (E.honest byzantine)) hash := by
  obtain ⟨b, hb, hlink, rfl⟩ := h.linked hn hne
  rw [h.hashHeight (known_of_mem hb)]
  have hpos := Int64.lt_iff_toInt_lt.1 hlink.pos
  rw [Int64.toInt_zero] at hpos
  omega

theorem certChain (h : net.Sound E byzantine) : CertChain (ParentOf (net.blocks (E.honest byzantine)))
    (GoHotstuff.hashHeight (net.blocks (E.honest byzantine))) (Named (net.blocks (E.honest byzantine))) where
  unique := by
    intro a b ha hb heq
    by_cases hag : a = genesisHash
    · by_cases hbg : b = genesisHash
      · rw [hag, hbg]
      · have hpos := h.hashHeight_pos hb hbg
        rw [← heq, hag, h.hashHeight_genesis] at hpos
        omega
    · by_cases hbg : b = genesisHash
      · have hpos := h.hashHeight_pos ha hag
        rw [heq, hbg, h.hashHeight_genesis] at hpos
        omega
      · exact h.unique ha hb hag hbg heq
  down := by
    intro a ha hpos
    have hne : a ≠ genesisHash := by
      intro hg
      rw [hg, h.hashHeight_genesis] at hpos
      omega
    obtain ⟨b, hb, hlink, rfl⟩ := h.linked ha hne
    obtain ⟨p, hp, hphash, hheight⟩ := hlink.parent
    obtain ⟨qc, hqc, hparent, -⟩ := hlink.justify
    refine ⟨b.parentHash, ⟨b, hb, rfl, rfl⟩, Or.inr ⟨b, hb, qc, hqc, hparent⟩, ?_⟩
    rw [← hphash, h.hashHeight (known_of_mem hb), h.hashHeight (known_of_mem hp)]
    have hbpos := hlink.pos
    rw [hheight] at hbpos
    have hsucc := toInt_succ_of_pos hbpos
    have hpos' := Int64.lt_iff_toInt_lt.1 hbpos
    rw [Int64.toInt_zero] at hpos'
    rw [hheight]
    omega

private theorem decided (h : net.Sound E byzantine) {id : Int64} (hid : id ∈ E.honest byzantine) {b : Block}
    (hb : b ∈ (net id).core.decided) :
    Known (net.blocks (E.honest byzantine)) b ∧ Named (net.blocks (E.honest byzantine)) (getBlockHash b) := by
  obtain ⟨hknown, hname⟩ := (h.inv id hid).agreeing.decided b hb
  have hsub := Net.stored_subset_blocks hid net
  exact ⟨hknown.mono hsub, hname.mono hsub⟩

end Net.Sound

/-- Agreement, for runs in which every proposal that an honest replica processes is as `AgreeGuard` says.  Whatever two
honest replicas decide, one of the two blocks is the other or an ancestor of it, and blocks of one height are the same. -/
theorem agreement (E : NetEnv) (byzantine : Finset Int64)
    (hN : (E.replicas.replicas.keys.length : Int) = E.replicas.metadata.n.toInt)
    (hF : 0 ≤ E.replicas.metadata.f.toInt) (hNF : 3 * E.replicas.metadata.f.toInt + 1 ≤ E.replicas.metadata.n.toInt)
    (hbyz : (byzantine.card : Int) ≤ E.replicas.metadata.f.toInt)
    (hmarshal : ∀ newView data, E.marshal newView = .ok data → newView.genericQc.blockHash.length < data.length)
    (acts : List (Int64 × Action)) (net : Net) (hnet : net = run (Net.step E) Net.start acts)
    (hguard : StepsMeet (Net.step E) (fun net x => x.1 ∉ byzantine → (net x.1).AgreeGuard (E.node x.1) x.2)
      Net.start acts)
    (hunf : ∀ b ∈ net.blocks (E.honest byzantine), ∀ qc ∈ b.justify, net.Unforged E byzantine qc)
    (hcf : CollisionFree (net.blocks (E.honest byzantine))) (i j : Int64) (hi : i ∈ E.honest byzantine)
    (hj : j ∈ E.honest byzantine) (b b' : Block) (hb : b ∈ (net i).core.decided) (hb' : b' ∈ (net j).core.decided) :
    (Relation.ReflTransGen (ParentOf (net.blocks (E.honest byzantine))) (getBlockHash b) (getBlockHash b') ∨
      Relation.ReflTransGen (ParentOf (net.blocks (E.honest byzantine))) (getBlockHash b') (getBlockHash b)) ∧
    (b.height = b'.height → getBlockHash b = getBlockHash b') := by
  have hinv : ∀ id ∈ E.honest byzantine, (net id).AgreeInv (E.node id) := by
    intro id hid
    have hsub := Net.stored_subset_blocks hid net
    have hrun : net id = run (Node.step (E.node id)) newNode (Net.actionsOf id acts) := by
      rw [hnet, Net.run_apply]
      rfl
    rw [hrun] at hsub ⊢
    refine Node.agreeInv_run hcf ?_ hsub
    exact Net.stepsMeet_apply (fun net a h => h (NetEnv.mem_honest.1 hid).2) hguard
  have hroot : genesis ∈ net.blocks (E.honest byzantine) := Net.mem_blocks.2 ⟨i, hi, (hinv i hi).root⟩
  have h : net.Sound E byzantine := ⟨hN, hF, hNF, hbyz, hmarshal, hunf, hcf, hinv, hroot⟩
  obtain ⟨hknown, hname⟩ := h.decided hi hb
  obtain ⟨hknown', hname'⟩ := h.decided hj hb'
  refine ⟨h.certChain.comparable hname hname', fun heq => h.certChain.unique hname hname' ?_⟩
  rw [h.hashHeight hknown, h.hashHeight hknown', heq]

namespace Server

/-- The first four blocks of the chain arrive at replicas `0`, `1` and `2`. -/
def chainRun : List (Int64 × Action) :=
  (List.range 4).flatMap fun k =>
    [0, 1, 2].map fun id => (id, .message 3 (.proposal (.ofNat k) (some (chain (k + 1)).toPb)))

/-- Replica `3` sends replica `0` the first four blocks of one chain and replica `1` those of another one, with
certificates that carry no signature. -/
def forkRun : List (Int64 × Action) :=
  (List.range 4).flatMap fun k => [(0, [1]), (1, [2])].map fun x =>
    (x.1, .message 3 (.proposal (.ofNat k) (some (branch [] x.2 (k + 1)).toPb)))

end Server

/-- Replicas `0` and `2` have decided the first block of the chain. -/
theorem agreement_server :
    Server.chain 1 ∈ (run (Net.step Server.netEnv) Net.start Server.chainRun 0).core.decided ∧
    Server.chain 1 ∈ (run (Net.step Server.netEnv) Net.start Server.chainRun 2).core.decided ∧
    (Relation.ReflTransGen (ParentOf ((run (Net.step Server.netEnv) Net.start Server.chainRun).blocks
        (Server.netEnv.honest {3}))) (getBlockHash (Server.chain 1)) (getBlockHash (Server.chain 1)) ∨
      Relation.ReflTransGen (ParentOf ((run (Net.step Server.netEnv) Net.start Server.chainRun).blocks
        (Server.netEnv.honest {3}))) (getBlockHash (Server.chain 1)) (getBlockHash (Server.chain 1))) := by
  obtain ⟨net, hnet⟩ : ∃ net, net = run (Net.step Server.netEnv) Net.start Server.chainRun := ⟨_, rfl⟩
  obtain ⟨hguard, hunf, hcf, hd0, hd2⟩ :
      StepsMeet (Net.step Server.netEnv)
        (fun net x => x.1 ∉ ({3} : Finset Int64) → (net x.1).AgreeGuard (Server.netEnv.node x.1) x.2)
        Net.start Server.chainRun ∧
      (∀ b ∈ net.blocks (Server.netEnv.honest {3}), ∀ qc ∈ b.justify, net.Unforged Server.netEnv {3} qc) ∧
      CollisionFree (net.blocks (Server.netEnv.honest {3})) ∧
      Server.chain 1 ∈ (net 0).core.decided ∧ Server.chain 1 ∈ (net 2).core.decided := by
    subst hnet
    decide +kernel
  have hagree := agreement Server.netEnv {3} (by decide +kernel) (by decide +kernel) (by decide +kernel) (by decide)
    Server.length_blockHash_lt_marshal Server.chainRun net hnet hguard hunf hcf 0 2 (by decide +kernel)
    (by decide +kernel) (Server.chain 1) (Server.chain 1) hd0 hd2
  rw [← hnet]
  exact ⟨hd0, hd2, hagree.1⟩

/-- No signature is forged, replica `3` is the only one that is Byzantine, and replicas `0` and `1` decide different blocks
of height `1`. -/
theorem conflicting_decisions :
    (∀ b ∈ (run (Net.step Server.netEnv) Net.start Server.forkRun).blocks (Server.netEnv.honest {3}), ∀ qc ∈ b.justify,
      (run (Net.step Server.netEnv) Net.start Server.forkRun).Unforged Server.netEnv {3} qc) ∧
    Server.branch [] [1] 1 ∈ (run (Net.step Server.netEnv) Net.start Server.forkRun 0).core.decided ∧
    Server.branch [] [2] 1 ∈ (run (Net.step Server.netEnv) Net.start Server.forkRun 1).core.decided ∧
    (Server.branch [] [1] 1).height = (Server.branch [] [2] 1).height ∧
    getBlockHash (Server.branch [] [1] 1) ≠ getBlockHash (Server.branch [] [2] 1) := by
  decide +kernel

end GoHotstuff
