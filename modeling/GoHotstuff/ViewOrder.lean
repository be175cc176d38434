import GoHotstuff.Agreement
import GoHotstuff.PhaseOrder

/-!
# The view order and the height order of certificates

`OnReceiveNewView` ranks certificates by their view number and `UpdateHighestQC` by the height of their block.  A replica
votes for what it is sent, whatever it has voted for before, so that even in a network of honest replicas a leader that
has fallen behind gathers a quorum for a low block in a high view (`view_height_disorder`).  If every replica votes for
blocks that are above its earlier ones in both orders, the two orders agree on any two certificates (`view_height_order`),
because two quorums have a voter in common.
-/

namespace GoHotstuff

open Lib (Bytes run StepsMeet)

namespace Core

/-- The block is higher than all blocks voted for, and its view is not behind theirs. -/
def VotedBelow (s : Core) (b : Block) : Prop :=
  ∀ c ∈ s.votes, c.height < b.height ∧
    ∀ b' ∈ s.stored, b'.selfQc.blockHash = c.vote.blockHash → b'.selfQc.viewNumber ≤ b.selfQc.viewNumber

instance (s : Core) (b : Block) : Decidable (s.VotedBelow b) :=
  inferInstanceAs (Decidable (∀ c ∈ s.votes, c.height < b.height ∧
    ∀ b' ∈ s.stored, b'.selfQc.blockHash = c.vote.blockHash → b'.selfQc.viewNumber ≤ b.selfQc.viewNumber))

/-- A block that will be voted for is above the earlier ones, or one of them again. -/
def MayFollow (s : Core) (b : Block) : Prop :=
  ((s.justifyBlock? b).isSome → s.VotedBelow b) ∨ ∃ c ∈ s.votes, c.vote.blockHash = b.selfQc.blockHash

instance (s : Core) (b : Block) : Decidable (s.MayFollow b) :=
  inferInstanceAs (Decidable (((s.justifyBlock? b).isSome → s.VotedBelow b) ∨
    ∃ c ∈ s.votes, c.vote.blockHash = b.selfQc.blockHash))

def OrderGuard (env : Env) (s : Core) : CoreOp → Prop
  | .receive prop => (s.storeBlock prop.block).MayFollow prop.block
  | .resume i => ∀ prop ∈ s.woken[i]?, s.MayFollow prop.block
  | .propose curView parentHash cmds now => ∀ parent ∈ s.load parentHash,
      s.voteHeight < (s.newBlock env curView parentHash cmds parent now).height →
        s.VotedBelow (s.newBlock env curView parentHash cmds parent now)
  | _ => True

instance (env : Env) (s : Core) : (op : CoreOp) → Decidable (s.OrderGuard env op)
  | .receive prop => inferInstanceAs (Decidable ((s.storeBlock prop.block).MayFollow prop.block))
  | .resume i => inferInstanceAs (Decidable (∀ prop ∈ s.woken[i]?, s.MayFollow prop.block))
  | .propose curView parentHash cmds now => inferInstanceAs (Decidable (∀ parent ∈ s.load parentHash,
      s.voteHeight < (s.newBlock env curView parentHash cmds parent now).height →
        s.VotedBelow (s.newBlock env curView parentHash cmds parent now)))
  | .vote _ | .newView .. | .look _ | .adopt _ | .sign _ | .crash => .isTrue trivial

/-! ### The votes of one replica -/

/-- Vote `c` is before vote `d` in both orders. -/
def Before (s : Core) (c d : CastVote) : Prop :=
  c.height < d.height ∧ ∃ b ∈ s.stored, ∃ b' ∈ s.stored, b.selfQc.blockHash = c.vote.blockHash ∧
    b'.selfQc.blockHash = d.vote.blockHash ∧ b.selfQc.viewNumber ≤ b'.selfQc.viewNumber

/-- The votes are for stored blocks, and any two are for one block or ordered. -/
structure Aligned (s : Core) : Prop where
  voted : ∀ c ∈ s.votes, ∃ b ∈ s.stored, b.selfQc.blockHash = c.vote.blockHash ∧ b.height = c.height
  aligned : ∀ c ∈ s.votes, ∀ d ∈ s.votes, c.vote.blockHash = d.vote.blockHash ∨ s.Before c d ∨ s.Before d c

private theorem Before.mono {s s' : Core} {c d : CastVote} (h : s.Before c d) (hs : s.stored ⊆ s'.stored) :
    s'.Before c d := by
  obtain ⟨hlt, b, hb, b', hb', hrest⟩ := h
  exact ⟨hlt, b, hs hb, b', hs hb', hrest⟩

/-- Only the hash and the height of a vote matter. -/
private theorem Before.congr {s : Core} {c d c' d' : CastVote} (h : s.Before c d)
    (hc : c.vote.blockHash = c'.vote.blockHash)
    (hch : c.height = c'.height) (hd : d.vote.blockHash = d'.vote.blockHash) (hdh : d.height = d'.height) :
    s.Before c' d' := by
  obtain ⟨hlt, b, hb, b', hb', hbc, hbd, hle⟩ := h
  exact ⟨hch ▸ hdh ▸ hlt, b, hb, b', hb', hbc.trans hc, hbd.trans hd, hle⟩

private theorem Aligned.compare {s s' : Core} (h : s.Aligned) (hs : s.stored ⊆ s'.stored) {c d : CastVote}
    (hc : c ∈ s.votes) (hd : d ∈ s.votes) : c.vote.blockHash = d.vote.blockHash ∨ s'.Before c d ∨ s'.Before d c := by
  rcases h.aligned c hc d hd with heq | hlt | hlt
  · exact Or.inl heq
  · exact Or.inr (Or.inl (hlt.mono hs))
  · exact Or.inr (Or.inr (hlt.mono hs))

private theorem Aligned.mono {s s' : Core} (h : s.Aligned) (hv : s'.votes = s.votes) (hs : s.stored ⊆ s'.stored) :
    s'.Aligned where
  voted c hc := by
    obtain ⟨b, hb, hrest⟩ := h.voted c (hv ▸ hc)
    exact ⟨b, hs hb, hrest⟩
  aligned c hc d hd := h.compare hs (hv ▸ hc) (hv ▸ hd)

private theorem Quiet.aligned {s s' : Core} (q : Quiet s s') (h : s.Aligned) : s'.Aligned := by
  obtain ⟨c, w, k, x, hc, hp, rfl⟩ := q
  exact h.mono rfl (List.Subset.refl _)

/-- One more vote, which is related to all earlier ones. -/
private theorem Aligned.concat {s s' : Core} (h : s.Aligned) (hs : s.stored ⊆ s'.stored) {d : CastVote}
    (hv : s'.votes = s.votes ++ [d]) (hd : ∃ b ∈ s'.stored, b.selfQc.blockHash = d.vote.blockHash ∧ b.height = d.height)
    (hnew : ∀ c ∈ s.votes, c.vote.blockHash = d.vote.blockHash ∨ s'.Before c d ∨ s'.Before d c) : s'.Aligned := by
  constructor
  · intro c hc
    rw [hv, List.mem_append, List.mem_singleton] at hc
    rcases hc with hc | rfl
    · obtain ⟨b, hb, hrest⟩ := h.voted c hc
      exact ⟨b, hs hb, hrest⟩
    · exact hd
  · intro c hc e he
    rw [hv, List.mem_append, List.mem_singleton] at hc he
    rcases hc with hc | rfl
    · rcases he with he | rfl
      · exact h.compare hs hc he
      · exact hnew c hc
    · rcases he with he | rfl
      · exact (hnew e he).imp Eq.symm Or.symm
      · exact Or.inl rfl

/-- The block a call votes for, with what the call has found by then. -/
inductive Casts (env : Env) (s : Core) : CoreOp → Block → Prop
  | receive {prop : Proposal} (hj : ((s.storeBlock prop.block).justifyBlock? prop.block).isSome) :
      Casts env s (.receive prop) prop.block
  | resume {i : Nat} {prop : Proposal} (hi : s.woken[i]? = some prop) (hj : (s.justifyBlock? prop.block).isSome) :
      Casts env s (.resume i) prop.block
  | propose {curView now : Int64} {parentHash cmds : Bytes} {parent : Block} (hl : s.load parentHash = some parent)
      (hh : s.voteHeight < (s.newBlock env curView parentHash cmds parent now).height) :
      Casts env s (.propose curView parentHash cmds now) (s.newBlock env curView parentHash cmds parent now)

/-- A call makes no vote, or one for the block it handles. -/
private theorem step_casts (env : Env) (s : Core) (hp : s.PendingStored) (op : CoreOp) :
    (s.step env op).votes = s.votes ∨
    ∃ b vote, Casts env s op b ∧ b ∈ (s.step env op).stored ∧ vote.blockHash = b.selfQc.blockHash ∧
      (s.step env op).votes = s.votes ++ [⟨b.height, vote⟩] := by
  have hsub := (stored_prefix_step env s op).subset
  have hres := step_cases env s op
  generalize s.step env op = s' at hres hsub ⊢
  cases hres with
  | quiet hop q => exact Or.inl q.votes
  | @propose curView now parentHash cmds parent _ hl hh p =>
    rcases p.votes_append with hv | ⟨vote, hvote, hv, -⟩
    · exact Or.inl hv
    · refine Or.inr ⟨_, vote, .propose hl hh, ?_, hvote, hv⟩
      rw [p.sameEntries.2.1]
      exact List.mem_append_right _ (List.mem_singleton_self _)
  | store hw q => exact Or.inl q.votes
  | @receive prop s1 _ x q hj p =>
    rw [q.justifyBlock?] at hj
    have hs1 : s1.votes = s.votes ∧ s1.stored = s.stored ++ [prop.block] := ⟨q.votes, q.stored⟩
    rcases p.votes_append with hv | ⟨vote, -, hvote, hv⟩
    · exact Or.inl (hv.trans hs1.1)
    · refine Or.inr ⟨prop.block, vote, .receive (by rw [hj]; rfl), ?_, hvote, by rw [hv, hs1.1]⟩
      rw [p.sameEntries.2.1, hs1.2]
      exact List.mem_append_right _ (List.mem_singleton_self _)
  | @resume i prop s1 _ x hi q hj p =>
    rw [q.justifyBlock?] at hj
    have hs1 : s1.votes = s.votes := q.votes
    rcases p.votes_append with hv | ⟨vote, -, hvote, hv⟩
    · exact Or.inl (hv.trans hs1)
    · refine Or.inr ⟨prop.block, vote, .resume hi (by rw [hj]; rfl), hsub ?_, hvote, by rw [hv, hs1]⟩
      exact hp prop (List.mem_append_right _ (List.mem_of_getElem? hi))
  | vote v => exact Or.inl v.frame.2.2.2.2.2.1
  | newView => exact Or.inl rfl
  | @adopt qc b _ hl q =>
    obtain ⟨g, o, n, heq⟩ := highQC_frame env s b qc none
    rw [heq] at q
    exact Or.inl q.votes
  | sign => exact Or.inl rfl

private theorem Casts.order {env : Env} {s : Core} {op : CoreOp} {b : Block} (h : Casts env s op b)
    (hg : s.OrderGuard env op) :
    s.VotedBelow b ∨ ∃ c ∈ s.votes, c.vote.blockHash = b.selfQc.blockHash := by
  cases h with
  | @receive prop hj =>
    refine Or.imp_left (fun hbelow c hc => ?_) (hg.imp_left fun hbelow => hbelow hj)
    obtain ⟨hlt, hviews⟩ := hbelow c hc
    exact ⟨hlt, fun b' hb' => hviews b' (List.mem_append_left _ hb')⟩
  | @resume i prop hi hj => exact (hg prop hi).imp_left fun hbelow => hbelow hj
  | propose hl hh => exact Or.inl (hg _ hl hh)

theorem Aligned.step {env : Env} {l : List Block} (T : BlockTree env.replicas l) (hcf : CollisionFree l) {s : Core}
    (h : s.Aligned) (hp : s.PendingStored) {op : CoreOp} (hg : s.OrderGuard env op) (hl : (s.step env op).stored ⊆ l) :
    (s.step env op).Aligned := by
  have hsub := (stored_prefix_step env s op).subset
  rcases step_casts env s hp op with hv | ⟨b, vote, hcasts, hb, hvote, hv⟩
  · exact h.mono hv hsub
  · refine h.concat hsub hv ⟨b, hb, hvote.symm, rfl⟩ fun c hc => ?_
    rcases hcasts.order hg with hbelow | ⟨d, hd, hsame⟩
    · obtain ⟨b', hb', hhash, -⟩ := h.voted c hc
      obtain ⟨hlt, hviews⟩ := hbelow c hc
      exact Or.inr (Or.inl ⟨hlt, b', hsub hb', b, hb, hhash, hvote.symm, hviews b' hb' hhash⟩)
    · -- the new vote is `d` again
      obtain ⟨b', hb', hhash, hheight⟩ := h.voted d hd
      have heq : d.height = b.height := by
        rw [← hheight]
        refine (T.eq_of_hash hcf (known_of_mem (hl (hsub hb'))) (known_of_mem (hl hb)) ?_).2
        rw [← (T.inTree (known_of_mem (hl (hsub hb')))).selfHash, ← (T.inTree (known_of_mem (hl hb))).selfHash, hhash,
          hsame]
      have hvote' : d.vote.blockHash = vote.blockHash := hsame.trans hvote.symm
      rcases h.compare hsub hc hd with hcd | hlt | hlt
      · exact Or.inl (hcd.trans hvote')
      · exact Or.inr (Or.inl (hlt.congr rfl rfl hvote' heq))
      · exact Or.inr (Or.inr (hlt.congr hvote' heq rfl rfl))

end Core

/-! ### Runs of one replica -/

namespace Node

/-- The replica votes only for blocks that are above its earlier ones, or for one of them again. -/
def OrderGuard (env : NodeEnv) (n : Node) : Action → Prop
  | .message _ (.proposal _ (some pb)) => ∀ b ∈ pb.toBlock?,
      ((n.core.touch n.core.execQC.blockHash).storeBlock b).MayFollow b
  | .resumeProposal i => n.core.OrderGuard env.toEnv (.resume i)
  | .task i _ now => ∀ cmds ∈ n.beatCmds i,
      n.core.OrderGuard env.toEnv (.propose n.curView n.core.genericQC.blockHash cmds now)
  | _ => True

instance (env : NodeEnv) (n : Node) : (a : Action) → Decidable (n.OrderGuard env a)
  | .message _ (.proposal _ (some pb)) => inferInstanceAs (Decidable (∀ b ∈ pb.toBlock?,
      ((n.core.touch n.core.execQC.blockHash).storeBlock b).MayFollow b))
  | .resumeProposal i => inferInstanceAs (Decidable (n.core.OrderGuard env.toEnv (.resume i)))
  | .task i _ now => inferInstanceAs (Decidable (∀ cmds ∈ n.beatCmds i,
      n.core.OrderGuard env.toEnv (.propose n.curView n.core.genericQC.blockHash cmds now)))
  | .message _ (.proposal _ none) | .message _ (.viewChange ..) | .message _ (.vote ..) | .message _ (.forward _)
  | .message _ .unset | .submit _ | .resumeNewView _ | .timeout => .isTrue trivial

/-- A finished certificate is the one of a stored block. -/
def Finished (l : List Block) (e : Event) : Prop :=
  ∀ proposer qc, e = .qcFinish proposer qc →
    ∃ b ∈ l, b.selfQc.viewNumber = qc.viewNumber ∧ b.selfQc.blockHash = qc.blockHash

/-- The invariant of a replica whose blocks are among those of a tree. -/
structure OrderInv (env : NodeEnv) (n : Node) : Prop where
  base : n.core.Base env.toEnv
  aligned : n.core.Aligned
  length : n.core.genericQC.blockHash.length = 32
  signs : Core.SignsFor env (fun qc => qc.blockHash.length = 32) n.core
  finished : ∀ e ∈ n.core.notified, Finished n.core.stored e

private theorem finished_step {env : NodeEnv} {n : Node} (hst : n.core.StoreInv)
    (h : ∀ e ∈ n.core.notified, Finished n.core.stored e) (a : Action) :
    ∀ e ∈ (n.step env a).core.notified, Finished (n.step env a).core.stored e := by
  obtain ⟨ops, hcore⟩ := core_step env n a
  rw [hcore]
  refine Core.notified_run (Q := Finished) (fun hl h proposer qc heq => ?_) ?_ ops hst h
  · obtain ⟨b, hb, hrest⟩ := h proposer qc heq
    exact ⟨b, hl hb, hrest⟩
  · intro s op hst
    refine Core.step_notifies_of ⟨nofun, nofun⟩ (fun hash o _ ho _ _ proposer qc heq => ?_)
      (fun _ _ _ _ _ _ _ _ _ => nofun) nofun nofun
    obtain ⟨-, rfl⟩ := Event.qcFinish.inj heq
    obtain ⟨b, hb, hbody⟩ := (hst.step env.toEnv op).mem _ o ho
    exact ⟨b, hb, body_selfQc_viewNumber hbody, body_selfQc_blockHash hbody⟩

theorem OrderInv.step {env : NodeEnv} {l : List Block} (T : BlockTree env.replicas l) (hcf : CollisionFree l) {n : Node}
    {a : Action} (h : n.OrderInv env) (hg : n.OrderGuard env a) (hl : (n.step env a).core.stored ⊆ l) :
    (n.step env a).OrderInv env := by
  have hbase := base_step h.base a
  have hstep : ∀ {s : Core} {op : CoreOp}, s.OrderGuard env.toEnv op →
      (s.Base env.toEnv ∧ (s.stored ⊆ l → s.Aligned)) →
      (s.step env.toEnv op).Base env.toEnv ∧ ((s.step env.toEnv op).stored ⊆ l → (s.step env.toEnv op).Aligned) := by
    rintro s op hop ⟨hbase, hs⟩
    refine ⟨hbase.step op, fun hsub => ?_⟩
    exact (hs (List.Subset.trans (Core.stored_prefix_step env.toEnv s op).subset hsub)).step T hcf hbase.pending hop hsub
  have key := step_keeps (I := fun s => s.Base env.toEnv ∧ (s.stored ⊆ l → s.Aligned)) (n := n) (a := a)
    ?_ (fun hop => hstep ?_) (fun hop => hstep ?_) ⟨h.base, fun _ => h.aligned⟩
  · exact ⟨hbase, key.2 hl,
      Core.length_generic (highInv_step h.base.toHighInv a).2 (fun hload => (T.load hbase.toStoreInv hl hload).2) h.length,
      signsFor_step h.signs h.length a, finished_step h.base.toStoreInv h.finished a⟩
  · rintro s s' q ⟨hbase, hs⟩
    refine ⟨q.base hbase, fun hsub => q.aligned (hs ?_)⟩
    obtain ⟨c, w, k, x, hc, hp, rfl⟩ := q
    exact hsub
  · cases hop <;> exact trivial
  · cases hop with
    | receive ha hb =>
      subst ha
      exact hg _ hb
    | resume ha =>
      subst ha
      exact hg
    | propose ha hi hs =>
      subst ha
      exact hg _ (beatCmds_eq hi hs)

private theorem orderInv_newNode (env : NodeEnv) : newNode.OrderInv env where
  base := Core.base_newHotStuffCore env.toEnv
  aligned := ⟨nofun, nofun⟩
  length := length_getBlockHash _
  signs := nofun
  finished := nofun

private theorem orderInv_run {env : NodeEnv} {l : List Block} (T : BlockTree env.replicas l) (hcf : CollisionFree l)
    {as : List Action} (hg : StepsMeet (step env) (OrderGuard env) newNode as)
    (hl : (run (step env) newNode as).core.stored ⊆ l) : (run (step env) newNode as).OrderInv env := by
  induction as using List.reverseRecOn with
  | nil => exact orderInv_newNode env
  | append_singleton as a ih =>
    obtain ⟨has, hlast⟩ := Lib.stepsMeet_append.1 hg
    rw [Lib.run_append] at hl ⊢
    have hsub := (stored_prefix_node env (run (step env) newNode as) a).subset
    exact (ih has (List.Subset.trans hsub hl)).step T hcf hlast.1 hl

end Node

/-! ### Runs of the network -/

/-- Blocks with the same hash are of the same view. -/
def OneView (l : List Block) : Prop :=
  ∀ b ∈ l, ∀ b' ∈ l, b.selfQc.blockHash = b'.selfQc.blockHash → b.selfQc.viewNumber = b'.selfQc.viewNumber

private theorem OneView.known {l : List Block} (h : OneView l) {b b' : Block} (hb : Known l b) (hb' : Known l b')
    (heq : b.selfQc.blockHash = b'.selfQc.blockHash) : b.selfQc.viewNumber = b'.selfQc.viewNumber := by
  obtain ⟨b₀, hmem, hbody⟩ := hb
  obtain ⟨b₀', hmem', hbody'⟩ := hb'
  rw [← body_selfQc_blockHash hbody, ← body_selfQc_blockHash hbody'] at heq
  rw [← body_selfQc_viewNumber hbody, ← body_selfQc_viewNumber hbody']
  exact h b₀ hmem b₀' hmem' heq

namespace Net

/-- The block that a beat proposes has not been proposed in another view: the hash does not cover the view. -/
def NewGuard (E : NetEnv) (net : Net) (id : Int64) : Action → Prop
  | .task i _ now => ∀ cmds ∈ (net id).beatCmds i, ∀ parent ∈ (net id).core.load (net id).core.genericQC.blockHash,
      ∀ b ∈ net.blocks E.replicas.replicas.keys,
        b.selfQc.blockHash = ((net id).core.newBlock (E.node id).toEnv (net id).curView
          (net id).core.genericQC.blockHash cmds parent now).selfQc.blockHash →
        b.selfQc.viewNumber = (net id).curView
  | _ => True

instance (E : NetEnv) (net : Net) (id : Int64) : (a : Action) → Decidable (net.NewGuard E id a)
  | .task i _ now => inferInstanceAs (Decidable (∀ cmds ∈ (net id).beatCmds i,
      ∀ parent ∈ (net id).core.load (net id).core.genericQC.blockHash, ∀ b ∈ net.blocks E.replicas.replicas.keys,
        b.selfQc.blockHash = ((net id).core.newBlock (E.node id).toEnv (net id).curView
          (net id).core.genericQC.blockHash cmds parent now).selfQc.blockHash →
        b.selfQc.viewNumber = (net id).curView))
  | .message .. | .submit _ | .resumeProposal _ | .resumeNewView _ | .timeout => .isTrue trivial

/-- A replica acts on what the replicas have sent, and what it votes for or proposes is above its earlier votes. -/
def OrderedStep (E : NetEnv) (net : Net) (x : Int64 × Action) : Prop :=
  x.1 ∈ E.replicas.replicas.keys ∧ net.Delivers E x.2 ∧ (net x.1).OrderGuard (E.node x.1) x.2 ∧ net.NewGuard E x.1 x.2

instance (E : NetEnv) (net : Net) (x : Int64 × Action) : Decidable (net.OrderedStep E x) :=
  inferInstanceAs (Decidable (x.1 ∈ E.replicas.replicas.keys ∧ net.Delivers E x.2 ∧
    (net x.1).OrderGuard (E.node x.1) x.2 ∧ net.NewGuard E x.1 x.2))

variable {E : NetEnv} {net : Net}

private theorem blocks_cases {x : Int64 × Action} (h : TreeInv E net) (hdel : net.Delivers E x.2) {b : Block}
    (hb : b ∈ (net.step E x).blocks E.replicas.replicas.keys) :
    Known (net.blocks E.replicas.replicas.keys) b ∨ (net x.1).BeatMakes (E.node x.1) x.2 b := by
  obtain ⟨id, hid, hb⟩ := mem_blocks.1 hb
  by_cases hx : id = x.1
  · subst hx
    rw [step_self] at hb
    rcases Node.stored_beat hb with hb | ⟨src, viewNumber, pb, ha, hpb⟩ | hmakes
    · exact Or.inl (known_of_mem (mem_blocks.2 ⟨_, hid, hb⟩))
    · rw [ha] at hdel
      exact Or.inl (h.delivered hdel hpb)
    · exact Or.inr hmakes
  · rw [step_of_ne E net hx] at hb
    exact Or.inl (known_of_mem (mem_blocks.2 ⟨id, hid, hb⟩))

private theorem oneView_step {x : Int64 × Action} (h : TreeInv E net) (hdel : net.Delivers E x.2)
    (hnew : net.NewGuard E x.1 x.2) (hone : OneView (net.blocks E.replicas.replicas.keys)) :
    OneView ((net.step E x).blocks E.replicas.replicas.keys) := by
  have hmade : ∀ {b}, (net x.1).BeatMakes (E.node x.1) x.2 b → b.selfQc.viewNumber = (net x.1).curView := by
    rintro _ ⟨-, -, now, cmds, parent, -, -, -, -, rfl⟩
    rfl
  have hguard : ∀ {b b'}, (net x.1).BeatMakes (E.node x.1) x.2 b → Known (net.blocks E.replicas.replicas.keys) b' →
      b'.selfQc.blockHash = b.selfQc.blockHash → b'.selfQc.viewNumber = (net x.1).curView := by
    rintro _ b' ⟨i, conn, now, cmds, parent, ha, hc, hl, -, rfl⟩ ⟨b₀, hmem, hbody⟩ heq
    rw [ha] at hnew
    rw [← body_selfQc_viewNumber hbody]
    exact hnew cmds hc parent hl b₀ hmem ((body_selfQc_blockHash hbody).trans heq)
  intro b hb b' hb' heq
  rcases blocks_cases h hdel hb with hk | hm <;> rcases blocks_cases h hdel hb' with hk' | hm'
  · exact hone.known hk hk' heq
  · rw [hguard hm' hk heq, hmade hm']
  · rw [hguard hm hk' heq.symm, hmade hm]
  · rw [hmade hm, hmade hm']

private theorem oneView_start (ids : List Int64) : OneView (start.blocks ids) := by
  intro b hb b' hb' heq
  obtain ⟨id, -, hb⟩ := mem_blocks.1 hb
  obtain ⟨id', -, hb'⟩ := mem_blocks.1 hb'
  rw [List.mem_singleton.1 (show b ∈ [genesis] from hb), List.mem_singleton.1 (show b' ∈ [genesis] from hb')]

/-- What holds at the end of a run of ordered steps. -/
structure Ordered (E : NetEnv) (net : Net) : Prop where
  tree : BlockTree E.replicas (net.blocks E.replicas.replicas.keys)
  collisionFree : CollisionFree (net.blocks E.replicas.replicas.keys)
  oneView : OneView (net.blocks E.replicas.replicas.keys)
  inv : ∀ id ∈ E.replicas.replicas.keys, (net id).OrderInv (E.node id)

private theorem ordered_run {acts : List (Int64 × Action)} (hg : StepsMeet (step E) (OrderedStep E) start acts)
    (hcf : CollisionFree ((run (step E) start acts).blocks E.replicas.replicas.keys)) :
    Ordered E (run (step E) start acts) := by
  have hinv := hg.invariant (I := fun net => TreeInv E net ∧ OneView (net.blocks E.replicas.replicas.keys))
    (fun net x h hx => ⟨h.1.step hx.2.1, oneView_step h.1 hx.2.1 hx.2.2.2 h.2⟩) ⟨treeInv_start E, oneView_start _⟩
  refine ⟨hinv.1.tree, hcf, hinv.2, fun id hid => ?_⟩
  have hsub := stored_subset_blocks hid (run (step E) start acts)
  have hrun : run (step E) start acts id = run (Node.step (E.node id)) newNode (actionsOf id acts) := by
    rw [run_apply]
    rfl
  rw [hrun] at hsub ⊢
  exact Node.orderInv_run hinv.1.tree hcf (stepsMeet_apply (fun net a h => h.2.2.1) hg) hsub

namespace Ordered

variable (h : net.Ordered E)
include h

private theorem selfHash {b : Block} (hb : b ∈ net.blocks E.replicas.replicas.keys) :
    b.selfQc.blockHash = getBlockHash b :=
  (h.tree.inTree (known_of_mem hb)).selfHash

/-- The certificate has the view of its block. -/
private theorem view_eq {i : Int64} (hi : i ∈ E.replicas.replicas.keys) {proposer : Int64} {qc : QuorumCert}
    (hqc : .qcFinish proposer qc ∈ (net i).core.notified) {b : Block} (hb : b ∈ net.blocks E.replicas.replicas.keys)
    (heq : b.selfQc.blockHash = qc.blockHash) : b.selfQc.viewNumber = qc.viewNumber := by
  obtain ⟨b', hb', hview, hhash⟩ := (h.inv i hi).finished _ hqc proposer qc rfl
  rw [← hview]
  exact h.oneView b hb b' (stored_subset_blocks hi net hb') (heq.trans hhash.symm)

/-- A replica that is counted has voted, and the vote is at the height of the block. -/
private theorem voted (hmarshal : ∀ newView data, E.marshal newView = .ok data →
      newView.genericQc.blockHash.length < data.length) {qc : QuorumCert} {b : Block}
    (hb : b ∈ net.blocks E.replicas.replicas.keys) (heq : getBlockHash b = qc.blockHash) (hunf : net.Unforged E ∅ qc)
    {id : Int64} (hid : id ∈ E.replicas.verifiedIds qc) :
    ∃ c ∈ (net id).core.votes, c.vote.blockHash = qc.blockHash ∧ c.height = b.height := by
  have hkey := ReplicaConf.mem_replicas_of_mem_verifiedIds hid
  obtain ⟨pc, -, hsigned⟩ := hunf.signed hid (Finset.notMem_empty id)
  rcases (h.inv id hkey).signs _ _ hsigned with ⟨c, hc, hhash, -⟩ | ⟨view, qc', hlen, hm⟩
  · obtain ⟨b', hb', hself, hheight⟩ := (h.inv id hkey).aligned.voted c hc
    have hmem := stored_subset_blocks hkey net hb'
    refine ⟨c, hc, hhash, ?_⟩
    rw [← hheight]
    refine (h.tree.eq_of_hash h.collisionFree (known_of_mem hmem) (known_of_mem hb) ?_).2
    rw [← h.selfHash hmem, hself, hhash, heq]
  · -- the encoding of a new-view message is longer than a hash
    have hlt : qc'.blockHash.length < qc.blockHash.length := hmarshal _ _ hm
    rw [← heq, length_getBlockHash] at hlt
    exact absurd hlen (Nat.ne_of_lt hlt)

/-- Votes of one replica that are in order are for certificates that are. -/
private theorem before {id i j : Int64} (hid : id ∈ E.replicas.replicas.keys) (hi : i ∈ E.replicas.replicas.keys)
    (hj : j ∈ E.replicas.replicas.keys) {p p' : Int64} {qc qc' : QuorumCert}
    (hqc : .qcFinish p qc ∈ (net i).core.notified) (hqc' : .qcFinish p' qc' ∈ (net j).core.notified) {c c' : CastVote}
    (hc : c.vote.blockHash = qc.blockHash) (hc' : c'.vote.blockHash = qc'.blockHash) (hlt : (net id).core.Before c c') :
    c.height < c'.height ∧ qc.viewNumber ≤ qc'.viewNumber := by
  obtain ⟨hheight, b, hb, b', hb', hhash, hhash', hle⟩ := hlt
  have hsub := stored_subset_blocks hid net
  rw [← h.view_eq hi hqc (hsub hb) (hhash.trans hc), ← h.view_eq hj hqc' (hsub hb') (hhash'.trans hc')]
  exact ⟨hheight, hle⟩

end Ordered

end Net

/-- View order and height order agree, for every run of a network of honest replicas that vote only upwards: of two
certificates that `OnProposalVote` forms and `VerifyQuorumCert` accepts, the one of the higher view is not for a lower
block, and the one for the higher block is not of a lower view. -/
theorem view_height_order (E : NetEnv)
    (hN : (E.replicas.replicas.keys.length : Int) = E.replicas.metadata.n.toInt)
    (hF : 0 ≤ E.replicas.metadata.f.toInt) (hNF : 3 * E.replicas.metadata.f.toInt + 1 ≤ E.replicas.metadata.n.toInt)
    (hmarshal : ∀ newView data, E.marshal newView = .ok data → newView.genericQc.blockHash.length < data.length)
    (acts : List (Int64 × Action)) (net : Net) (hnet : net = run (Net.step E) Net.start acts)
    (hguard : StepsMeet (Net.step E) (Net.OrderedStep E) Net.start acts)
    (hcf : CollisionFree (net.blocks E.replicas.replicas.keys)) (i j : Int64) (hi : i ∈ E.replicas.replicas.keys)
    (hj : j ∈ E.replicas.replicas.keys) (p1 p2 : Int64) (qc1 qc2 : QuorumCert)
    (hqc1 : .qcFinish p1 qc1 ∈ (net i).core.notified) (hqc2 : .qcFinish p2 qc2 ∈ (net j).core.notified)
    (hv1 : E.replicas.verifyQuorumCert qc1 = true) (hv2 : E.replicas.verifyQuorumCert qc2 = true)
    (hunf1 : net.Unforged E ∅ qc1) (hunf2 : net.Unforged E ∅ qc2) (b1 b2 : Block)
    (hb1 : b1 ∈ net.blocks E.replicas.replicas.keys) (hb2 : b2 ∈ net.blocks E.replicas.replicas.keys)
    (hh1 : getBlockHash b1 = qc1.blockHash) (hh2 : getBlockHash b2 = qc2.blockHash) :
    (qc1.viewNumber < qc2.viewNumber → b1.height ≤ b2.height) ∧
    (b1.height < b2.height → qc1.viewNumber ≤ qc2.viewNumber) := by
  have h : net.Ordered E := by
    subst hnet
    exact Net.ordered_run hguard hcf
  have hcard : ((∅ : Finset Int64).card : Int) ≤ E.replicas.metadata.f.toInt := hF
  obtain ⟨id, -, hid1, hid2⟩ := ReplicaConf.exists_common_verified hN hF hNF hcard hv1 hv2
  have hid := ReplicaConf.mem_replicas_of_mem_verifiedIds hid1
  obtain ⟨c1, hc1, hhash1, hheight1⟩ := h.voted hmarshal hb1 hh1 hunf1 hid1
  obtain ⟨c2, hc2, hhash2, hheight2⟩ := h.voted hmarshal hb2 hh2 hunf2 hid2
  rw [← hheight1, ← hheight2]
  rcases (h.inv id hid).aligned.aligned c1 hc1 c2 hc2 with heq | hlt | hlt
  · -- one block, and so one view
    have hsame : c1.height = c2.height := by
      rw [hheight1, hheight2]
      exact (h.tree.eq_of_hash h.collisionFree (known_of_mem hb1) (known_of_mem hb2)
        (by rw [hh1, hh2, ← hhash1, ← hhash2, heq])).2
    rw [hsame]
    exact ⟨fun _ => Int64.le_refl _, fun hlt => (Int64.lt_irrefl hlt).elim⟩
  · obtain ⟨hheight, hview⟩ := h.before hid hi hj hqc1 hqc2 hhash1 hhash2 hlt
    exact ⟨fun _ => Int64.le_of_lt hheight, fun _ => hview⟩
  · obtain ⟨hheight, hview⟩ := h.before hid hj hi hqc2 hqc1 hhash2 hhash1 hlt
    exact ⟨fun hv => absurd hview (Int64.not_le.2 hv), fun hh => absurd hheight (Int64.not_lt.2 (Int64.le_of_lt hh))⟩

namespace Server

/-- The servers with a decoder for the new-view message that replica `0` sends when its third timer has run out. -/
def lateEnv : NetEnv :=
  { netEnv with
    unmarshal := unmarshalNewView [⟨3, genesisQC⟩] }

/-- The block of view `3`, of a leader that has seen no proposal. -/
def third : Block := child 3 genesis genesisQC [3]

/-- Replica `0` proposes the first block. -/
def firstView : List (Int64 × Action) := [(0, .submit [1]), runTask 0 1, runTask 0 0, runTask 0 0]

/-- Replicas `1` and `2` vote for the first block, replica `1` collects the votes and proposes the second one, and
replica `2` collects the votes for that. -/
def secondView : List (Int64 × Action) :=
  [(1, .submit [2]), runTask 1 1, (1, .message 0 (sentBy 0 0 (chain 1))), runTask 1 1,
   (2, .message 0 (sentBy 0 0 (chain 1))), runTask 2 1, (1, .message 2 (voteOf 0 2 (chain 1))),
   runTask 1 2, runTask 1 0, runTask 1 2,
   (2, .message 1 (sentBy 1 1 second)), runTask 2 2, (0, .message 1 (sentBy 1 1 second)), runTask 0 1,
   (2, .message 0 (voteOf 1 0 second))]

/-- Three timers of replica `0` run out. -/
def timeouts : List (Int64 × Action) :=
  [(0, .timeout), runTask 0 0, (0, .timeout), runTask 0 0, (0, .timeout), runTask 0 0]

/-- Replica `3` has received nothing but the last of the new-view messages.  It proposes in view `3` on the genesis
block, and replica `0` collects the votes. -/
def lateView : List (Int64 × Action) :=
  [(3, .message 0 (.viewChange (marshalNewView ⟨3, genesisQC⟩) (sign 0 (marshalNewView ⟨3, genesisQC⟩)))),
   runTask 3 1, (3, .submit [3]), runTask 3 1, runTask 3 0, runTask 3 0,
   (0, .message 3 (sentBy 3 3 third)), runTask 0 1, (1, .message 3 (sentBy 3 3 third)), runTask 1 2,
   (0, .message 1 (voteOf 3 1 third))]

end Server

theorem view_height_order_server :
    .qcFinish 0 (Server.quorumCert 0 (Server.chain 1).selfQc.blockHash [2, 1, 0]) ∈
      (run (Net.step Server.netEnv) Net.start (Server.firstView ++ Server.secondView) 1).core.notified ∧
    .qcFinish 1 (Server.quorumCert 1 Server.second.selfQc.blockHash [0, 2, 1]) ∈
      (run (Net.step Server.netEnv) Net.start (Server.firstView ++ Server.secondView) 2).core.notified ∧
    ((0 : Int64) < 1 → (Server.chain 1).height ≤ Server.second.height) := by
  obtain ⟨net, hnet⟩ : ∃ net, net = run (Net.step Server.netEnv) Net.start (Server.firstView ++ Server.secondView) :=
    ⟨_, rfl⟩
  obtain ⟨hguard, hcf, hqc1, hqc2, hunf1, hunf2, hb1, hb2⟩ :
      StepsMeet (Net.step Server.netEnv) (Net.OrderedStep Server.netEnv) Net.start (Server.firstView ++ Server.secondView) ∧
      CollisionFree (net.blocks Server.netEnv.replicas.replicas.keys) ∧
      .qcFinish 0 (Server.quorumCert 0 (Server.chain 1).selfQc.blockHash [2, 1, 0]) ∈ (net 1).core.notified ∧
      .qcFinish 1 (Server.quorumCert 1 Server.second.selfQc.blockHash [0, 2, 1]) ∈ (net 2).core.notified ∧
      net.Unforged Server.netEnv ∅ (Server.quorumCert 0 (Server.chain 1).selfQc.blockHash [2, 1, 0]) ∧
      net.Unforged Server.netEnv ∅ (Server.quorumCert 1 Server.second.selfQc.blockHash [0, 2, 1]) ∧
      Server.chain 1 ∈ net.blocks Server.netEnv.replicas.replicas.keys ∧
      Server.second ∈ net.blocks Server.netEnv.replicas.replicas.keys := by
    subst hnet
    decide +kernel
  have horder := view_height_order Server.netEnv (by decide +kernel) (by decide +kernel) (by decide +kernel)
    Server.length_blockHash_lt_marshal (Server.firstView ++ Server.secondView) net hnet hguard hcf 1 2 (by decide +kernel)
    (by decide +kernel) 0 1 _ _ hqc1 hqc2 (by decide +kernel) (by decide +kernel) hunf1 hunf2 (Server.chain 1)
    Server.second hb1 hb2 (by decide +kernel) (by decide +kernel)
  rw [← hnet]
  exact ⟨hqc1, hqc2, horder.1⟩

/-- All replicas are honest.  Replica `2` forms a certificate of view `1` for a block of height `2`, and replica `0` one
of view `3` for a block of height `1`: replicas `0` and `1` have voted for both blocks. -/
theorem view_height_disorder :
    StepsMeet (Net.step Server.lateEnv)
      (fun net x => x.1 ∈ Server.lateEnv.replicas.replicas.keys ∧ net.Delivers Server.lateEnv x.2) Net.start
      (Server.firstView ++ Server.timeouts ++ Server.secondView ++ Server.lateView) ∧
    .qcFinish 1 (Server.quorumCert 1 Server.second.selfQc.blockHash [0, 2, 1]) ∈
      (run (Net.step Server.lateEnv) Net.start
        (Server.firstView ++ Server.timeouts ++ Server.secondView ++ Server.lateView) 2).core.notified ∧
    .qcFinish 3 (Server.quorumCert 3 Server.third.selfQc.blockHash [1, 0, 3]) ∈
      (run (Net.step Server.lateEnv) Net.start
        (Server.firstView ++ Server.timeouts ++ Server.secondView ++ Server.lateView) 0).core.notified ∧
    Server.lateEnv.replicas.verifyQuorumCert (Server.quorumCert 1 Server.second.selfQc.blockHash [0, 2, 1]) = true ∧
    Server.lateEnv.replicas.verifyQuorumCert (Server.quorumCert 3 Server.third.selfQc.blockHash [1, 0, 3]) = true ∧
    Server.third.height < Server.second.height := by
  decide +kernel

end GoHotstuff
