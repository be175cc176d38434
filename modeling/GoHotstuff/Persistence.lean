import GoHotstuff.NodeStep
import GoHotstuff.Network

/-!
# The log and the votes

`handleProposal` writes a proposal to the write-ahead log before the core sees it, so a vote for a received proposal is
made after its entry has been written, also when the proposal waits for its justify block and is voted for later.
`OnPropose` votes for the block it has made without writing it.  So the log holds an entry for every vote as long as no
beat brings `OnPropose` behind its test of the height (`vote_logged`), and otherwise has a hole (`vote_not_logged`).
-/

namespace GoHotstuff

open Lib (Bytes run StepsMeet)

namespace Node

/-! ### The log -/

/-- The log at the time when the action makes its call on the core: `handleProposal` has written the proposal by then. -/
def walAt (n : Node) : Action → List WalEntry
  | .message _ (.proposal viewNumber (some block)) =>
    match n.core.load n.core.execQC.blockHash with
    | none => n.wal
    | some execBlock => n.wal ++ [⟨execBlock.height.toUInt64, block.height.toUInt64, viewNumber, block⟩]
  | _ => n.wal

@[simp]
theorem wal_updateQcHigh (n : Node) (viewNumber : Int64) : (n.updateQcHigh viewNumber).wal = n.wal := by
  unfold updateQcHigh
  split <;> rfl

private theorem wal_createSignedViewChange (env : NodeEnv) (n : Node) :
    (n.createSignedViewChange env).2.wal = n.wal := by
  unfold createSignedViewChange
  split
  · rfl
  · dsimp only
    split <;> rfl

private theorem wal_processNewView (env : NodeEnv) (n : Node) (id : Int64) (newView : NewView) (block : Block) :
    (n.processNewView env id newView block).wal = n.wal := by
  unfold processNewView
  split
  · dsimp only
    split <;> exact wal_updateQcHigh _ _
  split
  · have hsigned := wal_createSignedViewChange env { n.stopNewViewTimer with curView := newView.viewNumber }
    split
    · rename_i heq
      rw [heq] at hsigned
      exact hsigned
    · rename_i heq
      rw [heq] at hsigned
      exact hsigned
  · obtain ⟨views, hviews⟩ := addNewViewMsg_snd env n id newView
    split
    · rename_i n' heq
      rw [heq] at hviews
      obtain rfl : n' = _ := hviews
      rfl
    · rename_i high n' heq
      rw [heq] at hviews
      obtain rfl : n' = _ := hviews
      dsimp only
      split <;> exact wal_updateQcHigh _ _

private theorem wal_onReceiveNewView (env : NodeEnv) (n : Node) (id : Int64) (newView : NewView) :
    (n.onReceiveNewView env id newView).wal = n.wal := by
  unfold onReceiveNewView
  split
  · rfl
  split
  · rfl
  · exact wal_processNewView _ _ _ _ _

private theorem wal_resumeNewView (env : NodeEnv) (n : Node) (i : Nat) : (n.resumeNewView env i).wal = n.wal := by
  unfold resumeNewView
  split
  · rfl
  dsimp only
  split
  · rfl
  · exact wal_processNewView _ _ _ _ _

private theorem wal_onNextSyncView (env : NodeEnv) (conn : Nat → Int64 → Bool) (k : Nat) (n : Node) :
    (onNextSyncView env conn k n).wal = n.wal := by
  induction k generalizing n with
  | zero => rfl
  | succ k ih =>
    unfold onNextSyncView
    dsimp only
    split
    · split
      · exact ih _
      · have hsigned := wal_createSignedViewChange env
          (startNewViewTimer { n with curView := n.curView + 1 })
        split
        · rename_i heq
          rw [heq] at hsigned
          exact hsigned
        · rename_i heq
          rw [heq] at hsigned
          exact hsigned
    · split
      · exact wal_onReceiveNewView _ _ _ _
      · rfl

private theorem wal_onProposeEvent (env : NodeEnv) (conn : Nat → Int64 → Bool) (n : Node) (proposal : Proposal) :
    (n.onProposeEvent env conn proposal).wal = n.wal := by
  unfold onProposeEvent
  split
  · dsimp only
    split <;> rfl
  · rfl

private theorem wal_handOver (env : NodeEnv) (n : Node) (viewNumber : Int64) (vote : Vote) :
    (n.handOver env viewNumber vote).wal = n.wal := by
  unfold handOver
  dsimp only
  split <;> rfl

private theorem wal_onReceiveProposal (env : NodeEnv) (conn : Nat → Int64 → Bool) (k : Nat) (n : Node)
    (viewNumber : Int64) (vote : Vote) : (onReceiveProposal env conn k n viewNumber vote).2.wal = n.wal := by
  induction k generalizing n viewNumber with
  | zero => rfl
  | succ k ih =>
    have hend : ∀ r : Int64 × Node, r.2.wal = n.wal →
        (if r.2.core.crashed then (r.1, r.2) else (r.1, r.2.handOver env r.1 vote)).2.wal = n.wal := by
      intro r hr
      split
      · exact hr
      · exact (wal_handOver _ _ _ _).trans hr
    unfold onReceiveProposal
    simp only
    split
    · split
      · exact hend _ ((ih _ _).trans (wal_updateQcHigh n viewNumber))
      · exact hend (viewNumber, _) (wal_updateQcHigh n viewNumber)
    · exact hend (viewNumber, _) (wal_updateQcHigh n viewNumber)

private theorem wal_onQcFinishEvent (env : NodeEnv) (n : Node) (qc : QuorumCert) :
    (n.onQcFinishEvent env qc).wal = n.wal := by
  unfold onQcFinishEvent
  dsimp only
  split
  · split <;> exact wal_updateQcHigh _ _
  · exact wal_updateQcHigh _ _

private theorem wal_runTask (env : NodeEnv) (conn : Nat → Int64 → Bool) (now : Int64) (n : Node) (t : Task) :
    (n.runTask env conn now t).wal = n.wal := by
  cases t with
  | event e =>
    cases e with
    | propose proposal => exact wal_onProposeEvent _ _ _ _
    | receiveProposal proposal vote => exact wal_onReceiveProposal _ _ _ _ _ _
    | receiveNewView replicaId view => exact wal_onReceiveNewView _ _ _ _
    | qcFinish proposer qc => exact wal_onQcFinishEvent _ _ _
    | hqcUpdate qc => exact wal_updateQcHigh _ _
    | decide block => rfl
  | beat =>
    unfold runTask
    dsimp only
    split
    · rfl
    · unfold onBeat
      dsimp only
      split <;> rfl
  | nextSync => exact wal_onNextSyncView _ _ _ _
  | submit cmds =>
    unfold runTask
    dsimp only
    split <;> rfl

private theorem wal_handleProposal (env : NodeEnv) (n : Node) (src viewNumber : Int64) (block : Option Pb.Block) :
    (n.handleProposal env viewNumber block).wal = n.walAt (.message src (.proposal viewNumber block)) := by
  unfold handleProposal walAt
  cases block with
  | none => rfl
  | some pb =>
    simp only [Core.loadBlock]
    cases n.core.load n.core.execQC.blockHash with
    | none => rfl
    | some xb =>
      dsimp only
      cases pb.toBlock? <;> rfl

private theorem wal_handleMessage (env : NodeEnv) (n : Node) (src : Int64) (msg : Pb.Message) :
    (n.handleMessage env src msg).wal = n.walAt (.message src msg) := by
  cases msg with
  | proposal viewNumber block => exact wal_handleProposal env n src viewNumber block
  | viewChange data signature =>
    unfold handleMessage handleViewChange
    dsimp only
    repeat' split
    all_goals rfl
  | vote viewNumber voter blockHash cert =>
    unfold handleMessage handleVote
    dsimp only
    repeat' split
    all_goals rfl
  | forward data => rfl
  | unset => rfl

/-- Nothing but `handleProposal` writes to the log. -/
private theorem wal_step (env : NodeEnv) (n : Node) (a : Action) :
    (n.step env a).wal = if n.core.crashed then n.wal else n.walAt a := by
  unfold step
  split
  · rfl
  cases a with
  | message src msg => exact wal_handleMessage env n src msg
  | submit cmds =>
    show (n.submit cmds).wal = n.wal
    unfold submit
    split <;> rfl
  | task i conn now =>
    unfold act
    dsimp only
    split
    · rfl
    · exact wal_runTask _ _ _ _ _
  | resumeProposal i => rfl
  | resumeNewView i => exact wal_resumeNewView _ _ _
  | timeout =>
    show (if n.timer then spawn { n with timer := false } .nextSync else n).wal = n.wal
    split <;> rfl

private theorem wal_prefix_step (env : NodeEnv) (n : Node) (a : Action) : n.wal <+: (n.step env a).wal := by
  have hat : n.wal <+: n.walAt a := by
    unfold walAt
    split
    · split
      · exact List.prefix_refl _
      · exact List.prefix_append _ _
    · exact List.prefix_refl _
  rw [wal_step]
  split
  · exact List.prefix_refl _
  · exact hat

private theorem wal_prefix_run (env : NodeEnv) (n : Node) (as : List Action) : n.wal <+: (run (step env) n as).wal := by
  induction as generalizing n with
  | nil => exact List.prefix_refl _
  | cons a as ih => exact (wal_prefix_step env n a).trans (ih (n.step env a))

end Node

/-! ### Votes -/

namespace Core

/-- A call makes no vote, or one for the received proposal it handles, or one for the block that `OnPropose` has made. -/
private theorem step_votes (env : Env) (s : Core) (op : CoreOp) :
    (s.step env op).votes = s.votes ∨
    (∃ prop vote, (op = .receive prop ∨ ∃ i, op = .resume i ∧ s.woken[i]? = some prop) ∧
      vote.viewNumber = prop.viewNumber ∧ vote.blockHash = prop.block.selfQc.blockHash ∧
      (s.step env op).votes = s.votes ++ [⟨prop.block.height, vote⟩]) ∨
    (∃ curView parentHash cmds now parent, op = .propose curView parentHash cmds now ∧
      s.load parentHash = some parent ∧ s.voteHeight < parent.height + 1) := by
  have hres := step_cases env s op
  generalize s.step env op = s' at hres ⊢
  cases hres with
  | quiet hop q => exact Or.inl q.votes
  | propose hl hh p => exact Or.inr (Or.inr ⟨_, _, _, _, _, rfl, hl, hh⟩)
  | store hw q => exact Or.inl q.votes
  | @receive prop s1 _ x q hj p =>
    have hs1 : s1.votes = s.votes := q.votes
    rcases p.votes_append with hv | ⟨vote, hview, hhash, hv⟩
    · exact Or.inl (hv.trans hs1)
    · exact Or.inr (Or.inl ⟨prop, vote, Or.inl rfl, hview, hhash, by rw [hv, hs1]⟩)
  | @resume i prop s1 _ x hi q hj p =>
    have hs1 : s1.votes = s.votes := q.votes
    rcases p.votes_append with hv | ⟨vote, hview, hhash, hv⟩
    · exact Or.inl (hv.trans hs1)
    · exact Or.inr (Or.inl ⟨prop, vote, Or.inr ⟨i, rfl, hi⟩, hview, hhash, by rw [hv, hs1]⟩)
  | vote v => exact Or.inl v.frame.2.2.2.2.2.1
  | newView => exact Or.inl rfl
  | @adopt qc b _ hl q =>
    obtain ⟨g, o, n, heq⟩ := highQC_frame env s b qc none
    rw [heq] at q
    exact Or.inl q.votes
  | sign => exact Or.inl rfl

end Core

/-- The entry is that of the given proposal. -/
def WalEntry.Holds (e : WalEntry) (prop : Proposal) : Prop :=
  e.index = prop.block.height.toUInt64 ∧ e.viewNumber = prop.viewNumber ∧ e.block.toBlock? = some prop.block

/-- The entry is that of the proposal voted for: its index is the height, its data has the vote's view and hash. -/
def WalEntry.Records (e : WalEntry) (c : CastVote) : Prop :=
  ∃ block, e.block.toBlock? = some block ∧ e.index = c.height.toUInt64 ∧ block.height = c.height ∧
    e.viewNumber = c.vote.viewNumber ∧ block.selfQc.blockHash = c.vote.blockHash

private theorem WalEntry.Holds.records {e : WalEntry} {prop : Proposal} (h : e.Holds prop) {vote : Vote}
    (hview : vote.viewNumber = prop.viewNumber) (hhash : vote.blockHash = prop.block.selfQc.blockHash) :
    e.Records ⟨prop.block.height, vote⟩ :=
  ⟨prop.block, h.2.2, h.1, rfl, h.2.1.trans hview.symm, hhash.symm⟩

namespace Node

/-- The proposals whose handler waits, or has been woken, are in the log. -/
def PendingLogged (n : Node) : Prop := ∀ p ∈ n.core.waiting ++ n.core.woken, ∃ e ∈ n.wal, e.Holds p

/-- A beat does not bring `OnPropose` behind its test of the height. -/
def NoOwnProposal (env : NodeEnv) (n : Node) : Action → Prop
  | .task i _ _ => n.beatCmds i ≠ none → getCurLeader env n.curView = env.id →
      ∀ parent ∈ n.core.load n.core.genericQC.blockHash, parent.height + 1 ≤ n.core.voteHeight
  | _ => True

instance (env : NodeEnv) (n : Node) : (a : Action) → Decidable (n.NoOwnProposal env a)
  | .task i _ _ => inferInstanceAs (Decidable (n.beatCmds i ≠ none → getCurLeader env n.curView = env.id →
      ∀ parent ∈ n.core.load n.core.genericQC.blockHash, parent.height + 1 ≤ n.core.voteHeight))
  | .message .. | .submit _ | .resumeProposal _ | .resumeNewView _ | .timeout => .isTrue trivial

private theorem MinorCall.votes_pending {env : NodeEnv} {n : Node} {a : Action} {op : CoreOp} (h : MinorCall env n a op)
    (s : Core) : (s.step env.toEnv op).votes = s.votes ∧
      ∀ p ∈ (s.step env.toEnv op).waiting ++ (s.step env.toEnv op).woken, p ∈ s.waiting ++ s.woken := by
  constructor
  · rcases Core.step_votes env.toEnv s op with hv | ⟨prop, vote, hop, -⟩ | ⟨curView, parentHash, cmds, now, parent, hop, -⟩
    · exact hv
    · rcases hop with rfl | ⟨i, rfl, -⟩ <;> cases h
    · subst hop
      cases h
  · intro p hp
    rcases Core.pending_step env.toEnv s op hp with hp | rfl
    · exact hp
    · cases h

/-- Without the last executed block the handler of a proposal crashes before it calls the core. -/
private theorem quiet_of_no_exec {env : NodeEnv} {n : Node} (hx : n.core.load n.core.execQC.blockHash = none)
    (src viewNumber : Int64) (pb : Pb.Block) :
    Core.Quiet n.core (n.step env (.message src (.proposal viewNumber (some pb)))).core := by
  unfold step
  split
  · exact Core.Quiet.refl _
  · simp only [act, handleMessage, handleProposal, Core.loadBlock, hx]
    exact (Core.quiet_touch _ _).trans (Core.quiet_crash _)

/-- What a step does to the votes and to the pending proposals, with the log at the time of its call. -/
structure StepLogged (n : Node) (a : Action) (n' : Node) : Prop where
  votes : n'.core.votes = n.core.votes ∨
    ∃ c, n'.core.votes = n.core.votes ++ [c] ∧ ∃ e ∈ n.walAt a, e.Records c
  pending : ∀ p ∈ n'.core.waiting ++ n'.core.woken, p ∈ n.core.waiting ++ n.core.woken ∨ ∃ e ∈ n.walAt a, e.Holds p

private theorem StepLogged.of_quiet {n n' : Node} {a : Action} (q : Core.Quiet n.core n'.core) : StepLogged n a n' where
  votes := by
    obtain ⟨c, w, k, x, hc, hp, heq⟩ := q
    exact Or.inl (by rw [heq])
  pending p hp := Or.inl (q.pending hp)

private theorem minor_run {env : NodeEnv} {n : Node} {a : Action} {ops : List CoreOp}
    (hops : ∀ op ∈ ops, MinorCall env n a op) (s : Core) :
    (run (Core.step env.toEnv) s ops).votes = s.votes ∧
      ∀ p ∈ (run (Core.step env.toEnv) s ops).waiting ++ (run (Core.step env.toEnv) s ops).woken,
        p ∈ s.waiting ++ s.woken := by
  induction ops generalizing s with
  | nil => exact ⟨rfl, fun _ hp => hp⟩
  | cons op ops ih =>
    obtain ⟨hvotes, hpending⟩ := (hops op List.mem_cons_self).votes_pending s
    obtain ⟨hvotes', hpending'⟩ := ih (fun op' hop' => hops op' (List.mem_cons_of_mem _ hop')) (s.step env.toEnv op)
    exact ⟨hvotes'.trans hvotes, fun p hp => hpending p (hpending' p hp)⟩

/-- The handler of a received proposal. -/
private theorem step_logged_receive {env : NodeEnv} {n : Node} {src viewNumber : Int64} {pb : Pb.Block} {b : Block}
    (hb : pb.toBlock? = some b) (hcore : (n.step env (.message src (.proposal viewNumber (some pb)))).core =
      (n.core.touch n.core.execQC.blockHash).step env.toEnv (.receive ⟨viewNumber, b⟩)) :
    StepLogged n (.message src (.proposal viewNumber (some pb)))
      (n.step env (.message src (.proposal viewNumber (some pb)))) := by
  cases hx : n.core.load n.core.execQC.blockHash with
  | none => exact .of_quiet (quiet_of_no_exec hx src viewNumber pb)
  | some xb =>
    have hheight : pb.height = b.height := by
      unfold Pb.Block.toBlock? at hb
      obtain ⟨qc, -, rfl⟩ := Option.map_eq_some_iff.1 hb
      rfl
    have hentry : ∃ e ∈ n.walAt (.message src (.proposal viewNumber (some pb))), e.Holds ⟨viewNumber, b⟩ := by
      refine ⟨⟨xb.height.toUInt64, pb.height.toUInt64, viewNumber, pb⟩, ?_, congrArg Int64.toUInt64 hheight, rfl, hb⟩
      simp only [walAt, hx, List.mem_append, List.mem_singleton, or_true]
    obtain ⟨e, he, hholds⟩ := hentry
    constructor
    · rw [hcore]
      rcases Core.step_votes env.toEnv (n.core.touch n.core.execQC.blockHash) (.receive ⟨viewNumber, b⟩) with
        hv | ⟨prop, vote, hop, hview, hhash, hv⟩ | ⟨curView, parentHash, cmds, now, parent, hop, -⟩
      · exact Or.inl hv
      · obtain rfl : prop = ⟨viewNumber, b⟩ := by
          rcases hop with hop | ⟨i, hop, -⟩
          · exact (CoreOp.receive.inj hop).symm
          · cases hop
        exact Or.inr ⟨_, hv, e, he, hholds.records hview hhash⟩
      · cases hop
    · intro p hp
      rw [hcore] at hp
      rcases Core.pending_step env.toEnv _ _ hp with hp | hop
      · exact Or.inl hp
      · obtain rfl := (CoreOp.receive.inj hop).symm
        exact Or.inr ⟨e, he, hholds⟩

/-- Only a proposal that arrives begins to wait. -/
private theorem pending_of_core {env : NodeEnv} {n n' : Node} {op : CoreOp} (hcore : n'.core = n.core.step env.toEnv op)
    (hop : ∀ prop, op ≠ .receive prop) {p : Proposal} (hp : p ∈ n'.core.waiting ++ n'.core.woken) :
    p ∈ n.core.waiting ++ n.core.woken := by
  rw [hcore] at hp
  exact (Core.pending_step env.toEnv _ _ hp).resolve_right (hop p)

private theorem step_logged {env : NodeEnv} {n : Node} {a : Action} (h : n.PendingLogged) (hg : n.NoOwnProposal env a) :
    StepLogged n a (n.step env a) := by
  cases step_moves (permits_minorCall env n a) with
  | minor m =>
    obtain ⟨ops, hcore, hops⟩ := m.core
    obtain ⟨hvotes, hpending⟩ := minor_run hops n.core
    rw [← hcore] at hvotes hpending
    exact ⟨Or.inl hvotes, fun p hp => Or.inl (hpending p hp)⟩
  | main hop hlead hcore m =>
    cases hop with
    | receive ha hb =>
      subst ha
      exact step_logged_receive hb hcore
    | @resume i ha =>
      subst ha
      constructor
      · rw [hcore]
        rcases Core.step_votes env.toEnv n.core (.resume i) with
          hv | ⟨prop, vote, hop, hview, hhash, hv⟩ | ⟨curView, parentHash, cmds, now, parent, hop, -⟩
        · exact Or.inl hv
        · rcases hop with hop | ⟨j, hop, hi⟩
          · cases hop
          · obtain rfl := CoreOp.resume.inj hop
            obtain ⟨e, he, hholds⟩ := h prop (List.mem_append_right _ (List.mem_of_getElem? hi))
            exact Or.inr ⟨_, hv, e, he, hholds.records hview hhash⟩
        · cases hop
      · exact fun p hp => Or.inl (pending_of_core hcore nofun hp)
    | @propose i conn now cmds rest ha hi hs =>
      subst ha
      constructor
      · rw [hcore]
        rcases Core.step_votes env.toEnv n.core (.propose n.curView n.core.genericQC.blockHash cmds now) with
          hv | ⟨prop, vote, hop, -⟩ | ⟨curView, parentHash, cmds', now', parent, hop, hl, hh⟩
        · exact Or.inl hv
        · rcases hop with hop | ⟨j, hop, -⟩ <;> cases hop
        · -- the test of the height stops `OnPropose`
          injection hop with _ hparent
          rw [← hparent] at hl
          have hbeat : n.beatCmds i ≠ none := by
            rw [beatCmds_eq hi hs]
            exact nofun
          exact absurd (hg hbeat (hlead _ _ _ _ rfl) parent hl) (Int64.not_le.2 hh)
      · exact fun p hp => Or.inl (pending_of_core hcore nofun hp)

theorem PendingLogged.step {env : NodeEnv} {n : Node} (h : n.PendingLogged) {a : Action}
    (hg : n.NoOwnProposal env a) : (n.step env a).PendingLogged := by
  intro p hp
  have hsub := (wal_prefix_step env n a).subset
  have hwal := wal_step env n a
  rcases (step_logged h hg).pending p hp with hold | ⟨e, he, hholds⟩
  · obtain ⟨e, he, hholds⟩ := h p hold
    exact ⟨e, hsub he, hholds⟩
  · split at hwal
    · -- nothing happens after a crash
      rename_i hcrash
      rw [show n.step env a = n by simp only [Node.step, hcrash, ↓reduceIte]] at hp ⊢
      exact h p hp
    · rw [hwal]
      exact ⟨e, he, hholds⟩

private theorem pendingLogged_newNode : newNode.PendingLogged := nofun

end Node

/-- A vote that an action makes is for a proposal whose entry is in the log when the core is called, with the block's height
as its index and the proposal as its data, and stays there, in every run in which no own proposal is voted for. -/
theorem vote_logged (env : NodeEnv) (as : List Action) (a : Action) (n : Node) (hn : n = run (Node.step env) newNode as)
    (hguard : StepsMeet (Node.step env) (Node.NoOwnProposal env) newNode (as ++ [a])) (c : CastVote)
    (hc : c ∈ (n.step env a).core.votes.drop n.core.votes.length) :
    ∃ e ∈ n.walAt a, e.Records c ∧ ∀ later, e ∈ (run (Node.step env) (n.step env a) later).wal := by
  subst hn
  obtain ⟨has, ha, -⟩ := Lib.stepsMeet_append.1 hguard
  have hlogged : (run (Node.step env) newNode as).PendingLogged :=
    has.invariant (fun _ _ h hg => h.step hg) Node.pendingLogged_newNode
  generalize run (Node.step env) newNode as = n at hc ha hlogged ⊢
  rcases (Node.step_logged hlogged ha).votes with hv | ⟨d, hv, e, he, hrec⟩
  · rw [hv, List.drop_length] at hc
    cases hc
  · rw [hv, List.drop_left, List.mem_singleton] at hc
    subst hc
    refine ⟨e, he, hrec, fun later => (Node.wal_prefix_run env _ later).subset ?_⟩
    -- a replica that has crashed does not vote
    rw [Node.wal_step]
    split
    · rename_i hcrash
      have hsame : n.step env a = n := by simp only [Node.step, hcrash, ↓reduceIte]
      rw [hsame] at hv
      have hlen := congrArg List.length hv
      rw [List.length_append, List.length_singleton] at hlen
      omega
    · exact he

/-- Replica `3` votes for the first block of the chain. -/
theorem vote_logged_server :
    ∃ e ∈ newNode.walAt (.message 0 (.proposal 0 (some (Server.chain 1).toPb))),
      e.Records ⟨1, ⟨0, 3, (Server.chain 1).selfQc.blockHash, ⟨3, Server.sign 3 (Server.chain 1).selfQc.blockHash⟩⟩⟩ ∧
      ∀ later, e ∈ (run (Node.step (Server.netEnv.node 3)) (newNode.step (Server.netEnv.node 3)
        (.message 0 (.proposal 0 (some (Server.chain 1).toPb)))) later).wal :=
  vote_logged (Server.netEnv.node 3) [] (.message 0 (.proposal 0 (some (Server.chain 1).toPb))) newNode rfl
    (by decide +kernel)
    ⟨1, ⟨0, 3, (Server.chain 1).selfQc.blockHash, ⟨3, Server.sign 3 (Server.chain 1).selfQc.blockHash⟩⟩⟩
    (by decide +kernel)

/-- Replica `0` votes for the block it has made at height `1`, with an empty log. -/
theorem vote_not_logged :
    (run (Node.step (Server.netEnv.node 0)) newNode Server.proposingRun).core.votes =
      [⟨1, ⟨0, 0, (Server.chain 1).selfQc.blockHash, ⟨0, Server.sign 0 (Server.chain 1).selfQc.blockHash⟩⟩⟩] ∧
    (run (Node.step (Server.netEnv.node 0)) newNode Server.proposingRun).wal.length = 0 := by
  decide +kernel

end GoHotstuff
