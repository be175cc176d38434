import GoHotstuff.BlockTree

/-!
# Messages that end the process

A handler runs in a goroutine of its own, so a nil pointer it dereferences ends the process.  Three things do it, all
in the handling of a proposal (`handleMessage_crashed`): the block has no `SelfQc`, it has no `Justify`, or the block
that `execQC` names is no longer in the cache and `handleProposal` reads the height of what `LoadBlock` did not find.
None of them is checked.  The other handlers reject what they cannot use, and a proposal's handler that waited in
`AsyncWaitBlock` has a `Justify` (`PendingJustified`), so that it does not crash either when it goes on.
-/

namespace GoHotstuff

open Lib (Bytes run)

namespace Core

/-! ### The methods of the core that dereference nothing unchecked -/

@[simp, grind =]
theorem crashed_touch (s : Core) (hash : Bytes) : (s.touch hash).crashed = s.crashed := rfl

@[simp, grind =]
theorem crashed_storeBlock (s : Core) (b : Block) : (s.storeBlock b).crashed = s.crashed := rfl

@[simp, grind =]
theorem crashed_setSigns (s : Core) (obj : Nat) (signs : Signs) : (s.setSigns obj signs).crashed = s.crashed := rfl

@[simp, grind =]
theorem crashed_notify (s : Core) (e : Event) : (s.notify e).crashed = s.crashed := rfl

@[simp, grind =]
theorem crashed_setVoteHeight (s : Core) (height : Int64) : (s.setVoteHeight height).crashed = s.crashed := rfl

@[simp, grind =]
theorem crashed_broadcast (s : Core) : s.broadcast.crashed = s.crashed := rfl

@[simp, grind =]
theorem crashed_getJustifyBlock (s : Core) (b : Block) : (s.getJustifyBlock b).2.crashed = s.crashed := by
  unfold getJustifyBlock loadBlock
  grind

private theorem crashed_of_getJustifyBlock {s s' : Core} {b : Block} {r : Except CoreError (QuorumCert × Block)}
    (h : s.getJustifyBlock b = (r, s')) : s'.crashed = s.crashed := by
  rw [← crashed_getJustifyBlock s b, h]

@[simp, grind =]
theorem crashed_updateHighestQC (env : Env) (s : Core) (b : Block) (qc : QuorumCert) (obj : Option Nat) :
    (s.updateHighestQC env b qc obj).crashed = s.crashed := by
  unfold updateHighestQC loadBlock
  grind

@[simp, grind =]
theorem crashed_updateLockedQC (s : Core) (b : Block) (qc : QuorumCert) :
    (s.updateLockedQC b qc).crashed = s.crashed := by
  unfold updateLockedQC loadBlock
  grind

@[simp, grind =]
theorem crashed_decideLoop (s : Core) (i : Nat) (hash : Bytes) : (s.decideLoop i hash).2.crashed = s.crashed := by
  induction i generalizing s hash with
  | zero => rfl
  | succ i ih =>
    unfold decideLoop loadBlock
    grind

@[simp, grind =]
theorem crashed_decidePhase (s : Core) (qc : QuorumCert) (b0 : Block) :
    (s.decidePhase qc b0).2.crashed = s.crashed := by
  unfold decidePhase loadBlock
  grind

@[simp, grind =]
theorem crashed_update (env : Env) (s : Core) (b : Block) : (s.update env b).2.crashed = s.crashed := by
  unfold update
  -- one split for each of the three phases
  split
  · rename_i h2
    exact crashed_of_getJustifyBlock h2
  · rename_i h2
    have h2 := crashed_of_getJustifyBlock h2
    dsimp only
    split
    · rename_i h1
      have h1 := crashed_of_getJustifyBlock h1
      rw [h1, crashed_updateHighestQC, h2]
    · rename_i h1
      have h1 := crashed_of_getJustifyBlock h1
      rw [crashed_updateHighestQC, h2] at h1
      split
      · rename_i h0
        rw [crashed_of_getJustifyBlock h0, crashed_updateLockedQC, h1]
      · rename_i h0
        have h0 := crashed_of_getJustifyBlock h0
        rw [crashed_updateLockedQC, h1] at h0
        split
        · rw [crashed_decidePhase, h0]
        · exact h0

@[simp, grind =]
theorem crashed_voteProposal (env : Env) (s : Core) (viewNumber height : Int64) (hash : Bytes) :
    (s.voteProposal env viewNumber height hash).2.crashed = s.crashed := by
  unfold voteProposal createPartCert
  grind

@[simp, grind =]
theorem crashed_addVoteMsg (s : Core) (vote : Vote) : (s.addVoteMsg vote).crashed = s.crashed := by
  rw [addVoteMsg_eq]

@[simp, grind =]
theorem crashed_applyVotes (s : Core) (hash : Bytes) (signs : Signs) :
    (s.applyVotes hash signs).2.crashed = s.crashed := by
  unfold applyVotes
  grind

@[simp, grind =]
theorem crashed_onProposalVote (env : Env) (s : Core) (vote : Vote) :
    (s.onProposalVote env vote).2.crashed = s.crashed := by
  unfold onProposalVote
  grind

@[simp, grind =]
theorem crashed_walkParents (s : Core) (i : Nat) (b : Block) : (s.walkParents i b).2.crashed = s.crashed := by
  induction i generalizing s b with
  | zero => rfl
  | succ i ih =>
    unfold walkParents loadBlock
    grind

@[simp, grind =]
theorem crashed_checkVote (s : Core) (b : Block) : (s.checkVote b).2.crashed = s.crashed := by
  unfold checkVote loadBlock
  split
  · split <;> grind
  · rfl

@[simp, grind =]
theorem crashed_processProposal (env : Env) (s : Core) (prop : Proposal) :
    (s.processProposal env prop).2.crashed = s.crashed := by
  unfold processProposal
  split
  · grind
  · split <;> grind

/-! ### The two that do -/

private theorem crashed_onReceiveProposal (env : Env) (s : Core) (prop : Proposal) :
    (s.onReceiveProposal env prop).2.crashed = (s.crashed || prop.block.justify.isNone) := by
  unfold onReceiveProposal loadBlock
  cases prop.block.justify with
  | none => simp [crash]
  | some qc =>
    dsimp only
    cases (s.storeBlock prop.block).broadcast.load qc.blockHash with
    | none => simp
    | some b => simp

/-- A proposal whose handler waits, or has been woken, carries a `Justify`. -/
def PendingJustified (s : Core) : Prop := ∀ p ∈ s.waiting ++ s.woken, p.block.justify ≠ none

theorem PendingJustified.step {s : Core} (h : s.PendingJustified) (env : Env) (op : CoreOp) :
    (s.step env op).PendingJustified := by
  intro p hp hnone
  rcases pending_step env s op hp with hold | rfl
  · exact h p hold hnone
  · -- a proposal without `Justify` crashes the process and waits for nothing
    have hstep : s.step env (.receive p) = (s.storeBlock p.block).broadcast.crash := by
      simp only [Core.step, onReceiveProposal, hnone]
    rw [hstep] at hp
    have hmem : p ∈ s.woken ++ s.waiting := hp
    rw [List.mem_append, or_comm, ← List.mem_append] at hmem
    exact h p hmem hnone

private theorem PendingJustified.run {env : Env} {s : Core} (h : s.PendingJustified) (ops : List CoreOp) :
    (Lib.run (Core.step env) s ops).PendingJustified := by
  induction ops generalizing s with
  | nil => exact h
  | cons op ops ih => exact ih (h.step env op)

private theorem crashed_resumeProposal {s : Core} (h : s.PendingJustified) (env : Env) (i : Nat) :
    (s.resumeProposal env i).2.crashed = s.crashed := by
  unfold resumeProposal
  cases hi : s.woken[i]? with
  | none => rfl
  | some p =>
    dsimp only
    cases hj : p.block.justify with
    | none => exact absurd hj (h p (List.mem_append_right _ (List.mem_of_getElem? hi)))
    | some qc =>
      simp only [loadBlock]
      split
      · grind
      · grind

end Core

namespace Node

private theorem pendingJustified_step {env : NodeEnv} {n : Node} (h : n.core.PendingJustified) (a : Action) :
    (n.step env a).core.PendingJustified := by
  obtain ⟨ops, hcore⟩ := core_step env n a
  rw [hcore]
  exact h.run ops

private theorem pendingJustified_run (env : NodeEnv) (as : List Action) :
    (run (step env) newNode as).core.PendingJustified := by
  induction as using List.reverseRecOn with
  | nil =>
    intro p hp
    cases hp
  | append_singleton as a ih =>
    rw [Lib.run_append]
    exact pendingJustified_step ih a

/-- What a message must be like: the block of a proposal has both certificates, and the last executed block is in the
cache when it arrives. -/
def Handles (n : Node) : Pb.Message → Prop
  | .proposal _ (some pb) => pb.selfQc.isSome ∧ pb.justify.isSome ∧ (n.core.load n.core.execQC.blockHash).isSome
  | _ => True

private theorem handleProposal_crashed (env : NodeEnv) (n : Node) (viewNumber : Int64) (pb : Pb.Block) :
    (n.handleProposal env viewNumber (some pb)).core.crashed =
      (n.core.crashed || !((n.core.load n.core.execQC.blockHash).isSome && pb.selfQc.isSome && pb.justify.isSome)) := by
  unfold handleProposal
  simp only [Core.loadBlock]
  cases n.core.load n.core.execQC.blockHash with
  | none => simp [Core.crash]
  | some execBlock =>
    cases hq : pb.selfQc with
    | none => simp [Pb.Block.toBlock?, hq, crash, Core.crash]
    | some selfQc =>
      simp only [Pb.Block.toBlock?, hq, Option.map_some, withCore, Core.crashed_onReceiveProposal, Core.crashed_touch]
      cases pb.justify <;> simp

/-- A replica that runs is brought down by a message exactly when the message is a proposal it cannot handle. -/
theorem handleMessage_crashed {env : NodeEnv} {n : Node} (hc : n.core.crashed = false) (src : Int64)
    (msg : Pb.Message) : (n.handleMessage env src msg).core.crashed = true ↔ ¬ n.Handles msg := by
  cases msg with
  | proposal viewNumber block =>
    cases block with
    | none => simp [handleMessage, handleProposal, Handles, hc]
    | some pb =>
      show (n.handleProposal env viewNumber (some pb)).core.crashed = true ↔ _
      rw [handleProposal_crashed, hc]
      simp only [Handles, Bool.false_or, Bool.not_eq_true', Bool.and_eq_false_iff, not_and_or, Bool.not_eq_true]
      tauto
  | viewChange data signature =>
    simp only [handleMessage, handleViewChange, Handles, not_true_eq_false, iff_false, Bool.not_eq_true]
    split
    · split
      · exact hc
      · split
        · exact hc
        · exact hc
    · exact hc
  | vote viewNumber voter blockHash cert =>
    simp only [handleMessage, handleVote, Handles, not_true_eq_false, iff_false, Bool.not_eq_true]
    split
    · exact hc
    split
    · exact hc
    split
    · split
      · exact hc
      split
      · exact hc
      · simpa [withCore] using hc
    · exact hc
  | forward data => simpa [handleMessage, handleForward, spawn, Handles] using hc
  | unset => simpa [handleMessage, Handles] using hc

end Node

/-- In every reachable state of a replica that runs, exactly the messages it can handle do not bring it down; nor does the
rest of a proposal's handler that had to wait. -/
theorem handlers_complete (env : NodeEnv) (as : List Action) (n : Node) (hn : n = run (Node.step env) newNode as)
    (hc : n.core.crashed = false) :
    (∀ src msg, (n.handleMessage env src msg).core.crashed = false ↔ n.Handles msg) ∧
    ∀ i, (n.core.resumeProposal env.toEnv i).2.crashed = false := by
  constructor
  · intro src msg
    rw [← Bool.not_eq_true, Node.handleMessage_crashed hc, not_not]
  · intro i
    rw [hn] at hc ⊢
    rw [Core.crashed_resumeProposal (Node.pendingJustified_run env as), hc]

theorem handlers_complete_server :
    (Node.handleMessage (Server.netEnv.node 0) newNode 1 (.proposal 0 (some (Server.chain 1).toPb))).core.crashed =
      false :=
  ((handlers_complete (Server.netEnv.node 0) [] newNode rfl rfl).1 1 _).2 ⟨rfl, rfl, by decide +kernel⟩

/-- A proposal with an empty block brings the replica down. -/
theorem empty_block_crashes :
    (Node.handleMessage (Server.netEnv.node 0) newNode 1
      (.proposal 0 (some ⟨[], [], 0, 0, 0, none, none⟩))).core.crashed = true := by
  decide +kernel

end GoHotstuff
