import GoHotstuff.Handlers
import GoHotstuff.Network

/-!
# Where votes go

A replica's vote is made in the core with the proposal's view number, and the receiver of a vote accepts it if it is the
leader that `GetLeader` gives for that number.  The pacemaker chooses the receiver from the proposal's `ViewNumber`,
which its `OnReceiveProposal` overwrites whenever it skips a leader that is not connected (`skips` counts the skipped
ones, `onReceiveProposal_of_skips` is the whole recursion).  Without a skip the two agree.  With a skip the vote goes to the
leader of a later view and still carries the old number, and the receiver rejects it (`vote_misrouted`), unless the two
views have the same leader, which happens for stale proposals (`vote_routing`).
-/

namespace GoHotstuff

open Lib (Bytes run)

namespace Node

/-- A vote that waits to be handed over is the replica's own and has the view number of its proposal. -/
def OwnVote (env : NodeEnv) (e : Event) : Prop :=
  ∀ prop vote, e = .receiveProposal prop vote → vote.viewNumber = prop.viewNumber ∧ vote.voter = env.id

private theorem ownVote_run (env : NodeEnv) (as : List Action) {prop : Proposal} {vote : Vote}
    (h : Task.event (.receiveProposal prop vote) ∈ (run (step env) newNode as).tasks) :
    vote.viewNumber = prop.viewNumber ∧ vote.voter = env.id := by
  refine (events_run env (Q := OwnVote env) (fun s op => ?_) as).2 _ h prop vote rfl
  refine Core.step_notifies_of ⟨nofun, nofun⟩ (fun _ _ _ _ _ _ => nofun) (fun _ _ _ _ _ _ _ _ _ => nofun) ?_
    (fun _ _ => nofun)
  intro prop k sig _ prop' vote' heq
  obtain ⟨rfl, rfl⟩ := Event.receiveProposal.inj heq
  exact ⟨rfl, rfl⟩

/-- The leader of the view in which the replica handles the proposal is the replica itself or connected to it. -/
def LeaderReachable (env : NodeEnv) (conn : Nat → Int64 → Bool) (n : Node) (viewNumber : Int64) : Prop :=
  getLeader env (n.updateQcHigh viewNumber).curView = env.id ∨
    conn (depth env - 1) (getLeader env (n.updateQcHigh viewNumber).curView) = true

instance (env : NodeEnv) (conn : Nat → Int64 → Bool) (n : Node) (viewNumber : Int64) :
    Decidable (n.LeaderReachable env conn viewNumber) :=
  inferInstanceAs (Decidable (_ ∨ _))

private theorem curView_updateQcHigh (n : Node) (viewNumber : Int64) :
    (n.updateQcHigh viewNumber).curView = if viewNumber > n.curView then viewNumber else n.curView := by
  unfold updateQcHigh
  split <;> rfl

private theorem updateQcHigh_frame (n : Node) (viewNumber : Int64) :
    (n.updateQcHigh viewNumber).core = n.core ∧ (n.updateQcHigh viewNumber).sent = n.sent := by
  unfold updateQcHigh
  split <;> exact ⟨rfl, rfl⟩

theorem updateQcHigh_of_le {n : Node} {viewNumber : Int64} (h : viewNumber ≤ n.curView) :
    n.updateQcHigh viewNumber = n := if_neg (Int64.not_lt.2 h)

/-! ### The recursion over disconnected leaders -/

/-- How many leaders from the one behind `view` on are skipped; `none` if none of the next `k` ends the recursion. -/
def skips (env : NodeEnv) (conn : Nat → Int64 → Bool) : Nat → Int64 → Option Nat
  | 0, _ => none
  | k + 1, view =>
    if getLeader env view = env.id ∨ conn k (getLeader env view) = true then some 0
    else (skips env conn k (view + 1)).map fun j => j + 1

theorem skips_succ_of_pos {env : NodeEnv} {conn : Nat → Int64 → Bool} {k : Nat} {view : Int64}
    (h : getLeader env view = env.id ∨ conn k (getLeader env view) = true) :
    skips env conn (k + 1) view = some 0 := if_pos h

theorem skips_succ_of_neg {env : NodeEnv} {conn : Nat → Int64 → Bool} {k : Nat} {view : Int64}
    (h : ¬ (getLeader env view = env.id ∨ conn k (getLeader env view) = true)) :
    skips env conn (k + 1) view = (skips env conn k (view + 1)).map fun j => j + 1 := if_neg h

private theorem crashed_handOver (env : NodeEnv) (n : Node) (viewNumber : Int64) (vote : Vote) :
    (n.handOver env viewNumber vote).core.crashed = n.core.crashed := by
  unfold handOver
  dsimp only
  split
  · rfl
  · exact Core.crashed_onProposalVote _ _ _

/-- The number that the proposal of `viewNumber` has behind the recursion from the view `view` on, which skips `j` leaders. -/
def routedView (viewNumber view : Int64) (j : Nat) : Int64 := if j = 0 then viewNumber else view + .ofNat j

private theorem routedView_succ (viewNumber view : Int64) (j : Nat) :
    routedView viewNumber view (j + 1) = routedView (view + 1) (view + 1) j := by
  have hsucc : view + Int64.ofNat (j + 1) = view + 1 + Int64.ofNat j := by
    rw [Int64.ofNat_add, Int64.add_comm (Int64.ofNat j), Int64.add_assoc]
    rfl
  unfold routedView
  rw [if_neg (Nat.succ_ne_zero j), hsucc]
  split
  · rename_i h0
    rw [h0]
    exact Int64.add_zero _
  · rfl

/-- The whole recursion: the vote is handed over behind every call, always under the view number of the last one. -/
theorem onReceiveProposal_of_skips {env : NodeEnv} {conn : Nat → Int64 → Bool} {k j : Nat} {n : Node}
    {viewNumber : Int64} (hc : n.core.crashed = false)
    (h : skips env conn k (n.updateQcHigh viewNumber).curView = some j) (vote : Vote) {w : Int64}
    (hw : w = routedView viewNumber (n.updateQcHigh viewNumber).curView j) :
    ∃ m : Node, m.core = n.core ∧ m.sent = n.sent ∧
      onReceiveProposal env conn k n viewNumber vote = (w, (fun m => m.handOver env w vote)^[j + 1] m) := by
  induction k generalizing n viewNumber j with
  | zero => cases h
  | succ k ih =>
    obtain ⟨hcore, hsent⟩ := updateQcHigh_frame n viewNumber
    unfold onReceiveProposal
    dsimp only
    by_cases hend : getLeader env (n.updateQcHigh viewNumber).curView = env.id ∨
        conn k (getLeader env (n.updateQcHigh viewNumber).curView) = true
    · -- no recursive call, and one hand-over
      rw [skips_succ_of_pos hend] at h
      obtain rfl := Option.some.inj h
      have hc' : (n.updateQcHigh viewNumber).core.crashed = false := by rw [hcore, hc]
      by_cases hown : getLeader env (n.updateQcHigh viewNumber).curView = env.id
      · refine ⟨(n.updateQcHigh viewNumber).stopNewViewTimer, hcore, hsent, ?_⟩
        rw [if_neg (not_not_intro hown), hw]
        exact if_neg (by simp [stopNewViewTimer, hc'])
      · refine ⟨n.updateQcHigh viewNumber, hcore, hsent, ?_⟩
        rw [if_pos hown, if_neg (not_not_intro (hend.resolve_left hown)), hw]
        exact if_neg (by simp [hc'])
    · rw [skips_succ_of_neg hend] at h
      obtain ⟨j', hj', rfl⟩ := Option.map_eq_some_iff.1 h
      rw [not_or] at hend
      rw [if_pos hend.1, if_pos hend.2]
      -- the recursive call is made in the next view, with the next view number
      obtain ⟨n1, hn1⟩ : ∃ n1, n1 = { n.updateQcHigh viewNumber with curView := (n.updateQcHigh viewNumber).curView + 1 } :=
        ⟨_, rfl⟩
      have hcur : n1.curView = (n.updateQcHigh viewNumber).curView + 1 := by rw [hn1]
      rw [← hn1, ← hcur]
      rw [← hcur] at hj'
      have hcore1 : n1.core = n.core := by rw [hn1, hcore]
      have hsent1 : n1.sent = n.sent := by rw [hn1, hsent]
      have hskips1 : skips env conn k (n1.updateQcHigh n1.curView).curView = some j' := by
        rw [updateQcHigh_of_le (Int64.le_refl _)]
        exact hj'
      have hw1 : w = routedView n1.curView (n1.updateQcHigh n1.curView).curView j' := by
        rw [hw, routedView_succ, updateQcHigh_of_le (Int64.le_refl _), hcur]
      obtain ⟨m, hm, hms, heq⟩ := ih (by rw [hcore1, hc]) hskips1 hw1
      refine ⟨m, hm.trans hcore1, hms.trans hsent1, ?_⟩
      have hcm : ∀ i, ((fun m : Node => m.handOver env w vote)^[i] m).core.crashed = false := by
        intro i
        induction i with
        | zero => exact (congrArg Core.crashed (hm.trans hcore1)).trans hc
        | succ i ih' =>
          rw [Function.iterate_succ_apply', crashed_handOver]
          exact ih'
      rw [heq]
      dsimp only
      rw [hcm, Function.iterate_succ_apply' _ (j' + 1)]
      rfl

/-- No leader is skipped. -/
theorem skips_eq_zero_iff {env : NodeEnv} {conn : Nat → Int64 → Bool} {n : Node} {viewNumber : Int64} (hN : 0 < depth env) :
    skips env conn (depth env) (n.updateQcHigh viewNumber).curView = some 0 ↔ n.LeaderReachable env conn viewNumber := by
  obtain ⟨k, hk⟩ : ∃ k, depth env = k + 1 := ⟨depth env - 1, by omega⟩
  unfold LeaderReachable
  rw [hk, Nat.add_sub_cancel, skips]
  split
  · rename_i h
    exact iff_of_true rfl h
  · rename_i h
    simp [h]

/-- No leader is skipped, so the vote is handed over once and for the proposal's own view number. -/
theorem onReceiveProposal_of_reachable {env : NodeEnv} {conn : Nat → Int64 → Bool} {n : Node} {viewNumber : Int64}
    (hN : 0 < depth env) (hc : n.core.crashed = false) (h : n.LeaderReachable env conn viewNumber) (vote : Vote) :
    ∃ m : Node, m.core = n.core ∧ m.sent = n.sent ∧
      onReceiveProposal env conn (depth env) n viewNumber vote = (viewNumber, m.handOver env viewNumber vote) := by
  exact onReceiveProposal_of_skips hc ((skips_eq_zero_iff hN).2 h) vote rfl

/-! ### The effect of one hand-over -/

/-- The vote is sent to the leader, or counted by the replica that is the leader itself. -/
theorem handOver_cases (env : NodeEnv) (m : Node) (viewNumber : Int64) (vote : Vote) :
    (getLeader env viewNumber ≠ env.id ∧
      (m.handOver env viewNumber vote).sent = m.sent ++ [⟨some (getLeader env viewNumber), vote.toPb⟩] ∧
      (m.handOver env viewNumber vote).core = m.core) ∨
    (getLeader env viewNumber = env.id ∧ (m.handOver env viewNumber vote).sent = m.sent ∧
      (m.handOver env viewNumber vote).core = (m.core.onProposalVote env.toEnv vote).2) := by
  unfold handOver
  by_cases hown : getLeader env viewNumber = env.id
  · rw [if_neg (not_not_intro hown)]
    exact .inr ⟨hown, rfl, rfl⟩
  · rw [if_pos hown]
    exact .inl ⟨hown, rfl, rfl⟩

private theorem iterate_handOver (env : NodeEnv) (m : Node) (viewNumber : Int64) (vote : Vote) (k : Nat) :
    (getLeader env viewNumber ≠ env.id ∧
      ((fun m => m.handOver env viewNumber vote)^[k] m).sent =
        m.sent ++ List.replicate k ⟨some (getLeader env viewNumber), vote.toPb⟩ ∧
      ((fun m => m.handOver env viewNumber vote)^[k] m).core = m.core) ∨
    (getLeader env viewNumber = env.id ∧ ((fun m => m.handOver env viewNumber vote)^[k] m).sent = m.sent ∧
      ((fun m => m.handOver env viewNumber vote)^[k] m).core =
        (fun core => (core.onProposalVote env.toEnv vote).2)^[k] m.core) := by
  induction k with
  | zero =>
    by_cases hown : getLeader env viewNumber = env.id
    · exact .inr ⟨hown, rfl, rfl⟩
    · exact .inl ⟨hown, by simp, rfl⟩
  | succ k ih =>
    rw [Function.iterate_succ_apply', Function.iterate_succ_apply']
    rcases ih with ⟨hother, hsent, hcore⟩ | ⟨hown, hsent, hcore⟩
    · obtain ⟨-, hsent', hcore'⟩ | ⟨hown, -⟩ := handOver_cases env ((fun m => m.handOver env viewNumber vote)^[k] m)
        viewNumber vote
      · refine .inl ⟨hother, ?_, hcore'.trans hcore⟩
        rw [hsent', hsent, List.append_assoc, List.replicate_succ']
      · exact absurd hown hother
    · obtain ⟨hother, -⟩ | ⟨-, hsent', hcore'⟩ := handOver_cases env ((fun m => m.handOver env viewNumber vote)^[k] m)
        viewNumber vote
      · exact absurd hown hother
      · refine .inr ⟨hown, hsent'.trans hsent, ?_⟩
        rw [hcore', hcore]

private theorem handOver_step {env : NodeEnv} {conn : Nat → Int64 → Bool} {n : Node} {i j : Nat} {prop : Proposal}
    {vote : Vote} (hc : n.core.crashed = false) (ht : n.tasks[i]? = some (.event (.receiveProposal prop vote)))
    (hj : skips env conn (depth env) (n.updateQcHigh prop.viewNumber).curView = some j) (now : Int64) {L : Int64}
    (hL : L = getLeader env (routedView prop.viewNumber (n.updateQcHigh prop.viewNumber).curView j)) :
    (L ≠ env.id ∧
      (n.step env (.task i conn now)).sent = n.sent ++ List.replicate (j + 1) ⟨some L, vote.toPb⟩ ∧
      (n.step env (.task i conn now)).core = n.core) ∨
    (L = env.id ∧ (n.step env (.task i conn now)).sent = n.sent ∧
      (n.step env (.task i conn now)).core = (fun core => (core.onProposalVote env.toEnv vote).2)^[j + 1] n.core) := by
  have hcur : (updateQcHigh { n with tasks := n.tasks.eraseIdx i } prop.viewNumber).curView =
      (n.updateQcHigh prop.viewNumber).curView := by
    rw [curView_updateQcHigh, curView_updateQcHigh]
  rw [← hcur] at hj hL
  obtain ⟨m, hcore, hsent, heq⟩ := onReceiveProposal_of_skips (n := { n with tasks := n.tasks.eraseIdx i }) hc hj vote rfl
  have hcases := iterate_handOver env m (routedView prop.viewNumber
    (updateQcHigh { n with tasks := n.tasks.eraseIdx i } prop.viewNumber).curView j) vote (j + 1)
  have hstep : n.step env (.task i conn now) = (onReceiveProposal env conn (depth env)
      { n with tasks := n.tasks.eraseIdx i } prop.viewNumber vote).2 := by
    simp only [step, hc, Bool.false_eq_true, if_false, act, ht, runTask, executeEvent]
  rw [heq] at hstep
  rw [hcore, hsent, ← hL] at hcases
  rw [hstep]
  exact hcases

/-- A vote with a signature that verifies is counted by the replica that `GetLeader` gives for its view number. -/
theorem handleMessage_vote {env : NodeEnv} {vote : Vote} (hleader : getLeader env vote.viewNumber = env.id)
    (hhash : vote.blockHash ≠ [])
    (hsign : env.replicas.verifyIdentity vote.voter vote.cert.signature vote.blockHash = true) (m : Node) :
    m.handleMessage env vote.voter vote.toPb = m.withCore (m.core.onProposalVote env.toEnv vote).2 := by
  have hlen : vote.blockHash.length ≠ 0 := fun h => hhash (List.length_eq_zero_iff.1 h)
  simp [handleMessage, Vote.toPb, handleVote, hlen, hsign, hleader]

end Node

/-- A vote is handed over behind `j` skipped leaders, once for each call, to one replica `L`.  This is the leader for the
vote's own view number, whatever the replica's view, exactly when no leader has to be skipped, or the skips of a stale
proposal end at the right leader again; and then `L` counts the vote if its signature verifies. -/
theorem vote_routing (E : NetEnv) (hN : 0 < E.replicas.metadata.n) (id : Int64) (as : List Action) (n : Node)
    (hn : n = run (Node.step (E.node id)) newNode as) (hc : n.core.crashed = false) (i : Nat)
    (conn : Nat → Int64 → Bool) (now : Int64) (prop : Proposal) (vote : Vote)
    (ht : n.tasks[i]? = some (.event (.receiveProposal prop vote))) (j : Nat)
    (hj : Node.skips (E.node id) conn (Node.depth (E.node id)) (n.updateQcHigh prop.viewNumber).curView = some j) :
    ∃ L, (Node.getLeader (E.node L) vote.viewNumber = L ↔
        n.LeaderReachable (E.node id) conn prop.viewNumber ∨
          Node.getLeader (E.node id) ((n.updateQcHigh prop.viewNumber).curView + .ofNat j) =
            Node.getLeader (E.node id) prop.viewNumber) ∧
      (n.LeaderReachable (E.node id) conn prop.viewNumber ↔ j = 0) ∧
      ((L ≠ id ∧ (n.step (E.node id) (.task i conn now)).sent =
            n.sent ++ List.replicate (j + 1) ⟨some L, vote.toPb⟩ ∧
          (n.step (E.node id) (.task i conn now)).core = n.core) ∨
        (L = id ∧ (n.step (E.node id) (.task i conn now)).sent = n.sent ∧
          (n.step (E.node id) (.task i conn now)).core =
            (fun core => (core.onProposalVote (E.node id).toEnv vote).2)^[j + 1] n.core)) ∧
      (Node.getLeader (E.node L) vote.viewNumber = L → vote.blockHash ≠ [] →
        E.replicas.verifyIdentity id vote.cert.signature vote.blockHash = true →
        ∀ m : Node, m.handleMessage (E.node L) id vote.toPb =
          m.withCore (m.core.onProposalVote (E.node L).toEnv vote).2) := by
  subst hn
  obtain ⟨hview, hvoter⟩ := Node.ownVote_run (E.node id) as (List.mem_of_getElem? ht)
  have hdepth : 0 < Node.depth (E.node id) := by
    have h := Int64.lt_iff_toInt_lt.1 hN
    have h' : E.replicas.metadata.n.toInt.toNat = Node.depth (E.node id) := rfl
    rw [Int64.toInt_zero] at h
    omega
  have hreach : (run (Node.step (E.node id)) newNode as).LeaderReachable (E.node id) conn prop.viewNumber ↔ j = 0 := by
    rw [← Node.skips_eq_zero_iff hdepth, hj, Option.some.injEq]
  refine ⟨_, ?_, hreach, Node.handOver_step hc ht hj now rfl, ?_⟩
  · rw [hreach, hview]
    show Node.getLeader (E.node id) prop.viewNumber = _ ↔ _
    unfold Node.routedView
    split
    · rename_i h0
      exact iff_of_true rfl (.inl h0)
    · rename_i h0
      exact ⟨fun h => .inr h.symm, fun h => (h.resolve_left h0).symm⟩
  · intro hleader hhash hsign m
    have hcount := @Node.handleMessage_vote (E.node _) vote hleader hhash
    rw [hvoter] at hcount
    exact hcount hsign m

/-- A replica that has voted for the first proposal of the chain. -/
def Server.votedRun : List Action := [.message 0 (.proposal 0 (some (chain 1).toPb))]

theorem vote_routing_server :
    ∃ L, Node.getLeader (Server.netEnv.node L) 0 = L ∧
      ((L ≠ 3 ∧ (Node.step (Server.netEnv.node 3) (run (Node.step (Server.netEnv.node 3)) newNode Server.votedRun)
          (.task 1 (fun _ _ => true) 0)).core =
            (run (Node.step (Server.netEnv.node 3)) newNode Server.votedRun).core) ∨ L = 3) := by
  have ht : (run (Node.step (Server.netEnv.node 3)) newNode Server.votedRun).tasks[1]? = some (.event (.receiveProposal
      ⟨0, Server.chain 1⟩
      ⟨0, 3, (Server.chain 1).selfQc.blockHash, ⟨3, Server.sign 3 (Server.chain 1).selfQc.blockHash⟩⟩)) := by
    decide +kernel
  obtain ⟨n, hn⟩ : ∃ n, n = run (Node.step (Server.netEnv.node 3)) newNode Server.votedRun := ⟨_, rfl⟩
  obtain ⟨hc, hskips⟩ : n.core.crashed = false ∧
      Node.skips (Server.netEnv.node 3) (fun _ _ => true) (Node.depth (Server.netEnv.node 3))
        (n.updateQcHigh 0).curView = some 0 := by
    subst hn
    decide +kernel
  rw [← hn] at ht ⊢
  obtain ⟨L, hL, hreach, h, -⟩ := vote_routing Server.netEnv (by decide) 3 Server.votedRun n hn hc 1 (fun _ _ => true) 0
    _ _ ht 0 hskips
  refine ⟨L, hL.2 (.inl (hreach.2 rfl)), ?_⟩
  rcases h with ⟨hne, -, hcore⟩ | ⟨rfl, -⟩
  · exact Or.inl ⟨hne, hcore⟩
  · exact Or.inr rfl

/-- Replica 1, the leader for view 0, is not connected to replica 3: the vote for view 0 goes to replica 2, twice. -/
theorem vote_misrouted :
    (Node.step (Server.netEnv.node 3) (run (Node.step (Server.netEnv.node 3)) newNode Server.votedRun)
      (.task 1 (fun _ id => id ≠ 1) 0)).sent.map (fun m => (m.dest, m.msg)) =
        List.replicate 2 (some 2, .vote 0 3 (Server.chain 1).selfQc.blockHash
          (some ⟨3, Server.sign 3 (Server.chain 1).selfQc.blockHash⟩)) ∧
    Node.getLeader (Server.netEnv.node 2) 0 ≠ 2 := by
  decide +kernel

end GoHotstuff
