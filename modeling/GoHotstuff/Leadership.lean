import GoHotstuff.VoteRule
import GoHotstuff.NodeStep
import GoHotstuff.Network

/-!
# The view of a proposal

`OnBeat` proposes in the view it finds the replica to lead, `OnPropose` writes that view into the new block's certificate,
and the event that broadcasts the proposal runs later.  The view of the broadcast is that of the certificate, and its
leader the proposer, if the leader of the next view is then connected, or is the replica itself (`proposal_led`).
Otherwise `OnProposeEvent` overwrites the proposal's view with the replica's next one, which another replica leads
(`proposal_not_led`).
-/

namespace GoHotstuff

open Lib (Bytes run StepsMeet)

namespace Core

/-- An own proposal that is notified is of the block just made, but for the votes collected for it, and of the view
`OnPropose` was called with. -/
theorem step_proposes (env : Env) (s : Core) (op : CoreOp) :
    Notifies (fun e => ∀ prop, e = .propose prop → ∃ parentHash cmds now b,
      op = .propose prop.viewNumber parentHash cmds now ∧ Stores env s op b ∧ prop.block.body = b.body) s
      (s.step env op) := by
  refine step_notifies_of ⟨nofun, nofun⟩ (fun _ _ _ _ _ _ => nofun) ?_ nofun nofun
  intro curView parentHash cmds now b s1 hop hst hsame prop hprop
  obtain rfl := Event.propose.inj hprop
  refine ⟨parentHash, cmds, now, b, hop, hst, ?_⟩
  obtain ⟨b', hb', hbody⟩ := hsame.load_body (load_storeBlock_self s1 b)
  rw [hb']
  exact hbody

end Core

namespace Node

/-- The proposal has the view of its block's certificate, and the block's proposer leads that view. -/
def Led (env : NodeEnv) (prop : Proposal) : Prop :=
  getCurLeader env prop.viewNumber = prop.block.proposer ∧ prop.viewNumber = prop.block.selfQc.viewNumber

def LedEvent (env : NodeEnv) (e : Event) : Prop := ∀ prop, e = .propose prop → Led env prop

/-- The same of a message, if it is a proposal. -/
def LedSent (env : NodeEnv) (m : Sent) : Prop :=
  ∀ viewNumber pb, m.msg = .proposal viewNumber (some pb) →
    getCurLeader env viewNumber = pb.proposer ∧ ∃ qc, pb.selfQc = some qc ∧ viewNumber = qc.viewNumber

/-- The own proposals, from the core's event over the goroutine that runs it to the message that is sent. -/
structure LedState (env : NodeEnv) (n : Node) : Prop where
  notified : ∀ e ∈ n.core.notified, LedEvent env e
  task : ∀ e, Task.event e ∈ n.tasks → LedEvent env e
  sent : ∀ m ∈ n.sent, LedSent env m

private theorem ledState_newNode (env : NodeEnv) : LedState env newNode where
  notified e h := by cases h
  task e h := by
    rcases List.mem_singleton.1 h with h
    cases h
  sent m h := by cases h

/-- When a proposal is about to be broadcast, the leader of the next view is the replica itself or connected. -/
def NextLeaderConnected (env : NodeEnv) (n : Node) : Action → Prop
  | .task i conn _ => ∀ t ∈ n.tasks[i]?, (∃ prop, t = .event (.propose prop)) → n.NextConnected env conn
  | _ => True

/-- A task is the broadcast of a proposal. -/
instance (t : Task) : Decidable (∃ prop, t = .event (.propose prop)) :=
  match t with
  | .event (.propose prop) => .isTrue ⟨prop, rfl⟩
  | .event (.receiveProposal ..) | .event (.receiveNewView ..) | .event (.qcFinish ..) | .event (.hqcUpdate _)
  | .event (.decide _) | .beat | .nextSync | .submit _ => .isFalse (by rintro ⟨prop, h⟩; cases h)

instance (env : NodeEnv) (n : Node) : (a : Action) → Decidable (n.NextLeaderConnected env a)
  | .task i conn _ => inferInstanceAs (Decidable
      (∀ t ∈ n.tasks[i]?, (∃ prop, t = .event (.propose prop)) → n.NextConnected env conn))
  | .message .. | .submit _ | .resumeProposal _ | .resumeNewView _ | .timeout => .isTrue trivial

/-- What the calls of an action notify, if it is no own proposal. -/
private def NoPropose (op : CoreOp) : Prop := ∀ curView parentHash cmds now, op ≠ .propose curView parentHash cmds now

private theorem permits_led {env : NodeEnv} {n : Node} {a : Action} (h : LedState env n)
    (hg : n.NextLeaderConnected env a) : Permits env n a NoPropose (LedSent env) (fun _ => True) where
  basic :=
    { look := nofun
      crash := nofun
      sign := nofun
      send := fun _ hm viewNumber pb hmsg => absurd hmsg (hm viewNumber (some pb)) }
  newView := nofun
  adopt := nofun
  wait _ _ := trivial
  vote := nofun
  ownVote := nofun
  proposal i conn now prop viewNumber ha hi hview := by
    subst ha
    have hled := h.task _ (List.mem_of_getElem? hi) prop rfl
    have hv := hview (hg _ hi ⟨prop, rfl⟩)
    intro v pb hmsg
    obtain ⟨rfl, hpb⟩ := Pb.Message.proposal.inj hmsg
    obtain rfl := Option.some.inj hpb
    subst hv
    exact ⟨hled.1, _, rfl, hled.2⟩

private theorem MainCall.notifies_led {env : NodeEnv} {n : Node} {a : Action} {s : Core} {op : CoreOp}
    (hop : MainCall n a s op) (hlead : ∀ curView parentHash cmds now, op = .propose curView parentHash cmds now →
      getCurLeader env n.curView = env.id) : Core.Notifies (LedEvent env) s (s.step env.toEnv op) := by
  obtain ⟨es, heq, hes⟩ := Core.step_proposes env.toEnv s op
  refine ⟨es, heq, fun e he prop hprop => ?_⟩
  obtain ⟨parentHash, cmds, now, b, hop', hst, hbody⟩ := hes e he prop hprop
  have hleader := hlead _ _ _ _ hop'
  cases hop with
  | receive ha hb => cases hop'
  | resume ha => cases hop'
  | propose ha hi hs =>
    injection hop' with hview
    cases hst with
    | propose hl hh =>
      constructor
      · rw [← hview, hleader]
        exact (congrArg Block.proposer hbody).symm
      · rw [← hview]
        exact (congrArg (fun b : Block => b.selfQc.viewNumber) hbody).symm

theorem LedState.step {env : NodeEnv} {n : Node} (h : LedState env n) {a : Action}
    (hg : n.NextLeaderConnected env a) : LedState env (n.step env a) := by
  cases step_moves (permits_led h hg) with
  | minor m =>
    obtain ⟨ops, hcore, hops⟩ := m.core
    have hnew : Core.Notifies (LedEvent env) n.core (n.step env a).core := by
      rw [hcore]
      refine Core.run_notifies n.core fun s op hop => ?_
      obtain ⟨es, heq, hes⟩ := Core.step_proposes env.toEnv s op
      refine ⟨es, heq, fun e he prop hprop => ?_⟩
      obtain ⟨parentHash, cmds, now, b, hop', -⟩ := hes e he prop hprop
      exact absurd hop' (hops op hop _ _ _ _)
    obtain ⟨hnot, htask⟩ := m.events hnew h.notified h.task
    exact ⟨hnot, htask, fun m' hm' => (m.sent m' hm').elim (h.sent m') id⟩
  | main hop hlead hcore m =>
    have hnew : Core.Notifies (LedEvent env) n.core (n.step env a).core := by
      rw [hcore]
      exact (Core.notifies_of_eq hop.quiet.notified).trans (hop.notifies_led hlead)
    obtain ⟨hnot, htask⟩ := m.events hnew h.notified h.task
    exact ⟨hnot, htask, fun m' hm' => (m.sent m' hm').elim (h.sent m') False.elim⟩

end Node

/-- Every proposal a replica broadcasts carries the view of its block's certificate, which the block's proposer leads, in
every run in which the next leader is connected whenever a proposal is broadcast. -/
theorem proposal_led (env : NodeEnv) (as : List Action)
    (hguard : StepsMeet (Node.step env) (Node.NextLeaderConnected env) newNode as) (dest : Option Int64)
    (viewNumber : Int64) (pb : Pb.Block)
    (hsent : ⟨dest, .proposal viewNumber (some pb)⟩ ∈ (run (Node.step env) newNode as).sent) :
    Node.getCurLeader env viewNumber = pb.proposer ∧ ∃ qc, pb.selfQc = some qc ∧ viewNumber = qc.viewNumber := by
  have h : Node.LedState env (run (Node.step env) newNode as) :=
    hguard.invariant (fun _ _ h hg => h.step hg) (Node.ledState_newNode env)
  exact h.sent _ hsent viewNumber pb rfl

namespace Server

/-- The first block with the vote of its proposer. -/
def firstProposed : Block := { chain 1 with selfQc := quorumCert 0 (chain 1).selfQc.blockHash [0] }

end Server

theorem proposal_led_server :
    Node.getCurLeader (Server.netEnv.node 0) 0 = 0 ∧ ∃ qc, Server.firstProposed.toPb.selfQc = some qc ∧ 0 = qc.viewNumber :=
  proposal_led (Server.netEnv.node 0) (Server.proposingRun ++ [.task 0 (fun _ _ => true) 0]) (by decide +kernel) none 0
    Server.firstProposed.toPb (by decide +kernel)

/-- Replica `1`, the leader of view `1`, is not connected to replica `0` when the proposal of view `0` is broadcast: it
goes out as one of view `1`. -/
theorem proposal_not_led :
    (run (Node.step (Server.netEnv.node 0)) newNode (Server.proposingRun ++ [.task 0 (fun _ id => id ≠ 1) 0])).sent =
      [⟨none, .proposal 1 (some Server.firstProposed.toPb)⟩] ∧
    Node.getCurLeader (Server.netEnv.node 0) 1 = 1 ∧ Server.firstProposed.proposer = 0 ∧
    Server.firstProposed.selfQc.viewNumber = 0 := by
  decide +kernel

end GoHotstuff
