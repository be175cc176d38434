import GoHotstuff.Leadership
import GoHotstuff.Transport

/-!
# What becomes of a command

`OnBeat` takes a command from `submitC` and forwards it to the leader of the current view, or proposes it.  Both may fail,
and then the error is logged and the command is gone (`command_lost`), although the client has been told that it was
accepted.  It is kept if the leader's channel is registered when `Unicast` looks it up, or, at the leader itself, if none
of the checks in `OnPropose` fails: the parent is in the store and as high as the last vote, the store holds what the
decide phase looks up, and the signer signs (`command_kept`).  The own vote for the new block is never refused.
-/

namespace GoHotstuff

open Lib (Bytes run)

namespace Core

/-! ### When `OnPropose` succeeds -/

/-- The block that the decide phase on `b` decides, if `b` completes a three-chain. -/
def decides? (s : Core) (b : Block) : Option Block :=
  (s.justifyBlock? b).bind fun x2 => (s.justifyBlock? x2.2).bind fun x1 => (s.justifyBlock? x1.2).bind fun x0 =>
    if x2.2.parentHash = x1.1.blockHash ∧ x1.2.parentHash = x0.1.blockHash then some x0.2 else none

theorem mem_decides? {s : Core} {b b0 : Block} :
    b0 ∈ s.decides? b ↔ ∃ qc2 b2 qc1 b1 qc0, s.justifyBlock? b = some (qc2, b2) ∧
      s.justifyBlock? b2 = some (qc1, b1) ∧ s.justifyBlock? b1 = some (qc0, b0) ∧
      b2.parentHash = qc1.blockHash ∧ b1.parentHash = qc0.blockHash := by
  simp only [decides?, Option.mem_def, Option.bind_eq_some_iff, Option.ite_none_right_eq_some,
    Option.some.injEq, Prod.exists]
  constructor
  · rintro ⟨qc2, b2, h2, qc1, b1, h1, qc0, b0', h0, ⟨hp2, hp1⟩, rfl⟩
    exact ⟨qc2, b2, qc1, b1, qc0, h2, h1, h0, hp2, hp1⟩
  · rintro ⟨qc2, b2, qc1, b1, qc0, h2, h1, h0, hp2, hp1⟩
    exact ⟨qc2, b2, h2, qc1, b1, h1, qc0, b0, h0, ⟨hp2, hp1⟩, rfl⟩

/-- If the decide phase on `b` gets to its walk, the store holds every block that the walk visits. -/
def WalkCached (s : Core) (b : Block) : Prop :=
  ∀ b0 ∈ s.decides? b, ∀ xb ∈ s.load s.execQC.blockHash,
    (s.ancestors (b0.height - xb.height).toNatClampNeg (getBlockHash b0)).length =
      (b0.height - xb.height).toNatClampNeg

instance (s : Core) (b : Block) : Decidable (s.WalkCached b) :=
  inferInstanceAs (Decidable (∀ b0 ∈ s.decides? b, ∀ xb ∈ s.load s.execQC.blockHash,
    (s.ancestors (b0.height - xb.height).toNatClampNeg (getBlockHash b0)).length =
      (b0.height - xb.height).toNatClampNeg))

/-- If `b` completes a three-chain, the last executed block is in the store, and with it all blocks that are to be
decided. -/
def CanDecide (s : Core) (b : Block) : Prop :=
  ((s.decides? b).isSome → (s.load s.execQC.blockHash).isSome) ∧ s.WalkCached b

instance (s : Core) (b : Block) : Decidable (s.CanDecide b) :=
  inferInstanceAs (Decidable (_ ∧ _))

/-- The store holds what `update` looks up. -/
def CanUpdate (s : Core) (b : Block) : Prop := (s.justifyBlock? b).isSome ∧ s.CanDecide b

instance (s : Core) (b : Block) : Decidable (s.CanUpdate b) :=
  inferInstanceAs (Decidable (_ ∧ _))

theorem update_ok_iff (env : Env) (s : Core) (b : Block) : (s.update env b).1 = .ok () ↔ s.CanUpdate b := by
  have u := update_cases env s b
  generalize (s.update env b).1 = r at u
  generalize (s.update env b).2 = s' at u
  unfold CanUpdate CanDecide WalkCached
  cases u with
  | noJustify h2 q => simp [h2]
  | preCommit h2 h1 q => simp [decides?, h2, h1]
  | commit h2 h1 h0 q =>
    have hnone : s.decides? b = none := by
      refine Option.eq_none_iff_forall_not_mem.2 fun b0 hb0 => ?_
      obtain ⟨qc2', b2', qc1', b1', qc0, h2', h1', h0', hp2, hp1⟩ := mem_decides?.1 hb0
      rw [h2, Option.some.injEq, Prod.mk.injEq] at h2'
      obtain ⟨rfl, rfl⟩ := h2'
      rw [h1, Option.some.injEq, Prod.mk.injEq] at h1'
      obtain ⟨rfl, rfl⟩ := h1'
      exact h0 qc0 b0 h0' ⟨hp2, hp1⟩
    simp [h2, hnone]
  | noExec h2 h1 h0 hp2 hp1 hx q =>
    have hb0 := mem_decides?.2 ⟨_, _, _, _, _, h2, h1, h0, hp2, hp1⟩
    rw [Option.mem_def] at hb0
    simp [hb0, hx]
  | decide h2 h1 h0 hp2 hp1 hx hr q =>
    have hb0 := mem_decides?.2 ⟨_, _, _, _, _, h2, h1, h0, hp2, hp1⟩
    rw [Option.mem_def] at hb0
    simp [h2, hb0, hx, hr]

private theorem onProposalVote_ok (env : Env) {s : Core} (vote : Vote) {o : Stored}
    (ho : s.object? vote.blockHash = some o)
    (hsigns : vote.voter ∉ o.block.selfQc.signs) : ∃ s', s.onProposalVote env vote = (.ok (), s') := by
  have v := onProposalVote_cases env s vote
  have hok : (s.onProposalVote env vote).1 = .ok () := by
    generalize (s.onProposalVote env vote).1 = r at v
    generalize (s.onProposalVote env vote).2 = s' at v
    cases v with
    | stash h q => rfl
    | full h hq q => rfl
    | duplicate h hv q =>
      rw [ho] at h
      obtain rfl := Option.some.inj h
      exact absurd hv hsigns
    | counted h hq hsigns hvs q hlt => rfl
    | finished h hq hsigns hvs q => rfl
  exact ⟨_, Prod.ext hok rfl⟩

/-- What `OnPropose` needs to propose `cmds` on the block of the highest certificate. -/
def CanPropose (env : Env) (s : Core) (curView : Int64) (cmds : Bytes) (now : Int64) : Prop :=
  ∃ parent ∈ s.load s.genericQC.blockHash,
    s.voteHeight < parent.height + 1 ∧
    ((s.touch s.genericQC.blockHash).storeBlock
      (s.newBlock env curView s.genericQC.blockHash cmds parent now)).CanDecide
        (s.newBlock env curView s.genericQC.blockHash cmds parent now) ∧
    (env.sign s.signLog.length
      (s.newBlock env curView s.genericQC.blockHash cmds parent now).selfQc.blockHash).isOk = true

instance (env : Env) (s : Core) (curView : Int64) (cmds : Bytes) (now : Int64) :
    Decidable (s.CanPropose env curView cmds now) :=
  inferInstanceAs (Decidable (∃ parent ∈ s.load s.genericQC.blockHash, _ ∧ _ ∧ _))

private theorem signLog_update {env : Env} {s s' : Core} {b : Block} {r : Except CoreError Unit}
    (u : UpdateResult env s b r s') : s'.signLog = s.signLog := by
  obtain ⟨g, o, l, e, n, c, w, k, x, hc, hp, rfl⟩ := u.frame
  rfl

private theorem voteProposal_ok {env : Env} {s : Core} {hash : Bytes} (h : (env.sign s.signLog.length hash).isOk = true)
    (viewNumber height : Int64) : ∃ sig, s.voteProposal env viewNumber height hash =
      (.ok ⟨viewNumber, env.id, hash, ⟨env.id, sig⟩⟩, { s with
        signLog := s.signLog ++ [(hash, some sig)]
        votes := s.votes ++ [⟨height, ⟨viewNumber, env.id, hash, ⟨env.id, sig⟩⟩⟩] }) := by
  cases hs : env.sign s.signLog.length hash with
  | error e =>
    rw [hs] at h
    cases h
  | ok sig =>
    refine ⟨sig, ?_⟩
    unfold voteProposal createPartCert
    rw [hs]

/-- What `OnPropose` needs once it has found the parent and the height is right: `update` finds what it needs when the new
block has come in, and the signer signs. -/
def Finishes (env : Env) (s : Core) (curView : Int64) (parentHash cmds : Bytes) (now : Int64) (parent : Block) : Prop :=
  ((s.touch parentHash).storeBlock (s.newBlock env curView parentHash cmds parent now)).CanUpdate
    (s.newBlock env curView parentHash cmds parent now) ∧
  (env.sign s.signLog.length (s.newBlock env curView parentHash cmds parent now).selfQc.blockHash).isOk = true

instance (env : Env) (s : Core) (curView : Int64) (parentHash cmds : Bytes) (now : Int64) (parent : Block) :
    Decidable (s.Finishes env curView parentHash cmds now parent) :=
  inferInstanceAs (Decidable (_ ∧ _))

/-- `OnPropose` comes to its end and notifies the proposal. -/
theorem onPropose_finishes {env : Env} {s : Core} {curView now : Int64} {parentHash cmds : Bytes} {parent : Block}
    (hl : s.load parentHash = some parent)
    (hh : s.voteHeight < (s.newBlock env curView parentHash cmds parent now).height)
    (hf : s.Finishes env curView parentHash cmds now parent) : ∃ (s4 : Core) (b : Block), s.notified <+: s4.notified ∧
      s.onPropose env curView parentHash cmds now = (.ok, s4.notify (.propose ⟨curView, b⟩)) := by
  obtain ⟨hd, hsig⟩ := hf
  have hempty : env.id ∉ (s.newBlock env curView parentHash cmds parent now).selfQc.signs := AList.notMem_empty _
  have hhigher : ¬ (s.newBlock env curView parentHash cmds parent now).height ≤ (s.touch parentHash).voteHeight :=
    Int64.not_le.2 hh
  have hb : (s.touch parentHash).newBlock env curView parentHash cmds parent now =
    s.newBlock env curView parentHash cmds parent now := rfl
  unfold onPropose loadBlock
  rw [hl]
  simp only [hb]
  rw [if_neg hhigher]
  generalize s.newBlock env curView parentHash cmds parent now = b at hd hsig hempty ⊢
  obtain ⟨s2, hu⟩ : ∃ s2, ((s.touch parentHash).storeBlock b).update env b = (.ok (), s2) :=
    ⟨_, Prod.ext ((update_ok_iff env _ b).2 hd) rfl⟩
  have u := update_result hu
  rw [hu]
  dsimp only
  have hsig2 : (env.sign (s2.setVoteHeight b.height).signLog.length b.selfQc.blockHash).isOk = true := by
    show (env.sign s2.signLog.length b.selfQc.blockHash).isOk = true
    rw [signLog_update u]
    exact hsig
  obtain ⟨sig, hsigned⟩ := voteProposal_ok hsig2 curView b.height
  rw [hsigned]
  dsimp only
  have hself : s2.object? b.selfQc.blockHash = some ⟨s.objects, b⟩ :=
    (u.object? _).trans (object?_storeBlock_self (s.touch parentHash) b)
  generalize hs3 : ({ s2.setVoteHeight b.height with
    signLog := (s2.setVoteHeight b.height).signLog ++ [(b.selfQc.blockHash, some sig)]
    votes := (s2.setVoteHeight b.height).votes ++ [⟨b.height, ⟨curView, env.id, b.selfQc.blockHash,
      ⟨env.id, sig⟩⟩⟩] } : Core) = s3
  have hself3 : s3.object? b.selfQc.blockHash = some ⟨s.objects, b⟩ := by
    rw [← hs3]
    exact hself
  obtain ⟨s4, hv⟩ := onProposalVote_ok env ⟨curView, env.id, b.selfQc.blockHash, ⟨env.id, sig⟩⟩ hself3 hempty
  rw [hv]
  refine ⟨s4, _, ?_, rfl⟩
  -- neither `update` nor the vote takes events back
  have hall : Inner fun _ => True := ⟨fun _ => trivial, fun _ => trivial⟩
  have h2 : s.notified <+: s2.notified := (u.notifies hall).isPrefix
  have h3 : s2.notified = s3.notified := by
    rw [← hs3]
    rfl
  have v := onProposalVote_cases env s3 ⟨curView, env.id, b.selfQc.blockHash, ⟨env.id, sig⟩⟩
  rw [hv] at v
  exact h2.trans (h3 ▸ (v.notifies hall fun _ _ _ _ => trivial).isPrefix)

/-- Otherwise it ends with an error and without a proposal: `update` has failed, or the signer, when the vote's height is
already set. -/
theorem onPropose_fails {env : Env} {s : Core} {curView now : Int64} {parentHash cmds : Bytes} {parent : Block}
    (hl : s.load parentHash = some parent)
    (hh : s.voteHeight < (s.newBlock env curView parentHash cmds parent now).height)
    (hf : ¬ s.Finishes env curView parentHash cmds now parent) :
    ∃ e s', s.onPropose env curView parentHash cmds now = (.error e, s') ∧
      Notifies (fun e => ∀ prop, e ≠ .propose prop) s s' ∧
      (((s.touch parentHash).storeBlock (s.newBlock env curView parentHash cmds parent now)).update env
          (s.newBlock env curView parentHash cmds parent now) = (.error e, s') ∨
        ((s.touch parentHash).storeBlock (s.newBlock env curView parentHash cmds parent now)).CanUpdate
          (s.newBlock env curView parentHash cmds parent now) ∧
        s'.voteHeight = (s.newBlock env curView parentHash cmds parent now).height) := by
  have hhigher : ¬ (s.newBlock env curView parentHash cmds parent now).height ≤ (s.touch parentHash).voteHeight :=
    Int64.not_le.2 hh
  have hb : (s.touch parentHash).newBlock env curView parentHash cmds parent now =
    s.newBlock env curView parentHash cmds parent now := rfl
  have hinner : Inner fun e => ∀ prop, e ≠ .propose prop := ⟨fun _ _ h => (by cases h), fun _ _ h => (by cases h)⟩
  unfold Finishes at hf
  unfold onPropose loadBlock
  rw [hl]
  simp only [hb]
  rw [if_neg hhigher]
  generalize s.newBlock env curView parentHash cmds parent now = b at hf ⊢
  rcases hu : ((s.touch parentHash).storeBlock b).update env b with ⟨e | ⟨⟩, s2⟩
  · exact ⟨e, s2, rfl, (update_result hu).notifies hinner, .inl rfl⟩
  · have u := update_result hu
    have hd := (update_ok_iff env _ b).1 (congrArg Prod.fst hu)
    -- what is left to fail is the signer
    cases hs : env.sign s2.signLog.length b.selfQc.blockHash with
    | ok sig =>
      rw [signLog_update u] at hs
      refine absurd ⟨hd, ?_⟩ hf
      rw [show s.signLog = ((s.touch parentHash).storeBlock b).signLog from rfl, hs]
      rfl
    | error e =>
      have hvote : (s2.setVoteHeight b.height).voteProposal env curView b.height b.selfQc.blockHash =
          (.error (.signer e), { s2.setVoteHeight b.height with
            signLog := s2.signLog ++ [(b.selfQc.blockHash, none)] }) := by
        unfold voteProposal createPartCert
        rw [show (s2.setVoteHeight b.height).signLog = s2.signLog from rfl, hs]
      dsimp only
      rw [hvote]
      exact ⟨.signer e, _, rfl, (u.notifies hinner).trans (notifies_of_eq rfl), .inr ⟨hd, rfl⟩⟩

private theorem finishes_of_canPropose {env : Env} {s : Core} {curView now : Int64} {cmds : Bytes}
    (h : s.CanPropose env curView cmds now) : ∃ parent, s.load s.genericQC.blockHash = some parent ∧
      s.voteHeight < (s.newBlock env curView s.genericQC.blockHash cmds parent now).height ∧
      s.Finishes env curView s.genericQC.blockHash cmds now parent := by
  obtain ⟨parent, hl, hh, hd, hsig⟩ := h
  -- the justify block is the parent, which has just been looked up
  obtain ⟨jb, hj⟩ := load_storeBlock_touch hl (s.newBlock env curView s.genericQC.blockHash cmds parent now)
  refine ⟨parent, hl, hh, ⟨?_, hd⟩, hsig⟩
  rw [justifyBlock?_eq_some.2 ⟨rfl, hj⟩]
  rfl

private theorem canPropose_of_notified {env : Env} {s : Core} {curView now : Int64} {cmds : Bytes} {prop : Proposal}
    (h : Event.propose prop ∈
      (s.onPropose env curView s.genericQC.blockHash cmds now).2.notified.drop s.notified.length) :
    s.CanPropose env curView cmds now := by
  have hnone : ∀ s' : Core, Notifies (fun e => ∀ prop, e ≠ .propose prop) s s' →
      Event.propose prop ∉ s'.notified.drop s.notified.length := by
    rintro s' ⟨es, heq, hes⟩ hmem
    rw [heq, List.drop_left] at hmem
    exact hes _ hmem prop rfl
  obtain q | ⟨parent, hl, hh, -⟩ := onPropose_cases env s curView s.genericQC.blockHash cmds now
  · exact absurd h (hnone _ (notifies_of_eq q.notified))
  · by_cases hf : s.Finishes env curView s.genericQC.blockHash cmds now parent
    · exact ⟨parent, hl, hh, hf.1.2, hf.2⟩
    · obtain ⟨e, s', heq, hnotifies, -⟩ := onPropose_fails hl hh hf
      rw [heq] at h
      exact absurd h (hnone _ hnotifies)

end Core

/-! ### Beats -/

/-- `Unicast` finds the channel of `dest`, and waits there for the handler to take the message. -/
def ABServer.Takes (a : ABServer) (msg : Pb.Message) (dest : Int64) : Prop :=
  ∃ ch, ((a.unicast (some msg) dest).rLock a.calls.length).calls[a.calls.length]? =
    some ⟨some dest, .sending msg ch []⟩

private theorem ABServer.takes_iff {a : ABServer} {dest : Int64} (msg : Pb.Message) :
    a.Takes msg dest ↔ (a.sendChan.lookup dest).isSome = true := by
  unfold ABServer.Takes
  cases h : a.sendChan.lookup dest with
  | none => simp [ABServer.unicast, ABServer.rLock, ABServer.setCall, h]
  | some ch => simp [ABServer.unicast, ABServer.rLock, ABServer.setCall, h]

namespace Node

/-- The state of the replica, and of its broadcast server when `Unicast` looks the leader up, in which a beat does not
fail: the leader is connected, or the replica leads the view and `OnPropose` has all it needs. -/
def CommandSafe (env : NodeEnv) (a : ABServer) (n : Node) (cmds : Bytes) (now : Int64) : Prop :=
  (getCurLeader env n.curView ≠ env.id → (a.sendChan.lookup (getCurLeader env n.curView)).isSome = true) ∧
  (getCurLeader env n.curView = env.id → n.core.CanPropose env.toEnv n.curView cmds now)

instance (env : NodeEnv) (a : ABServer) (n : Node) (cmds : Bytes) (now : Int64) :
    Decidable (n.CommandSafe env a cmds now) :=
  inferInstanceAs (Decidable (_ ∧ _))

private theorem step_beat {env : NodeEnv} {n : Node} {i : Nat} {conn : Nat → Int64 → Bool} {now : Int64} {s : Bytes}
    {rest : List Bytes} (hc : n.core.crashed = false) (hi : n.tasks[i]? = some .beat) (hs : n.submitC = s :: rest) :
    n.step env (.task i conn now) = onBeat env { n with tasks := n.tasks.eraseIdx i, submitC := rest } s now := by
  simp only [step, hc, Bool.false_eq_true, ↓reduceIte, act, hi, runTask, hs]

private theorem exists_proposed {env : Env} {s : Core} {curView now : Int64} {cmds : Bytes}
    (h : s.CanPropose env curView cmds now) : ∃ prop : Proposal, prop.block.cmds = cmds ∧
      Event.propose prop ∈
        (s.onPropose env curView s.genericQC.blockHash cmds now).2.notified.drop s.notified.length := by
  obtain ⟨parent, hl, hh, hf⟩ := Core.finishes_of_canPropose h
  obtain ⟨s4, b, ⟨es, hes⟩, heq⟩ := Core.onPropose_finishes hl hh hf
  obtain ⟨es', hes', hprop⟩ := Core.step_proposes env s (.propose curView s.genericQC.blockHash cmds now)
  have hstep : (s.step env (.propose curView s.genericQC.blockHash cmds now)).notified =
      s.notified ++ (es ++ [.propose ⟨curView, b⟩]) := by
    show (s.onPropose env curView s.genericQC.blockHash cmds now).2.notified = _
    rw [heq, ← List.append_assoc, hes]
    rfl
  have hmem : Event.propose ⟨curView, b⟩ ∈ es' := by
    rw [← List.append_cancel_left (hstep.symm.trans hes')]
    exact List.mem_append_right _ (List.mem_singleton_self _)
  obtain ⟨parentHash, cmds', now', b', hop, hst, hbody⟩ := hprop _ hmem _ rfl
  refine ⟨⟨curView, b⟩, ?_, ?_⟩
  · cases hst with
    | propose hl hh => exact congrArg Block.cmds hbody
  · show _ ∈ (s.step env (.propose curView s.genericQC.blockHash cmds now)).notified.drop s.notified.length
    rw [hes', List.drop_left]
    exact hmem

end Node

/-- Behind the goroutine `i`, a beat, the command is proposed, or forwarded to the leader, whose channel takes it, or in
`submitC` still. -/
def Node.KeepsCommand (env : NodeEnv) (a : ABServer) (n : Node) (i : Nat) (conn : Nat → Int64 → Bool) (now : Int64)
    (cmds : Bytes) : Prop :=
  (∃ prop : Proposal, prop.block.cmds = cmds ∧
    Event.propose prop ∈ (n.step env (.task i conn now)).core.notified.drop n.core.notified.length) ∨
  ((n.step env (.task i conn now)).sent = n.sent ++ [⟨some (Node.getCurLeader env n.curView), .forward cmds⟩] ∧
    a.Takes (.forward cmds) (Node.getCurLeader env n.curView)) ∨
  cmds ∈ (n.step env (.task i conn now)).submitC

/-- A command that a beat takes from `submitC` is kept in every state in which the leader is connected, or `OnPropose` has
what it needs; and at a replica that runs, if the command is in `submitC` only once, in no other state. -/
theorem command_kept (env : NodeEnv) (n : Node) (a : ABServer) (i : Nat) (conn : Nat → Int64 → Bool) (now : Int64)
    (s : Bytes) (rest : List Bytes) (hi : n.tasks[i]? = some .beat) (hs : n.submitC = s :: rest) :
    (n.CommandSafe env a s now → n.KeepsCommand env a i conn now s) ∧
    (n.core.crashed = false → s ∉ rest → (n.KeepsCommand env a i conn now s ↔ n.CommandSafe env a s now)) := by
  have hkept : n.CommandSafe env a s now → n.KeepsCommand env a i conn now s := by
    intro hsafe
    unfold Node.KeepsCommand
    cases hc : n.core.crashed with
    | true =>
      right; right
      simp only [Node.step, hc, ↓reduceIte, hs, List.mem_cons, true_or]
    | false =>
      rw [Node.step_beat hc hi hs]
      unfold Node.onBeat
      dsimp only
      by_cases hlead : Node.getCurLeader env n.curView = env.id
      · rw [if_neg (not_not.2 hlead)]
        exact Or.inl (Node.exists_proposed (hsafe.2 hlead))
      · rw [if_pos hlead]
        exact Or.inr (Or.inl ⟨rfl, (ABServer.takes_iff _).2 (hsafe.1 hlead)⟩)
  refine ⟨hkept, fun hc hrest => ⟨fun h => ?_, hkept⟩⟩
  unfold Node.KeepsCommand at h
  rw [Node.step_beat hc hi hs] at h
  unfold Node.onBeat at h
  dsimp only at h
  by_cases hlead : Node.getCurLeader env n.curView = env.id
  · rw [if_neg (not_not.2 hlead)] at h
    refine ⟨fun hother => absurd hlead hother, fun _ => ?_⟩
    rcases h with ⟨prop, -, hprop⟩ | ⟨hsent, -⟩ | hmem
    · exact Core.canPropose_of_notified hprop
    · exact absurd (congrArg List.length hsent) (by simp [Node.withCore])
    · exact absurd hmem hrest
  · rw [if_pos hlead] at h
    refine ⟨fun _ => ?_, fun hself => absurd hself hlead⟩
    rcases h with ⟨prop, -, hprop⟩ | ⟨-, htakes⟩ | hmem
    · simp [Node.unicast, Node.startNewViewTimer] at hprop
    · exact (ABServer.takes_iff _).1 htakes
    · exact absurd hmem hrest

namespace Server

/-- A replica has voted for the first block of the chain, and then accepted a command. -/
def votedAndSubmittedRun : List Action :=
  [.message 0 (.proposal 0 (some (chain 1).toPb)), .submit [9], .task 2 (fun _ _ => true) 0]

end Server

/-- Replica `0` leads view `0`. -/
theorem command_kept_server :
    ∃ prop : Proposal, prop.block.cmds = [1] ∧ Event.propose prop ∈
      ((run (Node.step (Server.netEnv.node 0)) newNode Server.submittedRun).step (Server.netEnv.node 0)
        (.task 0 (fun _ _ => true) 0)).core.notified.drop
          (run (Node.step (Server.netEnv.node 0)) newNode Server.submittedRun).core.notified.length := by
  refine ((command_kept (Server.netEnv.node 0) _ ABServer.newABServer 0 (fun _ _ => true) 0 [1] [] (by decide +kernel)
    (by decide +kernel)).1 (by decide +kernel)).resolve_right fun h => ?_
  rcases h with ⟨h, -⟩ | h
  · exact absurd h (by decide +kernel)
  · exact absurd h (by decide +kernel)

/-- Replica `1` forwards its command to replica `0`, which has not connected: the command is gone.  Replica `0` has voted
at height `1` before it proposes at that height: the command is gone. -/
theorem command_lost :
    ((run (Node.step (Server.netEnv.node 1)) newNode
      (Server.submittedRun ++ [.task 0 (fun _ _ => true) 0])).submitC = [] ∧
     (run (Node.step (Server.netEnv.node 1)) newNode
      (Server.submittedRun ++ [.task 0 (fun _ _ => true) 0])).core.notified = [] ∧
     (run (Node.step (Server.netEnv.node 1)) newNode
      (Server.submittedRun ++ [.task 0 (fun _ _ => true) 0])).sent = [⟨some 0, .forward [1]⟩] ∧
     ((ABServer.newABServer.unicast (some (.forward [1])) 0).rLock 0).calls =
      [⟨some 0, .returned (some (.invalidNode 0))⟩]) ∧
    ((run (Node.step (Server.netEnv.node 0)) newNode Server.votedAndSubmittedRun).submitC = [[9]] ∧
     (run (Node.step (Server.netEnv.node 0)) newNode
      (Server.votedAndSubmittedRun ++ [.task 0 (fun _ _ => true) 0])).submitC = [] ∧
     (run (Node.step (Server.netEnv.node 0)) newNode
      (Server.votedAndSubmittedRun ++ [.task 0 (fun _ _ => true) 0])).core.notified =
      (run (Node.step (Server.netEnv.node 0)) newNode Server.votedAndSubmittedRun).core.notified ∧
     (run (Node.step (Server.netEnv.node 0)) newNode
      (Server.votedAndSubmittedRun ++ [.task 0 (fun _ _ => true) 0])).sent = []) := by
  decide +kernel

end GoHotstuff
