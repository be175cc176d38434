import GoHotstuff.Advance
import GoHotstuff.Routing

/-!
# The part of a replica in a round

Round `m` makes block `m + 1`: the leader, which has the certificate for block `m`, proposes it (`Ready.propose`), the
others receive it (`At.receive`) and send their votes to the next leader (`Received.sendVote`), which counts its own
(`Received.ownVote`) and those that arrive (`Voting.vote`) until they are a quorum, and is then the leader of the next round
(`Certified.ready`).  A replica runs its goroutines one after the other; other goroutines may be there and stay.
-/

namespace GoHotstuff

open Lib (Bytes run)

/-- An action of the replica alone: a goroutine that finds all peers connected, or a command that is submitted. -/
def Action.Local : Action → Prop
  | .submit _ => True
  | .task _ conn _ => ∀ k id, conn k id = true
  | .message .. | .resumeProposal _ | .resumeNewView _ | .timeout => False

namespace Node

variable {env : NodeEnv} {cmd : Nat → Bytes} {m : Nat} {n n' n'' : Node}

/-! ### Goroutines -/

/-- Local actions take the replica from `n` to `n'`. -/
def Runs (env : NodeEnv) (n n' : Node) : Prop := ∃ as, (∀ a ∈ as, a.Local) ∧ run (step env) n as = n'

theorem Runs.refl (n : Node) : Runs env n n := ⟨[], fun _ h => absurd h List.not_mem_nil, rfl⟩

theorem Runs.trans (h : Runs env n n') (h' : Runs env n' n'') : Runs env n n'' := by
  obtain ⟨as, has, rfl⟩ := h
  obtain ⟨bs, hbs, rfl⟩ := h'
  refine ⟨as ++ bs, fun a ha => ?_, Lib.run_append ..⟩
  rcases List.mem_append.1 ha with ha | ha
  · exact has a ha
  · exact hbs a ha

private theorem runs_single (env : NodeEnv) (hc : n.core.crashed = false) {a : Action} (ha : a.Local) :
    Runs env n (n.act env a) := by
  refine ⟨[a], fun b hb => List.mem_singleton.1 hb ▸ ha, ?_⟩
  show n.step env a = n.act env a
  unfold step
  rw [hc]
  rfl

private theorem runs_task (env : NodeEnv) (hc : n.core.crashed = false) {t : Task} (ht : t ∈ n.tasks) :
    ∃ i, n.tasks[i]? = some t ∧
      Runs env n (runTask env (fun _ _ => true) 0 { n with tasks := n.tasks.eraseIdx i } t) := by
  obtain ⟨i, hi⟩ := List.mem_iff_getElem?.1 ht
  have hrun := runs_single env hc (a := .task i (fun _ _ => true) 0) fun _ _ => rfl
  refine ⟨i, hi, ?_⟩
  rw [act, hi] at hrun
  exact hrun

private theorem mem_eraseIdx_of_ne {l : List Task} {i : Nat} {t t' : Task} (hi : l[i]? = some t) (hm : t' ∈ l)
    (hne : t' ≠ t) :
    t' ∈ l.eraseIdx i := by
  obtain ⟨j, hj⟩ := List.mem_iff_getElem?.1 hm
  refine List.mem_eraseIdx_iff_getElem?.2 ⟨j, ?_, hj⟩
  rintro rfl
  rw [hi] at hj
  exact hne (Option.some.inj hj).symm

private theorem withCore_eq {core : Core} {evs : List Event} (h : core.notified = n.core.notified ++ evs) :
    n.withCore core = { n with core := core, tasks := n.tasks ++ evs.map Task.event } := by
  unfold withCore
  rw [h, List.drop_left]

private theorem runs_decide (env : NodeEnv) (hc : n.core.crashed = false)
    (hx : n.executed = (List.range (m - 3)).map cmd)
    (hd : 3 ≤ m → ∃ d, IsBlock env.replicas cmd (m - 2) d ∧ Task.event (.decide d) ∈ n.tasks) :
    ∃ ts, Runs env n { n with tasks := ts, executed := (List.range (m - 2)).map cmd } ∧
      ∀ t ∈ n.tasks, (∀ d, t ≠ .event (.decide d)) → t ∈ ts := by
  rcases Nat.lt_or_ge m 3 with hlt | hge
  · refine ⟨n.tasks, ?_, fun t ht _ => ht⟩
    rw [show m - 2 = m - 3 by omega, ← hx]
    exact .refl n
  · obtain ⟨k, rfl⟩ : ∃ k, m = k + 3 := ⟨m - 3, by omega⟩
    obtain ⟨d, hd, hmem⟩ := hd hge
    obtain ⟨i, hi, hrun⟩ := runs_task env hc hmem
    refine ⟨n.tasks.eraseIdx i, ?_, fun t ht hne => mem_eraseIdx_of_ne hi ht (hne d)⟩
    have hcmds : d.cmds = cmd k := hd.cmds k (by omega)
    have heq : ({ n with tasks := n.tasks.eraseIdx i, executed := (List.range (k + 3 - 2)).map cmd } : Node) =
        runTask env (fun _ _ => true) 0 { n with tasks := n.tasks.eraseIdx i } (.event (.decide d)) := by
      show _ = { n with tasks := n.tasks.eraseIdx i, executed := n.executed ++ [d.cmds] }
      rw [hx, hcmds, show k + 3 - 2 = k + 1 by omega, List.range_succ, List.map_append]
      rfl
    rw [heq]
    exact hrun

/-! ### The states of a replica -/

/-- Between rounds: block `m` is the last one. -/
structure At (replicas : ReplicaConf) (cmd : Nat → Bytes) (m : Nat) (n : Node) : Prop where
  core : n.core.Upto replicas cmd m (m - 1)
  view : n.curView = Int64.ofNat (m - 1)
  queue : n.submitC = []
  executed : n.executed = (List.range (m - 3)).map cmd

/-- The leader of round `m`: it has the certificate for block `m`, and a command is waiting. -/
structure Ready (replicas : ReplicaConf) (cmd : Nat → Bytes) (m : Nat) (n : Node) : Prop where
  core : n.core.Upto replicas cmd m m
  cert : m ≠ 0 → replicas.verifyQuorumCert n.core.genericQC = true
  view : n.curView = Int64.ofNat m
  queue : n.submitC = [cmd m]
  beat : Task.beat ∈ n.tasks
  executed : n.executed = (List.range (m - 3)).map cmd

/-- The vote of replica `id` in round `m`. -/
def roundVote (cmd : Nat → Bytes) (m : Nat) (id : Int64) (sig : Bytes) : Vote :=
  ⟨Int64.ofNat m, id, chainHash cmd (m + 1), ⟨id, sig⟩⟩

/-- Block `m + 1` has been received and the vote is about to be handed over. -/
structure Received (replicas : ReplicaConf) (cmd : Nat → Bytes) (m : Nat) (b : Block) (vote : Vote) (n : Node) : Prop where
  core : n.core.Upto replicas cmd (m + 1) m
  object : ∃ obj, n.core.object? (chainHash cmd (m + 1)) = some ⟨obj, b⟩
  view : n.curView = Int64.ofNat (m - 1)
  queue : n.submitC = []
  executed : n.executed = (List.range (m - 2)).map cmd
  task : Task.event (.receiveProposal ⟨Int64.ofNat m, b⟩ vote) ∈ n.tasks

/-- The next leader has the votes of `ids`. -/
structure Voting (replicas : ReplicaConf) (cmd : Nat → Bytes) (m : Nat) (ids : List Int64) (n : Node) : Prop where
  core : n.core.Collects replicas cmd m ids
  view : n.curView = Int64.ofNat m
  queue : n.submitC = []
  executed : n.executed = (List.range (m - 2)).map cmd

/-- The next leader has a quorum of votes. -/
structure Certified (replicas : ReplicaConf) (cmd : Nat → Bytes) (m : Nat) (n : Node) : Prop where
  core : n.core.Upto replicas cmd (m + 1) (m + 1)
  cert : replicas.verifyQuorumCert n.core.genericQC = true
  view : n.curView = Int64.ofNat m
  queue : n.submitC = []
  executed : n.executed = (List.range (m - 2)).map cmd
  task : ∃ proposer qc, Task.event (.qcFinish proposer qc) ∈ n.tasks ∧ qc.viewNumber = Int64.ofNat m

/-! ### The leader -/

/-- The leader proposes and broadcasts its block, which carries its own vote. -/
theorem Ready.propose (h : n.Ready env.replicas cmd m) (hm : m + 1 < 2 ^ 63)
    (hnew : ∀ k ≤ m, chainHash cmd k ≠ chainHash cmd (m + 1)) (hw : env.toEnv.SignerWorks)
    (hq : 2 ≤ getQuorumSize env.replicas.metadata) (hcur : getCurLeader env (Int64.ofNat m) = env.id)
    (hnext : getLeader env (Int64.ofNat m) ≠ env.id) :
    ∃ n' b, Runs env n n' ∧ n'.At env.replicas cmd (m + 1) ∧ IsBlock env.replicas cmd (m + 1) b ∧
      env.replicas.Signed (chainHash cmd (m + 1)) b.selfQc.signs ∧ b.selfQc.signs.keys = [env.id] ∧
      ⟨none, .proposal (Int64.ofNat m) (some b.toPb)⟩ ∈ n'.sent := by
  obtain ⟨s, b, evs, hprop, hupto, hevs, hb, hsigned, hkeys, hmem, hdec⟩ := h.core.propose h.cert hm hnew hw hq 0
  -- the beat
  obtain ⟨i, -, hrun⟩ := runs_task env h.core.crashed h.beat
  have hbeat : runTask env (fun _ _ => true) 0 { n with tasks := n.tasks.eraseIdx i } .beat =
      { n with core := s, submitC := [], tasks := n.tasks.eraseIdx i ++ evs.map Task.event } := by
    unfold runTask
    dsimp only
    rw [h.queue]
    dsimp only
    unfold onBeat
    dsimp only
    rw [h.view, hcur, if_neg (not_not_intro rfl), hprop]
    exact withCore_eq hevs
  rw [hbeat] at hrun
  -- the event of the proposal
  have hmem1 : Task.event (.propose ⟨Int64.ofNat m, b⟩) ∈ n.tasks.eraseIdx i ++ evs.map Task.event :=
    List.mem_append_right _ (List.mem_map_of_mem hmem)
  obtain ⟨j, hj, hrun1⟩ := runs_task env
    (n := { n with core := s, submitC := [], tasks := n.tasks.eraseIdx i ++ evs.map Task.event }) hupto.crashed hmem1
  have hevent : runTask env (fun _ _ => true) 0
      { n with core := s, submitC := [], tasks := (n.tasks.eraseIdx i ++ evs.map Task.event).eraseIdx j }
      (.event (.propose ⟨Int64.ofNat m, b⟩)) =
      { n with
        core := s, submitC := [], tasks := (n.tasks.eraseIdx i ++ evs.map Task.event).eraseIdx j, timer := true
        sent := n.sent ++ [⟨none, .proposal (Int64.ofNat m) (some b.toPb)⟩] } := by
    unfold runTask executeEvent onProposeEvent
    dsimp only
    rw [h.view, if_pos hnext]
    rfl
  rw [hevent] at hrun1
  obtain ⟨ts, hrun2, -⟩ := runs_decide env (m := m)
    (n := { n with
        core := s, submitC := [], tasks := (n.tasks.eraseIdx i ++ evs.map Task.event).eraseIdx j, timer := true
        sent := n.sent ++ [⟨none, .proposal (Int64.ofNat m) (some b.toPb)⟩] })
    hupto.crashed h.executed (by
      intro hle
      obtain ⟨d, hd, hdmem⟩ := hdec hle
      refine ⟨d, hd, mem_eraseIdx_of_ne hj (List.mem_append_right _ (List.mem_map_of_mem hdmem)) ?_⟩
      intro heq
      cases heq)
  exact ⟨_, b, (hrun.trans hrun1).trans hrun2, ⟨hupto, h.view, rfl, rfl⟩, hb, hsigned, hkeys,
    List.mem_append_right _ (List.mem_singleton_self _)⟩

/-! ### The other replicas -/

/-- A replica receives the proposal and votes. -/
theorem At.receive (h : n.At env.replicas cmd m) (hm : m + 1 < 2 ^ 63)
    (hnew : ∀ k ≤ m, chainHash cmd k ≠ chainHash cmd (m + 1)) (hw : env.toEnv.SignerWorks) {b : Block}
    (hb : IsBlock env.replicas cmd (m + 1) b) (src : Int64) :
    ∃ n' sig, Runs env (n.step env (.message src (.proposal (Int64.ofNat m) (some b.toPb)))) n' ∧
      n'.Received env.replicas cmd m b (roundVote cmd m env.id sig) ∧
      env.replicas.verifyIdentity env.id sig (chainHash cmd (m + 1)) = true := by
  obtain ⟨xb, c, hload, -, hc⟩ := Core.loadBlock_chain (k := m - 3) h.core.cache (by omega) (by omega)
  have hcore : Core.Upto env.replicas cmd m (m - 1) { n.core with blockCache := c } :=
    ⟨h.core.cache.looked hc, h.core.generic, h.core.locked, h.core.exec, h.core.voteHeight, h.core.voteSet, h.core.crashed⟩
  obtain ⟨s, sig, evs, hrecv, hupto, hobj, hevs, hsig, hmem, hdec⟩ :=
    hcore.receive (by omega) (by omega) hm hnew hw hb (Int64.ofNat m)
  obtain ⟨wal, hstep⟩ : ∃ wal, n.step env (.message src (.proposal (Int64.ofNat m) (some b.toPb))) =
      { n with
        core := s, wal := wal, tasks := n.tasks ++ evs.map Task.event, nvWaiting := []
        nvWoken := n.nvWoken ++ n.nvWaiting } := by
    obtain ⟨wal, hwal⟩ : ∃ wal, wal = n.wal ++ [⟨xb.height.toUInt64, b.toPb.height.toUInt64, Int64.ofNat m, b.toPb⟩] :=
      ⟨_, rfl⟩
    have hwith := withCore_eq (n := { n with core := { n.core with blockCache := c }, wal := wal }) hevs
    have hblock : b.toPb.toBlock? = some b := rfl
    refine ⟨wal, ?_⟩
    unfold step
    rw [h.core.crashed, if_neg (by decide)]
    show n.handleProposal env (Int64.ofNat m) (some b.toPb) = _
    unfold handleProposal
    dsimp only
    rw [h.core.exec, hload, hblock]
    dsimp only
    rw [hrecv, ← hwal]
    dsimp only
    rw [hwith]
  rw [hstep]
  obtain ⟨ts, hrun, hkept⟩ := runs_decide env (m := m)
    (n := { n with
      core := s, wal := wal, tasks := n.tasks ++ evs.map Task.event, nvWaiting := []
      nvWoken := n.nvWoken ++ n.nvWaiting })
    hupto.crashed h.executed (by
      intro hle
      obtain ⟨d, hd, hdmem⟩ := hdec hle
      exact ⟨d, hd, List.mem_append_right _ (List.mem_map_of_mem hdmem)⟩)
  refine ⟨_, sig, hrun, ⟨hupto, ⟨_, hobj⟩, h.view, h.queue, rfl, ?_⟩, hsig⟩
  refine hkept _ (List.mem_append_right _ (List.mem_map_of_mem hmem)) fun d heq => ?_
  cases heq

private theorem updateQcHigh_next (hm : m < 2 ^ 63) (hv : n.curView = Int64.ofNat (m - 1)) :
    n.updateQcHigh (Int64.ofNat m) = { n with curView := Int64.ofNat m } := by
  unfold updateQcHigh
  rcases Nat.eq_zero_or_pos m with rfl | hpos
  · rw [hv, if_neg (by decide), ← hv]
  · rw [hv, if_pos ((ofNat_lt_ofNat (by omega) hm).2 (by omega))]

private theorem onReceiveProposal_connected (env : NodeEnv) (hc : n.core.crashed = false) (k : Nat) (viewNumber : Int64)
    (vote : Vote) :
    ∃ timer, (onReceiveProposal env (fun _ _ => true) (k + 1) n viewNumber vote).2 =
      handOver env { n.updateQcHigh viewNumber with timer := timer } viewNumber vote := by
  rw [onReceiveProposal]
  have hcrashed : (n.updateQcHigh viewNumber).core.crashed = false := by
    unfold updateQcHigh
    split <;> exact hc
  generalize n.updateQcHigh viewNumber = q at hcrashed ⊢
  by_cases hown : getLeader env q.curView = env.id
  · exact ⟨false, by simp [hown, stopNewViewTimer, hcrashed]⟩
  · exact ⟨q.timer, by simp [hown, hcrashed]⟩

private theorem Received.handOver {b : Block} {vote : Vote} (h : n.Received env.replicas cmd m b vote) (hm : m < 2 ^ 63)
    (hN : 0 < depth env) :
    ∃ ts timer, Runs env n
      (Node.handOver env { n with tasks := ts, timer := timer, curView := Int64.ofNat m } (Int64.ofNat m) vote) := by
  obtain ⟨i, -, hrun⟩ := runs_task env h.core.crashed h.task
  obtain ⟨k, hk⟩ : ∃ k, depth env = k + 1 := ⟨depth env - 1, by omega⟩
  obtain ⟨timer, heq⟩ := onReceiveProposal_connected env (n := { n with tasks := n.tasks.eraseIdx i })
    h.core.crashed k (Int64.ofNat m) vote
  rw [updateQcHigh_next (n := { n with tasks := n.tasks.eraseIdx i }) hm h.view] at heq
  refine ⟨n.tasks.eraseIdx i, timer, ?_⟩
  rw [← heq, ← hk]
  exact hrun

/-- A replica sends its vote to the next leader. -/
theorem Received.sendVote {b : Block} {vote : Vote} (h : n.Received env.replicas cmd m b vote) (hm : m < 2 ^ 63)
    (hN : 0 < depth env) (hnext : getLeader env (Int64.ofNat m) ≠ env.id) :
    ∃ n', Runs env n n' ∧ n'.At env.replicas cmd (m + 1) ∧
      ⟨some (getLeader env (Int64.ofNat m)), vote.toPb⟩ ∈ n'.sent := by
  obtain ⟨ts, timer, hrun⟩ := h.handOver hm hN
  unfold Node.handOver at hrun
  dsimp only at hrun
  rw [if_pos hnext] at hrun
  exact ⟨_, hrun, ⟨h.core, rfl, h.queue, h.executed⟩, List.mem_append_right _ (List.mem_singleton_self _)⟩

/-! ### The next leader -/

private theorem count_vote {ids : List Int64} {id : Int64} {sig : Bytes} (hc : n.core.Collects env.replicas cmd m ids)
    (hm : m + 1 < 2 ^ 63) (hlt : (ids.length : Int) < getQuorumSize env.replicas.metadata) (hid : id ∉ ids)
    (hsig : env.replicas.verifyIdentity id sig (chainHash cmd (m + 1)) = true)
    (hview : n.curView = Int64.ofNat m) (hqueue : n.submitC = []) (hx : n.executed = (List.range (m - 2)).map cmd) :
    let n' := n.withCore (n.core.onProposalVote env.toEnv (roundVote cmd m id sig)).2
    (n'.Voting env.replicas cmd m (id :: ids) ∧ (ids.length : Int) + 1 < getQuorumSize env.replicas.metadata) ∨
      n'.Certified env.replicas cmd m := by
  obtain ⟨s, evs, hvote, hevs, hcase⟩ := hc.vote hm hlt (roundVote cmd m id sig) rfl hid hsig
  dsimp only
  rw [hvote, withCore_eq hevs]
  rcases hcase with ⟨hcollects, hmore⟩ | ⟨-, hupto, hcert, proposer, qc, hmem, hqc⟩
  · exact Or.inl ⟨⟨hcollects, hview, hqueue, hx⟩, hmore⟩
  · exact Or.inr ⟨hupto, hcert, hview, hqueue, hx, proposer, qc,
      List.mem_append_right _ (List.mem_map_of_mem hmem), hqc⟩

/-- The next leader counts its own vote. -/
theorem Received.ownVote {b : Block} {sig : Bytes} {ids : List Int64}
    (h : n.Received env.replicas cmd m b (roundVote cmd m env.id sig)) (hm : m + 1 < 2 ^ 63) (hN : 0 < depth env)
    (hnext : getLeader env (Int64.ofNat m) = env.id) (hb : IsBlock env.replicas cmd (m + 1) b)
    (hsigned : env.replicas.Signed (chainHash cmd (m + 1)) b.selfQc.signs) (hkeys : b.selfQc.signs.keys = ids)
    (hlt : (ids.length : Int) < getQuorumSize env.replicas.metadata) (hid : env.id ∉ ids)
    (hsig : env.replicas.verifyIdentity env.id sig (chainHash cmd (m + 1)) = true) :
    ∃ n', Runs env n n' ∧
      ((n'.Voting env.replicas cmd m (env.id :: ids) ∧ (ids.length : Int) + 1 < getQuorumSize env.replicas.metadata) ∨
        n'.Certified env.replicas cmd m) := by
  obtain ⟨ts, timer, hrun⟩ := h.handOver (by omega) hN
  obtain ⟨obj, hobj⟩ := h.object
  unfold Node.handOver at hrun
  dsimp only at hrun
  rw [if_neg (not_not_intro hnext)] at hrun
  exact ⟨_, hrun, count_vote (n := { n with tasks := ts, timer := timer, curView := Int64.ofNat m })
    ⟨h.core, obj, b, hobj, hb, hsigned, hkeys⟩ hm hlt hid hsig rfl h.queue h.executed⟩

private theorem chainHash_ne_nil (cmd : Nat → Bytes) (k : Nat) : chainHash cmd k ≠ [] := by
  intro h
  have hlen := congrArg List.length h
  cases k with
  | zero => simp [chainHash, genesisHash] at hlen
  | succ k => simp [chainHash] at hlen

/-- The next leader counts a vote that arrives. -/
theorem Voting.vote {ids : List Int64} (h : n.Voting env.replicas cmd m ids) (hm : m + 1 < 2 ^ 63)
    (hnext : getLeader env (Int64.ofNat m) = env.id)
    (hlt : (ids.length : Int) < getQuorumSize env.replicas.metadata) {id : Int64} (hid : id ∉ ids) {sig : Bytes}
    (hsig : env.replicas.verifyIdentity id sig (chainHash cmd (m + 1)) = true) :
    let n' := n.step env (.message id (roundVote cmd m id sig).toPb)
    (n'.Voting env.replicas cmd m (id :: ids) ∧ (ids.length : Int) + 1 < getQuorumSize env.replicas.metadata) ∨
      n'.Certified env.replicas cmd m := by
  have hstep : n.step env (.message id (roundVote cmd m id sig).toPb) =
      n.withCore (n.core.onProposalVote env.toEnv (roundVote cmd m id sig)).2 := by
    unfold step
    rw [h.core.upto.crashed, if_neg (by decide)]
    exact @handleMessage_vote env (roundVote cmd m id sig) hnext (chainHash_ne_nil cmd (m + 1)) hsig n
  dsimp only
  rw [hstep]
  exact count_vote h.core hm hlt hid hsig h.view h.queue h.executed

private theorem runs_submit (env : NodeEnv) (hc : n.core.crashed = false) (hq : n.submitC = []) {c : Bytes}
    (hne : c ≠ []) :
    ∃ ts, Runs env n { n with submitC := [c], tasks := ts } ∧ ∀ t ∈ n.tasks, t ≠ .submit c → t ∈ ts := by
  have hlen : c.length ≠ 0 := fun h => hne (List.length_eq_zero_iff.1 h)
  have hsubmit : Runs env n { n with tasks := n.tasks ++ [.submit c] } := by
    have hrun := runs_single env hc (a := .submit c) trivial
    rw [act, submit, if_neg hlen] at hrun
    exact hrun
  obtain ⟨i, hi, hrun⟩ := runs_task env (n := { n with tasks := n.tasks ++ [.submit c] }) (t := .submit c) hc
    (List.mem_append_right _ (List.mem_singleton_self _))
  have hqueue : runTask env (fun _ _ => true) 0 { n with tasks := (n.tasks ++ [Task.submit c]).eraseIdx i } (.submit c) =
      { n with submitC := [c], tasks := (n.tasks ++ [Task.submit c]).eraseIdx i } := by
    unfold runTask
    dsimp only
    rw [hq]
    rfl
  rw [hqueue] at hrun
  exact ⟨_, hsubmit.trans hrun, fun t ht hne => mem_eraseIdx_of_ne hi (List.mem_append_left _ ht) hne⟩

/-- With a quorum of votes and a command the next leader begins its round. -/
theorem Certified.ready (h : n.Certified env.replicas cmd m) (hnext : getLeader env (Int64.ofNat m) = env.id)
    (hcmd : cmd (m + 1) ≠ []) : ∃ n', Runs env n n' ∧ n'.Ready env.replicas cmd (m + 1) := by
  obtain ⟨proposer, qc, hmem, hqc⟩ := h.task
  obtain ⟨ts, hsubmit, hkept⟩ := runs_submit env h.core.crashed h.queue hcmd
  have hmem' : Task.event (.qcFinish proposer qc) ∈ ts := hkept _ hmem fun heq => by cases heq
  obtain ⟨i, -, hrun⟩ := runs_task env (n := { n with submitC := [cmd (m + 1)], tasks := ts }) h.core.crashed hmem'
  have hfinish : runTask env (fun _ _ => true) 0 { n with submitC := [cmd (m + 1)], tasks := ts.eraseIdx i }
      (.event (.qcFinish proposer qc)) =
      { n with
        submitC := [cmd (m + 1)], curView := Int64.ofNat (m + 1), tasks := ts.eraseIdx i ++ [.beat] } := by
    unfold runTask executeEvent onQcFinishEvent
    dsimp only
    rw [hqc, updateQcHigh_of_le (by rw [h.view]; exact Int64.le_refl _)]
    dsimp only
    rw [h.view, if_pos hnext, Int64.ofNat_add]
    rfl
  rw [hfinish] at hrun
  exact ⟨_, hsubmit.trans hrun, ⟨h.core, fun _ => h.cert, rfl, rfl, List.mem_append_right _ (List.mem_singleton_self _),
    h.executed⟩⟩

/-! ### The start -/

theorem at_newNode (replicas : ReplicaConf) (cmd : Nat → Bytes) : newNode.At replicas cmd 0 := by
  refine ⟨⟨⟨recentCache_newHotStuffCore, fun k hk _ => ?_⟩, rfl, rfl, rfl, rfl, rfl, rfl⟩, rfl, rfl, rfl⟩
  obtain rfl : k = 0 := by omega
  exact ⟨_, Core.object?_storeBlock_self _ genesis, isBlock_genesis⟩

theorem exists_ready_newNode (env : NodeEnv) (hcmd : cmd 0 ≠ []) :
    ∃ n', Runs env newNode n' ∧ n'.Ready env.replicas cmd 0 := by
  have hstart := at_newNode env.replicas cmd
  obtain ⟨ts, hrun, hkept⟩ := runs_submit env hstart.core.crashed rfl hcmd
  refine ⟨_, hrun, hstart.core, fun h => absurd rfl h, rfl, rfl, hkept .beat (List.mem_singleton_self _) ?_, rfl⟩
  intro heq
  cases heq

end Node

end GoHotstuff
