import GoHotstuff.Rounds

/-!
# Progress

A network whose replicas have come into the loop of `Start` (`newNode`), are connected and have working signers makes
progress: there is an order of the actions in which one block is proposed in every view, by the leaders in turn, each is
certified before the next is proposed, and all replicas execute the commands in the order in which they were submitted
(`commands_executed`).  No timer expires and no view is changed on the way, every message that arrives was sent to the
replica it arrives at, and the number of commands is not limited by the size of the block cache.

The rounds follow one another because the replica that collects the votes of a round is the leader of the next
(`Net.Round.next`).  What may go wrong in a round is the subject of other modules: a leader without a command starts a view
change, a vote that arrives before its block is not counted.
-/

namespace GoHotstuff

open Lib (Bytes run StepsMeet)

/-! ### The deployment -/

/-- The replicas are numbered from 0 to `N - 1`, a quorum is more than one replica, and all signers work. -/
structure NetEnv.InOrder (E : NetEnv) : Prop where
  ids : ∀ id, id ∈ E.replicas.replicas.keys ↔ 0 ≤ id ∧ id < E.replicas.metadata.n
  size : (E.replicas.replicas.keys.length : Int) = E.replicas.metadata.n.toInt
  faulty : 0 ≤ E.replicas.metadata.f
  quorum : 2 ≤ getQuorumSize E.replicas.metadata
  signs : ∀ id ∈ E.replicas.replicas.keys, (E.node id).toEnv.SignerWorks

/-- The leader of view `m`. -/
def NetEnv.leader (E : NetEnv) (m : Nat) : Int64 := Int64.ofNat m % E.replicas.metadata.n

variable {E : NetEnv} {cmd : Nat → Bytes} {m : Nat} {net net' net'' : Net}

private theorem NetEnv.getLeader_ofNat (E : NetEnv) (id : Int64) (m : Nat) :
    Node.getLeader (E.node id) (Int64.ofNat m) = E.leader (m + 1) := by
  unfold NetEnv.leader
  rw [Int64.ofNat_add]
  rfl

namespace NetEnv.InOrder

private theorem quorum_eq (hE : E.InOrder) :
    getQuorumSize E.replicas.metadata = E.replicas.metadata.n.toInt - E.replicas.metadata.f.toInt := by
  have hf := Int64.le_iff_toInt_le.1 hE.faulty
  have hsize := hE.size
  have hn := E.replicas.metadata.n.toInt_lt
  have hf' := E.replicas.metadata.f.toInt_lt
  rw [Int64.toInt_zero] at hf
  unfold getQuorumSize
  rw [Int64.toInt_sub, Int.bmod_eq_of_le (by omega) (by omega)]

private theorem two_le (hE : E.InOrder) : 2 ≤ E.replicas.metadata.n.toInt := by
  have hf := Int64.le_iff_toInt_le.1 hE.faulty
  have hq := hE.quorum
  rw [hE.quorum_eq] at hq
  rw [Int64.toInt_zero] at hf
  omega

private theorem depth_pos (hE : E.InOrder) (id : Int64) : 0 < Node.depth (E.node id) := by
  have h := hE.two_le
  have hdepth : E.replicas.metadata.n.toInt.toNat = Node.depth (E.node id) := rfl
  omega

private theorem toInt_leader (hE : E.InOrder) (hm : m < 2 ^ 63) :
    (E.leader m).toInt = m % E.replicas.metadata.n.toInt := by
  have h := hE.two_le
  unfold leader
  rw [Int64.toInt_mod, Int64.toInt_ofNat_of_lt hm, Int.tmod_eq_emod_of_nonneg (by omega)]

private theorem leader_mem (hE : E.InOrder) (hm : m < 2 ^ 63) : E.leader m ∈ E.replicas.replicas.keys := by
  have h := hE.two_le
  rw [hE.ids, Int64.le_iff_toInt_le, Int64.lt_iff_toInt_lt, hE.toInt_leader hm, Int64.toInt_zero]
  exact ⟨Int.emod_nonneg _ (by omega), Int.emod_lt_of_pos _ (by omega)⟩

private theorem leader_ne (hE : E.InOrder) (hm : m + 1 < 2 ^ 63) : E.leader m ≠ E.leader (m + 1) := by
  intro heq
  have h := hE.two_le
  have hmod := congrArg Int64.toInt heq
  rw [hE.toInt_leader (by omega), hE.toInt_leader hm, eq_comm, Int.emod_eq_emod_iff_emod_sub_eq_zero,
    show ((m + 1 : Nat) : Int) - m = 1 by omega, Int.emod_eq_of_lt (by omega) (by omega)] at hmod
  omega

end NetEnv.InOrder

/-! ### Runs without delay -/

namespace Net

/-- A step of a network in which all goes well: an action of the replica itself, or the arrival of a message that its source
has sent to it. -/
def Prompt (E : NetEnv) (net : Net) (x : Int64 × Action) : Prop :=
  x.1 ∈ E.replicas.replicas.keys ∧
    (x.2.Local ∨ ∃ src ∈ E.replicas.replicas.keys, ∃ sent ∈ (net src).sent,
      x.2 = .message src sent.msg ∧ src ≠ x.1 ∧ (sent.dest = none ∨ sent.dest = some x.1))

/-- Such steps lead from `net` to `net'`. -/
def Leads (E : NetEnv) (net net' : Net) : Prop :=
  ∃ acts, StepsMeet (step E) (Prompt E) net acts ∧ run (step E) net acts = net'

private theorem Leads.refl (net : Net) : Leads E net net := ⟨[], trivial, rfl⟩

private theorem Leads.trans (h : Leads E net net') (h' : Leads E net' net'') : Leads E net net'' := by
  obtain ⟨acts, hacts, rfl⟩ := h
  obtain ⟨acts', hacts', rfl⟩ := h'
  exact ⟨acts ++ acts', Lib.stepsMeet_append.2 ⟨hacts, hacts'⟩, Lib.run_append ..⟩

/-- A replica acts alone. -/
private theorem leads_of_runs {id : Int64} (hid : id ∈ E.replicas.replicas.keys) {n : Node}
    (h : Node.Runs (E.node id) (net id) n) : Leads E net (Function.update net id n) := by
  obtain ⟨as, has, hrun⟩ := h
  induction as generalizing net with
  | nil =>
    have hn : net id = n := hrun
    rw [← hn, Function.update_eq_self]
    exact .refl net
  | cons a as ih =>
    have hself : net.step E (id, a) id = (net id).step (E.node id) a := step_self E net (id, a)
    obtain ⟨acts, hacts, heq⟩ := @ih (net.step E (id, a)) (fun b hb => has b (List.mem_cons_of_mem a hb)) (by
      rw [hself]
      exact hrun)
    refine ⟨(id, a) :: acts, ⟨⟨hid, Or.inl (has a List.mem_cons_self)⟩, hacts⟩, ?_⟩
    rw [Lib.run_cons, heq]
    exact Function.update_idem _ _ _

/-- A message arrives, and the replica acts alone behind it. -/
private theorem leads_of_message {id src : Int64} (hid : id ∈ E.replicas.replicas.keys)
    (hsrc : src ∈ E.replicas.replicas.keys)
    (hne : src ≠ id) {dest : Option Int64} {msg : Pb.Message} (hsent : ⟨dest, msg⟩ ∈ (net src).sent)
    (hdest : dest = none ∨ dest = some id) {n : Node}
    (h : Node.Runs (E.node id) ((net id).step (E.node id) (.message src msg)) n) :
    Leads E net (Function.update net id n) := by
  have hself : net.step E (id, .message src msg) id = (net id).step (E.node id) (.message src msg) :=
    step_self E net (id, .message src msg)
  have hfirst : Leads E net (net.step E (id, .message src msg)) :=
    ⟨[(id, .message src msg)], ⟨⟨hid, Or.inr ⟨src, hsrc, _, hsent, rfl, hne, hdest⟩⟩, trivial⟩, rfl⟩
  have hrest : Leads E (net.step E (id, .message src msg)) (Function.update (net.step E (id, .message src msg)) id n) :=
    leads_of_runs hid (by
      rw [hself]
      exact h)
  have heq : Function.update (net.step E (id, .message src msg)) id n = Function.update net id n :=
    Function.update_idem _ _ _
  rw [heq] at hrest
  exact hfirst.trans hrest

/-- The replicas `ids` act one after the other. -/
private theorem leads_all {ids : List Int64} (hnodup : ids.Nodup) {P : Int64 → Node → Prop}
    (h : ∀ net' : Net, (∀ id ∉ ids, net' id = net id) → ∀ id ∈ ids, net' id = net id →
      ∃ n, P id n ∧ Leads E net' (Function.update net' id n)) :
    ∃ net', Leads E net net' ∧ (∀ id ∈ ids, P id (net' id)) ∧ ∀ id ∉ ids, net' id = net id := by
  induction ids with
  | nil => exact ⟨net, .refl net, fun id hid => absurd hid List.not_mem_nil, fun _ _ => rfl⟩
  | cons id ids ih =>
    obtain ⟨hid, hnodup⟩ := List.nodup_cons.1 hnodup
    obtain ⟨net', hlead, hP, hrest⟩ := ih hnodup fun net' hout id' hid' heq =>
      h net' (fun x hx => hout x fun hx' => hx (List.mem_cons_of_mem id hx')) id' (List.mem_cons_of_mem id hid') heq
    obtain ⟨n, hn, hlead'⟩ := h net' (fun x hx => hrest x fun hx' => hx (List.mem_cons_of_mem id hx')) id List.mem_cons_self
      (hrest id hid)
    refine ⟨Function.update net' id n, hlead.trans hlead', fun x hx => ?_, fun x hx => ?_⟩
    · by_cases hxid : x = id
      · rw [hxid, Function.update_self]
        exact hn
      · rw [Function.update_of_ne hxid]
        exact hP x ((List.mem_cons.1 hx).resolve_left hxid)
    · rw [Function.update_of_ne (List.ne_of_not_mem_cons hx)]
      exact hrest x fun hx' => hx (List.mem_cons_of_mem id hx')

/-! ### One round -/

/-- The next leader has votes by `ids`; with those that the replicas `vs` have sent they become a quorum. -/
private theorem exists_certified (hE : E.InOrder) (hm : m + 1 < 2 ^ 63) {ids vs : List Int64}
    (hv : (net (E.leader (m + 1))).Voting E.replicas cmd m ids) (hown : E.leader (m + 1) ∈ ids)
    (hlt : (ids.length : Int) < getQuorumSize E.replicas.metadata)
    (hle : getQuorumSize E.replicas.metadata ≤ ids.length + vs.length) (hnodup : vs.Nodup) (hdisj : ∀ id ∈ vs, id ∉ ids)
    (hsent : ∀ id ∈ vs, id ∈ E.replicas.replicas.keys ∧ ∃ sig,
      ⟨some (E.leader (m + 1)), (Node.roundVote cmd m id sig).toPb⟩ ∈ (net id).sent ∧
      E.replicas.verifyIdentity id sig (chainHash cmd (m + 1)) = true) :
    ∃ n, Leads E net (Function.update net (E.leader (m + 1)) n) ∧ n.Certified E.replicas cmd m := by
  induction vs generalizing net ids with
  | nil =>
    rw [List.length_nil] at hle
    omega
  | cons id vs ih =>
    obtain ⟨hid, hnodup⟩ := List.nodup_cons.1 hnodup
    obtain ⟨hkey, sig, hmem, hsig⟩ := hsent id List.mem_cons_self
    have hnew := hdisj id List.mem_cons_self
    have hne : id ≠ E.leader (m + 1) := fun heq => hnew (heq ▸ hown)
    have hstep := @Node.Voting.vote (E.node (E.leader (m + 1))) cmd m _ ids hv hm (E.getLeader_ofNat _ m) hlt id hnew sig hsig
    have hlead := leads_of_message (hE.leader_mem hm) hkey hne hmem (Or.inr rfl) (Node.Runs.refl _)
    rcases hstep with ⟨hv', hmore⟩ | hcert
    · generalize (net (E.leader (m + 1))).step (E.node (E.leader (m + 1)))
        (.message id (Node.roundVote cmd m id sig).toPb) = n1 at hlead hv'
      have hlen : ((id :: ids).length : Int) = ids.length + 1 := by rw [List.length_cons]; omega
      obtain ⟨n, hlead', hcert⟩ := @ih (Function.update net (E.leader (m + 1)) n1) (id :: ids)
        (by rw [Function.update_self]; exact hv') (List.mem_cons_of_mem id hown) (by rw [hlen]; exact hmore)
        (by rw [hlen]; rw [List.length_cons] at hle; omega) hnodup (by
          intro x hx hmem'
          rcases List.mem_cons.1 hmem' with rfl | hmem'
          · exact hid hx
          · exact hdisj x (List.mem_cons_of_mem id hx) hmem') (by
          intro x hx
          have hx' := List.mem_cons_of_mem id hx
          have hne' : x ≠ E.leader (m + 1) := fun heq => hdisj x hx' (heq ▸ hown)
          rw [Function.update_of_ne hne']
          exact hsent x hx')
      rw [Function.update_idem] at hlead'
      exact ⟨n, hlead.trans hlead', hcert⟩
    · exact ⟨_, hlead, hcert⟩

/-- Round `m` can begin. -/
structure Round (E : NetEnv) (cmd : Nat → Bytes) (m : Nat) (net : Net) : Prop where
  leader : (net (E.leader m)).Ready E.replicas cmd m
  others : ∀ id ∈ E.replicas.replicas.keys, id ≠ E.leader m → (net id).At E.replicas cmd m

/-- A replica other than the two leaders takes part. -/
private theorem exists_voted (hE : E.InOrder) (hm : m + 1 < 2 ^ 63)
    (hnew : ∀ k ≤ m, chainHash cmd k ≠ chainHash cmd (m + 1)) {b : Block} (hb : IsBlock E.replicas cmd (m + 1) b)
    (hsent : ⟨none, .proposal (Int64.ofNat m) (some b.toPb)⟩ ∈ (net (E.leader m)).sent) {id : Int64}
    (hid : id ∈ E.replicas.replicas.keys) (hne : id ≠ E.leader m) (hne' : id ≠ E.leader (m + 1))
    (hat : (net id).At E.replicas cmd m) :
    ∃ n, (n.At E.replicas cmd (m + 1) ∧ ∃ sig,
        ⟨some (E.leader (m + 1)), (Node.roundVote cmd m id sig).toPb⟩ ∈ n.sent ∧
        E.replicas.verifyIdentity id sig (chainHash cmd (m + 1)) = true) ∧
      Leads E net (Function.update net id n) := by
  obtain ⟨n1, sig, hrun1, hrecv, hsig⟩ := @Node.At.receive (E.node id) cmd m _ hat hm hnew (hE.signs id hid) b hb (E.leader m)
  obtain ⟨n2, hrun2, hat', hvote⟩ := @Node.Received.sendVote (E.node id) cmd m _ b _ hrecv (by omega) (hE.depth_pos id)
    (by rw [E.getLeader_ofNat]; exact hne'.symm)
  rw [E.getLeader_ofNat] at hvote
  exact ⟨n2, ⟨hat', sig, hvote, hsig⟩,
    leads_of_message hid (hE.leader_mem (by omega)) hne.symm hsent (Or.inl rfl) (hrun1.trans hrun2)⟩

/-- The next leader takes part. -/
private theorem exists_ownVote (hE : E.InOrder) (hm : m + 1 < 2 ^ 63)
    (hnew : ∀ k ≤ m, chainHash cmd k ≠ chainHash cmd (m + 1)) {b : Block} (hb : IsBlock E.replicas cmd (m + 1) b)
    (hsigned : E.replicas.Signed (chainHash cmd (m + 1)) b.selfQc.signs) (hkeys : b.selfQc.signs.keys = [E.leader m])
    (hsent : ⟨none, .proposal (Int64.ofNat m) (some b.toPb)⟩ ∈ (net (E.leader m)).sent)
    (hat : (net (E.leader (m + 1))).At E.replicas cmd m) :
    ∃ n, Leads E net (Function.update net (E.leader (m + 1)) n) ∧
      ((n.Voting E.replicas cmd m [E.leader (m + 1), E.leader m] ∧ 2 < getQuorumSize E.replicas.metadata) ∨
        n.Certified E.replicas cmd m) := by
  have hne := hE.leader_ne hm
  have hlt : (([E.leader m].length : Nat) : Int) < getQuorumSize E.replicas.metadata := by
    rw [List.length_singleton]
    exact hE.quorum
  obtain ⟨n1, sig, hrun1, hrecv, hsig⟩ := @Node.At.receive (E.node (E.leader (m + 1))) cmd m _ hat hm hnew
    (hE.signs _ (hE.leader_mem hm)) b hb (E.leader m)
  obtain ⟨n2, hrun2, hcase⟩ := @Node.Received.ownVote (E.node (E.leader (m + 1))) cmd m _ b sig [E.leader m] hrecv hm
    (hE.depth_pos _) (E.getLeader_ofNat _ m) hb hsigned hkeys hlt (fun hmem => hne (List.mem_singleton.1 hmem).symm)
    hsig
  refine ⟨n2, leads_of_message (hE.leader_mem hm) (hE.leader_mem (by omega)) hne hsent (Or.inl rfl) (hrun1.trans hrun2),
    hcase.imp_left fun h => ⟨h.1, h.2⟩⟩

/-- One round: the block is proposed, voted for and certified. -/
theorem Round.next (h : Round E cmd m net) (hE : E.InOrder) (hm : m + 1 < 2 ^ 63)
    (hnew : ∀ k ≤ m, chainHash cmd k ≠ chainHash cmd (m + 1)) (hcmd : cmd (m + 1) ≠ []) :
    ∃ net', Leads E net net' ∧ Round E cmd (m + 1) net' := by
  have hne := hE.leader_ne hm
  have hL := hE.leader_mem (by omega : m < 2 ^ 63)
  have hL' := hE.leader_mem hm
  -- the leader
  obtain ⟨n0, b, hrun0, hat0, hb, hsigned, hkeys, hsent⟩ := @Node.Ready.propose (E.node (E.leader m)) cmd m _ h.leader hm hnew
    (hE.signs _ hL) hE.quorum rfl (by rw [E.getLeader_ofNat]; exact hne.symm)
  have hlead0 : Leads E net (Function.update net (E.leader m) n0) := leads_of_runs hL hrun0
  -- the next leader
  obtain ⟨n1, hlead1, hcase⟩ := @exists_ownVote E cmd m (Function.update net (E.leader m) n0) hE hm hnew b hb hsigned hkeys
    (by rw [Function.update_self]; exact hsent)
    (by rw [Function.update_of_ne hne.symm]; exact h.others _ hL' hne.symm)
  obtain ⟨net1, hnet1⟩ : ∃ net1, net1 = Function.update (Function.update net (E.leader m) n0) (E.leader (m + 1)) n1 :=
    ⟨_, rfl⟩
  have hnet1L : net1 (E.leader m) = n0 := by rw [hnet1, Function.update_of_ne hne, Function.update_self]
  have hnet1L' : net1 (E.leader (m + 1)) = n1 := by rw [hnet1, Function.update_self]
  rw [← hnet1] at hlead1
  -- the others
  obtain ⟨vs, hvs⟩ : ∃ vs, vs = (E.replicas.replicas.keys.erase (E.leader m)).erase (E.leader (m + 1)) := ⟨_, rfl⟩
  have hkeysnodup := E.replicas.replicas.keys_nodup
  have hvsnodup : vs.Nodup := hvs ▸ (hkeysnodup.erase _).erase _
  have hmemvs : ∀ id, id ∈ vs ↔ id ≠ E.leader (m + 1) ∧ id ≠ E.leader m ∧ id ∈ E.replicas.replicas.keys := by
    intro id
    rw [hvs, (hkeysnodup.erase _).mem_erase_iff, hkeysnodup.mem_erase_iff]
  obtain ⟨net2, hlead2, hvoted, hrest⟩ := @leads_all E net1 vs hvsnodup (fun id n => n.At E.replicas cmd (m + 1) ∧ ∃ sig,
      ⟨some (E.leader (m + 1)), (Node.roundVote cmd m id sig).toPb⟩ ∈ n.sent ∧
      E.replicas.verifyIdentity id sig (chainHash cmd (m + 1)) = true) (by
    intro net' hout id hid heq
    obtain ⟨hid1, hid2, hid3⟩ := (hmemvs id).1 hid
    refine exists_voted hE hm hnew hb ?_ hid3 hid2 hid1 ?_
    · rw [hout _ fun hmem => ((hmemvs _).1 hmem).2.1 rfl, hnet1L]
      exact hsent
    · rw [heq, hnet1, Function.update_of_ne hid1, Function.update_of_ne hid2]
      exact h.others id hid3 hid2)
  have hnet2L' : net2 (E.leader (m + 1)) = n1 := (hrest _ fun hmem => ((hmemvs _).1 hmem).1 rfl).trans hnet1L'
  -- the votes
  obtain ⟨n3, hlead3, hcert⟩ : ∃ n, Leads E net2 (Function.update net2 (E.leader (m + 1)) n) ∧
      n.Certified E.replicas cmd m := by
    rcases hcase with ⟨hv, hlt⟩ | hcert
    · have hlen : vs.length + 2 = E.replicas.replicas.keys.length := by
        have hpos := List.length_pos_of_mem hL
        have hmem : E.leader (m + 1) ∈ E.replicas.replicas.keys.erase (E.leader m) :=
          hkeysnodup.mem_erase_iff.2 ⟨hne.symm, hL'⟩
        have hpos' := List.length_pos_of_mem hmem
        rw [List.length_erase_of_mem hL] at hpos'
        rw [hvs, List.length_erase_of_mem hmem, List.length_erase_of_mem hL]
        omega
      have hf := Int64.le_iff_toInt_le.1 hE.faulty
      have hsize := hE.size
      have hq := hE.quorum_eq
      rw [Int64.toInt_zero] at hf
      refine @exists_certified E cmd m net2 hE hm [E.leader (m + 1), E.leader m] vs (hnet2L'.symm ▸ hv)
        List.mem_cons_self hlt ?_ hvsnodup ?_ ?_
      · show _ ≤ ((2 : Nat) : Int) + vs.length
        omega
      · intro id hid hmem
        obtain ⟨hid1, hid2, -⟩ := (hmemvs id).1 hid
        simp [hid1, hid2] at hmem
      · exact fun id hid => ⟨((hmemvs id).1 hid).2.2, (hvoted id hid).2⟩
    · refine ⟨n1, ?_, hcert⟩
      rw [← hnet2L', Function.update_eq_self]
      exact .refl net2
  obtain ⟨n4, hrun4, hready⟩ := @Node.Certified.ready (E.node (E.leader (m + 1))) cmd m _ hcert (E.getLeader_ofNat _ m) hcmd
  have hlead4 : Leads E (Function.update net2 (E.leader (m + 1)) n3) (Function.update net2 (E.leader (m + 1)) n4) := by
    have hlead : Leads E (Function.update net2 (E.leader (m + 1)) n3)
        (Function.update (Function.update net2 (E.leader (m + 1)) n3) (E.leader (m + 1)) n4) :=
      leads_of_runs hL' (by rw [Function.update_self]; exact hrun4)
    rwa [Function.update_idem] at hlead
  refine ⟨_, (((hlead0.trans hlead1).trans hlead2).trans hlead3).trans hlead4, ?_, fun id hid hidL => ?_⟩
  · rw [Function.update_self]
    exact hready
  · rw [Function.update_of_ne hidL]
    by_cases hidL0 : id = E.leader m
    · rw [hidL0, hrest _ fun hmem => ((hmemvs _).1 hmem).2.1 rfl, hnet1L]
      exact hat0
    · exact (hvoted id ((hmemvs id).2 ⟨hidL, hidL0, hid⟩)).1

/-- The first round. -/
private theorem exists_round_zero (hE : E.InOrder) (hcmd : cmd 0 ≠ []) :
    ∃ net', Leads E start net' ∧ Round E cmd 0 net' := by
  obtain ⟨n, hrun, hready⟩ := Node.exists_ready_newNode (E.node (E.leader 0)) hcmd
  have hlead : Leads E start (Function.update start (E.leader 0) n) := leads_of_runs (hE.leader_mem (by decide)) hrun
  refine ⟨_, hlead, ?_, fun id _ hne => ?_⟩
  · rw [Function.update_self]
    exact hready
  · rw [Function.update_of_ne hne]
    exact Node.at_newNode E.replicas cmd

/-- Any number of rounds. -/
private theorem exists_round (hE : E.InOrder) (hcmd : ∀ k, cmd k ≠ []) (hm : m < 2 ^ 63)
    (hinj : ∀ j ≤ m, ∀ k ≤ m, chainHash cmd j = chainHash cmd k → j = k) :
    ∃ net', Leads E start net' ∧ Round E cmd m net' := by
  induction m with
  | zero => exact exists_round_zero hE (hcmd 0)
  | succ m ih =>
    obtain ⟨net, hlead, hround⟩ := ih (by omega) fun j hj k hk => hinj j (by omega) k (by omega)
    obtain ⟨net', hlead', hround'⟩ := hround.next hE hm
      (fun k hk heq => absurd (hinj k (by omega) (m + 1) (Nat.le_refl _) heq) (by omega)) (hcmd (m + 1))
    exact ⟨net', hlead.trans hlead', hround'⟩

theorem Round.executed (h : Round E cmd m net) {id : Int64} (hid : id ∈ E.replicas.replicas.keys) :
    (net id).executed = (List.range (m - 3)).map cmd := by
  by_cases hL : id = E.leader m
  · rw [hL]
    exact h.leader.executed
  · exact (h.others id hid hL).executed

end Net

/-- In a network of connected replicas with working signers that are past `wal.startNode`, for any commands and any number
`n` there is a run in which all replicas execute the first `n` commands, in the order given, one block for each.  The hashes of the blocks must be
different, which only a collision of SHA-256 could spoil. -/
theorem commands_executed (E : NetEnv) (hE : E.InOrder) (cmd : Nat → Bytes) (hcmd : ∀ k, cmd k ≠ []) (n : Nat)
    (hn : n + 3 < 2 ^ 63) (hinj : ∀ j ≤ n + 3, ∀ k ≤ n + 3, chainHash cmd j = chainHash cmd k → j = k) :
    ∃ acts, StepsMeet (Net.step E) (Net.Prompt E) Net.start acts ∧
      ∀ id ∈ E.replicas.replicas.keys, (run (Net.step E) Net.start acts id).executed = (List.range n).map cmd := by
  obtain ⟨net, ⟨acts, hacts, rfl⟩, hround⟩ := Net.exists_round hE hcmd hn hinj
  exact ⟨acts, hacts, fun id hid => hround.executed hid⟩

private theorem Server.inOrder : Server.netEnv.InOrder where
  ids id := by
    have hmem : id ∈ Server.replicas.replicas.keys ↔ id = 0 ∨ id = 1 ∨ id = 2 ∨ id = 3 := by
      show id ∈ [0, 1, 2, 3] ↔ _
      simp
    show id ∈ Server.replicas.replicas.keys ↔ 0 ≤ id ∧ id < 4
    rw [hmem, Int64.le_iff_toInt_le, Int64.lt_iff_toInt_lt]
    constructor
    · rintro (rfl | rfl | rfl | rfl) <;> decide
    · intro h
      simp only [← Int64.toInt_inj]
      have h3 : (3 : Int64).toInt = 3 := rfl
      have h4 : (4 : Int64).toInt = 4 := rfl
      have h2 : (2 : Int64).toInt = 2 := rfl
      rw [h4, Int64.toInt_zero] at h
      rw [Int64.toInt_zero, Int64.toInt_one, h2, h3]
      omega
  size := rfl
  faulty := by decide
  quorum := by decide
  signs id hid k data := ⟨Server.sign id data, rfl, Server.verifyIdentity_sign hid data⟩

theorem commands_executed_server :
    ∃ acts, StepsMeet (Net.step Server.netEnv) (Net.Prompt Server.netEnv) Net.start acts ∧
      ∀ id ∈ Server.replicas.replicas.keys, (run (Net.step Server.netEnv) Net.start acts id).executed = [[1], [1]] :=
  commands_executed Server.netEnv Server.inOrder (fun _ => [1]) (fun _ => List.cons_ne_nil _ _) 2 (by decide)
    (by decide +kernel)

end GoHotstuff
