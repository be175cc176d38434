import GoHotstuff.Routing
import GoHotstuff.Views

/-!
# Skipping disconnected leaders

`OnNextSyncView` and `OnReceiveProposal` of the pacemaker both call themselves for the next view while the leader behind
the current view is another replica and not connected; `skips` counts these calls.  Among `N` consecutive views one
belongs to the replica itself, so that as long as the view numbers do not overflow the recursion ends, before the `N`-th
call (`exists_skips`).

`OnNextSyncView` returns from the recursive call at once, so the view-change message is made once, in the view where the
recursion ended (`onNextSyncView_of_skips`, `view_skipping`).  `OnReceiveProposal` goes on behind the recursive call and
hands the vote over there too, once for each call (`onReceiveProposal_of_skips`): exactly one hand-over is made when no
leader is skipped (`vote_handed_once`), and two when one is (`vote_handed_twice`).
-/

namespace GoHotstuff

open Lib (Bytes run)

namespace Node

/-! ### The number of skipped leaders -/

private theorem ofNat_succ_add (view : Int64) (j : Nat) : view + 1 + .ofNat j = view + .ofNat (j + 1) := by
  rw [Int64.ofNat_add]
  grind

private theorem getCurLeader_succ (env : NodeEnv) (view : Int64) (j : Nat) :
    getCurLeader env (view + .ofNat (j + 1)) = getLeader env (view + .ofNat j) := by
  have h : view + .ofNat (j + 1) = view + .ofNat j + 1 := by
    rw [Int64.ofNat_add]
    grind
  rw [h]
  rfl

private theorem skips_spec {env : NodeEnv} {status : Int64 → Bool} {k j : Nat} {view : Int64}
    (h : skips env (fun _ => status) k view = some j) :
    (∀ i < j, getLeader env (view + .ofNat i) ≠ env.id ∧ status (getLeader env (view + .ofNat i)) = false) ∧
      (getLeader env (view + .ofNat j) = env.id ∨ status (getLeader env (view + .ofNat j)) = true) := by
  induction k generalizing view j with
  | zero => cases h
  | succ k ih =>
    by_cases hend : getLeader env view = env.id ∨ status (getLeader env view) = true
    · rw [skips_succ_of_pos hend] at h
      obtain rfl := Option.some.inj h
      refine ⟨fun i hi => absurd hi (Nat.not_lt_zero i), ?_⟩
      simpa using hend
    · rw [skips_succ_of_neg hend] at h
      obtain ⟨j', hj', rfl⟩ := Option.map_eq_some_iff.1 h
      obtain ⟨hbefore, hlast⟩ := ih hj'
      rw [ofNat_succ_add] at hlast
      refine ⟨fun i hi => ?_, hlast⟩
      cases i with
      | zero => simpa [not_or] using hend
      | succ i =>
        rw [← ofNat_succ_add]
        exact hbefore i (by omega)

private theorem skips_lt {env : NodeEnv} {conn : Nat → Int64 → Bool} {k j : Nat} {view : Int64}
    (h : skips env conn k view = some j) : j < k := by
  induction k generalizing view j with
  | zero => cases h
  | succ k ih =>
    by_cases hend : getLeader env view = env.id ∨ conn k (getLeader env view) = true
    · rw [skips_succ_of_pos hend] at h
      obtain rfl := Option.some.inj h
      omega
    · rw [skips_succ_of_neg hend] at h
      obtain ⟨j', hj', rfl⟩ := Option.map_eq_some_iff.1 h
      have := ih hj'
      omega

private theorem skips_of_own {env : NodeEnv} (conn : Nat → Int64 → Bool) {k i : Nat} {view : Int64} (hi : i < k)
    (hown : getLeader env (view + .ofNat i) = env.id) : ∃ j, skips env conn k view = some j := by
  induction k generalizing view i with
  | zero => exact absurd hi (Nat.not_lt_zero i)
  | succ k ih =>
    by_cases hend : getLeader env view = env.id ∨ conn k (getLeader env view) = true
    · exact ⟨0, skips_succ_of_pos hend⟩
    · cases i with
      | zero => exact absurd (.inl (by simpa using hown)) hend
      | succ i =>
        rw [← ofNat_succ_add] at hown
        obtain ⟨j, hj⟩ := ih (by omega) hown
        rw [skips_succ_of_neg hend, hj]
        exact ⟨j + 1, rfl⟩

private theorem exists_own_view {env : NodeEnv} (hid : 0 ≤ env.id) (hid' : env.id < env.replicas.metadata.n)
    {view : Int64} (h0 : 0 ≤ view) (hmax : view.toInt + env.replicas.metadata.n.toInt < 2 ^ 63) :
    ∃ i < depth env, getLeader env (view + .ofNat i) = env.id := by
  have hd : 0 ≤ env.id.toInt := Int64.le_iff_toInt_le.1 hid
  have hdn : env.id.toInt < env.replicas.metadata.n.toInt := Int64.lt_iff_toInt_lt.1 hid'
  have hc : 0 ≤ view.toInt := Int64.le_iff_toInt_le.1 h0
  have hdepth : (depth env : Int) = env.replicas.metadata.n.toInt := Int.toNat_of_nonneg (by omega)
  -- the distance to the view, modulo `N`
  obtain ⟨i, hi⟩ := Int.eq_ofNat_of_zero_le
    (Int.emod_nonneg (env.id.toInt - (view.toInt + 1)) (b := env.replicas.metadata.n.toInt) (by omega))
  have hlt : (i : Int) < env.replicas.metadata.n.toInt := by
    rw [← hi]
    exact Int.emod_lt_of_pos _ (by omega)
  refine ⟨i, by omega, Int64.toInt_inj.1 ?_⟩
  have hsum : (view + .ofNat i + 1).toInt = view.toInt + 1 + i := by
    rw [Int64.toInt_add, Int64.toInt_add, Int64.toInt_ofNat_of_lt (by omega), Int64.toInt_one,
      Int.bmod_eq_of_le (n := view.toInt + i) (by omega) (by omega), Int.bmod_eq_of_le (by omega) (by omega)]
    omega
  calc (getLeader env (view + .ofNat i)).toInt
      = (view.toInt + 1 + i) % env.replicas.metadata.n.toInt := by
        rw [getLeader, Int64.toInt_mod, hsum, Int.tmod_eq_emod_of_nonneg (by omega)]
    _ = (view.toInt + 1 + (env.id.toInt - (view.toInt + 1))) % env.replicas.metadata.n.toInt := by
        rw [← hi, Int.add_emod_emod]
    _ = env.id.toInt := by
        rw [show view.toInt + 1 + (env.id.toInt - (view.toInt + 1)) = env.id.toInt by omega]
        exact Int.emod_eq_of_lt hd hdn

/-- The recursion ends, before the `N`-th call. -/
theorem exists_skips {env : NodeEnv} (hid : 0 ≤ env.id) (hid' : env.id < env.replicas.metadata.n) {view : Int64}
    (h0 : 0 ≤ view) (hmax : view.toInt + env.replicas.metadata.n.toInt < 2 ^ 63) (conn : Nat → Int64 → Bool) :
    ∃ j < depth env, skips env conn (depth env) view = some j := by
  obtain ⟨i, hi, hown⟩ := exists_own_view hid hid' h0 hmax
  obtain ⟨j, hj⟩ := skips_of_own conn hi hown
  exact ⟨j, skips_lt hj, hj⟩

/-! ### `OnNextSyncView` -/

/-- `OnNextSyncView` from the point where it has entered the view and does not skip its leader. -/
def syncAt (env : NodeEnv) (n : Node) : Node :=
  if getCurLeader env n.curView ≠ env.id then
    match n.startNewViewTimer.createSignedViewChange env with
    | (.error _, n) => n
    | (.ok viewMsg, m) => (m.unicast viewMsg (getCurLeader env n.curView)).clearViews
  else if n.submitC.length > 0 then
    (n.onReceiveNewView env env.id ⟨n.curView, n.core.genericQC⟩).clearViews
  else n.startNewViewTimer.clearViews

/-- The node in view `view`. -/
def inView (n : Node) (view : Int64) : Node := { n with curView := view }

/-- The whole recursion: the view is counted up, and the rest is done once, at the end. -/
theorem onNextSyncView_of_skips {env : NodeEnv} {conn : Nat → Int64 → Bool} {k j : Nat} {n : Node}
    (h : skips env conn k n.curView = some j) :
    onNextSyncView env conn k n = syncAt env (n.inView (n.curView + .ofNat (j + 1))) := by
  induction k generalizing n j with
  | zero => cases h
  | succ k ih =>
    unfold onNextSyncView
    dsimp only
    by_cases hend : getLeader env n.curView = env.id ∨ conn k (getLeader env n.curView) = true
    · rw [skips_succ_of_pos hend] at h
      obtain rfl := Option.some.inj h
      show _ = syncAt env (n.inView (n.curView + 1))
      unfold syncAt inView
      have hleader : getCurLeader env (n.curView + 1) = getLeader env n.curView := rfl
      dsimp only
      rw [hleader]
      by_cases hown : getLeader env n.curView = env.id
      · rw [if_neg (not_not_intro hown), if_neg (not_not_intro hown)]
      · rw [if_pos hown, if_pos hown]
        exact if_neg (not_not_intro (hend.resolve_left hown))
    · rw [skips_succ_of_neg hend] at h
      obtain ⟨j', hj', rfl⟩ := Option.map_eq_some_iff.1 h
      rw [not_or] at hend
      rw [if_pos hend.1, if_pos hend.2, ih (n := { n with curView := n.curView + 1 }) hj']
      show syncAt env (n.inView (n.curView + 1 + .ofNat (j' + 1))) = _
      rw [ofNat_succ_add]

private theorem processNewView_current (env : NodeEnv) {n : Node} (hfiled : n.Filed) (id : Int64) {newView : NewView}
    (hview : newView.viewNumber = n.curView) (hqc : newView.genericQc.viewNumber ≤ n.core.genericQC.viewNumber)
    (block : Block) :
    (n.processNewView env id newView block).curView = n.curView ∧
      (n.processNewView env id newView block).sent = n.sent := by
  have r := addNewViewMsg_result env n id newView
  obtain ⟨w, hframe⟩ := r.frame
  have hhigh := (r.filed hfiled).2
  have hnotNewer : ¬ newView.viewNumber > n.curView := by
    rw [hview]
    exact Int64.lt_irrefl
  unfold processNewView
  rw [if_neg (Int64.not_lt.2 hqc), if_neg hnotNewer]
  generalize n.addNewViewMsg env id newView = res at hframe hhigh ⊢
  obtain ⟨high, n'⟩ := res
  dsimp only at hframe hhigh ⊢
  subst hframe
  cases high with
  | none => exact ⟨rfl, rfl⟩
  | some m =>
    -- the message returned is for the same view, so `UpdateQcHigh` does nothing
    have hsame : m.viewNumber ≤ n.curView := Int64.le_of_eq ((hhigh m rfl).trans hview)
    dsimp only
    have hstay : ∀ x : Node, x.curView = n.curView → x.updateQcHigh m.viewNumber = x :=
      fun x hx => updateQcHigh_of_le (hx ▸ hsame)
    rw [hstay]
    · split
      · exact ⟨rfl, rfl⟩
      · exact ⟨rfl, rfl⟩
    · rfl

private theorem onReceiveNewView_own (env : NodeEnv) {n : Node} (hfiled : n.Filed) (id : Int64) (newView : NewView)
    (hview : newView.viewNumber = n.curView) (hqc : newView.genericQc = n.core.genericQC) :
    (n.onReceiveNewView env id newView).curView = n.curView ∧ (n.onReceiveNewView env id newView).sent = n.sent := by
  have hnotOlder : ¬ newView.viewNumber < n.curView := by
    rw [hview]
    exact Int64.lt_irrefl
  unfold onReceiveNewView Core.loadBlock
  rw [if_neg hnotOlder]
  cases hl : n.core.load newView.genericQc.blockHash with
  | none => exact ⟨rfl, rfl⟩
  | some block =>
    have hfiled' : Filed { n with core := n.core.touch newView.genericQc.blockHash } := hfiled
    exact processNewView_current env hfiled' id hview (Int64.le_of_eq (congrArg QuorumCert.viewNumber hqc)) block

private theorem syncAt_spec (env : NodeEnv) {n : Node} (hfiled : n.Filed) :
    (syncAt env n).curView = n.curView ∧
    ((getCurLeader env n.curView ≠ env.id ∧ ((syncAt env n).sent = n.sent ∨ ∃ data sig,
        env.marshal ⟨n.curView, n.core.genericQC⟩ = .ok data ∧ env.sign n.core.signLog.length data = .ok sig ∧
        (syncAt env n).sent = n.sent ++ [⟨some (getCurLeader env n.curView), .viewChange data sig⟩])) ∨
      (getCurLeader env n.curView = env.id ∧ (syncAt env n).sent = n.sent ∧
        (syncAt env n = (n.onReceiveNewView env env.id ⟨n.curView, n.core.genericQC⟩).clearViews ∨
          syncAt env n = n.startNewViewTimer.clearViews))) := by
  by_cases hown : getCurLeader env n.curView = env.id
  · have hself : (syncAt env n).curView = n.curView ∧ (syncAt env n).sent = n.sent ∧
        (syncAt env n = (n.onReceiveNewView env env.id ⟨n.curView, n.core.genericQC⟩).clearViews ∨
          syncAt env n = n.startNewViewTimer.clearViews) := by
      unfold syncAt
      rw [if_neg (not_not_intro hown)]
      obtain ⟨hcur, hsent⟩ := onReceiveNewView_own env hfiled env.id ⟨n.curView, n.core.genericQC⟩ rfl rfl
      split
      · exact ⟨hcur, hsent, .inl rfl⟩
      · exact ⟨rfl, rfl, .inr rfl⟩
    exact ⟨hself.1, .inr ⟨hown, hself.2⟩⟩
  · unfold syncAt
    rw [if_pos hown]
    unfold createSignedViewChange
    dsimp only [startNewViewTimer]
    cases hm : env.marshal ⟨n.curView, n.core.genericQC⟩ with
    | error e => exact ⟨rfl, .inl ⟨hown, .inl rfl⟩⟩
    | ok data =>
      dsimp only
      cases hs : env.sign n.core.signLog.length data with
      | error e => exact ⟨rfl, .inl ⟨hown, .inl rfl⟩⟩
      | ok sig => exact ⟨rfl, .inl ⟨hown, .inr ⟨data, sig, rfl, hs, rfl⟩⟩⟩

private theorem toInt_add_ofNat {view : Int64} {j : Nat} (h0 : 0 ≤ view) (h : view.toInt + j < 2 ^ 63) :
    (view + .ofNat j).toInt = view.toInt + j := by
  have hv : 0 ≤ view.toInt := Int64.le_iff_toInt_le.1 h0
  rw [Int64.toInt_add, Int64.toInt_ofNat_of_lt (by omega), Int.bmod_eq_of_le (by omega) (by omega)]

private theorem getCurLeader_between (env : NodeEnv) {view w : Int64} {j : Nat} (h0 : 0 ≤ view) (hlo : view < w)
    (hhi : w.toInt < view.toInt + (j + 1)) : ∃ i < j, getCurLeader env w = getLeader env (view + .ofNat i) := by
  have hlo' := Int64.lt_iff_toInt_lt.1 hlo
  have hw := w.toInt_lt
  obtain ⟨i, hi⟩ := Int.eq_ofNat_of_zero_le (show 0 ≤ w.toInt - (view.toInt + 1) by omega)
  have heq : w = view + .ofNat (i + 1) := by
    refine Int64.toInt_inj.1 ?_
    rw [toInt_add_ofNat h0 (by push_cast; omega)]
    push_cast
    omega
  exact ⟨i, by omega, by rw [heq, getCurLeader_succ]⟩

end Node

/-- View skipping terminates at the right view.  From a view that leaves room for `N` increments the recursion of
`OnNextSyncView` ends behind at most `N` increments, whatever the connection status.  If that does not change meanwhile,
it ends in the first view whose leader is the replica itself or connected.  A view-change message, if there is one, is for
this view and goes to its leader; as the leader itself, the replica handles its own new-view message for it. -/
theorem view_skipping (env : NodeEnv) (hid : 0 ≤ env.id) (hid' : env.id < env.replicas.metadata.n) (n : Node)
    (hfiled : n.Filed) (h0 : 0 ≤ n.curView) (hmax : n.curView.toInt + env.replicas.metadata.n.toInt < 2 ^ 63)
    (conn : Nat → Int64 → Bool) (r : Node) (hr : r = Node.onNextSyncView env conn (Node.depth env) n) :
    ∃ (j : Nat) (v : Int64), r = Node.syncAt env (n.inView v) ∧ (j : Int) + 1 ≤ env.replicas.metadata.n.toInt ∧
      v.toInt = n.curView.toInt + (j + 1) ∧ r.curView = v ∧
      (∀ status, conn = (fun _ => status) →
        (Node.getCurLeader env v = env.id ∨ status (Node.getCurLeader env v) = true) ∧
        ∀ w, n.curView < w → w < v →
          Node.getCurLeader env w ≠ env.id ∧ status (Node.getCurLeader env w) = false) ∧
      ((Node.getCurLeader env v ≠ env.id ∧ (r.sent = n.sent ∨ ∃ data sig,
          env.marshal ⟨v, n.core.genericQC⟩ = .ok data ∧ env.sign n.core.signLog.length data = .ok sig ∧
          r.sent = n.sent ++ [⟨some (Node.getCurLeader env v), .viewChange data sig⟩])) ∨
        (Node.getCurLeader env v = env.id ∧ r.sent = n.sent ∧
          (r = ((n.inView v).onReceiveNewView env env.id ⟨v, n.core.genericQC⟩).clearViews ∨
            r = (n.inView v).startNewViewTimer.clearViews))) := by
  obtain ⟨j, hj, hskips⟩ := Node.exists_skips hid hid' h0 hmax conn
  have hN : (Node.depth env : Int) = env.replicas.metadata.n.toInt := by
    have h1 := Int64.lt_iff_toInt_lt.1 hid'
    have h2 : 0 ≤ env.id.toInt := Int64.le_iff_toInt_le.1 hid
    exact Int.toNat_of_nonneg (by omega)
  have heq := Node.onNextSyncView_of_skips hskips
  rw [← hr] at heq
  have hv := Node.toInt_add_ofNat h0 (show n.curView.toInt + (j + 1 : Nat) < 2 ^ 63 by omega)
  have hleader := Node.getCurLeader_succ env n.curView j
  generalize n.curView + .ofNat (j + 1) = v at heq hv hleader
  push_cast at hv
  have hend := Node.syncAt_spec env (n := n.inView v) hfiled
  rw [← heq] at hend
  refine ⟨j, v, heq, by omega, hv, hend.1, ?_, hend.2⟩
  rintro status rfl
  obtain ⟨hbefore, hlast⟩ := Node.skips_spec hskips
  rw [hleader]
  refine ⟨hlast, fun w hlo hhi => ?_⟩
  obtain ⟨i, hi, hskipped⟩ := Node.getCurLeader_between env (j := j) h0 hlo (by
    rw [← hv]
    exact Int64.lt_iff_toInt_lt.1 hhi)
  rw [hskipped]
  exact hbefore i hi

/-- Replica `3` in view `0`, connected to replica `2` only: the leader of view `1` is skipped. -/
theorem view_skipping_server :
    ∃ v : Int64, (Node.onNextSyncView (Server.netEnv.node 3) (fun _ id => id = 2) (Node.depth (Server.netEnv.node 3))
        newNode).curView = v ∧
      (Node.getCurLeader (Server.netEnv.node 3) v = 3 ∨ Node.getCurLeader (Server.netEnv.node 3) v = 2) ∧
      ∀ w, 0 < w → w < v → Node.getCurLeader (Server.netEnv.node 3) w ≠ 3 := by
  obtain ⟨j, v, -, -, -, hcur, hleast, -⟩ := view_skipping (Server.netEnv.node 3) (by decide) (by decide) newNode
    Node.filed_newNode (by decide) (by decide) (fun _ id => id = 2) _ rfl
  obtain ⟨hlast, hbefore⟩ := hleast (fun id => id = 2) rfl
  exact ⟨v, hcur, hlast.imp id of_decide_eq_true, fun w hlo hhi => (hbefore w hlo hhi).1⟩

/-! ### `OnReceiveProposal` -/

namespace Node

/-- How often one call of `OnReceiveProposal` hands the vote over, all recursive calls counted; `none` if they do not end. -/
def handOvers (env : NodeEnv) (conn : Nat → Int64 → Bool) : Nat → Node → Int64 → Option Nat
  | 0, _, _ => none
  | k + 1, n, viewNumber =>
    let n := n.updateQcHigh viewNumber
    let recursive :=
      if getLeader env n.curView ≠ env.id ∧ ¬ conn k (getLeader env n.curView) then
        handOvers env conn k { n with curView := n.curView + 1 } (n.curView + 1)
      else some 0
    recursive.map fun j => j + 1

/-- Each skipped leader costs one hand-over more. -/
private theorem handOvers_eq (env : NodeEnv) (conn : Nat → Int64 → Bool) (k : Nat) (n : Node) (viewNumber : Int64) :
    handOvers env conn k n viewNumber =
      (skips env conn k (n.updateQcHigh viewNumber).curView).map fun j => j + 1 := by
  induction k generalizing n viewNumber with
  | zero => rfl
  | succ k ih =>
    unfold handOvers
    dsimp only
    congr 1
    by_cases h : getLeader env (n.updateQcHigh viewNumber).curView = env.id ∨
        conn k (getLeader env (n.updateQcHigh viewNumber).curView) = true
    · rw [skips_succ_of_pos h, if_neg]
      rintro ⟨hother, hconn⟩
      exact h.elim hother hconn
    · rw [skips_succ_of_neg h, if_pos (not_or.1 h), ih, updateQcHigh_of_le (Int64.le_refl _)]

end Node

/-- One vote per proposal event.  The call of `OnReceiveProposal` ends and hands the vote over once exactly if the leader
behind the view that it enters is the replica itself or connected; then it does so by one `Unicast`, or by one
`OnProposalVote` of its own. -/
theorem vote_handed_once (env : NodeEnv) (hid : 0 ≤ env.id) (hid' : env.id < env.replicas.metadata.n) (n : Node)
    (hc : n.core.crashed = false) (conn : Nat → Int64 → Bool) (proposal : Proposal) (vote : Vote) (r : Node)
    (hr : r = (Node.onReceiveProposal env conn (Node.depth env) n proposal.viewNumber vote).2) :
    (Node.handOvers env conn (Node.depth env) n proposal.viewNumber = some 1 ↔
      n.LeaderReachable env conn proposal.viewNumber) ∧
    (n.LeaderReachable env conn proposal.viewNumber →
      (Node.getLeader env proposal.viewNumber ≠ env.id ∧ r.core = n.core ∧
        r.sent = n.sent ++ [⟨some (Node.getLeader env proposal.viewNumber), vote.toPb⟩]) ∨
      (Node.getLeader env proposal.viewNumber = env.id ∧ r.core = (n.core.onProposalVote env.toEnv vote).2 ∧
        r.sent = n.sent)) := by
  have hN : 0 < Node.depth env := by
    have h1 := Int64.lt_iff_toInt_lt.1 hid'
    have h2 : 0 ≤ env.id.toInt := Int64.le_iff_toInt_le.1 hid
    exact Int.lt_toNat.2 (by push_cast; omega)
  refine ⟨?_, fun hreach => ?_⟩
  · rw [Node.handOvers_eq, ← Node.skips_eq_zero_iff hN]
    simp
  · obtain ⟨m, hcore, hsent, heq⟩ := Node.onReceiveProposal_of_reachable hN hc hreach vote
    have hone : r = m.handOver env proposal.viewNumber vote := by rw [hr, heq]
    have hcases := Node.handOver_cases env m proposal.viewNumber vote
    rw [hcore, hsent, ← hone] at hcases
    obtain ⟨hother, hsentR, hcoreR⟩ | ⟨hown, hsentR, hcoreR⟩ := hcases
    · exact .inl ⟨hother, hcoreR, hsentR⟩
    · exact .inr ⟨hown, hcoreR, hsentR⟩

/-- Replica `3` in view `0` sends its vote to replica `1`, the leader of view `1`. -/
theorem vote_handed_once_server :
    Node.handOvers (Server.netEnv.node 3) (fun _ _ => true) (Node.depth (Server.netEnv.node 3)) newNode 0 = some 1 ∧
    ∀ vote, (Node.onReceiveProposal (Server.netEnv.node 3) (fun _ _ => true) (Node.depth (Server.netEnv.node 3)) newNode
      0 vote).2.sent = [⟨some 1, vote.toPb⟩] := by
  have hreach : newNode.LeaderReachable (Server.netEnv.node 3) (fun _ _ => true) 0 := by decide
  have h := fun vote => vote_handed_once (Server.netEnv.node 3) (by decide) (by decide) newNode rfl (fun _ _ => true)
    ⟨0, genesis⟩ vote _ rfl
  refine ⟨(h ⟨0, 3, [], ⟨3, []⟩⟩).1.2 hreach, fun vote => ?_⟩
  obtain ⟨-, -, hsent⟩ | ⟨hown, -⟩ := (h vote).2 hreach
  · exact hsent
  · exact absurd hown (by decide)

/-- Replica `1` is not connected: replica `3` hands its vote over twice, both times to replica `2`, the leader of the view
behind. -/
theorem vote_handed_twice :
    Node.handOvers (Server.netEnv.node 3) (fun _ id => id ≠ 1) (Node.depth (Server.netEnv.node 3)) newNode 0 = some 2 ∧
    (Node.onReceiveProposal (Server.netEnv.node 3) (fun _ id => id ≠ 1) (Node.depth (Server.netEnv.node 3)) newNode 0
      ⟨0, 3, [7], ⟨3, [8]⟩⟩).2.sent = List.replicate 2 ⟨some 2, Vote.toPb ⟨0, 3, [7], ⟨3, [8]⟩⟩⟩ := by
  decide +kernel

end GoHotstuff
