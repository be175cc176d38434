import GoHotstuff.CoreSpec
import GoHotstuff.Lib.Run

/-!
# Steps of the core

`CoreOp` are the calls the rest of the program makes on a core, each run without interruption: the handlers for
proposals and votes, a new-view message handed to the pacemaker, and what the pacemaker does on its own account, that
is look-ups, `UpdateHighestQC` with a block it has just looked up under the certificate's hash, and signatures on new-view
messages.  A call after a crash is possible here and not in the program, so that runs of the core are more than those
of the program.

`step_cases` says what a call can do to the state.
-/

namespace GoHotstuff

open Lib (Bytes encodeToString run)

inductive CoreOp where
  | propose (curView : Int64) (parentHash cmds : Bytes) (now : Int64)
  | receive (prop : Proposal)
  | resume (i : Nat)
  | vote (vote : Vote)
  | newView (id : Int64) (view : NewView)
  | look (hash : Bytes)
  | adopt (qc : QuorumCert)
  | sign (data : Bytes)
  | crash

namespace Core

/-- The block under the certificate's hash is looked up and given to `UpdateHighestQC` with the certificate. -/
def adoptQC (env : Env) (s : Core) (qc : QuorumCert) : Core :=
  match s.loadBlock qc.blockHash with
  | (none, s) => s
  | (some block, s) => s.updateHighestQC env block qc none

/-- The signer is called on something that is not a block hash. -/
def signData (env : Env) (s : Core) (data : Bytes) : Core :=
  { s with signLog := s.signLog ++ [(data, (env.sign s.signLog.length data).toOption)] }

def step (env : Env) (s : Core) : CoreOp → Core
  | .propose curView parentHash cmds now => (s.onPropose env curView parentHash cmds now).2
  | .receive prop => (s.onReceiveProposal env prop).2
  | .resume i => (s.resumeProposal env i).2
  | .vote vote => (s.onProposalVote env vote).2
  | .newView id view => s.notify (.receiveNewView id view)
  | .look hash => s.touch hash
  | .adopt qc => s.adoptQC env qc
  | .sign data => s.signData env data
  | .crash => s.crash

/-! ### Proposals -/

/-- What `OnReceiveProposal` can do from the point where the justify block has been found.  `vh` is the vote height it
leaves. -/
inductive ProcessResult (env : Env) (s : Core) (prop : Proposal) : Core → Prop
  | updateError {e : CoreError} {s' : Core} (hu : s.update env prop.block = (.error e, s')) :
      ProcessResult env s prop s'
  | checkError {s1 s' : Core} (hu : s.update env prop.block = (.ok (), s1)) (hv : ¬ s1.MayVote prop.block)
      (q : Quiet s1 s') : ProcessResult env s prop s'
  | signError {vh : Int64} {s1 s2 : Core} (hu : s.update env prop.block = (.ok (), s1))
      (hv : (s1.MayVote prop.block ∧ vh = prop.block.height) ∨ (¬ s1.MayVote prop.block ∧ vh = s1.voteHeight))
      (q : Quiet (s1.setVoteHeight vh) s2) :
      ProcessResult env s prop { s2 with signLog := s2.signLog ++ [(prop.block.selfQc.blockHash, none)] }
  | voted {vh : Int64} {sig : Bytes} {vote : Vote} {s1 s2 : Core} (hu : s.update env prop.block = (.ok (), s1))
      (hv : (s1.MayVote prop.block ∧ vh = prop.block.height) ∨ (¬ s1.MayVote prop.block ∧ vh = s1.voteHeight))
      (q : Quiet (s1.setVoteHeight vh) s2)
      (hvote : vote = ⟨prop.viewNumber, env.id, prop.block.selfQc.blockHash, ⟨env.id, sig⟩⟩)
      (hsig : env.sign s2.signLog.length prop.block.selfQc.blockHash = .ok sig) :
      ProcessResult env s prop (notify { s2 with
        signLog := s2.signLog ++ [(prop.block.selfQc.blockHash, some sig)]
        votes := s2.votes ++ [⟨prop.block.height, vote⟩] } (.receiveProposal prop vote))

theorem processProposal_cases (env : Env) (s : Core) (prop : Proposal) :
    ProcessResult env s prop (s.processProposal env prop).2 := by
  unfold processProposal
  generalize hu : s.update env prop.block = r
  obtain ⟨r, s1⟩ := r
  cases r with
  | error e => exact .updateError hu
  | ok _ =>
    simp only
    have hc := checkVote_cases s1 prop.block
    generalize s1.checkVote prop.block = r at hc
    obtain ⟨r, s2⟩ := r
    cases r with
    | error e =>
      rcases hc with ⟨_, -, hq, hv⟩ | ⟨hr, -⟩ | ⟨hr, -⟩
      · exact .checkError hu hv hq
      · cases hr
      · cases hr
    | ok _ =>
      obtain ⟨vh, hv, hq⟩ : ∃ vh, ((s1.MayVote prop.block ∧ vh = prop.block.height) ∨
          (¬ s1.MayVote prop.block ∧ vh = s1.voteHeight)) ∧ Quiet (s1.setVoteHeight vh) s2 := by
        rcases hc with ⟨_, hr, -⟩ | ⟨-, hq, hv⟩ | ⟨-, hq, hv⟩
        · cases hr
        · exact ⟨s1.voteHeight, Or.inr ⟨hv, rfl⟩, hq⟩
        · exact ⟨prop.block.height, Or.inl ⟨hv, rfl⟩, hq⟩
      simp only
      rcases voteProposal_cases env s2 prop.viewNumber prop.block.height prop.block.selfQc.blockHash with
        ⟨e, heq⟩ | ⟨sig, hsig, heq⟩
      · rw [heq]
        exact .signError hu hv hq
      · rw [heq]
        exact .voted hu hv hq rfl hsig

/-- What `OnPropose` can do once it has made the block `b` and stored it. -/
inductive ProposeResult (env : Env) (s : Core) (curView : Int64) (b : Block) : Core → Prop
  | updateError {e : CoreError} {s' : Core} (hu : s.update env b = (.error e, s')) : ProposeResult env s curView b s'
  | signError {s1 : Core} (hu : s.update env b = (.ok (), s1)) :
      ProposeResult env s curView b { s1.setVoteHeight b.height with
        signLog := s1.signLog ++ [(b.selfQc.blockHash, none)] }
  | voted {sig : Bytes} {vote : Vote} {r : Except CoreError Unit} {s1 s3 s' : Core}
      (hu : s.update env b = (.ok (), s1))
      (hvote : vote = ⟨curView, env.id, b.selfQc.blockHash, ⟨env.id, sig⟩⟩)
      (v : VoteResult env { s1.setVoteHeight b.height with
        signLog := s1.signLog ++ [(b.selfQc.blockHash, some sig)]
        votes := s1.votes ++ [⟨b.height, vote⟩] } vote r s3)
      (hs' : s' = s3 ∨ s' = s3.notify (.propose ⟨curView, (s3.load b.selfQc.blockHash).getD b⟩))
      (hsig : env.sign s1.signLog.length b.selfQc.blockHash = .ok sig) : ProposeResult env s curView b s'

theorem onPropose_cases (env : Env) (s : Core) (curView : Int64) (parentHash cmds : Bytes) (now : Int64) :
    Quiet s (s.onPropose env curView parentHash cmds now).2 ∨
    ∃ parent, s.load parentHash = some parent ∧
      s.voteHeight < (s.newBlock env curView parentHash cmds parent now).height ∧
      ProposeResult env ((s.touch parentHash).storeBlock (s.newBlock env curView parentHash cmds parent now)) curView
        (s.newBlock env curView parentHash cmds parent now) (s.onPropose env curView parentHash cmds now).2 := by
  unfold onPropose loadBlock
  cases hl : s.load parentHash with
  | none => exact Or.inl (quiet_touch s _)
  | some parent =>
    have hb : (s.touch parentHash).newBlock env curView parentHash cmds parent now =
      s.newBlock env curView parentHash cmds parent now := rfl
    simp only [hb]
    by_cases hh : (s.newBlock env curView parentHash cmds parent now).height ≤ (s.touch parentHash).voteHeight
    · rw [if_pos hh]
      exact Or.inl (quiet_touch s _)
    rw [if_neg hh]
    right
    have hlt : s.voteHeight < (s.newBlock env curView parentHash cmds parent now).height := by
      have hv : (s.touch parentHash).voteHeight = s.voteHeight := rfl
      rw [hv] at hh
      lia
    refine ⟨parent, rfl, hlt, ?_⟩
    generalize s.newBlock env curView parentHash cmds parent now = b
    generalize hu : ((s.touch parentHash).storeBlock b).update env b = r
    obtain ⟨r, s1⟩ := r
    cases r with
    | error e => exact .updateError hu
    | ok _ =>
      simp only
      rcases voteProposal_cases env (s1.setVoteHeight b.height) curView b.height b.selfQc.blockHash with
        ⟨e, heq⟩ | ⟨sig, hsig, heq⟩
      · rw [heq]
        exact .signError hu
      · rw [heq]
        simp only
        generalize hvote : (⟨curView, env.id, b.selfQc.blockHash, ⟨env.id, sig⟩⟩ : Vote) = vote
        generalize hs2 : ({ s1.setVoteHeight b.height with
          signLog := (s1.setVoteHeight b.height).signLog ++ [(b.selfQc.blockHash, some sig)]
          votes := (s1.setVoteHeight b.height).votes ++ [⟨b.height, vote⟩] } : Core) = s2
        have hv := onProposalVote_cases env s2 vote
        generalize s2.onProposalVote env vote = r at hv
        obtain ⟨r, s3⟩ := r
        subst hs2
        cases r with
        | error e => exact .voted hu hvote.symm hv (Or.inl rfl) hsig
        | ok _ => exact .voted hu hvote.symm hv (Or.inr rfl) hsig

/-! ### All calls -/

inductive StepResult (env : Env) (s : Core) : CoreOp → Core → Prop
  | quiet {op : CoreOp} {s' : Core} (hop : ∀ prop, op ≠ .receive prop) (q : Quiet s s') : StepResult env s op s'
  | propose {curView now : Int64} {parentHash cmds : Bytes} {parent : Block} {s' : Core}
      (hl : s.load parentHash = some parent)
      (hh : s.voteHeight < (s.newBlock env curView parentHash cmds parent now).height)
      (p : ProposeResult env ((s.touch parentHash).storeBlock (s.newBlock env curView parentHash cmds parent now)) curView
        (s.newBlock env curView parentHash cmds parent now) s') :
      StepResult env s (.propose curView parentHash cmds now) s'
  | store {prop : Proposal} {w : List Proposal} {s' : Core} (hw : ∀ p ∈ w, p ∈ s.waiting ∨ p = prop)
      (q : Quiet { s.storeBlock prop.block with waiting := w } s')
      (hj : (s.storeBlock prop.block).justifyBlock? prop.block = none) : StepResult env s (.receive prop) s'
  | receive {prop : Proposal} {s1 s' : Core} {x : QuorumCert × Block} (q : Quiet (s.storeBlock prop.block) s1)
      (hj : s1.justifyBlock? prop.block = some x) (p : ProcessResult env s1 prop s') :
      StepResult env s (.receive prop) s'
  | resume {i : Nat} {prop : Proposal} {s1 s' : Core} {x : QuorumCert × Block} (hi : s.woken[i]? = some prop)
      (q : Quiet s s1) (hj : s1.justifyBlock? prop.block = some x) (p : ProcessResult env s1 prop s') :
      StepResult env s (.resume i) s'
  | vote {vote : Vote} {r : Except CoreError Unit} {s' : Core} (v : VoteResult env s vote r s') :
      StepResult env s (.vote vote) s'
  | newView {id : Int64} {view : NewView} : StepResult env s (.newView id view) (s.notify (.receiveNewView id view))
  | adopt {qc : QuorumCert} {b : Block} {s' : Core} (hl : s.load qc.blockHash = some b)
      (q : Quiet (s.highQC env b qc none) s') : StepResult env s (.adopt qc) s'
  | sign {data : Bytes} {sig : Option Bytes} :
      StepResult env s (.sign data) { s with signLog := s.signLog ++ [(data, sig)] }

private theorem onReceiveProposal_cases (env : Env) (s : Core) (prop : Proposal) :
    StepResult env s (.receive prop) (s.onReceiveProposal env prop).2 := by
  have hq : Quiet (s.storeBlock prop.block) (s.storeBlock prop.block).broadcast := quiet_broadcast _
  unfold onReceiveProposal loadBlock
  generalize (s.storeBlock prop.block).broadcast = s1 at hq
  cases hj : prop.block.justify with
  | none =>
    refine .store (fun p h => Or.inl h) (hq.trans (quiet_crash s1)) ?_
    unfold justifyBlock?
    rw [hj]
    rfl
  | some qc =>
    simp only
    have hq2 := hq.trans (quiet_touch s1 qc.blockHash)
    cases hl : s1.load qc.blockHash with
    | none =>
      have hw : ∀ p ∈ s.waiting ++ [prop], p ∈ s.waiting ∨ p = prop := by
        intro p h
        rw [List.mem_append, List.mem_singleton] at h
        exact h
      refine .store hw ?_ ?_
      swap
      · rw [← hq.justifyBlock?]
        unfold justifyBlock?
        rw [hj, Option.bind_some, hl]
        rfl
      obtain ⟨c, w, k, x, hc, hp, heq⟩ := hq2
      rw [heq]
      refine ⟨c, w ++ [prop], k, x, hc, fun p h => ?_, rfl⟩
      have hpend : p ∈ w ++ k → p ∈ s.waiting ++ s.woken := hp p
      show p ∈ (s.waiting ++ [prop]) ++ s.woken
      simp only [List.mem_append] at h hpend ⊢
      rcases h with (h | h) | h
      · rcases hpend (Or.inl h) with h | h
        · exact Or.inl (Or.inl h)
        · exact Or.inr h
      · exact Or.inl (Or.inr h)
      · rcases hpend (Or.inr h) with h | h
        · exact Or.inl (Or.inl h)
        · exact Or.inr h
    | some jb =>
      refine .receive (x := (qc, jb)) hq2 ?_ (processProposal_cases env _ prop)
      rw [(quiet_touch s1 qc.blockHash).justifyBlock?, justifyBlock?_eq_some]
      exact ⟨hj, hl⟩

private theorem resumeProposal_cases (env : Env) (s : Core) (i : Nat) :
    StepResult env s (.resume i) (s.resumeProposal env i).2 := by
  unfold resumeProposal loadBlock
  cases hi : s.woken[i]? with
  | none => exact .quiet (fun _ h => by cases h) (Quiet.refl s)
  | some prop =>
    simp only
    have hq : Quiet s { s with woken := s.woken.eraseIdx i } := by
      refine ⟨_, _, _, _, fun _ => rfl, fun p h => ?_, rfl⟩
      rw [List.mem_append] at h ⊢
      rcases h with h | h
      · exact Or.inl h
      · exact Or.inr ((List.eraseIdx_sublist _ _).subset h)
    generalize ({ s with woken := s.woken.eraseIdx i } : Core) = s1 at hq
    cases hj : prop.block.justify with
    | none => exact .quiet (fun _ h => by cases h) (hq.trans (quiet_crash s1))
    | some qc =>
      simp only
      have hq2 := hq.trans (quiet_touch s1 qc.blockHash)
      cases hl : s1.load qc.blockHash with
      | none => exact .quiet (fun _ h => by cases h) hq2
      | some jb =>
        refine .resume (x := (qc, jb)) hi hq2 ?_ (processProposal_cases env _ prop)
        rw [(quiet_touch s1 qc.blockHash).justifyBlock?, justifyBlock?_eq_some]
        exact ⟨hj, hl⟩

theorem step_cases (env : Env) (s : Core) (op : CoreOp) : StepResult env s op (s.step env op) := by
  cases op with
  | propose curView parentHash cmds now =>
    rcases onPropose_cases env s curView parentHash cmds now with hq | ⟨parent, hl, hh, hp⟩
    · exact .quiet (fun _ h => by cases h) hq
    · exact .propose hl hh hp
  | receive prop => exact onReceiveProposal_cases env s prop
  | resume i => exact resumeProposal_cases env s i
  | vote vote => exact .vote (onProposalVote_cases env s vote)
  | newView id view => exact .newView
  | look hash => exact .quiet (fun _ h => by cases h) (quiet_touch s hash)
  | adopt qc =>
    show StepResult env s (.adopt qc) (s.adoptQC env qc)
    unfold adoptQC loadBlock
    cases hl : s.load qc.blockHash with
    | none => exact .quiet (fun _ h => by cases h) (quiet_touch s _)
    | some b =>
      exact .adopt hl (((quiet_touch s _).highQC env b qc none).trans (quiet_updateHighestQC env _ b qc none))
  | sign data => exact .sign
  | crash => exact .quiet (fun _ h => by cases h) (quiet_crash s)

/-! ### What stays and what changes -/

theorem highQC_frame (env : Env) (s : Core) (b : Block) (qc : QuorumCert) (obj : Option Nat) :
    ∃ g o n, s.highQC env b qc obj = { s with genericQC := g, genericObj := o, notified := n } := by
  unfold highQC
  split
  · exact ⟨_, _, _, rfl⟩
  · exact ⟨_, _, _, rfl⟩

private theorem lockQC_frame (s : Core) (b : Block) (qc : QuorumCert) : ∃ l, s.lockQC b qc =
    { s with lockedQC := l } := by
  unfold lockQC
  split
  · exact ⟨_, rfl⟩
  · exact ⟨_, rfl⟩

/-- `update` changes certificates and sends events, nothing else. -/
theorem UpdateResult.frame {env : Env} {s s' : Core} {b : Block} {r : Except CoreError Unit}
    (u : UpdateResult env s b r s') :
    ∃ g o l e n, Quiet { s with genericQC := g, genericObj := o, lockedQC := l, execQC := e, notified := n } s' := by
  cases u with
  | noJustify h2 q => exact ⟨_, _, _, _, _, q⟩
  | @preCommit qc2 b2 _ h2 h1 q =>
    obtain ⟨g, o, n, heq⟩ := highQC_frame env s b2 qc2 none
    rw [heq] at q
    exact ⟨_, _, _, _, _, q⟩
  | @commit qc2 qc1 b2 b1 _ h2 h1 h0 q =>
    obtain ⟨g, o, n, heq⟩ := highQC_frame env s b2 qc2 none
    obtain ⟨l, heq'⟩ := lockQC_frame (s.highQC env b2 qc2 none) b1 qc1
    rw [heq', heq] at q
    exact ⟨_, _, _, _, _, q⟩
  | @noExec qc2 qc1 qc0 b2 b1 b0 _ _ h2 h1 h0 hp2 hp1 hx q =>
    obtain ⟨g, o, n, heq⟩ := highQC_frame env s b2 qc2 none
    obtain ⟨l, heq'⟩ := lockQC_frame (s.highQC env b2 qc2 none) b1 qc1
    rw [heq', heq] at q
    exact ⟨_, _, _, _, _, q⟩
  | @decide qc2 qc1 qc0 b2 b1 b0 xb _ _ h2 h1 h0 hp2 hp1 hx hr q =>
    obtain ⟨g, o, n, heq⟩ := highQC_frame env s b2 qc2 none
    obtain ⟨l, heq'⟩ := lockQC_frame (s.highQC env b2 qc2 none) b1 qc1
    rw [heq', heq] at q
    exact ⟨_, _, _, _, _, q⟩

theorem UpdateResult.object? {env : Env} {s s' : Core} {b : Block} {r : Except CoreError Unit}
    (u : UpdateResult env s b r s') (hash : Bytes) : s'.object? hash = s.object? hash := by
  obtain ⟨g, o, l, e, n, q⟩ := u.frame
  exact q.object? hash

theorem UpdateResult.load {env : Env} {s s' : Core} {b : Block} {r : Except CoreError Unit}
    (u : UpdateResult env s b r s') (hash : Bytes) : s'.load hash = s.load hash := by
  obtain ⟨g, o, l, e, n, q⟩ := u.frame
  exact q.load hash

/-- The blocks of the decide events sent so far. -/
def decided (s : Core) : List Block :=
  s.notified.filterMap fun
    | .decide b => some b
    | _ => none

private theorem decided_notify_decide (s : Core) (l : List Block) :
    decided { s with notified := s.notified ++ l.map .decide } = s.decided ++ l := by
  unfold decided
  rw [List.filterMap_append, List.filterMap_map]
  simp

theorem highQC_cases (env : Env) (s : Core) (b : Block) (qc : QuorumCert) (obj : Option Nat) :
    s.highQC env b qc obj = s ∨
    ∃ hb, env.replicas.verifyQuorumCert qc = true ∧ s.load s.genericQC.blockHash = some hb ∧ hb.height < b.height ∧
      s.highQC env b qc obj =
        { s with genericQC := qc, genericObj := obj, notified := s.notified ++ [.hqcUpdate qc] } := by
  unfold highQC
  split
  case isTrue h =>
    obtain ⟨hv, hb, hl, hh⟩ := h
    exact Or.inr ⟨hb, hv, hl, hh, rfl⟩
  case isFalse => exact Or.inl rfl

private theorem lockQC_cases (s : Core) (b : Block) (qc : QuorumCert) :
    s.lockQC b qc = s ∨
    ∃ lb, s.load s.lockedQC.blockHash = some lb ∧ lb.height < b.height ∧ s.lockQC b qc = { s with lockedQC := qc } := by
  unfold lockQC
  split
  case isTrue h =>
    obtain ⟨lb, hl, hh⟩ := h
    exact Or.inr ⟨lb, hl, hh, rfl⟩
  case isFalse => exact Or.inl rfl

theorem decided_highQC (env : Env) (s : Core) (b : Block) (qc : QuorumCert) (obj : Option Nat) :
    (s.highQC env b qc obj).decided = s.decided := by
  rcases highQC_cases env s b qc obj with heq | ⟨hb, -, -, -, heq⟩
  · rw [heq]
  · rw [heq]
    unfold decided
    rw [List.filterMap_append]
    simp

private theorem decided_lockQC (s : Core) (b : Block) (qc : QuorumCert) : (s.lockQC b qc).decided = s.decided := by
  unfold decided
  rw [notified_lockQC]

theorem Quiet.decided {s s' : Core} (h : Quiet s s') : s'.decided = s.decided := by
  obtain ⟨c, w, k, x, hc, hp, rfl⟩ := h
  rfl

private theorem generic_lockQC (s : Core) (b : Block) (qc : QuorumCert) :
    (s.lockQC b qc).genericQC = s.genericQC ∧ (s.lockQC b qc).genericObj = s.genericObj := by
  obtain ⟨l, heq⟩ := lockQC_frame s b qc
  rw [heq]
  exact ⟨rfl, rfl⟩

theorem UpdateResult.quiet_of_none {env : Env} {s s' : Core} {b : Block} {r : Except CoreError Unit}
    (u : UpdateResult env s b r s') (h2 : s.justifyBlock? b = none) : Quiet s s' := by
  cases u with
  | noJustify _ q => exact q
  | preCommit h2' =>
    rw [h2] at h2'
    cases h2'
  | commit h2' =>
    rw [h2] at h2'
    cases h2'
  | noExec h2' =>
    rw [h2] at h2'
    cases h2'
  | decide h2' =>
    rw [h2] at h2'
    cases h2'

/-- `update` leaves the highest certificate that its first phase makes. -/
theorem UpdateResult.generic_eq {env : Env} {s s' : Core} {b b2 : Block} {qc2 : QuorumCert} {r : Except CoreError Unit}
    (u : UpdateResult env s b r s') (h2 : s.justifyBlock? b = some (qc2, b2)) :
    s'.genericQC = (s.highQC env b2 qc2 none).genericQC ∧ s'.genericObj = (s.highQC env b2 qc2 none).genericObj := by
  have key : ∀ t : Core, t.genericQC = (s.highQC env b2 qc2 none).genericQC ∧
      t.genericObj = (s.highQC env b2 qc2 none).genericObj → Quiet t s' →
      s'.genericQC = (s.highQC env b2 qc2 none).genericQC ∧
        s'.genericObj = (s.highQC env b2 qc2 none).genericObj := by
    intro t ht q
    obtain ⟨c, w, k, x, hc, hp, rfl⟩ := q
    exact ht
  cases u with
  | noJustify h2' =>
    rw [h2] at h2'
    cases h2'
  | preCommit h2' h1 q =>
    rw [h2] at h2'
    cases h2'
    exact key _ ⟨rfl, rfl⟩ q
  | commit h2' h1 h0 q =>
    rw [h2] at h2'
    cases h2'
    exact key _ (generic_lockQC _ _ _) q
  | noExec h2' h1 h0 hp2 hp1 hx q =>
    rw [h2] at h2'
    cases h2'
    exact key _ (generic_lockQC _ _ _) q
  | decide h2' h1 h0 hp2 hp1 hx hr q =>
    rw [h2] at h2'
    cases h2'
    refine key _ ?_ q
    exact generic_lockQC _ _ _

/-- `update` leaves the lock that its second phase makes, if it gets there. -/
theorem UpdateResult.locked_eq {env : Env} {s s' : Core} {b b2 : Block} {qc2 : QuorumCert} {r : Except CoreError Unit}
    (u : UpdateResult env s b r s') (h2 : s.justifyBlock? b = some (qc2, b2)) :
    s'.lockedQC = match s.justifyBlock? b2 with
      | none => s.lockedQC
      | some (qc1, b1) => (s.lockQC b1 qc1).lockedQC := by
  have hhigh : (s.highQC env b2 qc2 none).lockedQC = s.lockedQC := by
    obtain ⟨g, o, n, heq⟩ := highQC_frame env s b2 qc2 none
    rw [heq]
  have hlock : ∀ b1 qc1, ((s.highQC env b2 qc2 none).lockQC b1 qc1).lockedQC = (s.lockQC b1 qc1).lockedQC := by
    intro b1 qc1
    unfold lockQC
    rw [load_highQC, hhigh]
    split
    · rfl
    · exact hhigh
  have key : ∀ (t : Core) (l : QuorumCert), t.lockedQC = l → Quiet t s' → s'.lockedQC = l := by
    intro t l ht q
    obtain ⟨c, w, k, x, hc, hp, rfl⟩ := q
    exact ht
  cases u with
  | noJustify h2' =>
    rw [h2] at h2'
    cases h2'
  | preCommit h2' h1 q =>
    rw [h2] at h2'
    cases h2'
    rw [h1]
    exact key _ _ hhigh q
  | commit h2' h1 h0 q =>
    rw [h2] at h2'
    cases h2'
    rw [h1]
    exact key _ _ (hlock _ _) q
  | noExec h2' h1 h0 hp2 hp1 hx q =>
    rw [h2] at h2'
    cases h2'
    rw [h1]
    exact key _ _ (hlock _ _) q
  | decide h2' h1 h0 hp2 hp1 hx hr q =>
    rw [h2] at h2'
    cases h2'
    rw [h1]
    refine key _ _ ?_ q
    exact hlock _ _

/-- `update` leaves the highest certificate, or replaces it by the block's `Justify`, which verifies and names a higher
block. -/
theorem UpdateResult.generic {env : Env} {s s' : Core} {b : Block} {r : Except CoreError Unit}
    (u : UpdateResult env s b r s') :
    (s'.genericQC = s.genericQC ∧ s'.genericObj = s.genericObj) ∨
    ∃ qc2 b2 hb, s.justifyBlock? b = some (qc2, b2) ∧ env.replicas.verifyQuorumCert qc2 = true ∧
      s.load s.genericQC.blockHash = some hb ∧ hb.height < b2.height ∧ s'.genericQC = qc2 ∧ s'.genericObj = none := by
  cases h2 : s.justifyBlock? b with
  | none =>
    obtain ⟨c, w, k, x, hc, hp, rfl⟩ := u.quiet_of_none h2
    exact Or.inl ⟨rfl, rfl⟩
  | some x =>
    obtain ⟨qc2, b2⟩ := x
    obtain ⟨hg, ho⟩ := u.generic_eq h2
    rcases highQC_cases env s b2 qc2 none with heq | ⟨hb, hv, hl, hh, heq⟩
    · rw [heq] at hg ho
      exact Or.inl ⟨hg, ho⟩
    · rw [heq] at hg ho
      exact Or.inr ⟨qc2, b2, hb, rfl, hv, hl, hh, hg, ho⟩

/-- `update` leaves the lock, or replaces it by the `Justify` of the justify block, which names a block higher than the
locked one. -/
theorem UpdateResult.locked {env : Env} {s s' : Core} {b : Block} {r : Except CoreError Unit}
    (u : UpdateResult env s b r s') :
    s'.lockedQC = s.lockedQC ∨
    ∃ qc2 b2 qc1 b1 lb, s.justifyBlock? b = some (qc2, b2) ∧ s.justifyBlock? b2 = some (qc1, b1) ∧
      s.load s.lockedQC.blockHash = some lb ∧ lb.height < b1.height ∧ s'.lockedQC = qc1 := by
  cases h2 : s.justifyBlock? b with
  | none =>
    obtain ⟨c, w, k, x, hc, hp, rfl⟩ := u.quiet_of_none h2
    exact Or.inl rfl
  | some x =>
    obtain ⟨qc2, b2⟩ := x
    have hlocked := u.locked_eq h2
    cases h1 : s.justifyBlock? b2 with
    | none =>
      rw [h1] at hlocked
      exact Or.inl hlocked
    | some x =>
      obtain ⟨qc1, b1⟩ := x
      rw [h1] at hlocked
      simp only at hlocked
      rcases lockQC_cases s b1 qc1 with heq | ⟨lb, hl, hh, heq⟩
      · rw [heq] at hlocked
        exact Or.inl hlocked
      · rw [heq] at hlocked
        exact Or.inr ⟨qc2, b2, qc1, b1, lb, rfl, h1, hl, hh, hlocked⟩

/-- What the decide phase leaves. -/
theorem exec_of_decide {env : Env} {s s' : Core} {b2 b1 : Block} {qc2 qc1 qc0 : QuorumCert} {l : List Block}
    (q : Quiet { (s.highQC env b2 qc2 none).lockQC b1 qc1 with
      execQC := qc0
      notified := (s.highQC env b2 qc2 none).notified ++ l.map .decide } s') :
    s'.execQC = qc0 ∧ s'.decided = s.decided ++ l := by
  have hd := q.decided
  obtain ⟨c, w, k, x, hc, hp, rfl⟩ := q
  refine ⟨rfl, hd.trans ?_⟩
  rw [← decided_highQC env s b2 qc2 none]
  exact decided_notify_decide (s.highQC env b2 qc2 none) l

/-- `update` leaves the last executed block and decides nothing, or it moves to the block at the end of the three-chain
and decides the blocks of the walk. -/
theorem UpdateResult.exec {env : Env} {s s' : Core} {b : Block} {r : Except CoreError Unit}
    (u : UpdateResult env s b r s') :
    (s'.execQC = s.execQC ∧ s'.decided = s.decided) ∨
    ∃ qc2 b2 qc1 b1 qc0 b0 xb, s.justifyBlock? b = some (qc2, b2) ∧ s.justifyBlock? b2 = some (qc1, b1) ∧
      s.justifyBlock? b1 = some (qc0, b0) ∧ b2.parentHash = qc1.blockHash ∧ b1.parentHash = qc0.blockHash ∧
      s.load s.execQC.blockHash = some xb ∧ s'.execQC = qc0 ∧
      s'.decided = s.decided ++ s.ancestors (b0.height - xb.height).toNatClampNeg (getBlockHash b0) := by
  cases u with
  | noJustify h2 q =>
    have hd := q.decided
    obtain ⟨c, w, k, x, hc, hp, rfl⟩ := q
    exact Or.inl ⟨rfl, hd⟩
  | preCommit h2 h1 q =>
    have hd := q.decided.trans (decided_highQC _ _ _ _ _)
    obtain ⟨c, w, k, x, hc, hp, rfl⟩ := q
    exact Or.inl ⟨execQC_highQC _ _ _ _ _, hd⟩
  | commit h2 h1 h0 q =>
    have hd := q.decided.trans ((decided_lockQC _ _ _).trans (decided_highQC _ _ _ _ _))
    obtain ⟨c, w, k, x, hc, hp, rfl⟩ := q
    exact Or.inl ⟨(execQC_lockQC _ _ _).trans (execQC_highQC _ _ _ _ _), hd⟩
  | noExec h2 h1 h0 hp2 hp1 hx q =>
    have hd := q.decided.trans ((decided_lockQC _ _ _).trans (decided_highQC _ _ _ _ _))
    obtain ⟨c, w, k, x, hc, hp, rfl⟩ := q
    exact Or.inl ⟨(execQC_lockQC _ _ _).trans (execQC_highQC _ _ _ _ _), hd⟩
  | @decide qc2 qc1 qc0 b2 b1 b0 xb _ _ h2 h1 h0 hp2 hp1 hx hr q =>
    exact Or.inr ⟨qc2, b2, qc1, b1, qc0, b0, xb, h2, h1, h0, hp2, hp1, hx, exec_of_decide q⟩

/-- Counting a vote changes neither the lock, the last executed block nor the votes, and in a stored block only the
votes collected for it. -/
theorem VoteResult.frame {env : Env} {s s' : Core} {vote : Vote} {r : Except CoreError Unit}
    (v : VoteResult env s vote r s') :
    s'.lockedQC = s.lockedQC ∧ s'.execQC = s.execQC ∧ s'.voteHeight = s.voteHeight ∧ s'.objects = s.objects ∧
      s'.signLog = s.signLog ∧ s'.votes = s.votes ∧ s'.stored = s.stored ∧ s'.decided = s.decided := by
  cases v with
  | stash h q =>
    have hd := q.decided
    rw [addVoteMsg_eq] at q hd
    obtain ⟨c, w, k, x, hc, hp, rfl⟩ := q
    exact ⟨rfl, rfl, rfl, rfl, rfl, rfl, rfl, hd⟩
  | full h hq q =>
    have hd := q.decided
    obtain ⟨c, w, k, x, hc, hp, rfl⟩ := q
    exact ⟨rfl, rfl, rfl, rfl, rfl, rfl, rfl, hd⟩
  | duplicate h hv q =>
    have hd := q.decided
    obtain ⟨c, w, k, x, hc, hp, rfl⟩ := q
    exact ⟨rfl, rfl, rfl, rfl, rfl, rfl, rfl, hd⟩
  | counted h hq hsigns hvs q =>
    have hd := q.decided
    obtain ⟨c, w, k, x, hc, hp, rfl⟩ := q
    exact ⟨rfl, rfl, rfl, rfl, rfl, rfl, rfl, hd⟩
  | @finished o signs vs _ h hq hsigns hvs q =>
    have hd := q.decided
    have hhigh := decided_highQC env (setSigns { s with voteSet := vs } o.obj signs)
      { o.block with selfQc := { o.block.selfQc with signs := signs } } { o.block.selfQc with signs := signs } (some o.obj)
    obtain ⟨g, ob, n, heq⟩ := highQC_frame env (setSigns { s with voteSet := vs } o.obj signs)
      { o.block with selfQc := { o.block.selfQc with signs := signs } } { o.block.selfQc with signs := signs } (some o.obj)
    rw [heq] at q hd hhigh
    obtain ⟨c, w, k, x, hc, hp, rfl⟩ := q
    refine ⟨rfl, rfl, rfl, rfl, rfl, rfl, rfl, hd.trans ?_⟩
    rw [← show _ = s.decided from hhigh]
    unfold decided notify
    rw [List.filterMap_append]
    simp

/-! ### What happens to the store -/

/-- The entries are those of `s`, some of them perhaps with other votes. -/
def SameEntries (s s' : Core) : Prop :=
  s'.objects = s.objects ∧ s'.stored = s.stored ∧
    ((∀ key, s'.blockCache.find? key = s.blockCache.find? key) ∨
      ∃ obj signs, ∀ key, s'.blockCache.find? key = (s.blockCache.find? key).map (writeSigns obj signs))

theorem Quiet.sameEntries {s s' : Core} (h : Quiet s s') : SameEntries s s' := by
  obtain ⟨c, w, k, x, hc, hp, rfl⟩ := h
  exact ⟨rfl, rfl, Or.inl hc⟩

theorem SameEntries.trans_quiet {s t s' : Core} (h : SameEntries s t) (q : Quiet t s') : SameEntries s s' := by
  obtain ⟨c, w, k, x, hc, hp, rfl⟩ := q
  obtain ⟨ho, hs, hk | ⟨obj, signs, hk⟩⟩ := h
  · exact ⟨ho, hs, Or.inl fun key => (hc key).trans (hk key)⟩
  · exact ⟨ho, hs, Or.inr ⟨obj, signs, fun key => (hc key).trans (hk key)⟩⟩

private theorem Quiet.trans_sameEntries {s t s' : Core} (q : Quiet s t) (h : SameEntries t s') : SameEntries s s' := by
  obtain ⟨c, w, k, x, hc, hp, rfl⟩ := q
  obtain ⟨ho, hs, hk | ⟨obj, signs, hk⟩⟩ := h
  · exact ⟨ho, hs, Or.inl fun key => (hk key).trans (hc key)⟩
  · exact ⟨ho, hs, Or.inr ⟨obj, signs, fun key => by rw [hk, ← hc key]⟩⟩

theorem UpdateResult.quiet_store {env : Env} {s s' : Core} {b : Block} {r : Except CoreError Unit}
    (u : UpdateResult env s b r s') :
    s'.objects = s.objects ∧ s'.stored = s.stored ∧ ∀ key, s'.blockCache.find? key = s.blockCache.find? key := by
  obtain ⟨g, o, l, e, n, c, w, k, x, hc, hp, rfl⟩ := u.frame
  exact ⟨rfl, rfl, hc⟩

theorem VoteResult.sameEntries {env : Env} {s s' : Core} {vote : Vote} {r : Except CoreError Unit}
    (v : VoteResult env s vote r s') : SameEntries s s' := by
  have hset : ∀ (vs : AList (fun _ : List Char => List Vote)) (obj : Nat) (signs : Signs),
      SameEntries s (setSigns { s with voteSet := vs } obj signs) := by
    intro vs obj signs
    exact ⟨rfl, rfl, Or.inr ⟨obj, signs, fun key => Cache.find?_mapValue _ _ _⟩⟩
  cases v with
  | stash h q =>
    rw [addVoteMsg_eq] at q
    refine SameEntries.trans_quiet ?_ q
    exact ⟨rfl, rfl, Or.inl fun _ => rfl⟩
  | full h hq q => exact q.sameEntries
  | duplicate h hv q => exact q.sameEntries
  | counted h hq hsigns hvs q => exact (hset _ _ _).trans_quiet q
  | @finished o signs vs _ h hq hsigns hvs q =>
    obtain ⟨g, ob, n, heq⟩ := highQC_frame env (setSigns { s with voteSet := vs } o.obj signs)
      { o.block with selfQc := { o.block.selfQc with signs := signs } } { o.block.selfQc with signs := signs } (some o.obj)
    rw [heq] at q
    refine SameEntries.trans_quiet ?_ q
    exact hset vs o.obj signs

theorem ProcessResult.sameEntries {env : Env} {s s' : Core} {prop : Proposal} (p : ProcessResult env s prop s') :
    SameEntries s s' := by
  cases p with
  | updateError hu =>
    have u := update_result hu
    obtain ⟨ho, hs, hk⟩ := u.quiet_store
    exact ⟨ho, hs, Or.inl hk⟩
  | checkError hu hv q =>
    have u := update_result hu
    obtain ⟨ho, hs, hk⟩ := u.quiet_store
    exact SameEntries.trans_quiet ⟨ho, hs, Or.inl hk⟩ q
  | signError hu hv q =>
    have u := update_result hu
    obtain ⟨ho, hs, hk⟩ := u.quiet_store
    obtain ⟨c, w, k, x, hc, hp, rfl⟩ := q
    exact ⟨ho, hs, Or.inl fun key => (hc key).trans (hk key)⟩
  | voted hu hv q hvote =>
    have u := update_result hu
    obtain ⟨ho, hs, hk⟩ := u.quiet_store
    obtain ⟨c, w, k, x, hc, hp, rfl⟩ := q
    exact ⟨ho, hs, Or.inl fun key => (hc key).trans (hk key)⟩

theorem ProposeResult.sameEntries {env : Env} {s s' : Core} {curView : Int64} {b : Block}
    (p : ProposeResult env s curView b s') : SameEntries s s' := by
  cases p with
  | updateError hu =>
    have u := update_result hu
    obtain ⟨ho, hs, hk⟩ := u.quiet_store
    exact ⟨ho, hs, Or.inl hk⟩
  | signError hu =>
    have u := update_result hu
    obtain ⟨ho, hs, hk⟩ := u.quiet_store
    exact ⟨ho, hs, Or.inl hk⟩
  | @voted sig vote r s1 s3 _ hu hvote v hs' =>
    have u := update_result hu
    obtain ⟨ho, hs, hk⟩ := u.quiet_store
    obtain ⟨ho3, hs3, hk3⟩ := v.sameEntries
    have h3 : SameEntries s s3 := by
      rcases hk3 with hk3 | ⟨obj, signs, hk3⟩
      · exact ⟨ho3.trans ho, hs3.trans hs, Or.inl fun key => (hk3 key).trans (hk key)⟩
      · refine ⟨ho3.trans ho, hs3.trans hs, Or.inr ⟨obj, signs, fun key => (hk3 key).trans ?_⟩⟩
        rw [← hk key]
        rfl
    rcases hs' with rfl | rfl
    · exact h3
    · exact h3

/-- The call `op` stores the block `b`: a proposal that arrives, or the core's own new block. -/
inductive Stores (env : Env) (s : Core) : CoreOp → Block → Prop
  | receive (prop : Proposal) : Stores env s (.receive prop) prop.block
  | propose {curView now : Int64} {parentHash cmds : Bytes} {parent : Block} (hl : s.load parentHash = some parent)
      (hh : s.voteHeight < (s.newBlock env curView parentHash cmds parent now).height) :
      Stores env s (.propose curView parentHash cmds now) (s.newBlock env curView parentHash cmds parent now)

/-- A call leaves the entries of the store as they are, or it stores one block first.  (Recency decides which entry is
evicted then, hence the state `s1`.) -/
theorem step_entries (env : Env) (s : Core) (op : CoreOp) :
    SameEntries s (s.step env op) ∨
    ∃ b s1, Stores env s op b ∧ Quiet s s1 ∧ SameEntries (s1.storeBlock b) (s.step env op) := by
  have h := step_cases env s op
  generalize s.step env op = s' at h
  cases h with
  | quiet hop q => exact Or.inl q.sameEntries
  | propose hl hh p => exact Or.inr ⟨_, _, .propose hl hh, quiet_touch s _, p.sameEntries⟩
  | store hw q =>
    refine Or.inr ⟨_, s, .receive _, Quiet.refl s, ?_⟩
    obtain ⟨c, w, k, x, hc, hp, rfl⟩ := q
    exact ⟨rfl, rfl, Or.inl hc⟩
  | receive q hj p => exact Or.inr ⟨_, s, .receive _, Quiet.refl s, q.trans_sameEntries p.sameEntries⟩
  | resume hi q hj p => exact Or.inl (q.trans_sameEntries p.sameEntries)
  | vote v => exact Or.inl v.sameEntries
  | newView => exact Or.inl ⟨rfl, rfl, Or.inl fun _ => rfl⟩
  | @adopt qc b _ hl q =>
    obtain ⟨g, ob, n, heq⟩ := highQC_frame env s b qc none
    rw [heq] at q
    refine Or.inl (SameEntries.trans_quiet ?_ q)
    exact ⟨rfl, rfl, Or.inl fun _ => rfl⟩
  | sign => exact Or.inl ⟨rfl, rfl, Or.inl fun _ => rfl⟩

/-! ### What happens to the waiting handlers -/

private theorem UpdateResult.pending {env : Env} {s s' : Core} {b : Block} {r : Except CoreError Unit}
    (u : UpdateResult env s b r s') {p : Proposal} (hp : p ∈ s'.waiting ++ s'.woken) : p ∈ s.waiting ++ s.woken := by
  obtain ⟨g, o, l, e, n, q⟩ := u.frame
  exact q.pending hp

theorem VoteResult.pending {env : Env} {s s' : Core} {vote : Vote} {r : Except CoreError Unit}
    (v : VoteResult env s vote r s') {p : Proposal} (hp : p ∈ s'.waiting ++ s'.woken) : p ∈ s.waiting ++ s.woken := by
  cases v with
  | stash h q =>
    rw [addVoteMsg_eq] at q
    exact q.pending hp
  | full h hq q => exact q.pending hp
  | duplicate h hv q => exact q.pending hp
  | counted h hq hsigns hvs q => exact q.pending hp
  | @finished o signs vs _ h hq hsigns hvs q =>
    obtain ⟨g, ob, n, heq⟩ := highQC_frame env (setSigns { s with voteSet := vs } o.obj signs)
      { o.block with selfQc := { o.block.selfQc with signs := signs } } { o.block.selfQc with signs := signs } (some o.obj)
    rw [heq] at q
    exact q.pending hp

theorem ProcessResult.pending {env : Env} {s s' : Core} {prop : Proposal} (r : ProcessResult env s prop s')
    {p : Proposal} (hp : p ∈ s'.waiting ++ s'.woken) : p ∈ s.waiting ++ s.woken := by
  cases r with
  | updateError hu =>
    have u := update_result hu
    exact u.pending hp
  | checkError hu hv q =>
    have u := update_result hu
    exact u.pending (q.pending hp)
  | signError hu hv q =>
    have u := update_result hu
    exact u.pending (q.pending hp)
  | voted hu hv q hvote =>
    have u := update_result hu
    exact u.pending (q.pending hp)

theorem ProposeResult.pending {env : Env} {s s' : Core} {curView : Int64} {b : Block}
    (r : ProposeResult env s curView b s') {p : Proposal} (hp : p ∈ s'.waiting ++ s'.woken) :
    p ∈ s.waiting ++ s.woken := by
  cases r with
  | updateError hu =>
    have u := update_result hu
    exact u.pending hp
  | signError hu =>
    have u := update_result hu
    exact u.pending hp
  | voted hu hvote v hs' =>
    have u := update_result hu
    rcases hs' with rfl | rfl
    · exact u.pending (v.pending hp)
    · exact u.pending (v.pending hp)

/-- Only a proposal that arrives can begin to wait. -/
theorem pending_step (env : Env) (s : Core) (op : CoreOp) {p : Proposal}
    (hp : p ∈ (s.step env op).waiting ++ (s.step env op).woken) : p ∈ s.waiting ++ s.woken ∨ op = .receive p := by
  have hres := step_cases env s op
  generalize s.step env op = s' at hres hp
  cases hres with
  | quiet hop q => exact Or.inl (q.pending hp)
  | propose hl hh r => exact Or.inl (r.pending hp)
  | @store prop w _ hw q =>
    have hp' := q.pending hp
    rcases List.mem_append.1 hp' with h | h
    · rcases hw p h with h | rfl
      · exact Or.inl (List.mem_append_left _ h)
      · exact Or.inr rfl
    · exact Or.inl (List.mem_append_right _ h)
  | receive q hj r => exact Or.inl (q.pending (r.pending hp))
  | resume hi q hj r => exact Or.inl (q.pending (r.pending hp))
  | vote v => exact Or.inl (v.pending hp)
  | newView => exact Or.inl hp
  | @adopt qc b _ hl q =>
    obtain ⟨g, ob, n, heq⟩ := highQC_frame env s b qc none
    rw [heq] at q
    exact Or.inl (q.pending hp)
  | sign => exact Or.inl hp

/-- A proposal that waits has been stored. -/
def PendingStored (s : Core) : Prop := ∀ p ∈ s.waiting ++ s.woken, p.block ∈ s.stored

theorem stored_receive (env : Env) (s : Core) (prop : Proposal) :
    (s.step env (.receive prop)).stored = s.stored ++ [prop.block] := by
  have hres := step_cases env s (.receive prop)
  generalize s.step env (.receive prop) = s' at hres
  cases hres with
  | quiet hop q => exact absurd rfl (hop prop)
  | store hw q => exact q.stored
  | receive q hj r =>
    rw [r.sameEntries.2.1]
    exact q.stored

/-- The list of stored blocks only grows. -/
theorem stored_prefix_step (env : Env) (s : Core) (op : CoreOp) : s.stored <+: (s.step env op).stored := by
  rcases step_entries env s op with ⟨-, hs, -⟩ | ⟨b, s1, -, q, -, hs, -⟩
  · rw [hs]
  · rw [hs]
    obtain ⟨c, w, k, x, hc, hp, rfl⟩ := q
    exact List.prefix_append _ _

theorem stored_prefix_run (env : Env) (s : Core) (ops : List CoreOp) :
    s.stored <+: (run (step env) s ops).stored := by
  induction ops generalizing s with
  | nil => exact List.prefix_refl _
  | cons op ops ih => exact (stored_prefix_step env s op).trans (ih (s.step env op))

theorem PendingStored.step {s : Core} (h : s.PendingStored) (env : Env) (op : CoreOp) :
    (s.step env op).PendingStored := by
  intro p hp
  rcases pending_step env s op hp with hp' | rfl
  · exact (stored_prefix_step env s op).subset (h p hp')
  · rw [stored_receive]
    exact List.mem_append_right _ (List.mem_singleton_self _)

/-! ### The vote height -/

theorem UpdateResult.votes {env : Env} {s s' : Core} {b : Block} {r : Except CoreError Unit}
    (u : UpdateResult env s b r s') : s'.votes = s.votes ∧ s'.voteHeight = s.voteHeight := by
  obtain ⟨g, o, l, e, n, c, w, k, x, hc, hp, rfl⟩ := u.frame
  exact ⟨rfl, rfl⟩

theorem ProcessResult.votes_append {env : Env} {s s' : Core} {prop : Proposal} (p : ProcessResult env s prop s') :
    s'.votes = s.votes ∨
    ∃ vote : Vote, vote.viewNumber = prop.viewNumber ∧ vote.blockHash = prop.block.selfQc.blockHash ∧
      s'.votes = s.votes ++ [⟨prop.block.height, vote⟩] := by
  cases p with
  | updateError hu => exact Or.inl (update_result hu).votes.1
  | checkError hu hv q =>
    obtain ⟨c, w, k, x, hc, hp, rfl⟩ := q
    exact Or.inl (update_result hu).votes.1
  | signError hu hv q =>
    obtain ⟨c, w, k, x, hc, hp, rfl⟩ := q
    exact Or.inl (update_result hu).votes.1
  | @voted vh sig vote s1 s2 hu hv q hvote =>
    obtain ⟨c, w, k, x, hc, hp, rfl⟩ := q
    exact Or.inr ⟨vote, by rw [hvote], by rw [hvote], congrArg (· ++ _) (update_result hu).votes.1⟩

theorem ProposeResult.votes_append {env : Env} {s s' : Core} {curView : Int64} {b : Block}
    (p : ProposeResult env s curView b s') :
    s'.votes = s.votes ∨
    ∃ vote : Vote, vote.blockHash = b.selfQc.blockHash ∧ s'.votes = s.votes ++ [⟨b.height, vote⟩] ∧
      s'.voteHeight = b.height := by
  cases p with
  | updateError hu => exact Or.inl (update_result hu).votes.1
  | signError hu => exact Or.inl (update_result hu).votes.1
  | @voted sig vote r s1 s3 _ hu hvote v hs' =>
    obtain ⟨-, -, hheight, -, -, hvotes, -, -⟩ := v.frame
    have h3 : s3.votes = s.votes ++ [⟨b.height, vote⟩] := by
      rw [hvotes]
      exact congrArg (· ++ _) (update_result hu).votes.1
    rcases hs' with rfl | rfl
    · exact Or.inr ⟨vote, by rw [hvote], h3, hheight⟩
    · exact Or.inr ⟨vote, by rw [hvote], h3, hheight⟩

theorem ProcessResult.voteHeight_le {env : Env} {s s' : Core} {prop : Proposal} (p : ProcessResult env s prop s') :
    s.voteHeight ≤ s'.voteHeight := by
  -- where the guards hold the height is raised, elsewhere it stays
  have key : ∀ {s1 : Core} {vh : Int64}, UpdateResult env s prop.block (.ok ()) s1 →
      ((s1.MayVote prop.block ∧ vh = prop.block.height) ∨ (¬ s1.MayVote prop.block ∧ vh = s1.voteHeight)) →
      s.voteHeight ≤ vh := by
    intro s1 vh u hv
    have heq := u.votes.2
    rcases hv with ⟨⟨hlt, -⟩, rfl⟩ | ⟨-, rfl⟩
    · lia
    · lia
  cases p with
  | updateError hu =>
    have heq := (update_result hu).votes.2
    lia
  | checkError hu hv q =>
    have heq := (update_result hu).votes.2
    obtain ⟨c, w, k, x, hc, hp, rfl⟩ := q
    show s.voteHeight ≤ _
    lia
  | signError hu hv q =>
    obtain ⟨c, w, k, x, hc, hp, rfl⟩ := q
    exact key (update_result hu) hv
  | voted hu hv q hvote =>
    obtain ⟨c, w, k, x, hc, hp, rfl⟩ := q
    exact key (update_result hu) hv

theorem ProposeResult.voteHeight_le {env : Env} {s s' : Core} {curView : Int64} {b : Block}
    (p : ProposeResult env s curView b s') (hh : s.voteHeight < b.height) : s.voteHeight ≤ s'.voteHeight := by
  cases p with
  | updateError hu =>
    have heq := (update_result hu).votes.2
    lia
  | signError hu =>
    show s.voteHeight ≤ b.height
    lia
  | voted hu hvote v hs' =>
    have heq : _ = b.height := v.frame.2.2.1
    have hle : s.voteHeight ≤ b.height := by lia
    rw [← heq] at hle
    rcases hs' with rfl | rfl
    · exact hle
    · exact hle

theorem voteHeight_le_step (env : Env) (s : Core) (op : CoreOp) : s.voteHeight ≤ (s.step env op).voteHeight := by
  have hres := step_cases env s op
  generalize s.step env op = s' at hres
  have hrefl : s.voteHeight ≤ s.voteHeight := Int64.le_refl _
  cases hres with
  | quiet hop q =>
    obtain ⟨c, w, k, x, hc, hp, rfl⟩ := q
    exact hrefl
  | propose hl hh p => exact p.voteHeight_le hh
  | store hw q =>
    obtain ⟨c, w, k, x, hc, hp, rfl⟩ := q
    exact hrefl
  | receive q hj p =>
    obtain ⟨c, w, k, x, hc, hp, rfl⟩ := q
    exact p.voteHeight_le
  | resume hi q hj p =>
    obtain ⟨c, w, k, x, hc, hp, rfl⟩ := q
    exact p.voteHeight_le
  | vote v =>
    rw [v.frame.2.2.1]
    exact hrefl
  | newView => exact hrefl
  | @adopt qc b _ hl q =>
    obtain ⟨g, o, n, heq⟩ := highQC_frame env s b qc none
    rw [heq] at q
    obtain ⟨c, w, k, x, hc, hp, rfl⟩ := q
    exact hrefl
  | sign => exact hrefl

end Core

end GoHotstuff
