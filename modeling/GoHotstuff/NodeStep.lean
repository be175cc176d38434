import GoHotstuff.HotStuff
import GoHotstuff.CoreStep

/-!
# What an action of a replica does

An action makes calls on the core (`CoreOp`), hands messages to the transport, starts goroutines and lets new-view
messages wait.  `Moves env Q S V n n'` says that `n'` comes from `n` by calls that satisfy `Q`, with new messages that
satisfy `S` and new waiting messages that satisfy `V`; every event a new goroutine executes has been notified by the core.
`step_moves` gives this for every action, from what `Q`, `S` and `V` have to let through (`Permits`), and `step_case` for
one choice of the three that most invariants need.
-/

namespace GoHotstuff

open Lib (Bytes run)

namespace Core

/-! ### Events -/

/-- The events notified on the way from `s` to `s'` satisfy `Q`. -/
def Notifies (Q : Event → Prop) (s s' : Core) : Prop := ∃ es, s'.notified = s.notified ++ es ∧ ∀ e ∈ es, Q e

theorem notifies_of_eq {Q : Event → Prop} {s s' : Core} (h : s'.notified = s.notified) : Notifies Q s s' :=
  ⟨[], by rw [h, List.append_nil], by simp⟩

private theorem notifies_one {Q : Event → Prop} {s s' : Core} {e : Event} (h : s'.notified = s.notified ++ [e])
    (he : Q e) :
    Notifies Q s s' := ⟨[e], h, by simpa using he⟩

theorem Notifies.trans {Q : Event → Prop} {s t s' : Core} (h : Notifies Q s t) (h' : Notifies Q t s') :
    Notifies Q s s' := by
  obtain ⟨es, heq, hes⟩ := h
  obtain ⟨es', heq', hes'⟩ := h'
  refine ⟨es ++ es', by rw [heq', heq, List.append_assoc], fun e he => ?_⟩
  rcases List.mem_append.1 he with he | he
  · exact hes e he
  · exact hes' e he

theorem Notifies.isPrefix {Q : Event → Prop} {s s' : Core} (h : Notifies Q s s') : s.notified <+: s'.notified := by
  obtain ⟨es, heq, -⟩ := h
  rw [heq]
  exact List.prefix_append _ _

theorem Notifies.all {Q : Event → Prop} {s s' : Core} (h : Notifies Q s s') (h0 : ∀ e ∈ s.notified, Q e) :
    ∀ e ∈ s'.notified, Q e := by
  obtain ⟨es, heq, hes⟩ := h
  intro e he
  rw [heq, List.mem_append] at he
  exact he.elim (h0 e) (hes e)

/-- `Q` lets the events of `update` through. -/
structure Inner (Q : Event → Prop) : Prop where
  hqcUpdate : ∀ qc, Q (.hqcUpdate qc)
  decide : ∀ b, Q (.decide b)

theorem highQC_notifies {Q : Event → Prop} (hQ : Inner Q) (env : Env) (s : Core) (b : Block) (qc : QuorumCert)
    (obj : Option Nat) : Notifies Q s (s.highQC env b qc obj) := by
  rcases highQC_cases env s b qc obj with heq | ⟨hb, -, -, -, heq⟩
  · rw [heq]
    exact notifies_of_eq rfl
  · rw [heq]
    exact notifies_one (e := .hqcUpdate qc) rfl (hQ.hqcUpdate qc)

theorem UpdateResult.notifies {env : Env} {s s' : Core} {b : Block} {r : Except CoreError Unit}
    (u : UpdateResult env s b r s') {Q : Event → Prop} (hQ : Inner Q) : Notifies Q s s' := by
  cases u with
  | noJustify h2 q => exact notifies_of_eq q.notified
  | preCommit h2 h1 q => exact (highQC_notifies hQ _ _ _ _ _).trans (notifies_of_eq q.notified)
  | commit h2 h1 h0 q =>
    exact (highQC_notifies hQ _ _ _ _ _).trans (notifies_of_eq (q.notified.trans (notified_lockQC _ _ _)))
  | noExec h2 h1 h0 hp2 hp1 hx q =>
    exact (highQC_notifies hQ _ _ _ _ _).trans (notifies_of_eq (q.notified.trans (notified_lockQC _ _ _)))
  | decide h2 h1 h0 hp2 hp1 hx hr q =>
    refine (highQC_notifies hQ _ _ _ _ _).trans ⟨_, q.notified, fun e he => ?_⟩
    obtain ⟨b', -, rfl⟩ := List.mem_map.1 he
    exact hQ.decide b'

/-- `Q` lets the event of the completed certificate of a block through, which has as many votes as a quorum. -/
def Finishing (env : Env) (Q : Event → Prop) (o : Stored) : Prop :=
  0 < getQuorumSize env.replicas.metadata →
    getQuorumSize env.replicas.metadata ≤ o.block.selfQc.signs.keys.length →
      Q (.qcFinish o.block.proposer o.block.selfQc)

/-- The certificate of a quorum is the one of the block voted for. -/
theorem VoteResult.notifies {env : Env} {s s' : Core} {vote : Vote} {r : Except CoreError Unit}
    (v : VoteResult env s vote r s') {Q : Event → Prop} (hQ : Inner Q)
    (hf : ∀ o, s'.object? vote.blockHash = some o → Finishing env Q o) : Notifies Q s s' := by
  cases v with
  | stash h q =>
    rw [addVoteMsg_eq] at q
    exact notifies_of_eq q.notified
  | full h hq q => exact notifies_of_eq q.notified
  | duplicate h hv q => exact notifies_of_eq q.notified
  | counted h hq hsigns hvs q => exact notifies_of_eq q.notified
  | @finished o signs vs _ h hq hsigns hvs q hge =>
    have hhigh := highQC_notifies hQ env (setSigns { s with voteSet := vs } o.obj signs)
      { o.block with selfQc := { o.block.selfQc with signs := signs } } { o.block.selfQc with signs := signs }
      (some o.obj)
    refine Notifies.trans hhigh (notifies_one q.notified ?_)
    have ho : s'.object? vote.blockHash = some (writeSigns o.obj signs o) := by
      rw [q.object?]
      show (highQC env _ _ _ _).object? vote.blockHash = _
      rw [object?_highQC, object?_setSigns, show object? { s with voteSet := vs } vote.blockHash = some o from h]
      rfl
    have hfin := hf _ ho
    rw [writeSigns, if_pos rfl] at hfin
    exact hfin (by omega) hge

private theorem ProcessResult.notifies {env : Env} {s s' : Core} {prop : Proposal} (p : ProcessResult env s prop s')
    {Q : Event → Prop} (hQ : Inner Q) (hr : ∀ k sig, env.sign k prop.block.selfQc.blockHash = .ok sig →
      Q (.receiveProposal prop ⟨prop.viewNumber, env.id, prop.block.selfQc.blockHash, ⟨env.id, sig⟩⟩)) :
    Notifies Q s s' := by
  cases p with
  | updateError hu => exact (update_result hu).notifies hQ
  | checkError hu hv q => exact ((update_result hu).notifies hQ).trans (notifies_of_eq q.notified)
  | signError hu hv q => exact ((update_result hu).notifies hQ).trans (notifies_of_eq q.notified)
  | @voted vh sig vote s1 s2 hu hv q hvote hsig =>
    have hq : Notifies Q s1 s2 := notifies_of_eq q.notified
    have hone : Q (.receiveProposal prop vote) := hvote ▸ hr _ sig hsig
    exact (((update_result hu).notifies hQ).trans hq).trans (notifies_one (e := .receiveProposal prop vote) rfl hone)

/-- The block of an own proposal that is notified is found in the store, or has been stored and evicted. -/
private theorem ProposeResult.notifies {env : Env} {s s' : Core} {curView : Int64} {b : Block}
    (p : ProposeResult env s curView b s') {Q : Event → Prop} (hQ : Inner Q)
    (hf : ∀ o, s'.object? b.selfQc.blockHash = some o → Finishing env Q o)
    (hp : Q (.propose ⟨curView, (s'.load b.selfQc.blockHash).getD b⟩)) : Notifies Q s s' := by
  cases p with
  | updateError hu => exact (update_result hu).notifies hQ
  | signError hu => exact (update_result hu).notifies hQ
  | @voted sig vote r s1 s3 _ hu hvote v hs' =>
    subst hvote
    have h3 : (∀ o, s3.object? b.selfQc.blockHash = some o → Finishing env Q o) → Notifies Q s s3 :=
      fun hf => Notifies.trans ((update_result hu).notifies hQ) (v.notifies hQ hf)
    rcases hs' with rfl | rfl
    · exact h3 hf
    · exact (h3 hf).trans (notifies_one rfl hp)

/-- The hash of the block whose votes a call from `s` to `s'` may complete: the one voted for, or that of the new block,
which the call has stored. -/
inductive Completes (env : Env) (s s' : Core) : CoreOp → Bytes → Prop
  | vote (vote : Vote) : Completes env s s' (.vote vote) vote.blockHash
  | propose {curView now : Int64} {parentHash cmds : Bytes} {b : Block} {s1 : Core}
      (h : Stores env s (.propose curView parentHash cmds now) b) (q : Quiet s s1)
      (e : SameEntries (s1.storeBlock b) s') :
      Completes env s s' (.propose curView parentHash cmds now) b.selfQc.blockHash

/-- The events of a call satisfy `Q` when the events with finished certificates, with own proposals, with votes and with
new-view messages do. -/
theorem step_notifies_of {env : Env} {s : Core} {op : CoreOp} {Q : Event → Prop} (hQ : Inner Q)
    (hf : ∀ hash o, Completes env s (s.step env op) op hash → (s.step env op).object? hash = some o → Finishing env Q o)
    (hp : ∀ curView parentHash cmds now b s1, op = .propose curView parentHash cmds now → Stores env s op b →
      SameEntries (storeBlock s1 b) (s.step env op) →
      Q (.propose ⟨curView, ((s.step env op).load b.selfQc.blockHash).getD b⟩))
    (hr : ∀ prop k sig, env.sign k prop.block.selfQc.blockHash = .ok sig →
      Q (.receiveProposal prop ⟨prop.viewNumber, env.id, prop.block.selfQc.blockHash, ⟨env.id, sig⟩⟩))
    (hn : ∀ id view, Q (.receiveNewView id view)) : Notifies Q s (s.step env op) := by
  have hres := step_cases env s op
  generalize s.step env op = s' at hres hf hp ⊢
  cases hres with
  | quiet hop q => exact notifies_of_eq q.notified
  | @propose curView now parentHash cmds parent _ hl hh p =>
    exact p.notifies hQ (fun o ho => hf _ o (.propose (.propose hl hh) (quiet_touch s _) p.sameEntries) ho)
      (hp curView parentHash cmds now _ _ rfl (.propose hl hh) p.sameEntries)
  | store hw q => exact notifies_of_eq q.notified
  | @receive prop _ _ _ q hj p =>
    have hq : Notifies Q (s.storeBlock prop.block) _ := notifies_of_eq q.notified
    exact hq.trans (p.notifies hQ (hr prop))
  | @resume _ prop _ _ _ hi q hj p =>
    have hq : Notifies Q s _ := notifies_of_eq q.notified
    exact hq.trans (p.notifies hQ (hr prop))
  | vote v => exact v.notifies hQ fun o ho => hf _ o (.vote _) ho
  | @newView id view => exact notifies_one (e := .receiveNewView id view) rfl (hn id view)
  | @adopt qc b _ hl q =>
    have hq : Notifies Q (s.highQC env b qc none) s' := notifies_of_eq q.notified
    exact (highQC_notifies hQ env s b qc none).trans hq
  | sign => exact notifies_of_eq rfl

/-- The block has been stored or is in the store. -/
def Has (s : Core) (b : Block) : Prop := b ∈ s.stored ∨ ∃ hash, s.load hash = some b

theorem step_notifies (env : Env) (s : Core) (op : CoreOp) :
    Notifies (fun e => ∀ prop, e = .propose prop → (s.step env op).Has prop.block) s (s.step env op) := by
  refine step_notifies_of ⟨nofun, nofun⟩ (fun _ _ _ _ _ _ => nofun) ?_ nofun nofun
  intro curView parentHash cmds now b s1 hop hst hsame prop hprop
  obtain rfl := Event.propose.inj hprop
  dsimp only
  cases hload : (s.step env op).load b.selfQc.blockHash with
  | some b' => exact Or.inr ⟨_, hload⟩
  | none =>
    left
    rw [hsame.2.1]
    exact List.mem_append_right _ (List.mem_singleton_self _)

theorem run_notifies {env : Env} {Q : Event → Prop} (s : Core) {ops : List CoreOp}
    (hQ : ∀ s, ∀ op ∈ ops, Notifies Q s (Core.step env s op)) : Notifies Q s (run (step env) s ops) := by
  induction ops generalizing s with
  | nil => exact notifies_of_eq rfl
  | cons op ops ih =>
    have hrest := ih (s.step env op) fun s' op' hop' => hQ s' op' (List.mem_cons_of_mem _ hop')
    exact (hQ s op List.mem_cons_self).trans hrest

theorem notified_prefix_run (env : Env) (s : Core) (ops : List CoreOp) :
    s.notified <+: (run (step env) s ops).notified := by
  have hall : Inner fun _ => True := ⟨fun _ => trivial, fun _ => trivial⟩
  exact (run_notifies s fun s op _ => step_notifies_of hall (fun _ _ _ _ _ _ => trivial)
    (fun _ _ _ _ _ _ _ _ _ => trivial) (fun _ _ _ _ => trivial) fun _ _ => trivial).isPrefix

end Core

namespace Node

/-! ### Moves -/

structure Moves (env : NodeEnv) (Q : CoreOp → Prop) (S : Sent → Prop) (V : Int64 × NewView → Prop) (n n' : Node) :
    Prop where
  core : ∃ ops, n'.core = run (Core.step env.toEnv) n.core ops ∧ ∀ op ∈ ops, Q op
  sent : ∀ m ∈ n'.sent, m ∈ n.sent ∨ S m
  event : ∀ e, Task.event e ∈ n'.tasks → Task.event e ∈ n.tasks ∨ e ∈ n'.core.notified
  newView : ∀ x ∈ n'.nvWaiting ++ n'.nvWoken, x ∈ n.nvWaiting ++ n.nvWoken ∨ V x

/-- A change of the node outside these fields. -/
private theorem moves_of_eq {env : NodeEnv} {Q : CoreOp → Prop} {S : Sent → Prop} {V : Int64 × NewView → Prop}
    {n n' : Node} (hc : n'.core = n.core) (hs : n'.sent = n.sent)
    (ht : ∀ e, Task.event e ∈ n'.tasks → Task.event e ∈ n.tasks) (hw : n'.nvWaiting = n.nvWaiting)
    (hk : n'.nvWoken = n.nvWoken) : Moves env Q S V n n' where
  core := ⟨[], hc, by simp⟩
  sent m hm := Or.inl (hs ▸ hm)
  event e he := Or.inl (ht e he)
  newView x hx := Or.inl (by rwa [hw, hk] at hx)

private theorem Moves.refl (env : NodeEnv) (Q : CoreOp → Prop) (S : Sent → Prop) (V : Int64 × NewView → Prop)
    (n : Node) :
    Moves env Q S V n n := moves_of_eq rfl rfl (fun _ h => h) rfl rfl

private theorem Moves.trans {env : NodeEnv} {Q : CoreOp → Prop} {S : Sent → Prop} {V : Int64 × NewView → Prop}
    {n n' n'' : Node} (h : Moves env Q S V n n') (h' : Moves env Q S V n' n'') : Moves env Q S V n n'' := by
  obtain ⟨ops, hcore, hops⟩ := h.core
  obtain ⟨ops', hcore', hops'⟩ := h'.core
  constructor
  · refine ⟨ops ++ ops', ?_, ?_⟩
    · rw [Lib.run_append, ← hcore]
      exact hcore'
    · intro op hop
      rcases List.mem_append.1 hop with hop | hop
      · exact hops op hop
      · exact hops' op hop
  · intro m hm
    rcases h'.sent m hm with hm | hm
    · exact h.sent m hm
    · exact Or.inr hm
  · intro e he
    rcases h'.event e he with he | he
    · rcases h.event e he with he | he
      · exact Or.inl he
      · right
        rw [hcore']
        exact (Core.notified_prefix_run env.toEnv n'.core ops').subset he
    · exact Or.inr he
  · intro x hx
    rcases h'.newView x hx with hx | hx
    · exact h.newView x hx
    · exact Or.inr hx

/-- One call on the core, whose new events are started. -/
private theorem moves_withCore {env : NodeEnv} {Q : CoreOp → Prop} {S : Sent → Prop} {V : Int64 × NewView → Prop}
    {n : Node} {core : Core} (op : CoreOp) (hcore : core = n.core.step env.toEnv op) (hop : Q op) :
    Moves env Q S V n (n.withCore core) where
  core := ⟨[op], hcore, by simpa using hop⟩
  sent m hm := Or.inl hm
  event e he := by
    rcases List.mem_append.1 he with he | he
    · exact Or.inl he
    · obtain ⟨e', he', heq⟩ := List.mem_map.1 he
      obtain rfl : e' = e := Task.event.inj heq
      exact Or.inr (List.mem_of_mem_drop he')
  newView x hx := Or.inl hx

/-- One call on the core that notifies nothing. -/
private theorem moves_core {env : NodeEnv} {Q : CoreOp → Prop} {S : Sent → Prop} {V : Int64 × NewView → Prop} {n : Node}
    {core : Core} (op : CoreOp) (hcore : core = n.core.step env.toEnv op) (hop : Q op) :
    Moves env Q S V n { n with core := core } where
  core := ⟨[op], hcore, by simpa using hop⟩
  sent m hm := Or.inl hm
  event e he := Or.inl he
  newView x hx := Or.inl hx

private theorem moves_send {env : NodeEnv} {Q : CoreOp → Prop} {S : Sent → Prop} {V : Int64 × NewView → Prop} {n : Node}
    {m : Sent} (hm : S m) : Moves env Q S V n { n with sent := n.sent ++ [m] } where
  core := ⟨[], rfl, by simp⟩
  sent m' hm' := by
    rcases List.mem_append.1 hm' with hm' | hm'
    · exact Or.inl hm'
    · rw [List.mem_singleton.1 hm']
      exact Or.inr hm
  event e he := Or.inl he
  newView x hx := Or.inl hx

private theorem moves_spawn {env : NodeEnv} {Q : CoreOp → Prop} {S : Sent → Prop} {V : Int64 × NewView → Prop}
    {n : Node} (t : Task) (ht : ∀ e, t ≠ .event e) : Moves env Q S V n (n.spawn t) := by
  refine moves_of_eq rfl rfl (fun e he => ?_) rfl rfl
  rcases List.mem_append.1 he with he | he
  · exact he
  · exact absurd (List.mem_singleton.1 he).symm (ht e)

/-! ### The methods of the pacemaker -/

/-- What every method may do: look blocks up, crash, sign encoded new-view messages with the certificate `genericQC`
and send anything but proposals. -/
structure Basic (env : NodeEnv) (genericQC : QuorumCert) (Q : CoreOp → Prop) (S : Sent → Prop) : Prop where
  look : ∀ hash, Q (.look hash)
  crash : Q .crash
  sign : ∀ view data, env.marshal ⟨view, genericQC⟩ = .ok data → Q (.sign data)
  send : ∀ m : Sent, (∀ viewNumber block, m.msg ≠ .proposal viewNumber block) → S m

/-- The next leader is the replica itself, or connected when `OnProposeEvent` asks. -/
def NextConnected (env : NodeEnv) (conn : Nat → Int64 → Bool) (n : Node) : Prop :=
  getLeader env n.curView = env.id ∨ conn 0 (getLeader env n.curView) = true

instance (env : NodeEnv) (conn : Nat → Int64 → Bool) (n : Node) : Decidable (n.NextConnected env conn) :=
  inferInstanceAs (Decidable (getLeader env n.curView = env.id ∨ conn 0 (getLeader env n.curView) = true))

section Methods

variable {env : NodeEnv} {genericQC : QuorumCert} {Q : CoreOp → Prop} {S : Sent → Prop} {V : Int64 × NewView → Prop}

private theorem moves_crash (hb : Basic env genericQC Q S) (n : Node) :
    Moves env Q S V n n.crash := moves_core _ rfl hb.crash

private theorem moves_updateQcHigh (n : Node) (viewNumber : Int64) : Moves env Q S V n (n.updateQcHigh viewNumber) := by
  unfold updateQcHigh
  split
  · exact moves_of_eq rfl rfl (fun _ h => h) rfl rfl
  · exact Moves.refl env Q S V n

private theorem moves_clearViews (n : Node) :
    Moves env Q S V n n.clearViews := moves_of_eq rfl rfl (fun _ h => h) rfl rfl

private theorem moves_stopNewViewTimer (n : Node) : Moves env Q S V n n.stopNewViewTimer :=
  moves_of_eq rfl rfl (fun _ h => h) rfl rfl

private theorem moves_startNewViewTimer (n : Node) : Moves env Q S V n n.startNewViewTimer :=
  moves_of_eq rfl rfl (fun _ h => h) rfl rfl

private theorem moves_setView (n : Node) (view : Int64) : Moves env Q S V n { n with curView := view } :=
  moves_of_eq rfl rfl (fun _ h => h) rfl rfl

/-- The message made is a view change, signed on its own data. -/
private theorem createSignedViewChange_moves (n : Node) (hb : Basic env n.core.genericQC Q S) :
    Moves env Q S V n (n.createSignedViewChange env).2 ∧
      ∀ msg, (n.createSignedViewChange env).1 = .ok msg → ∀ viewNumber block, msg ≠ .proposal viewNumber block := by
  unfold createSignedViewChange
  cases hm : env.marshal ⟨n.curView, n.core.genericQC⟩ with
  | error e => exact ⟨Moves.refl env Q S V n, fun msg h => by cases h⟩
  | ok data =>
    have hsign := hb.sign _ data hm
    cases hs : env.sign n.core.signLog.length data with
    | error e =>
      simp only [hs]
      refine ⟨moves_core (.sign data) ?_ hsign, fun msg h => by cases h⟩
      simp [Core.step, Core.signData, hs, Except.toOption]
    | ok sig =>
      simp only [hs]
      refine ⟨moves_core (.sign data) ?_ hsign, fun msg h v b => ?_⟩
      · simp [Core.step, Core.signData, hs, Except.toOption]
      · obtain rfl := Except.ok.inj h
        exact fun hc => by cases hc

theorem addNewViewMsg_snd (env : NodeEnv) (n : Node) (id : Int64) (newView : NewView) :
    ∃ views, (n.addNewViewMsg env id newView).2 = { n with views := views } := by
  unfold addNewViewMsg
  dsimp only
  repeat' split
  all_goals exact ⟨_, rfl⟩

/-- `OnReceiveNewView` behind the look-up of the certificate's block. -/
private theorem processNewView_moves {n : Node} (hb : Basic env n.core.genericQC Q S) {id : Int64} {newView : NewView}
    {block : Block} (hl : n.core.load newView.genericQc.blockHash = some block) (hadopt : Q (.adopt newView.genericQc)) :
    Moves env Q S V n
      (processNewView env { n with core := n.core.touch newView.genericQc.blockHash } id newView block) := by
  have hcore : (n.core.touch newView.genericQc.blockHash).updateHighestQC env.toEnv block newView.genericQc none =
      n.core.step env.toEnv (.adopt newView.genericQc) := by
    simp only [Core.step, Core.adoptQC, Core.loadBlock, hl]
  unfold processNewView
  split
  · -- the certificate is from a later view than the highest one
    refine Moves.trans (moves_withCore _ hcore hadopt) ?_
    refine Moves.trans (moves_updateQcHigh _ newView.viewNumber) ?_
    dsimp only
    split
    · exact moves_spawn _ (fun e h => by cases h)
    · exact moves_spawn _ (fun e h => by cases h)
  split
  · -- the view numbers are synchronised
    have hlook : Moves env Q S V n { n with core := n.core.touch newView.genericQc.blockHash } :=
      moves_core (.look newView.genericQc.blockHash) rfl (hb.look _)
    have hview := (hlook.trans (moves_stopNewViewTimer _)).trans (moves_setView _ newView.viewNumber)
    obtain ⟨hsigned, hmsg⟩ := createSignedViewChange_moves (V := V)
      { stopNewViewTimer { n with core := n.core.touch newView.genericQc.blockHash } with
        curView := newView.viewNumber } hb
    split
    · rename_i heq
      rw [heq] at hsigned
      exact hview.trans hsigned
    · rename_i viewMsg n' heq
      rw [heq] at hsigned hmsg
      refine (hview.trans hsigned).trans (Moves.trans ?_ (moves_startNewViewTimer _))
      exact moves_send (hb.send _ (hmsg viewMsg rfl))
  · -- the message is one of a quorum
    obtain ⟨views, hviews⟩ := addNewViewMsg_snd env
      { n with core := n.core.touch newView.genericQc.blockHash } id newView
    split
    · rename_i n' heq
      rw [heq] at hviews
      obtain rfl : n' = _ := hviews
      refine Moves.trans (moves_core (.look newView.genericQc.blockHash) rfl (hb.look _)) ?_
      exact moves_of_eq rfl rfl (fun _ h => h) rfl rfl
    · rename_i high n' heq
      rw [heq] at hviews
      obtain rfl : n' = _ := hviews
      have hadd : Moves env Q S V n { n with views := views } := moves_of_eq rfl rfl (fun _ h => h) rfl rfl
      have hmove : Moves env Q S V { n with views := views } ({ n with views := views }.withCore
          ((n.core.touch newView.genericQc.blockHash).updateHighestQC env.toEnv block newView.genericQc none)) :=
        moves_withCore _ hcore hadopt
      refine Moves.trans (hadd.trans hmove) ?_
      refine Moves.trans (moves_updateQcHigh _ high.viewNumber) ?_
      dsimp only
      split
      · exact Moves.trans (moves_stopNewViewTimer _) (moves_spawn _ (fun e h => by cases h))
      · exact moves_startNewViewTimer _

private theorem onReceiveNewView_moves (n : Node) (hb : Basic env n.core.genericQC Q S) (id : Int64) (newView : NewView)
    (hadopt : Q (.adopt newView.genericQc)) (hwait : V (id, newView)) :
    Moves env Q S V n (n.onReceiveNewView env id newView) := by
  unfold onReceiveNewView Core.loadBlock
  split
  · exact Moves.refl env Q S V n
  · cases hl : n.core.load newView.genericQc.blockHash with
    | none =>
      constructor
      · exact ⟨[.look newView.genericQc.blockHash], rfl, by simpa using hb.look _⟩
      · exact fun m hm => Or.inl hm
      · exact fun e he => Or.inl he
      · intro x hx
        simp only [List.mem_append, List.mem_singleton] at hx
        rcases hx with (hx | rfl) | hx
        · exact Or.inl (List.mem_append_left _ hx)
        · exact Or.inr hwait
        · exact Or.inl (List.mem_append_right _ hx)
    | some block => exact processNewView_moves hb hl hadopt

private theorem resumeNewView_moves (n : Node) (hb : Basic env n.core.genericQC Q S) (i : Nat)
    (hadopt : ∀ x ∈ n.nvWoken, Q (.adopt x.2.genericQc)) : Moves env Q S V n (n.resumeNewView env i) := by
  unfold resumeNewView Core.loadBlock
  cases hi : n.nvWoken[i]? with
  | none => exact Moves.refl env Q S V n
  | some x =>
    obtain ⟨id, newView⟩ := x
    have herase : Moves env Q S V n { n with nvWoken := n.nvWoken.eraseIdx i } := by
      refine ⟨⟨[], rfl, by simp⟩, fun m hm => Or.inl hm, fun e he => Or.inl he, fun x hx => Or.inl ?_⟩
      rcases List.mem_append.1 hx with hx | hx
      · exact List.mem_append_left _ hx
      · exact List.mem_append_right _ ((List.eraseIdx_sublist _ _).subset hx)
    refine herase.trans ?_
    simp only
    cases hl : n.core.load newView.genericQc.blockHash with
    | none => exact moves_core (.look newView.genericQc.blockHash) rfl (hb.look _)
    | some block =>
      exact processNewView_moves (n := { n with nvWoken := n.nvWoken.eraseIdx i }) hb hl
        (hadopt _ (List.mem_of_getElem? hi))

private theorem onNextSyncView_moves (conn : Nat → Int64 → Bool) (k : Nat) (n : Node)
    (hb : Basic env n.core.genericQC Q S) (hadopt : Q (.adopt n.core.genericQC))
    (hwait : ∀ id view, V (id, ⟨view, n.core.genericQC⟩)) :
    Moves env Q S V n (onNextSyncView env conn k n) := by
  induction k generalizing n with
  | zero => exact moves_crash hb n
  | succ k ih =>
    unfold onNextSyncView
    refine Moves.trans (moves_setView n (n.curView + 1)) ?_
    simp only
    split
    · split
      · exact ih _ hb hadopt hwait
      · refine Moves.trans (moves_startNewViewTimer _) ?_
        obtain ⟨hsigned, hmsg⟩ := createSignedViewChange_moves (V := V)
          (startNewViewTimer { n with curView := n.curView + 1 }) hb
        split
        · rename_i heq
          rw [heq] at hsigned
          exact hsigned
        · rename_i viewMsg n' heq
          rw [heq] at hsigned hmsg
          refine hsigned.trans (Moves.trans ?_ (moves_clearViews _))
          exact moves_send (hb.send _ (hmsg viewMsg rfl))
    · split
      · refine Moves.trans ?_ (moves_clearViews _)
        exact onReceiveNewView_moves { n with curView := n.curView + 1 } hb env.id _ hadopt (hwait env.id _)
      · exact Moves.trans (moves_startNewViewTimer _) (moves_clearViews _)

/-- The proposal is sent as the core has made it, unless the next leader is not connected. -/
private theorem onProposeEvent_moves (conn : Nat → Int64 → Bool) (n : Node) (proposal : Proposal)
    (hsend : ∀ viewNumber, (n.NextConnected env conn → viewNumber = proposal.viewNumber) →
      S ⟨none, .proposal viewNumber (some proposal.block.toPb)⟩) :
    Moves env Q S V n (n.onProposeEvent env conn proposal) := by
  unfold onProposeEvent
  split
  · rename_i hlead
    refine Moves.trans (moves_startNewViewTimer _) ?_
    simp only
    split
    · rename_i hconn
      refine Moves.trans (moves_setView _ _) (moves_send (hsend _ fun h => ?_))
      exact absurd (h.resolve_left hlead) hconn
    · exact moves_send (hsend _ fun _ => rfl)
  · exact moves_send (hsend _ fun _ => rfl)

private theorem handOver_moves (hb : Basic env genericQC Q S) (n : Node) (viewNumber : Int64) {vote : Vote}
    (hvote : Q (.vote vote)) :
    Moves env Q S V n (n.handOver env viewNumber vote) := by
  unfold handOver
  simp only
  split
  · refine moves_send (hb.send _ fun v b h => ?_)
    cases h
  · exact moves_withCore (.vote vote) rfl hvote

private theorem onReceiveProposal_moves (hb : Basic env genericQC Q S) (conn : Nat → Int64 → Bool) {vote : Vote}
    (hvote : Q (.vote vote)) (k : Nat) (n : Node) (viewNumber : Int64) :
    Moves env Q S V n (onReceiveProposal env conn k n viewNumber vote).2 := by
  induction k generalizing n viewNumber with
  | zero => exact moves_crash hb n
  | succ k ih =>
    unfold onReceiveProposal
    refine Moves.trans (moves_updateQcHigh n viewNumber) ?_
    simp only
    generalize n.updateQcHigh viewNumber = n
    -- the three ways to the common end
    have hend : ∀ r : Int64 × Node, Moves env Q S V n r.2 →
        Moves env Q S V n (if r.2.core.crashed then (r.1, r.2) else (r.1, r.2.handOver env r.1 vote)).2 := by
      intro r hr
      split
      · exact hr
      · exact hr.trans (handOver_moves hb _ _ hvote)
    split
    · split
      · exact hend _ (Moves.trans (moves_setView n (n.curView + 1)) (ih _ _))
      · exact hend (viewNumber, n) (Moves.refl env Q S V n)
    · exact hend (viewNumber, n.stopNewViewTimer) (moves_stopNewViewTimer n)

private theorem onQcFinishEvent_moves (n : Node) (qc : QuorumCert) : Moves env Q S V n (n.onQcFinishEvent env qc) := by
  unfold onQcFinishEvent
  refine Moves.trans (moves_updateQcHigh n qc.viewNumber) ?_
  simp only
  split
  · refine Moves.trans (moves_setView _ ((n.updateQcHigh qc.viewNumber).curView + 1)) ?_
    split
    · exact moves_spawn _ (fun e h => by cases h)
    · exact moves_spawn _ (fun e h => by cases h)
  · exact moves_spawn _ (fun e h => by cases h)

end Methods

/-! ### Actions -/

/-- The new-view messages an action may act upon: of an event that has not run yet, of a handler that has been woken,
or the replica's own. -/
def AtHand (n : Node) (x : Int64 × NewView) : Prop :=
  Task.event (.receiveNewView x.1 x.2) ∈ n.tasks ∨ x ∈ n.nvWoken ∨ x.2.genericQc = n.core.genericQC

/-- What `Q`, `S` and `V` have to let through so that they hold of the minor calls, the messages and the waiting
messages of an action: each call with the reason for which the action makes it. -/
structure Permits (env : NodeEnv) (n : Node) (a : Action) (Q : CoreOp → Prop) (S : Sent → Prop)
    (V : Int64 × NewView → Prop) : Prop where
  basic : Basic env n.core.genericQC Q S
  newView : ∀ id data signature (view : NewView), a = .message id (.viewChange data signature) →
    env.unmarshal data = .ok ⟨view.viewNumber, some view.genericQc⟩ → Q (.newView id view)
  adopt : ∀ x, n.AtHand x → Q (.adopt x.2.genericQc)
  wait : ∀ x, n.AtHand x → V x
  vote : ∀ vote : Vote, a = .message vote.voter vote.toPb →
    env.replicas.verifyIdentity vote.voter vote.cert.signature vote.blockHash = true → Q (.vote vote)
  ownVote : ∀ prop vote, Task.event (.receiveProposal prop vote) ∈ n.tasks → Q (.vote vote)
  proposal : ∀ i conn now prop viewNumber, a = .task i conn now → n.tasks[i]? = some (.event (.propose prop)) →
    (n.NextConnected env conn → viewNumber = prop.viewNumber) → S ⟨none, .proposal viewNumber (some prop.block.toPb)⟩

/-- The calls that handle a proposal, with the core they are made on and the action that makes them. -/
inductive MainCall (n : Node) (a : Action) : Core → CoreOp → Prop
  | receive {src viewNumber : Int64} {pb : Pb.Block} {block : Block}
      (ha : a = .message src (.proposal viewNumber (some pb))) (hb : pb.toBlock? = some block) :
      MainCall n a (n.core.touch n.core.execQC.blockHash) (.receive ⟨viewNumber, block⟩)
  | resume {i : Nat} (ha : a = .resumeProposal i) : MainCall n a n.core (.resume i)
  | propose {i : Nat} {conn : Nat → Int64 → Bool} {now : Int64} {cmds : Bytes} {rest : List Bytes}
      (ha : a = .task i conn now) (hi : n.tasks[i]? = some .beat) (hs : n.submitC = cmds :: rest) :
      MainCall n a n.core (.propose n.curView n.core.genericQC.blockHash cmds now)

theorem MainCall.quiet {n : Node} {a : Action} {s : Core} {op : CoreOp} (h : MainCall n a s op) :
    Core.Quiet n.core s := by
  cases h with
  | receive ha hb => exact Core.quiet_touch _ _
  | resume ha => exact Core.Quiet.refl _
  | propose ha hi hs => exact Core.Quiet.refl _

/-- The command that the `i`-th goroutine takes from `submitC`, if it is a beat. -/
def beatCmds (n : Node) (i : Nat) : Option Bytes :=
  match n.tasks[i]? with
  | some .beat => n.submitC.head?
  | _ => none

theorem beatCmds_eq {n : Node} {i : Nat} {cmds : Bytes} {rest : List Bytes} (hi : n.tasks[i]? = some .beat)
    (hs : n.submitC = cmds :: rest) : n.beatCmds i = some cmds := by
  simp [beatCmds, hi, hs]

/-- What an action does: minor calls only, or a single call that handles a proposal, perhaps behind a look-up.  An own
proposal is made by the leader of the current view. -/
inductive StepMoves (env : NodeEnv) (n : Node) (a : Action) (Q : CoreOp → Prop) (S : Sent → Prop)
    (V : Int64 × NewView → Prop) (n' : Node) : Prop
  | minor (m : Moves env Q S V n n') : StepMoves env n a Q S V n'
  | main {op : CoreOp} {s : Core} (hop : MainCall n a s op)
      (hlead : ∀ curView parentHash cmds now, op = .propose curView parentHash cmds now →
        getCurLeader env n.curView = env.id)
      (hcore : n'.core = s.step env.toEnv op)
      (m : Moves env (fun _ => True) (fun _ => False) (fun _ => False) n n') : StepMoves env n a Q S V n'

section Actions

variable {env : NodeEnv} {n : Node} {Q : CoreOp → Prop} {S : Sent → Prop} {V : Int64 × NewView → Prop}

private theorem handleProposal_moves {src viewNumber : Int64} {block : Option Pb.Block}
    (hb : Basic env n.core.genericQC Q S) :
    StepMoves env n (.message src (.proposal viewNumber block)) Q S V (n.handleProposal env viewNumber block) := by
  unfold handleProposal
  cases block with
  | none => exact .minor (Moves.refl _ _ _ _ n)
  | some pb =>
    simp only [Core.loadBlock]
    cases hx : n.core.load n.core.execQC.blockHash with
    | none =>
      refine .minor (Moves.trans (moves_core (.look n.core.execQC.blockHash) rfl (hb.look _)) ?_)
      exact moves_core .crash rfl hb.crash
    | some execBlock =>
      simp only
      cases hpb : pb.toBlock? with
      | none =>
        refine .minor (Moves.trans (moves_core (.look n.core.execQC.blockHash) rfl (hb.look _)) ?_)
        exact ⟨⟨[.crash], rfl, by simpa using hb.crash⟩, fun m hm => Or.inl hm, fun e he => Or.inl he,
          fun x hx => Or.inl hx⟩
      | some b =>
        refine .main (.receive rfl hpb) (fun _ _ _ _ h => by cases h) rfl ⟨⟨[.look n.core.execQC.blockHash,
          .receive ⟨viewNumber, b⟩], rfl, fun _ _ => trivial⟩, fun m hm => Or.inl hm, fun e he => ?_, fun x hx => ?_⟩
        · rcases List.mem_append.1 he with he | he
          · exact Or.inl he
          · obtain ⟨e', he', heq⟩ := List.mem_map.1 he
            obtain rfl : e' = e := Task.event.inj heq
            exact Or.inr (List.mem_of_mem_drop he')
        · -- the broadcast moves the waiting messages to the woken ones
          refine Or.inl ?_
          have hx' : x ∈ n.nvWoken ++ n.nvWaiting := hx
          rw [List.mem_append] at hx' ⊢
          exact hx'.symm

private theorem handleMessage_moves {src : Int64} {msg : Pb.Message} (hp : Permits env n (.message src msg) Q S V) :
    StepMoves env n (.message src msg) Q S V (n.handleMessage env src msg) := by
  cases msg with
  | proposal viewNumber block => exact handleProposal_moves hp.basic
  | viewChange data signature =>
    refine .minor ?_
    unfold handleMessage handleViewChange
    dsimp only
    split
    · cases hu : env.unmarshal data with
      | error e => exact Moves.refl _ _ _ _ n
      | ok newView =>
        dsimp only
        cases hq : newView.genericQc with
        | none => exact Moves.refl _ _ _ _ n
        | some genericQc =>
          refine moves_withCore (.newView src ⟨newView.viewNumber, genericQc⟩) rfl ?_
          refine hp.newView src data signature ⟨newView.viewNumber, genericQc⟩ rfl ?_
          rw [hu, ← hq]
    · exact Moves.refl _ _ _ _ n
  | vote viewNumber voter blockHash cert =>
    refine .minor ?_
    unfold handleMessage handleVote
    dsimp only
    cases cert with
    | none => exact Moves.refl _ _ _ _ n
    | some cert =>
      dsimp only
      split
      · exact Moves.refl _ _ _ _ n
      split
      · rename_i hverify
        split
        · exact Moves.refl _ _ _ _ n
        rename_i hid
        split
        · exact Moves.refl _ _ _ _ n
        · rw [not_not] at hid
          subst hid
          exact moves_withCore (.vote ⟨viewNumber, src, blockHash, cert⟩) rfl (hp.vote _ rfl hverify)
      · exact Moves.refl _ _ _ _ n
  | forward data => exact .minor (moves_spawn _ (fun e h => by cases h))
  | unset => exact .minor (Moves.refl _ _ _ _ n)

/-- A goroutine that runs is taken from the list first. -/
private theorem moves_erase (n : Node) (i : Nat) : Moves env Q S V n { n with tasks := n.tasks.eraseIdx i } :=
  moves_of_eq rfl rfl (fun _ h => (List.eraseIdx_sublist _ _).subset h) rfl rfl

private theorem task_moves {i : Nat} {conn : Nat → Int64 → Bool} {now : Int64} {t : Task}
    (hp : Permits env n (.task i conn now) Q S V) (hi : n.tasks[i]? = some t) :
    StepMoves env n (.task i conn now) Q S V (runTask env conn now { n with tasks := n.tasks.eraseIdx i } t) := by
  have hb := hp.basic
  have hmem := List.mem_of_getElem? hi
  have herase : Moves env Q S V n { n with tasks := n.tasks.eraseIdx i } := moves_erase n i
  cases t with
  | event e =>
    refine .minor (herase.trans ?_)
    unfold runTask
    cases e with
    | propose proposal =>
      exact onProposeEvent_moves conn _ proposal fun viewNumber => hp.proposal i conn now proposal viewNumber rfl hi
    | receiveProposal proposal vote => exact onReceiveProposal_moves hb conn (hp.ownVote proposal vote hmem) _ _ _
    | receiveNewView replicaId view =>
      have hat : n.AtHand (replicaId, view) := Or.inl hmem
      exact onReceiveNewView_moves { n with tasks := n.tasks.eraseIdx i } hb replicaId view (hp.adopt _ hat)
        (hp.wait _ hat)
    | qcFinish proposer qc => exact onQcFinishEvent_moves _ qc
    | hqcUpdate qc => exact moves_updateQcHigh _ qc.viewNumber
    | decide block => exact moves_of_eq rfl rfl (fun _ h => h) rfl rfl
  | beat =>
    unfold runTask
    dsimp only
    split
    · exact .minor (herase.trans (moves_spawn .beat (fun e h => by cases h)))
    · rename_i s rest hs
      unfold onBeat
      dsimp only
      split
      · refine .minor (herase.trans ?_)
        refine ⟨⟨[], rfl, by simp⟩, fun m hm => ?_, fun e he => Or.inl he, fun x hx => Or.inl hx⟩
        rcases List.mem_append.1 hm with hm | hm
        · exact Or.inl hm
        · rw [List.mem_singleton.1 hm]
          exact Or.inr (hb.send _ fun v b h => by cases h)
      · rename_i hlead
        refine .main (.propose rfl hi hs) (fun _ _ _ _ _ => not_not.1 hlead) rfl ?_
        have herase' : Moves env (fun _ => True) (fun _ => False) (fun _ => False) n
            { n with tasks := n.tasks.eraseIdx i, submitC := rest } :=
          moves_of_eq rfl rfl (fun _ h => (List.eraseIdx_sublist _ _).subset h) rfl rfl
        exact herase'.trans (moves_withCore (.propose n.curView n.core.genericQC.blockHash s now) rfl trivial)
  | nextSync =>
    refine .minor (herase.trans ?_)
    have hown : ∀ id view, n.AtHand (id, ⟨view, n.core.genericQC⟩) := fun _ _ => Or.inr (Or.inr rfl)
    exact onNextSyncView_moves conn _ _ hb (hp.adopt _ (hown env.id n.curView)) fun id view => hp.wait _ (hown id view)
  | submit cmds =>
    refine .minor (herase.trans ?_)
    unfold runTask
    dsimp only
    split
    · exact moves_of_eq rfl rfl (fun _ h => h) rfl rfl
    · exact moves_spawn _ (fun e h => by cases h)

theorem step_moves {a : Action} (hp : Permits env n a Q S V) : StepMoves env n a Q S V (n.step env a) := by
  unfold step
  split
  · exact .minor (Moves.refl _ _ _ _ n)
  cases a with
  | message src msg => exact handleMessage_moves hp
  | submit cmds =>
    refine .minor ?_
    show Moves env _ _ _ n (n.submit cmds)
    unfold submit
    split
    · exact Moves.refl _ _ _ _ n
    · exact moves_spawn _ (fun e h => by cases h)
  | task i conn now =>
    rw [act]
    cases hi : n.tasks[i]? with
    | none => exact .minor (Moves.refl _ _ _ _ n)
    | some t => exact task_moves hp hi
  | resumeProposal i =>
    exact .main (.resume rfl) (fun _ _ _ _ h => by cases h) rfl (moves_withCore (.resume i) rfl trivial)
  | resumeNewView i =>
    exact .minor (resumeNewView_moves n hp.basic i fun x hx => hp.adopt x (Or.inr (Or.inl hx)))
  | timeout =>
    refine .minor ?_
    show Moves env _ _ _ n (if n.timer then spawn { n with timer := false } .nextSync else n)
    split
    · exact Moves.trans (moves_stopNewViewTimer n) (moves_spawn .nextSync (fun e h => by cases h))
    · exact Moves.refl _ _ _ _ n

end Actions

/-- The calls that store no block and make no vote, with the reason for which an action makes them. -/
inductive MinorCall (env : NodeEnv) (n : Node) (a : Action) : CoreOp → Prop
  | look (hash : Bytes) : MinorCall env n a (.look hash)
  | crash : MinorCall env n a .crash
  | sign {view : Int64} {data : Bytes} (h : env.marshal ⟨view, n.core.genericQC⟩ = .ok data) :
      MinorCall env n a (.sign data)
  | newView {id : Int64} {data signature : Bytes} {view : NewView} (ha : a = .message id (.viewChange data signature))
      (hu : env.unmarshal data = .ok ⟨view.viewNumber, some view.genericQc⟩) : MinorCall env n a (.newView id view)
  | adopt {x : Int64 × NewView} {qc : QuorumCert} (h : n.AtHand x) (hqc : x.2.genericQc = qc) :
      MinorCall env n a (.adopt qc)
  | vote {vote : Vote} (ha : a = .message vote.voter vote.toPb) : MinorCall env n a (.vote vote)
  | ownVote {prop : Proposal} {vote : Vote} (h : Task.event (.receiveProposal prop vote) ∈ n.tasks) :
      MinorCall env n a (.vote vote)

/-- A proposal that is sent is one the core has made. -/
def MaySend (n : Node) (m : Sent) : Prop :=
  ∀ viewNumber block, m.msg = .proposal viewNumber block →
    ∃ prop, Task.event (.propose prop) ∈ n.tasks ∧ block = some prop.block.toPb

theorem permits_minorCall (env : NodeEnv) (n : Node) (a : Action) :
    Permits env n a (MinorCall env n a) n.MaySend n.AtHand where
  basic :=
    { look := .look
      crash := .crash
      sign := fun _ _ h => .sign h
      send := fun _ h v b hm => absurd hm (h v b) }
  newView _ _ _ _ ha hu := .newView ha hu
  adopt _ hx := .adopt hx rfl
  wait _ hx := hx
  vote _ ha _ := .vote ha
  ownVote _ _ h := .ownVote h
  proposal _ _ _ prop _ _ hi _ _ _ hmsg :=
    ⟨prop, List.mem_of_getElem? hi, (Pb.Message.proposal.inj hmsg).2.symm⟩

/-- What an action does, by its minor calls with the reasons for them, or its single call that handles a proposal. -/
inductive StepCase (env : NodeEnv) (n : Node) (a : Action) (n' : Node) : Prop
  | minor (m : Moves env (MinorCall env n a) n.MaySend n.AtHand n n') : StepCase env n a n'
  | main {op : CoreOp} {s : Core} (hop : MainCall n a s op) (hcore : n'.core = s.step env.toEnv op)
      (m : Moves env (fun _ => True) (fun _ => False) (fun _ => False) n n') : StepCase env n a n'

theorem step_case (env : NodeEnv) (n : Node) (a : Action) : StepCase env n a (n.step env a) := by
  cases step_moves (permits_minorCall env n a) with
  | minor m => exact .minor m
  | main hop hlead hcore m => exact .main hop hcore m

/-- What quiet changes keep, and each call the action makes, the action keeps. -/
theorem step_keeps {env : NodeEnv} {n : Node} {a : Action} {I : Core → Prop}
    (hquiet : ∀ {s s'}, Core.Quiet s s' → I s → I s')
    (hminor : ∀ {s op}, MinorCall env n a op → I s → I (s.step env.toEnv op))
    (hmain : ∀ {s op}, MainCall n a s op → I s → I (s.step env.toEnv op)) (h : I n.core) : I (n.step env a).core := by
  cases step_case env n a with
  | minor m =>
    obtain ⟨ops, hcore, hops⟩ := m.core
    rw [hcore]
    clear hcore
    generalize n.core = s at h
    induction ops generalizing s with
    | nil => exact h
    | cons op ops ih =>
      exact ih (fun op' hop' => hops op' (List.mem_cons_of_mem _ hop')) _ (hminor (hops op List.mem_cons_self) h)
  | @main op s hop hcore m =>
    rw [hcore]
    exact hmain hop (hquiet hop.quiet h)

/-- A minor call leaves the entries of the store. -/
theorem MinorCall.sameEntries {env : NodeEnv} {n : Node} {a : Action} {op : CoreOp} (h : MinorCall env n a op)
    (s : Core) : Core.SameEntries s (s.step env.toEnv op) := by
  rcases Core.step_entries env.toEnv s op with he | ⟨b, s1, hst, -, -⟩
  · exact he
  · cases h <;> cases hst

/-- What the new events satisfy, and the old ones, all events satisfy, notified or about to run. -/
theorem Moves.events {env : NodeEnv} {Q' : CoreOp → Prop} {S : Sent → Prop} {V : Int64 × NewView → Prop} {n n' : Node}
    (m : Moves env Q' S V n n') {Q : Event → Prop} (hnew : Core.Notifies Q n.core n'.core)
    (hnot : ∀ e ∈ n.core.notified, Q e) (htask : ∀ e, Task.event e ∈ n.tasks → Q e) :
    (∀ e ∈ n'.core.notified, Q e) ∧ ∀ e, Task.event e ∈ n'.tasks → Q e :=
  ⟨hnew.all hnot, fun e he => (m.event e he).elim (htask e) (hnew.all hnot e)⟩

/-- A property of the core's events that every call keeps holds of all events, notified or about to run, in every
reachable state. -/
theorem events_run (env : NodeEnv) {Q : Event → Prop} (hQ : ∀ s op, Core.Notifies Q s (Core.step env.toEnv s op))
    (as : List Action) :
    (∀ e ∈ (run (step env) newNode as).core.notified, Q e) ∧
      ∀ e, Task.event e ∈ (run (step env) newNode as).tasks → Q e := by
  induction as using List.reverseRecOn with
  | nil => exact ⟨nofun, fun e he => by cases List.mem_singleton.1 he⟩
  | append_singleton as a ih =>
    rw [Lib.run_append]
    generalize run (step env) newNode as = n at ih
    obtain ⟨hnot, htask⟩ := ih
    have hmoves : ∃ Q' S V, Moves env Q' S V n (n.step env a) := by
      cases step_case env n a with
      | minor m => exact ⟨_, _, _, m⟩
      | main hop hcore m => exact ⟨_, _, _, m⟩
    obtain ⟨Q', S, V, m⟩ := hmoves
    obtain ⟨ops, hops, -⟩ := m.core
    have hnew : Core.Notifies Q n.core (n.step env a).core := by
      rw [hops]
      exact Core.run_notifies n.core fun s op _ => hQ s op
    exact m.events hnew hnot htask

end Node

end GoHotstuff
