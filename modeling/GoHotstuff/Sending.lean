import GoHotstuff.NodeStep

/-!
# What a replica sends and where its commands go

Every message a replica hands to the transport has one of four reasons (`Emits`): it synchronises views, the core has made a
proposal, the core has voted for one, or a command has to go to the leader.  A command that a replica holds has been
submitted to it or forwarded (`step_holds`), and a command is executed because the core has decided a block
(`step_executed`).
-/

namespace GoHotstuff

open Lib (Bytes)

namespace Node

/-- The messages that a node sends in one action. -/
inductive Emits (env : NodeEnv) (n : Node) : Pb.Message → Prop
  | viewChange {view : Int64} {data signature : Bytes} {k : Nat}
      (hm : env.marshal ⟨view, n.core.genericQC⟩ = .ok data) (hs : env.sign k data = .ok signature) :
      Emits env n (.viewChange data signature)
  | proposal {prop : Proposal} (viewNumber : Int64) (h : Task.event (.propose prop) ∈ n.tasks) :
      Emits env n (.proposal viewNumber (some prop.block.toPb))
  | vote {prop : Proposal} {vote : Vote} (h : Task.event (.receiveProposal prop vote) ∈ n.tasks) :
      Emits env n vote.toPb
  | forward {cmds : Bytes} (h : cmds ∈ n.submitC) : Emits env n (.forward cmds)

/-- The command is in `submitC`, or a goroutine is about to put it there. -/
def Holds (n : Node) (cmds : Bytes) : Prop := cmds ∈ n.submitC ∨ Task.submit cmds ∈ n.tasks

/-- Messages with `S` have been sent; no command is new, and none has been executed. -/
structure Sends (S : Pb.Message → Prop) (n n' : Node) : Prop where
  sent : ∃ ms, n'.sent = n.sent ++ ms ∧ ∀ m ∈ ms, S m.msg
  holds : ∀ cmds, n'.Holds cmds → n.Holds cmds
  executed : n'.executed = n.executed

section Methods

variable {env : NodeEnv} {S : Pb.Message → Prop} {n n' : Node}

private theorem sends_of_eq (hs : n'.sent = n.sent) (hc : n'.submitC = n.submitC)
    (ht : ∀ cmds, Task.submit cmds ∈ n'.tasks → Task.submit cmds ∈ n.tasks) (hx : n'.executed = n.executed) :
    Sends S n n' where
  sent := ⟨[], by simp [hs], by simp⟩
  holds cmds h := h.imp (fun h => hc ▸ h) (ht cmds)
  executed := hx

private theorem Sends.refl (S : Pb.Message → Prop) (n : Node) : Sends S n n := sends_of_eq rfl rfl (fun _ h => h) rfl

private theorem Sends.trans {n'' : Node} (h : Sends S n n') (h' : Sends S n' n'') : Sends S n n'' where
  sent := by
    obtain ⟨ms, hms, hS⟩ := h.sent
    obtain ⟨ms', hms', hS'⟩ := h'.sent
    refine ⟨ms ++ ms', by simp [hms, hms'], fun m hm => ?_⟩
    rcases List.mem_append.1 hm with hm | hm
    · exact hS m hm
    · exact hS' m hm
  holds cmds hc := h.holds cmds (h'.holds cmds hc)
  executed := h'.executed.trans h.executed

private theorem sends_withCore (n : Node) (core : Core) : Sends S n (n.withCore core) := by
  refine sends_of_eq rfl rfl (fun cmds h => ?_) rfl
  rcases List.mem_append.1 h with h | h
  · exact h
  · obtain ⟨e, -, he⟩ := List.mem_map.1 h
    cases he

private theorem sends_spawn {t : Task} (ht : ∀ cmds, t ≠ .submit cmds) : Sends S n (n.spawn t) := by
  refine sends_of_eq rfl rfl (fun cmds h => ?_) rfl
  rcases List.mem_append.1 h with h | h
  · exact h
  · exact absurd (List.mem_singleton.1 h).symm (ht cmds)

private theorem sends_send {m : Sent} (hm : S m.msg) : Sends S n { n with sent := n.sent ++ [m] } where
  sent := ⟨[m], rfl, by simpa using hm⟩
  holds _ h := h
  executed := rfl

private theorem sends_updateQcHigh (n : Node) (viewNumber : Int64) : Sends S n (n.updateQcHigh viewNumber) := by
  unfold updateQcHigh
  split
  · exact sends_of_eq rfl rfl (fun _ h => h) rfl
  · exact Sends.refl S n

/-- `S` lets the signed new-view messages with the certificate `genericQC` through. -/
def LetsViewChange (env : NodeEnv) (S : Pb.Message → Prop) (genericQC : QuorumCert) : Prop :=
  ∀ view data signature k, env.marshal ⟨view, genericQC⟩ = .ok data → env.sign k data = .ok signature →
    S (.viewChange data signature)

private theorem createSignedViewChange_sends (n : Node) (hS : LetsViewChange env S n.core.genericQC) :
    Sends S n (n.createSignedViewChange env).2 ∧ ∀ msg, (n.createSignedViewChange env).1 = .ok msg → S msg := by
  unfold createSignedViewChange
  cases hm : env.marshal ⟨n.curView, n.core.genericQC⟩ with
  | error e => exact ⟨Sends.refl S n, fun msg h => by cases h⟩
  | ok data =>
    dsimp only
    cases hs : env.sign n.core.signLog.length data with
    | error e => exact ⟨sends_of_eq rfl rfl (fun _ h => h) rfl, fun msg h => by cases h⟩
    | ok signature =>
      refine ⟨sends_of_eq rfl rfl (fun _ h => h) rfl, fun msg h => ?_⟩
      obtain rfl := Except.ok.inj h
      exact hS _ data signature _ hm hs

private theorem processNewView_sends (n : Node) (hS : LetsViewChange env S n.core.genericQC) (id : Int64)
    (newView : NewView) (block : Block) : Sends S n (n.processNewView env id newView block) := by
  unfold processNewView
  split
  · refine Sends.trans (sends_withCore n (n.core.updateHighestQC env.toEnv block newView.genericQc none)) ?_
    refine Sends.trans (sends_updateQcHigh _ newView.viewNumber) ?_
    dsimp only
    split
    · exact sends_spawn fun cmds h => by cases h
    · exact sends_spawn fun cmds h => by cases h
  split
  · -- the view numbers are synchronised
    have hview : Sends S n { n.stopNewViewTimer with curView := newView.viewNumber } :=
      sends_of_eq rfl rfl (fun _ h => h) rfl
    obtain ⟨hsigned, hmsg⟩ := createSignedViewChange_sends { n.stopNewViewTimer with curView := newView.viewNumber } hS
    split
    · rename_i heq
      rw [heq] at hsigned
      exact hview.trans hsigned
    · rename_i viewMsg n1 heq
      rw [heq] at hsigned hmsg
      have htimer : Sends S (n1.broadcast viewMsg) (n1.broadcast viewMsg).startNewViewTimer :=
        sends_of_eq rfl rfl (fun _ h => h) rfl
      exact (hview.trans hsigned).trans (Sends.trans (sends_send (hmsg viewMsg rfl)) htimer)
  · -- the message is one of a quorum
    obtain ⟨views, hviews⟩ := addNewViewMsg_snd env n id newView
    have hadd : Sends S n { n with views := views } := sends_of_eq rfl rfl (fun _ h => h) rfl
    split
    · rename_i n1 heq
      rw [heq] at hviews
      obtain rfl : n1 = _ := hviews
      exact hadd
    · rename_i high n1 heq
      rw [heq] at hviews
      obtain rfl : n1 = _ := hviews
      refine hadd.trans (Sends.trans (sends_withCore _ (n.core.updateHighestQC env.toEnv block newView.genericQc none)) ?_)
      refine Sends.trans (sends_updateQcHigh _ high.viewNumber) ?_
      dsimp only
      split
      · refine Sends.trans ?_ (sends_spawn fun cmds h => by cases h)
        exact sends_of_eq rfl rfl (fun _ h => h) rfl
      · exact sends_of_eq rfl rfl (fun _ h => h) rfl

private theorem onReceiveNewView_sends (n : Node) (hS : LetsViewChange env S n.core.genericQC) (id : Int64)
    (newView : NewView) :
    Sends S n (n.onReceiveNewView env id newView) := by
  unfold onReceiveNewView Core.loadBlock
  split
  · exact Sends.refl S n
  · cases hl : n.core.load newView.genericQc.blockHash with
    | none => exact sends_of_eq rfl rfl (fun _ h => h) rfl
    | some block =>
      have htouch : Sends S n { n with core := n.core.touch newView.genericQc.blockHash } :=
        sends_of_eq rfl rfl (fun _ h => h) rfl
      exact htouch.trans (processNewView_sends { n with core := n.core.touch newView.genericQc.blockHash } hS id newView
        block)

private theorem resumeNewView_sends (n : Node) (hS : LetsViewChange env S n.core.genericQC) (i : Nat) :
    Sends S n (n.resumeNewView env i) := by
  unfold resumeNewView Core.loadBlock
  cases hi : n.nvWoken[i]? with
  | none => exact Sends.refl S n
  | some x =>
    obtain ⟨id, newView⟩ := x
    dsimp only
    cases hl : n.core.load newView.genericQc.blockHash with
    | none => exact sends_of_eq rfl rfl (fun _ h => h) rfl
    | some block =>
      have htouch : Sends S n { n with
          nvWoken := n.nvWoken.eraseIdx i, core := n.core.touch newView.genericQc.blockHash } :=
        sends_of_eq rfl rfl (fun _ h => h) rfl
      exact htouch.trans (processNewView_sends { n with
        nvWoken := n.nvWoken.eraseIdx i, core := n.core.touch newView.genericQc.blockHash } hS id newView block)

private theorem onNextSyncView_sends (conn : Nat → Int64 → Bool) (k : Nat) (n : Node)
    (hS : LetsViewChange env S n.core.genericQC) : Sends S n (onNextSyncView env conn k n) := by
  induction k generalizing n with
  | zero => exact sends_of_eq rfl rfl (fun _ h => h) rfl
  | succ k ih =>
    unfold onNextSyncView
    have hview : Sends S n { n with curView := n.curView + 1 } := sends_of_eq rfl rfl (fun _ h => h) rfl
    have hclear : ∀ n1 : Node, Sends S n1 n1.clearViews := fun _ => sends_of_eq rfl rfl (fun _ h => h) rfl
    have htimer : ∀ n1 : Node, Sends S n1 n1.startNewViewTimer := fun _ => sends_of_eq rfl rfl (fun _ h => h) rfl
    refine hview.trans ?_
    simp only
    split
    · split
      · exact ih { n with curView := n.curView + 1 } hS
      · obtain ⟨hsigned, hmsg⟩ := createSignedViewChange_sends (startNewViewTimer { n with curView := n.curView + 1 }) hS
        refine (htimer _).trans ?_
        split
        · rename_i heq
          rw [heq] at hsigned
          exact hsigned
        · rename_i viewMsg n1 heq
          rw [heq] at hsigned hmsg
          exact hsigned.trans (Sends.trans (sends_send (hmsg viewMsg rfl)) (hclear _))
    · split
      · exact Sends.trans (onReceiveNewView_sends { n with curView := n.curView + 1 } hS _ _) (hclear _)
      · exact Sends.trans (htimer _) (hclear _)

private theorem onProposeEvent_sends (conn : Nat → Int64 → Bool) (n : Node) (proposal : Proposal)
    (hS : ∀ viewNumber, S (.proposal viewNumber (some proposal.block.toPb))) :
    Sends S n (n.onProposeEvent env conn proposal) := by
  have hend : ∀ n1 viewNumber, Sends S n n1 →
      Sends S n (n1.broadcast (.proposal viewNumber (some proposal.block.toPb))) :=
    fun n1 viewNumber h => h.trans (sends_send (hS viewNumber))
  unfold onProposeEvent
  split
  · simp only
    split
    · exact hend _ _ (sends_of_eq rfl rfl (fun _ h => h) rfl)
    · exact hend _ _ (sends_of_eq rfl rfl (fun _ h => h) rfl)
  · exact hend _ _ (Sends.refl S n)

private theorem handOver_sends (n : Node) (viewNumber : Int64) {vote : Vote} (hS : S vote.toPb) :
    Sends S n (n.handOver env viewNumber vote) := by
  unfold handOver
  simp only
  split
  · exact sends_send hS
  · exact sends_withCore n _

private theorem onReceiveProposal_sends (conn : Nat → Int64 → Bool) {vote : Vote} (hS : S vote.toPb) (k : Nat)
    (n : Node) (viewNumber : Int64) : Sends S n (onReceiveProposal env conn k n viewNumber vote).2 := by
  induction k generalizing n viewNumber with
  | zero => exact sends_of_eq rfl rfl (fun _ h => h) rfl
  | succ k ih =>
    unfold onReceiveProposal
    refine Sends.trans (sends_updateQcHigh n viewNumber) ?_
    simp only
    generalize n.updateQcHigh viewNumber = n
    -- the three ways to the common end
    have hend : ∀ r : Int64 × Node, Sends S n r.2 →
        Sends S n (if r.2.core.crashed then (r.1, r.2) else (r.1, r.2.handOver env r.1 vote)).2 := by
      intro r hr
      split
      · exact hr
      · exact hr.trans (handOver_sends _ _ hS)
    split
    · split
      · have hview : Sends S n { n with curView := n.curView + 1 } := sends_of_eq rfl rfl (fun _ h => h) rfl
        exact hend _ (hview.trans (ih _ _))
      · exact hend (viewNumber, n) (Sends.refl S n)
    · exact hend (viewNumber, n.stopNewViewTimer) (sends_of_eq rfl rfl (fun _ h => h) rfl)

private theorem onQcFinishEvent_sends (n : Node) (qc : QuorumCert) : Sends S n (n.onQcFinishEvent env qc) := by
  unfold onQcFinishEvent
  refine Sends.trans (sends_updateQcHigh n qc.viewNumber) ?_
  simp only
  split
  · have hview : Sends S (n.updateQcHigh qc.viewNumber)
        { n.updateQcHigh qc.viewNumber with curView := (n.updateQcHigh qc.viewNumber).curView + 1 } :=
      sends_of_eq rfl rfl (fun _ h => h) rfl
    refine hview.trans ?_
    split
    · exact sends_spawn fun cmds h => by cases h
    · exact sends_spawn fun cmds h => by cases h
  · exact sends_spawn fun cmds h => by cases h

end Methods

/-! ### Actions -/

/-- What an action does with messages, commands and executions: it sends, takes a command in, or executes one. -/
inductive Effect (env : NodeEnv) (n : Node) (a : Action) (n' : Node) : Prop
  | sends (h : Sends (Emits env n) n n') : Effect env n a n'
  | takes (cmds : Bytes) (ha : (a = .submit cmds ∧ cmds ≠ []) ∨ ∃ src, a = .message src (.forward cmds))
      (h : n' = n.spawn (.submit cmds)) : Effect env n a n'
  | executes (block : Block) (ht : Task.event (.decide block) ∈ n.tasks)
      (h : Sends (Emits env n) (n.doDecide block) n') : Effect env n a n'

section Actions

variable {env : NodeEnv} {n : Node}

private theorem handleProposal_sends {S : Pb.Message → Prop} (viewNumber : Int64) (block : Option Pb.Block) :
    Sends S n (n.handleProposal env viewNumber block) := by
  unfold handleProposal
  cases block with
  | none => exact Sends.refl S n
  | some pb =>
    simp only [Core.loadBlock]
    cases hx : n.core.load n.core.execQC.blockHash with
    | none => exact sends_of_eq rfl rfl (fun _ h => h) rfl
    | some execBlock =>
      simp only
      cases hpb : pb.toBlock? with
      | none => exact sends_of_eq rfl rfl (fun _ h => h) rfl
      | some b =>
        have hwoken : ∀ n1 : Node, Sends S n1 { n1 with nvWaiting := [], nvWoken := n1.nvWoken ++ n1.nvWaiting } :=
          fun _ => sends_of_eq rfl rfl (fun _ h => h) rfl
        refine Sends.trans ?_ (hwoken _)
        refine Sends.trans ?_ (sends_withCore _ _)
        exact sends_of_eq rfl rfl (fun _ h => h) rfl

private theorem handleMessage_effect (src : Int64) (msg : Pb.Message) :
    Effect env n (.message src msg) (n.handleMessage env src msg) := by
  cases msg with
  | proposal viewNumber block => exact .sends (handleProposal_sends viewNumber block)
  | viewChange data signature =>
    refine .sends ?_
    unfold handleMessage handleViewChange
    dsimp only
    split
    · cases env.unmarshal data with
      | error e => exact Sends.refl _ n
      | ok newView =>
        dsimp only
        cases newView.genericQc with
        | none => exact Sends.refl _ n
        | some genericQc => exact sends_withCore n _
    · exact Sends.refl _ n
  | vote viewNumber voter blockHash cert =>
    refine .sends ?_
    unfold handleMessage handleVote
    cases cert with
    | none => exact Sends.refl _ n
    | some cert =>
      dsimp only
      repeat' split
      all_goals first | exact Sends.refl _ n | exact sends_withCore n _
  | forward data => exact .takes data (Or.inr ⟨src, rfl⟩) rfl
  | unset => exact .sends (Sends.refl _ n)

private theorem task_effect {i : Nat} {conn : Nat → Int64 → Bool} {now : Int64} {t : Task} (hi : n.tasks[i]? = some t) :
    Effect env n (.task i conn now) (runTask env conn now { n with tasks := n.tasks.eraseIdx i } t) := by
  have hmem := List.mem_of_getElem? hi
  have herase : Sends (Emits env n) n { n with tasks := n.tasks.eraseIdx i } :=
    sends_of_eq rfl rfl (fun _ h => (List.eraseIdx_sublist _ _).subset h) rfl
  have hview : LetsViewChange env (Emits env n) n.core.genericQC := fun _ _ _ _ hm hs => .viewChange hm hs
  cases t with
  | event e =>
    unfold runTask
    cases e with
    | propose proposal =>
      exact .sends (herase.trans (onProposeEvent_sends conn _ proposal fun viewNumber => .proposal viewNumber hmem))
    | receiveProposal proposal vote =>
      exact .sends (herase.trans (onReceiveProposal_sends conn (.vote hmem) _ _ _))
    | receiveNewView replicaId view =>
      exact .sends (herase.trans (onReceiveNewView_sends { n with tasks := n.tasks.eraseIdx i } hview replicaId view))
    | qcFinish proposer qc => exact .sends (herase.trans (onQcFinishEvent_sends _ qc))
    | hqcUpdate qc => exact .sends (herase.trans (sends_updateQcHigh _ qc.viewNumber))
    | decide block =>
      refine .executes block hmem ?_
      exact sends_of_eq rfl rfl (fun _ h => (List.eraseIdx_sublist _ _).subset h) rfl
  | beat =>
    refine .sends ?_
    unfold runTask
    dsimp only
    split
    · exact herase.trans (sends_spawn fun cmds h => by cases h)
    · rename_i s rest hs
      have htake : Sends (Emits env n) n { n with tasks := n.tasks.eraseIdx i, submitC := rest } := by
        refine ⟨⟨[], by simp, by simp⟩, fun cmds h => h.imp (fun h => ?_) ?_, rfl⟩
        · rw [hs]
          exact List.mem_cons_of_mem _ h
        · exact fun h => (List.eraseIdx_sublist _ _).subset h
      refine htake.trans ?_
      unfold onBeat
      dsimp only
      split
      · have hsend : Sends (Emits env n) { n with tasks := n.tasks.eraseIdx i, submitC := rest }
            (unicast { n with tasks := n.tasks.eraseIdx i, submitC := rest } (.forward s) (getCurLeader env n.curView)) :=
          sends_send (.forward (hs ▸ List.mem_cons_self))
        exact hsend.trans (sends_of_eq rfl rfl (fun _ h => h) rfl)
      · exact sends_withCore _ _
  | nextSync =>
    exact .sends (herase.trans (onNextSyncView_sends conn _ { n with tasks := n.tasks.eraseIdx i } hview))
  | submit cmds =>
    refine .sends ?_
    unfold runTask
    dsimp only
    split
    · refine ⟨⟨[], by simp, by simp⟩, fun c h => ?_, rfl⟩
      rcases h with h | h
      · rcases List.mem_append.1 h with h | h
        · exact Or.inl h
        · rw [List.mem_singleton.1 h]
          exact Or.inr hmem
      · exact Or.inr ((List.eraseIdx_sublist _ _).subset h)
    · refine ⟨⟨[], by simp [spawn], by simp⟩, fun c h => h.imp (fun h => h) fun h => ?_, rfl⟩
      rcases List.mem_append.1 h with h | h
      · exact (List.eraseIdx_sublist _ _).subset h
      · rw [List.mem_singleton.1 h]
        exact hmem

private theorem step_effect (env : NodeEnv) (n : Node) (a : Action) : Effect env n a (n.step env a) := by
  unfold step
  split
  · exact .sends (Sends.refl _ n)
  cases a with
  | message src msg => exact handleMessage_effect src msg
  | submit cmds =>
    show Effect env n _ (n.submit cmds)
    unfold submit
    split
    · exact .sends (Sends.refl _ n)
    · rename_i h
      exact .takes cmds (Or.inl ⟨rfl, fun h0 => h (congrArg List.length h0)⟩) rfl
  | task i conn now =>
    rw [act]
    cases hi : n.tasks[i]? with
    | none => exact .sends (Sends.refl _ n)
    | some t => exact task_effect hi
  | resumeProposal i => exact .sends (sends_withCore n _)
  | resumeNewView i => exact .sends (resumeNewView_sends n (fun _ _ _ _ hm hs => .viewChange hm hs) i)
  | timeout =>
    refine .sends ?_
    show Sends _ n (if n.timer then spawn { n with timer := false } .nextSync else n)
    split
    · have hstop : Sends (Emits env n) n { n with timer := false } := sends_of_eq rfl rfl (fun _ h => h) rfl
      exact hstop.trans (sends_spawn fun cmds h => by cases h)
    · exact Sends.refl _ n

end Actions

/-- The messages that an action sends are of the four kinds, and those sent before stay as they are. -/
theorem exists_step_sent (env : NodeEnv) (n : Node) (a : Action) :
    ∃ ms, (n.step env a).sent = n.sent ++ ms ∧ ∀ m ∈ ms, Emits env n m.msg := by
  cases step_effect env n a with
  | sends h => exact h.sent
  | takes cmds ha h => exact ⟨[], by simp [h, spawn], by simp⟩
  | executes block ht h => exact h.sent

theorem step_sent {env : NodeEnv} {n : Node} {a : Action} {m : Sent} (hm : m ∈ (n.step env a).sent) :
    m ∈ n.sent ∨ Emits env n m.msg := by
  obtain ⟨ms, hms, hS⟩ := exists_step_sent env n a
  rw [hms] at hm
  rcases List.mem_append.1 hm with hm | hm
  · exact Or.inl hm
  · exact Or.inr (hS m hm)

/-- A command that a replica holds after an action has been held before, or has come with the action. -/
theorem step_holds {env : NodeEnv} {n : Node} {a : Action} {cmds : Bytes} (hc : (n.step env a).Holds cmds) :
    n.Holds cmds ∨ (a = .submit cmds ∧ cmds ≠ []) ∨ ∃ src, a = .message src (.forward cmds) := by
  cases step_effect env n a with
  | sends h => exact Or.inl (h.holds cmds hc)
  | takes cmds' ha h =>
    rw [h] at hc
    rcases hc with hc | hc
    · exact Or.inl (Or.inl hc)
    · rcases List.mem_append.1 hc with hc | hc
      · exact Or.inl (Or.inr hc)
      · obtain rfl := Task.submit.inj (List.mem_singleton.1 hc)
        exact Or.inr ha
  | executes block ht h => exact Or.inl (h.holds cmds hc)

/-- A command that an action executes is that of a block whose decide event was about to run. -/
theorem step_executed {env : NodeEnv} {n : Node} {a : Action} {cmds : Bytes} (hc : cmds ∈ (n.step env a).executed) :
    cmds ∈ n.executed ∨ ∃ block, Task.event (.decide block) ∈ n.tasks ∧ block.cmds = cmds := by
  cases step_effect env n a with
  | sends h => exact Or.inl (h.executed ▸ hc)
  | takes cmds' ha h =>
    rw [h] at hc
    exact Or.inl hc
  | executes block ht h =>
    rw [h.executed] at hc
    rcases List.mem_append.1 hc with hc | hc
    · exact Or.inl hc
    · exact Or.inr ⟨block, ht, (List.mem_singleton.1 hc).symm⟩

end Node

end GoHotstuff
