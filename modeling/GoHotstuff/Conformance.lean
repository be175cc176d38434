import Mathlib.Tactic.DeriveCountable
import Mathlib.Data.Countable.Basic
import Mathlib.Logic.Equiv.List
import GoHotstuff.Network
import GoHotstuff.Sending

/-!
# Replicas understand each other

What a replica sends is encoded, travels as bytes, is decoded, and its handler checks senders, signatures and absent fields
before it acts.  Here the same network is described a second time, on the level of what the replicas tell each other
(`Payload`): a certificate in a new view, a proposal, a vote, a command, handed to the receiver as they are (`Node.hear`).
Between replicas whose signatures verify the coding and the checks make no difference: every run of the network of bytes is
a run of the network of payloads (`wire_refines`).  Of all the checks only those of `handleVote` on the leader and on the
empty hash are left.

The coding itself is that of a library.  It is a parameter, of which it is assumed that decoding undoes encoding.
-/

namespace GoHotstuff

open Lib (Bytes run StepsMeet)

/-! ### The network of bytes -/

/-- `Marshal` and `Unmarshal` for the messages between replicas. -/
structure Codec where
  marshal : Pb.Message → Except String Bytes
  unmarshal : Bytes → Except String Pb.Message

/-- Decoding undoes encoding. -/
def Codec.Lossless (C : Codec) : Prop := ∀ msg data, C.marshal msg = .ok data → C.unmarshal data = .ok msg

/-- Decoding undoes encoding for the new-view messages inside view changes. -/
def NetEnv.Lossless (E : NetEnv) : Prop :=
  ∀ view data, E.marshal view = .ok data → E.unmarshal data = .ok ⟨view.viewNumber, some view.genericQc⟩

/-- Bytes arrive on the stream from `src`; the stream ends with an error if they are no message. -/
def Node.recv (C : Codec) (env : NodeEnv) (n : Node) (src : Int64) (data : Bytes) : Node :=
  match C.unmarshal data with
  | .error _ => n
  | .ok msg => n.step env (.message src msg)

/-! ### The network of payloads -/

/-- What a replica tells another one. -/
inductive Payload where
  | newView (view : NewView)
  | proposal (prop : Proposal)
  | vote (vote : Vote)
  | forward (cmds : Bytes)

/-- The message carries the payload, signed by the replica where signatures are asked for. -/
inductive Payload.Says (env : NodeEnv) : Payload → Pb.Message → Prop
  | newView {view : NewView} {data : Bytes} {k : Nat} {sig : Bytes} (hm : env.marshal view = .ok data)
      (h : env.sign k data = .ok sig) : Says env (.newView view) (.viewChange data sig)
  | proposal (prop : Proposal) : Says env (.proposal prop) (.proposal prop.viewNumber (some prop.block.toPb))
  | vote {vote : Vote} {k : Nat} (hid : vote.voter = env.id) (h : env.sign k vote.blockHash = .ok vote.cert.signature) :
      Says env (.vote vote) vote.toPb
  | forward (cmds : Bytes) : Says env (.forward cmds) (.forward cmds)

/-- The handler of a payload. -/
def Node.hear (env : NodeEnv) (n : Node) (src : Int64) (p : Payload) : Node :=
  if n.core.crashed then n
  else
    match p with
    | .newView view => n.withCore (n.core.notify (.receiveNewView src view))
    | .proposal prop => n.handleProposal env prop.viewNumber (some prop.block.toPb)
    | .vote vote =>
      if vote.blockHash.length = 0 ∨ Node.getLeader env vote.viewNumber ≠ env.id then n
      else n.withCore (n.core.onProposalVote env.toEnv vote).2
    | .forward cmds => n.handleForward cmds

/-! ### Steps -/

/-- Something arrives at a replica, or the replica acts by itself. -/
inductive Input (α : Type) where
  | deliver (src : Int64) (x : α)
  | act (a : Action)

/-- A step of the network in which `handle` handles what arrives. -/
def Net.stepWith {α : Type} (handle : NodeEnv → Node → Int64 → α → Node) (E : NetEnv) (net : Net)
    (x : Int64 × Input α) : Net :=
  Function.update net x.1 <|
    match x.2 with
    | .deliver src y => handle (E.node x.1) (net x.1) src y
    | .act a => (net x.1).step (E.node x.1) a

/-- What arrives is the encoding of a message that its source has sent. -/
def Net.CarriesBytes (C : Codec) (E : NetEnv) (net : Net) (x : Int64 × Input Bytes) : Prop :=
  match x.2 with
  | .deliver src data => src ∈ E.replicas.replicas.keys ∧ ∃ m ∈ (net src).sent, C.marshal m.msg = .ok data
  | .act a => ∀ src msg, a ≠ .message src msg

/-- What arrives is what a message of its source says. -/
def Net.CarriesPayloads (E : NetEnv) (net : Net) (x : Int64 × Input Payload) : Prop :=
  match x.2 with
  | .deliver src p => src ∈ E.replicas.replicas.keys ∧ ∃ m ∈ (net src).sent, p.Says (E.node src) m.msg
  | .act a => ∀ src msg, a ≠ .message src msg

/-- The inputs of the two networks go together: the same replica acts, in the same way or on something from the same
source. -/
inductive Corresponds : Int64 × Input Bytes → Int64 × Input Payload → Prop
  | deliver (id src : Int64) (data : Bytes) (p : Payload) : Corresponds (id, .deliver src data) (id, .deliver src p)
  | act (id : Int64) (a : Action) : Corresponds (id, .act a) (id, .act a)

/-! ### Everything sent says something -/

namespace Node

/-- The vote of an event is the replica's own, with its signature. -/
def SignedVote (env : Env) (e : Event) : Prop :=
  ∀ prop vote, e = .receiveProposal prop vote →
    vote.voter = env.id ∧ ∃ k, env.sign k vote.blockHash = .ok vote.cert.signature

private theorem signedVote_run (env : NodeEnv) (as : List Action) {e : Event}
    (he : Task.event e ∈ (run (Node.step env) newNode as).tasks) : SignedVote env.toEnv e := by
  refine (events_run env (Q := SignedVote env.toEnv) (fun s op => ?_) as).2 e he
  have hother : ∀ {e : Event}, (∀ prop vote, e ≠ .receiveProposal prop vote) → SignedVote env.toEnv e :=
    fun h prop vote he => absurd he (h prop vote)
  refine Core.step_notifies_of ⟨fun _ => hother fun _ _ h => ?_, fun _ => hother fun _ _ h => ?_⟩
    (fun _ _ _ _ _ _ => hother fun _ _ h => ?_) (fun _ _ _ _ _ _ _ _ _ => hother fun _ _ h => ?_) ?_
    fun _ _ => hother fun _ _ h => ?_
  any_goals cases h
  intro prop k sig hsig prop' vote h
  obtain ⟨rfl, rfl⟩ := Event.receiveProposal.inj h
  exact ⟨rfl, k, hsig⟩

private theorem exists_says {env : NodeEnv} {as : List Action} {m : Sent}
    (hm : m ∈ (run (Node.step env) newNode as).sent) :
    ∃ p : Payload, p.Says env m.msg := by
  induction as using List.reverseRecOn with
  | nil => cases hm
  | append_singleton as a ih =>
    rw [Lib.run_append] at hm
    rcases step_sent hm with hm | hm
    · exact ih hm
    · have hown := fun e he => @signedVote_run env as e he
      generalize run (Node.step env) newNode as = n at hm hown
      generalize m.msg = msg at hm
      cases hm with
      | @viewChange view data sig k hmarshal hsig => exact ⟨.newView ⟨view, n.core.genericQC⟩, .newView hmarshal hsig⟩
      | @proposal prop viewNumber h => exact ⟨.proposal ⟨viewNumber, prop.block⟩, .proposal _⟩
      | @vote prop vote h =>
        obtain ⟨hid, k, hsig⟩ := hown _ h prop vote rfl
        exact ⟨.vote vote, .vote hid hsig⟩
      | @forward cmds h => exact ⟨.forward cmds, .forward cmds⟩

end Node

/-! ### Everything said is heard -/

/-- The signatures that a registered replica makes pass the check of its identity. -/
def NetEnv.Verifies (E : NetEnv) : Prop :=
  ∀ id ∈ E.replicas.replicas.keys, ∀ k data sig, E.sign id k data = .ok sig → E.replicas.verifyIdentity id sig data = true

private theorem Node.recv_eq_hear {E : NetEnv} {C : Codec} (hC : C.Lossless) (hE : E.Lossless) (hv : E.Verifies)
    {src : Int64}
    (hsrc : src ∈ E.replicas.replicas.keys) {p : Payload} {msg : Pb.Message} (hp : p.Says (E.node src) msg) {data : Bytes}
    (hdata : C.marshal msg = .ok data) (id : Int64) (n : Node) :
    n.recv C (E.node id) src data = n.hear (E.node id) src p := by
  have hverify : ∀ {k data sig}, (E.node src).sign k data = .ok sig →
      (E.node id).replicas.verifyIdentity src sig data = true := fun hsig => hv src hsrc _ _ _ hsig
  unfold recv hear
  rw [hC msg data hdata]
  show (if n.core.crashed then n else n.handleMessage _ src msg) = _
  split
  · rfl
  cases hp with
  | @newView view data k sig hm hsig =>
    have hdecode : (E.node id).unmarshal data = .ok ⟨view.viewNumber, some view.genericQc⟩ := hE view data hm
    show n.handleViewChange _ src _ sig = _
    unfold handleViewChange
    rw [if_pos (hverify hsig), hdecode]
  | proposal prop => rfl
  | @vote vote k hid hsig =>
    obtain rfl : vote.voter = src := hid
    show n.handleVote _ vote.voter vote.viewNumber vote.voter vote.blockHash (some vote.cert) = _
    unfold handleVote
    dsimp only
    rw [if_pos (hverify hsig), if_neg (not_not.2 rfl)]
    by_cases hempty : vote.blockHash.length = 0
    · rw [if_pos hempty, if_pos (Or.inl hempty)]
    · rw [if_neg hempty]
      split
      · rename_i hlead
        rw [if_pos (Or.inr hlead)]
      · rename_i hlead
        rw [if_neg (not_or.2 ⟨hempty, hlead⟩)]
  | forward cmds => rfl

namespace Net

private theorem run_stepWith_act {α : Type} (handle : NodeEnv → Node → Int64 → α → Node) (E : NetEnv) (net : Net)
    (acts : List (Int64 × Action)) :
    run (stepWith handle E) net (acts.map fun x => (x.1, .act x.2)) = run (step E) net acts := by
  induction acts generalizing net with
  | nil => rfl
  | cons x acts ih => exact ih (net.step E x)

private theorem carriesBytes_act {C : Codec} {E : NetEnv} {net : Net} {acts : List (Int64 × Action)}
    (h : ∀ x ∈ acts, ∀ src msg, x.2 ≠ .message src msg) :
    StepsMeet (stepWith (Node.recv C) E) (CarriesBytes C E) net (acts.map fun x => (x.1, .act x.2)) := by
  induction acts generalizing net with
  | nil => trivial
  | cons x acts ih => exact ⟨h x List.mem_cons_self, ih fun y hy => h y (List.mem_cons_of_mem _ hy)⟩

private theorem exists_actions (C : Codec) (E : NetEnv) (acts : List (Int64 × Input Bytes)) (id : Int64) :
    ∃ as, run (stepWith (Node.recv C) E) start acts id = run (Node.step (E.node id)) newNode as := by
  induction acts using List.reverseRecOn with
  | nil => exact ⟨[], rfl⟩
  | append_singleton acts x ih =>
    obtain ⟨as, has⟩ := ih
    rw [Lib.run_append]
    generalize run (stepWith (Node.recv C) E) start acts = net at has
    show ∃ as, stepWith (Node.recv C) E net x id = _
    obtain ⟨id', i⟩ := x
    unfold stepWith
    by_cases hid : id = id'
    · subst hid
      dsimp only
      rw [Function.update_self]
      cases i with
      | deliver src data =>
        dsimp only
        unfold Node.recv
        split
        · exact ⟨as, has⟩
        · rename_i msg hmsg
          exact ⟨as ++ [.message src msg], by rw [Lib.run_append, has]; rfl⟩
      | act a => exact ⟨as ++ [a], by rw [Lib.run_append, has]; rfl⟩
    · dsimp only
      rw [Function.update_of_ne hid]
      exact ⟨as, has⟩

end Net

/-- Take replicas whose signatures verify and a coding that loses nothing, and any run of the network in which the bytes that
arrive anywhere are encodings of messages sent by the replica they come from: in any order, late, never or several times.
The network goes through the same states as the one in which payloads arrive without coding and checks, and each payload
that arrives there is what a message of its source says. -/
theorem wire_refines (E : NetEnv) (C : Codec) (hC : C.Lossless) (hE : E.Lossless) (hv : E.Verifies)
    (acts : List (Int64 × Input Bytes))
    (hacts : StepsMeet (Net.stepWith (Node.recv C) E) (Net.CarriesBytes C E) Net.start acts) :
    ∃ acts', List.Forall₂ Corresponds acts acts' ∧
      StepsMeet (Net.stepWith Node.hear E) (Net.CarriesPayloads E) Net.start acts' ∧
      run (Net.stepWith Node.hear E) Net.start acts' = run (Net.stepWith (Node.recv C) E) Net.start acts := by
  induction acts using List.reverseRecOn with
  | nil => exact ⟨[], .nil, trivial, rfl⟩
  | append_singleton acts x ih =>
    obtain ⟨hacts, hx, -⟩ := Lib.stepsMeet_append.1 hacts
    obtain ⟨acts', hsame, hmeet, hrun⟩ := ih hacts
    have hreach := Net.exists_actions C E acts
    -- one input of the network of payloads that does the same
    suffices h : ∃ y, Corresponds x y ∧
        Net.CarriesPayloads E (run (Net.stepWith Node.hear E) Net.start acts') y ∧
        Net.stepWith Node.hear E (run (Net.stepWith Node.hear E) Net.start acts') y =
        Net.stepWith (Node.recv C) E (run (Net.stepWith (Node.recv C) E) Net.start acts) x by
      obtain ⟨y, hxy, hy, hstep⟩ := h
      refine ⟨acts' ++ [y], List.rel_append hsame (.cons hxy .nil), ?_, ?_⟩
      · exact Lib.stepsMeet_append.2 ⟨hmeet, hy, trivial⟩
      · rw [Lib.run_append, Lib.run_append]
        exact hstep
    rw [hrun]
    generalize run (Net.stepWith (Node.recv C) E) Net.start acts = net at hx hreach
    obtain ⟨id, i⟩ := x
    cases i with
    | deliver src data =>
      obtain ⟨hsrc, m, hm, hdata⟩ := hx
      obtain ⟨as, has⟩ := hreach src
      have hm' := hm
      rw [has] at hm'
      obtain ⟨p, hp⟩ := Node.exists_says hm'
      refine ⟨(id, .deliver src p), .deliver id src _ p, ⟨hsrc, m, hm, hp⟩, ?_⟩
      unfold Net.stepWith
      dsimp only
      rw [Node.recv_eq_hear hC hE hv hsrc hp hdata]
    | act a => exact ⟨(id, .act a), .act id a, hx, rfl⟩

/-! ### A coding -/

instance countableUInt8 : Countable UInt8 := Function.Injective.countable (f := UInt8.toNat) fun _ _ h => UInt8.toNat_inj.1 h

instance countableInt64 : Countable Int64 := Function.Injective.countable (f := Int64.toInt) fun _ _ h => Int64.toInt_inj.1 h

instance countableBytes : Countable Bytes := inferInstanceAs (Countable (List UInt8))

deriving instance Countable for PartCert

instance countableSigns : Countable Signs :=
  Function.Injective.countable (f := fun signs : Signs => signs.entries) fun _ _ h => AList.ext h

deriving instance Countable for QuorumCert

deriving instance Countable for NewView

deriving instance Countable for Pb.Block

deriving instance Countable for Pb.Message

namespace Server

/-- Any numbering of the values will do as their coding. -/
noncomputable def code {α : Type} [Countable α] (x : α) : Bytes :=
  List.replicate (Classical.choose (exists_injective_nat α) x) 0

private theorem code_injective {α : Type} [Countable α] : Function.Injective (code : α → Bytes) := by
  intro x y h
  have hlen := congrArg List.length h
  rw [code, code, List.length_replicate, List.length_replicate] at hlen
  exact Classical.choose_spec (exists_injective_nat α) hlen

noncomputable def decode {α : Type} [Countable α] (data : Bytes) : Except String α :=
  match Function.partialInv (code : α → Bytes) data with
  | none => .error "unexpected EOF"
  | some x => .ok x

private theorem decode_code {α : Type} [Countable α] (x : α) : decode (code x) = .ok x := by
  unfold decode
  rw [Function.partialInv_left code_injective]

noncomputable def codec : Codec := ⟨fun msg => .ok (code msg), decode⟩

private theorem codec_lossless : codec.Lossless := by
  intro msg data h
  obtain rfl := Except.ok.inj h
  exact decode_code msg

/-- The four replicas, with such a coding of new-view messages. -/
noncomputable def wireEnv : NetEnv where
  replicas := replicas
  sign id _ digest := .ok (sign id digest)
  marshal view := .ok (code view)
  unmarshal data := (decode data).map fun view : NewView => ⟨view.viewNumber, some view.genericQc⟩

private theorem wireEnv_lossless : wireEnv.Lossless := by
  intro view data h
  obtain rfl := Except.ok.inj h
  show (decode (code view)).map _ = _
  rw [decode_code]
  rfl

private theorem wireEnv_verifies : wireEnv.Verifies := by
  intro id hid k data sig h
  obtain rfl := Except.ok.inj h
  exact verifyIdentity_sign hid data

/-- Replica `0` is given a command, makes the first block and broadcasts it. -/
def firstBlockRun : List (Int64 × Action) :=
  let task : Nat → Int64 × Action := fun i => (0, .task i (fun _ _ => true) 0)
  [(0, .submit [1]), task 1, task 0, task 0]

def firstProposal : Pb.Message :=
  .proposal 0 (some { chain 1 with selfQc := quorumCert 0 (chain 1).selfQc.blockHash [0] }.toPb)

/-- The bytes of the proposal arrive at replica `1`. -/
noncomputable def wireRun : List (Int64 × Input Bytes) :=
  firstBlockRun.map (fun x => (x.1, .act x.2)) ++ [(1, .deliver 0 (code firstProposal))]

private theorem carriesBytes_wireRun :
    StepsMeet (Net.stepWith (Node.recv codec) wireEnv) (Net.CarriesBytes codec wireEnv) Net.start wireRun := by
  have hsent : ∃ m ∈ (run (Net.step wireEnv) Net.start firstBlockRun 0).sent, m.msg = firstProposal := by decide +kernel
  obtain ⟨m, hm, hmsg⟩ := hsent
  refine Lib.stepsMeet_append.2 ⟨?_, ?_, trivial⟩
  · refine Net.carriesBytes_act fun x hx src msg => ?_
    simp only [firstBlockRun, List.mem_cons, List.not_mem_nil, or_false] at hx
    rcases hx with rfl | rfl | rfl | rfl <;> simp
  · rw [Net.run_stepWith_act]
    exact ⟨by decide, m, hm, congrArg (fun msg => Except.ok (code msg)) hmsg⟩

end Server

theorem wire_refines_server :
    ∃ acts', List.Forall₂ Corresponds Server.wireRun acts' ∧
      run (Net.stepWith Node.hear Server.wireEnv) Net.start acts' =
        run (Net.stepWith (Node.recv Server.codec) Server.wireEnv) Net.start Server.wireRun := by
  obtain ⟨acts', hsame, -, hrun⟩ := wire_refines Server.wireEnv Server.codec Server.codec_lossless Server.wireEnv_lossless
    Server.wireEnv_verifies Server.wireRun Server.carriesBytes_wireRun
  exact ⟨acts', hsame, hrun⟩

end GoHotstuff
