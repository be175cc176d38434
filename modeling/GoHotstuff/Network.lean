import Mathlib.Logic.Function.Basic
import GoHotstuff.HotStuff
import GoHotstuff.Server
import GoHotstuff.Lib.Run

/-!
# A network of replicas

Replicas that share one configuration, each taking its actions in any order and at any time.  What a message contains
and who receives it is part of the action that delivers it, so that messages may be lost, delayed, repeated or made up;
conditions on the actions say what the transport and the other replicas cannot do.  The state of one replica depends on
its own actions only (`run_apply`).
-/

namespace GoHotstuff

open Lib (Bytes run StepsMeet)

/-- What the replicas share: the configuration, the coding of new-view messages and, for each replica, its signer. -/
structure NetEnv where
  replicas : ReplicaConf
  sign : Int64 → Nat → Bytes → Except String Bytes
  marshal : NewView → Except String Bytes
  unmarshal : Bytes → Except String Pb.NewView

def NetEnv.node (E : NetEnv) (id : Int64) : NodeEnv := ⟨⟨id, E.replicas, E.sign id⟩, E.marshal, E.unmarshal⟩

abbrev Net := Int64 → Node

namespace Net

def start : Net := fun _ => newNode

def step (E : NetEnv) (net : Net) (x : Int64 × Action) : Net :=
  Function.update net x.1 ((net x.1).step (E.node x.1) x.2)

theorem step_self (E : NetEnv) (net : Net) (x : Int64 × Action) :
    net.step E x x.1 = (net x.1).step (E.node x.1) x.2 := Function.update_self _ _ _

theorem step_of_ne (E : NetEnv) (net : Net) {x : Int64 × Action} {id : Int64} (h : id ≠ x.1) :
    net.step E x id = net id := Function.update_of_ne h _ _

/-! ### Runs of single replicas -/

/-- The actions of one replica. -/
def actionsOf (id : Int64) (acts : List (Int64 × Action)) : List Action :=
  (acts.filter fun x => x.1 = id).map fun x => x.2

private theorem actionsOf_cons_self (x : Int64 × Action) (acts : List (Int64 × Action)) :
    actionsOf x.1 (x :: acts) = x.2 :: actionsOf x.1 acts := by
  unfold actionsOf
  rw [List.filter_cons_of_pos (by simp)]
  rfl

private theorem actionsOf_cons_of_ne {x : Int64 × Action} {id : Int64} (h : id ≠ x.1) (acts : List (Int64 × Action)) :
    actionsOf id (x :: acts) = actionsOf id acts := by
  unfold actionsOf
  rw [List.filter_cons_of_neg (by simpa using h.symm)]

theorem run_apply (E : NetEnv) (net : Net) (acts : List (Int64 × Action)) (id : Int64) :
    run (step E) net acts id = run (Node.step (E.node id)) (net id) (actionsOf id acts) := by
  induction acts generalizing net with
  | nil => rfl
  | cons x acts ih =>
    rw [Lib.run_cons, ih]
    by_cases h : id = x.1
    · subst h
      rw [actionsOf_cons_self, Lib.run_cons, step_self]
    · rw [actionsOf_cons_of_ne h, step_of_ne E net h]

/-- A condition on the actions of one replica that the steps of a run meet is met in the replica's own run. -/
theorem stepsMeet_apply {E : NetEnv} {C : Net → Int64 × Action → Prop} {D : Node → Action → Prop} {id : Int64}
    (hC : ∀ net a, C net (id, a) → D (net id) a) {net : Net} {acts : List (Int64 × Action)}
    (h : StepsMeet (step E) C net acts) : StepsMeet (Node.step (E.node id)) D (net id) (actionsOf id acts) := by
  induction acts generalizing net with
  | nil => exact trivial
  | cons x acts ih =>
    obtain ⟨hx, hacts⟩ := h
    have hrest := ih hacts
    by_cases hid : id = x.1
    · subst hid
      rw [step_self] at hrest
      rw [actionsOf_cons_self]
      exact ⟨hC net x.2 hx, hrest⟩
    · rw [step_of_ne E net hid] at hrest
      rw [actionsOf_cons_of_ne hid]
      exact hrest

end Net

/-! ### The encoding of new-view messages in the four-replica deployment

Protocol buffers, version 3, as far as these messages need them: fields in the order of their numbers, a scalar field that
is zero or empty left out.  A message is decoded by looking it up among those that are sent in a run. -/

namespace Server

/-- Base 128, least significant group first; `k` bounds the number of further bytes. -/
def varint : Nat → Nat → Bytes
  | 0, n => [.ofNat n]
  | k + 1, n => if n < 128 then [.ofNat n] else .ofNat (n % 128 + 128) :: varint k (n / 128)

def int64Field (number : UInt8) (x : Int64) : Bytes := if x = 0 then [] else number * 8 :: varint 9 x.toUInt64.toNat

def messageField (number : UInt8) (data : Bytes) : Bytes := (number * 8 + 2) :: varint 9 data.length ++ data

def bytesField (number : UInt8) (data : Bytes) : Bytes := if data = [] then [] else messageField number data

def marshalPartCert (pc : PartCert) : Bytes := int64Field 1 pc.replicaId ++ bytesField 2 pc.signature

/-- An entry of the map is a message with the key and the value, both present. -/
def marshalSign (e : (_ : Int64) × PartCert) : Bytes :=
  messageField 3 (8 :: varint 9 e.1.toUInt64.toNat ++ messageField 2 (marshalPartCert e.2))

def marshalQuorumCert (qc : QuorumCert) : Bytes :=
  int64Field 1 qc.viewNumber ++ bytesField 2 qc.blockHash ++ qc.signs.entries.flatMap marshalSign

def marshalNewView (newView : NewView) : Bytes :=
  int64Field 1 newView.viewNumber ++ messageField 2 (marshalQuorumCert newView.genericQc)

/-- Decoding, for runs in which only messages of `msgs` are encoded. -/
def unmarshalNewView (msgs : List NewView) (data : Bytes) : Except String Pb.NewView :=
  match msgs.find? fun newView => marshalNewView newView = data with
  | none => .error "unexpected EOF"
  | some newView => .ok ⟨newView.viewNumber, some newView.genericQc⟩

/-- The first new-view message of a replica. -/
def firstNewView : NewView := ⟨0, genesisQC⟩

def netEnv : NetEnv where
  replicas := replicas
  sign id _ digest := .ok (sign id digest)
  marshal newView := .ok (marshalNewView newView)
  unmarshal := unmarshalNewView []

/-- The hash is a proper part of the encoding. -/
private theorem length_blockHash_lt_marshalNewView (newView : NewView) :
    newView.genericQc.blockHash.length < (marshalNewView newView).length := by
  have hmsg : ∀ number data, data.length < (messageField number data).length := by
    intro number data
    unfold messageField
    rw [List.length_append, List.length_cons]
    omega
  have hbytes : newView.genericQc.blockHash.length ≤ (bytesField 2 newView.genericQc.blockHash).length := by
    unfold bytesField
    split
    · rename_i h
      rw [h]
    · exact Nat.le_of_lt (hmsg 2 _)
  have hqc : (bytesField 2 newView.genericQc.blockHash).length ≤ (marshalQuorumCert newView.genericQc).length := by
    unfold marshalQuorumCert
    rw [List.length_append, List.length_append]
    omega
  unfold marshalNewView
  rw [List.length_append]
  have := hmsg 2 (marshalQuorumCert newView.genericQc)
  omega

theorem length_blockHash_lt_marshal (newView : NewView) (data : Bytes) (h : netEnv.marshal newView = .ok data) :
    newView.genericQc.blockHash.length < data.length := by
  obtain rfl := Except.ok.inj h
  exact length_blockHash_lt_marshalNewView newView

/-- A replica has accepted a command. -/
def submittedRun : List Action := [.submit [1], .task 1 (fun _ _ => true) 0]

/-- Replica `0` has proposed the command in view `0`; the broadcast of the proposal is still to come. -/
def proposingRun : List Action := submittedRun ++ [.task 0 (fun _ _ => true) 0]

/-! ### A command on its way through the deployment -/

def runTask (id : Int64) (i : Nat) : Int64 × Action := (id, .task i (fun _ _ => true) 0)

/-- The block as its proposer sends it, with the proposer's own vote. -/
def sentBy (view id : Int64) (b : Block) : Pb.Message :=
  .proposal view (some { b with selfQc := quorumCert view b.selfQc.blockHash [id] : Block }.toPb)

def voteOf (view id : Int64) (b : Block) : Pb.Message :=
  .vote view id b.selfQc.blockHash (some ⟨id, sign id b.selfQc.blockHash⟩)

/-- The block of view `1`, on the first block and with the votes that replica `1` has collected for it. -/
def second : Block := child 1 (chain 1) (quorumCert 0 (chain 1).selfQc.blockHash [2, 1, 0]) [2]

/-- The block of view `2`, with the votes that replica `2` has collected for the second block. -/
def onSecond : Block := child 2 second (quorumCert 1 second.selfQc.blockHash [3, 2, 1]) [3]

/-- A client gives a command to replica `3`, which forwards it to replica `0`; this proposes the first block. -/
def forwardedRound : List (Int64 × Action) :=
  [(3, .submit [1]), runTask 3 1, runTask 3 0, (0, .message 3 (.forward [1])), runTask 0 1, runTask 0 0, runTask 0 0]

/-- The others vote for the first block, and replica `1` collects votes and proposes the second one. -/
def secondRound : List (Int64 × Action) :=
  [(1, .submit [2]), runTask 1 1, (1, .message 0 (sentBy 0 0 (chain 1))), runTask 1 1,
   (2, .message 0 (sentBy 0 0 (chain 1))), runTask 2 1, (3, .message 0 (sentBy 0 0 (chain 1))), runTask 3 0,
   (1, .message 2 (voteOf 0 2 (chain 1))), runTask 1 2, runTask 1 0, runTask 1 2]

/-- Replicas `2` and `3` vote for the second block, and replica `2` proposes the next one. -/
def thirdRound : List (Int64 × Action) :=
  [(2, .submit [3]), runTask 2 1, (2, .message 1 (sentBy 1 1 second)), runTask 2 2, (3, .message 1 (sentBy 1 1 second)),
   runTask 3 1, (2, .message 3 (voteOf 1 3 second)), runTask 2 3, runTask 2 0, runTask 2 3]

/-- Replicas `3` and `1` vote for it, and when replica `3` proposes it executes the command of the first block. -/
def fourthRound : List (Int64 × Action) :=
  [(3, .submit [4]), runTask 3 1, (3, .message 2 (sentBy 2 2 onSecond)), runTask 3 2, (1, .message 2 (sentBy 2 2 onSecond)),
   runTask 1 3, (3, .message 1 (voteOf 2 1 onSecond)), runTask 3 3, runTask 3 3, runTask 3 3]

/-- The command that replica `3` is given comes back to it in a block. -/
def commandRun : List (Int64 × Action) := forwardedRound ++ secondRound ++ thirdRound ++ fourthRound

end Server

end GoHotstuff
