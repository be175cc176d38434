import GoHotstuff.Connections
import GoHotstuff.Network
import GoHotstuff.Sending

/-!
# The network on its transport

Replicas together with what connects them: each has its broadcast server and, for every other replica, a worker that dials
it, reads the stream it gets and hands each message to the loop of `Start` in a goroutine of its own.  Streams break and are
opened again at any time, a `Send` may fail, and clients that are no replicas may connect under any id.

What comes out is the network of the other modules: whatever the interleaving, the replicas go through a run in which every
message that arrives has been sent to the receiver by the replica it is said to come from, and arrives at most as often as
it has been sent (`transport_refines`).
-/

namespace GoHotstuff

open Lib (run StepsMeet tally)

/-! ### Messages of a run -/

/-- The message that arrives with an action. -/
def Action.arrival : Action → Option (Int64 × Pb.Message)
  | .message src msg => some (src, msg)
  | _ => none

/-- `1` if the message is one with content `msg` for replica `id`. -/
def Sent.addressed (id : Int64) (msg : Pb.Message) (m : Sent) : Nat :=
  if m.msg = msg ∧ (m.dest = none ∨ m.dest = some id) then 1 else 0

/-- How often `msg` has been sent to replica `id`. -/
def Node.sentTo (n : Node) (id : Int64) (msg : Pb.Message) : Nat := tally (Sent.addressed id msg) n.sent

namespace Net

/-- How often `msg` of `src` arrives at replica `id`. -/
def deliveries (id src : Int64) (msg : Pb.Message) (acts : List (Int64 × Action)) : Nat :=
  tally (fun x => if x.1 = id ∧ x.2.arrival = some (src, msg) then 1 else 0) acts

theorem deliveries_message (id src id' src' : Int64) (msg msg' : Pb.Message) (acts : List (Int64 × Action)) :
    deliveries id src msg (acts ++ [(id', .message src' msg')]) =
      deliveries id src msg acts + if id' = id ∧ (src', msg') = (src, msg) then 1 else 0 := by
  simp [deliveries, Action.arrival]

theorem deliveries_of_arrival_none {id' : Int64} {a : Action} (ha : a.arrival = none) (id src : Int64)
    (msg : Pb.Message) (acts : List (Int64 × Action)) :
    deliveries id src msg (acts ++ [(id', a)]) = deliveries id src msg acts := by
  simp [deliveries, ha]

/-- The actions so far, with the next one. -/
def record (done : List (Int64 × Action)) (x : Int64 × Action) : List (Int64 × Action) := done ++ [x]

/-- After the actions `done` the next one is possible: a message comes from another replica, which has sent it to the receiver
more often than it has arrived so far. -/
def Deliverable (E : NetEnv) (ids : List Int64) (done : List (Int64 × Action)) (x : Int64 × Action) : Prop :=
  match x.2.arrival with
  | none => True
  | some (src, msg) => src ∈ ids ∧ x.1 ∈ ids ∧ src ≠ x.1 ∧
      deliveries x.1 src msg done < (run (step E) start done src).sentTo x.1 msg

instance (E : NetEnv) (ids : List Int64) (done : List (Int64 × Action)) (x : Int64 × Action) :
    Decidable (Deliverable E ids done x) :=
  match h : x.2.arrival with
  | none => .isTrue (by simp [Deliverable, h])
  | some (src, msg) =>
    decidable_of_iff (src ∈ ids ∧ x.1 ∈ ids ∧ src ≠ x.1 ∧
      deliveries x.1 src msg done < (run (step E) start done src).sentTo x.1 msg) (by simp [Deliverable, h])

private theorem run_record (done acts : List (Int64 × Action)) : run record done acts = done ++ acts := by
  induction acts generalizing done with
  | nil => simp
  | cons x acts ih => simp [ih, record]

theorem stepsMeet_snoc {E : NetEnv} {ids : List Int64} {acts : List (Int64 × Action)} {x : Int64 × Action} :
    StepsMeet record (Deliverable E ids) [] (acts ++ [x]) ↔
      StepsMeet record (Deliverable E ids) [] acts ∧ Deliverable E ids acts x := by
  rw [Lib.stepsMeet_append, run_record]
  simp [StepsMeet]

end Net

/-! ### State -/

/-- The messages that a handler has put on its stream and the client has not read, with the client's id. -/
structure Stream where
  client : Int64
  line : List Pb.Message
deriving DecidableEq

/-- `worker id peer` is the stream of `peer` that the worker of `id` reads; there is none while it tries to connect.
`pending id` are the goroutines that wait to hand a message to the loop of `Start`. -/
structure Cluster where
  net : Net
  manager : Int64 → NodeManager
  server : Int64 → ABServer
  streams : Int64 → List Stream
  worker : Int64 → Int64 → Option Nat
  pending : Int64 → List (Int64 × Pb.Message)

namespace Cluster

def start (ids : List Int64) : Cluster where
  net := Net.start
  manager id := NodeManager.newNodeManager id (ids.map fun x => ⟨x, false⟩)
  server _ := ABServer.newABServer
  streams _ := []
  worker _ _ := none
  pending _ := []

/-! ### Moves -/

/-- `Unicast` or `Broadcast` is called. -/
def post (a : ABServer) (m : Sent) : ABServer :=
  match m.dest with
  | none => a.step (.broadcast (some m.msg))
  | some dest => a.step (.unicast (some m.msg) dest)

/-- A replica acts; what it sends is handed to its broadcast server. -/
def actNode (E : NetEnv) (c : Cluster) (id : Int64) (a : Action) : Cluster :=
  { c with
    net := c.net.step E (id, a)
    server := Function.update c.server id
      (((c.net.step E (id, a) id).sent.drop (c.net id).sent.length).foldl post (c.server id)) }

/-- The message goes on the stream of handler `i`. -/
def putOn (streams : List Stream) : Option (Nat × Pb.Message) → List Stream
  | none => streams
  | some (i, msg) =>
    match streams[i]? with
    | none => streams
    | some s => streams.set i { s with line := s.line ++ [msg] }

/-- The broadcast server goes on. -/
def serve (c : Cluster) (id : Int64) (mv : ABServer.Move) : Cluster :=
  if mv.IsOwn then
    { c with
      server := Function.update c.server id ((c.server id).step mv)
      streams := Function.update c.streams id (putOn (c.streams id) ((c.server id).output mv)) }
  else c

/-- A stream to the server of `id` is opened. -/
def openStream (c : Cluster) (id : Int64) (ctx : StreamContext) : Cluster :=
  { c with
    server := Function.update c.server id ((c.server id).step (.handshake (extractRemoteAddress ctx)))
    streams := Function.update c.streams id (c.streams id ++ [⟨extractRemoteAddress ctx, []⟩]) }

/-- The worker of `id` reads the stream, or has to connect again. -/
def setWorker (c : Cluster) (id peer : Int64) (stream : Option Nat) : Cluster :=
  { c with
    worker := Function.update c.worker id (Function.update (c.worker id) peer stream)
    manager := Function.update c.manager id ((c.manager id).setConnected peer stream.isSome) }

/-- The worker of `id` for `peer` has connected.  That the attempt fails changes nothing. -/
def dial (c : Cluster) (id peer : Int64) : Cluster :=
  if (c.manager id).HasWorker peer ∧ c.worker id peer = none then
    (c.openStream peer (dialContext id)).setWorker id peer (some (c.streams peer).length)
  else c

/-- `Recv` returns a message. -/
def recv (c : Cluster) (id peer : Int64) : Cluster :=
  match c.worker id peer with
  | none => c
  | some i =>
    match (c.streams peer)[i]? with
    | none => c
    | some s =>
      match s.line with
      | [] => c
      | msg :: rest =>
        { c with
          streams := Function.update c.streams peer ((c.streams peer).set i { s with line := rest })
          pending := Function.update c.pending id (c.pending id ++ [(peer, msg)]) }

/-- `Recv` returns an error. -/
def broken (c : Cluster) (id peer : Int64) : Cluster :=
  match c.worker id peer with
  | none => c
  | some _ => c.setWorker id peer none

/-- The goroutine `k` of `id` is done. -/
def dropPending (c : Cluster) (id : Int64) (k : Nat) : Cluster :=
  { c with pending := Function.update c.pending id ((c.pending id).eraseIdx k) }

/-- The loop of `Start` takes the message of goroutine `k`. -/
def take (E : NetEnv) (c : Cluster) (id : Int64) (k : Nat) : Cluster :=
  match (c.pending id)[k]? with
  | none => c
  | some (src, msg) => (c.dropPending id k).actNode E id (.message src msg)

inductive Move where
  /-- the replica acts by itself -/
  | act (a : Action)
  | serve (mv : ABServer.Move)
  /-- anyone connects -/
  | accept (ctx : StreamContext)
  | dial (peer : Int64)
  | recv (peer : Int64)
  | broken (peer : Int64)
  | take (k : Nat)

def step (E : NetEnv) (c : Cluster) (x : Int64 × Move) : Cluster :=
  match x.2 with
  | .act a => if a.arrival = none then c.actNode E x.1 a else c
  | .serve mv => c.serve x.1 mv
  | .accept ctx => c.openStream x.1 ctx
  | .dial peer => c.dial x.1 peer
  | .recv peer => c.recv x.1 peer
  | .broken peer => c.broken x.1 peer
  | .take k => c.take E x.1 k

end Cluster

/-! ### Where the copies of a message are -/

/-- The copies of `msg` on a stream of replica `id`. -/
def Stream.owes (id : Int64) (msg : Pb.Message) (s : Stream) : Nat := if s.client = id then s.line.count msg else 0

namespace Cluster

/-- The copies of `msg` between the calls of `src` and the loop of `id`. -/
def onTheWay (c : Cluster) (id src : Int64) (msg : Pb.Message) : Nat :=
  (c.pending id).count (src, msg) + tally (Stream.owes id msg) (c.streams src) + (c.server src).owes id msg

/-- What holds of the transport: the streams belong to the handlers, the workers read streams of their own, and a message
has been delivered and is on its way at most as often as it has been sent. -/
structure Accounted (ids : List Int64) (acts : List (Int64 × Action)) (c : Cluster) : Prop where
  opened : ∀ id, (c.server id).Open
  clients : ∀ id, (c.streams id).map (fun s => s.client) = (c.server id).handlers.map fun h => h.src
  worker : ∀ {id peer i}, c.worker id peer = some i → peer ∈ ids ∧ id ∈ ids ∧ peer ≠ id ∧
    ∃ s, (c.streams peer)[i]? = some s ∧ s.client = id
  pending : ∀ {id e}, e ∈ c.pending id → e.1 ∈ ids ∧ id ∈ ids ∧ e.1 ≠ id
  self : ∀ id, (c.manager id).self = if id ∈ ids then some id else none
  nodes : ∀ id peer, peer ∈ (c.manager id).nodes ↔ peer ∈ ids
  status : ∀ id peer, (c.manager id).getConnectStatus peer = true ↔
    (peer = id ∧ id ∈ ids) ∨ (c.worker id peer).isSome
  count : ∀ id src msg, Net.deliveries id src msg acts + c.onTheWay id src msg ≤ (c.net src).sentTo id msg

/-! ### The start -/

theorem newNodeManager_spec (id : Int64) (ids : List Int64) :
    (NodeManager.newNodeManager id (ids.map fun x => ⟨x, false⟩)).self = (if id ∈ ids then some id else none) ∧
      (∀ peer, peer ∈ (NodeManager.newNodeManager id (ids.map fun x => ⟨x, false⟩)).nodes ↔ peer ∈ ids) ∧
      ∀ peer, (NodeManager.newNodeManager id (ids.map fun x => ⟨x, false⟩)).getConnectStatus peer = true ↔
        peer = id ∧ id ∈ ids := by
  induction ids using List.reverseRecOn with
  | nil =>
    refine ⟨by simp [NodeManager.newNodeManager], fun peer => ?_, fun peer => ?_⟩
    · simp [NodeManager.newNodeManager]
    · simp [NodeManager.newNodeManager, NodeManager.getConnectStatus]
  | append_singleton ids x ih =>
    have hsnoc : NodeManager.newNodeManager id ((ids ++ [x]).map fun x => ⟨x, false⟩) =
        NodeManager.addNode id (NodeManager.newNodeManager id (ids.map fun x => ⟨x, false⟩)) ⟨x, false⟩ := by
      simp [NodeManager.newNodeManager]
    rw [hsnoc]
    obtain ⟨hself, hnodes, hstatus⟩ := ih
    generalize NodeManager.newNodeManager id (ids.map fun x => ⟨x, false⟩) = mgr at hself hnodes hstatus ⊢
    by_cases hx : x = id
    · subst hx
      refine ⟨by simp [NodeManager.addNode], fun peer => ?_, fun peer => ?_⟩
      · simp only [NodeManager.addNode, if_true, AList.mem_insert, hnodes, List.mem_append, List.mem_singleton]
        exact or_comm
      · by_cases hp : peer = x
        · subst hp
          simp [NodeManager.addNode, NodeManager.getConnectStatus]
        · have := hstatus peer
          simp only [NodeManager.getConnectStatus] at this
          simp [NodeManager.addNode, NodeManager.getConnectStatus, hp, this]
    · have hmem : id ∈ ids ++ [x] ↔ id ∈ ids := by simp [Ne.symm hx]
      refine ⟨by simp [NodeManager.addNode, hx, hself, Ne.symm hx], fun peer => ?_, fun peer => ?_⟩
      · simp only [NodeManager.addNode, hx, if_false, AList.mem_insert, hnodes, List.mem_append, List.mem_singleton]
        exact or_comm
      · rw [hmem]
        by_cases hp : peer = x
        · subst hp
          simp [NodeManager.addNode, NodeManager.getConnectStatus, hx]
        · have := hstatus peer
          simp only [NodeManager.getConnectStatus] at this
          simp [NodeManager.addNode, NodeManager.getConnectStatus, hx, hp, this]

private theorem accounted_start (ids : List Int64) : Accounted ids [] (start ids) where
  opened _ := ABServer.open_newABServer
  clients _ := rfl
  worker h := by cases h
  pending h := by cases h
  self id := (newNodeManager_spec id ids).1
  nodes id := (newNodeManager_spec id ids).2.1
  status id peer := by
    have := (newNodeManager_spec id ids).2.2 peer
    simpa [start] using this
  count id src msg := Nat.le_of_eq rfl

/-! ### Replicas act -/

private theorem open_post {a : ABServer} (h : a.Open) (m : Sent) : (post a m).Open := by
  unfold post
  split
  · exact h.step _
  · exact h.step _

private theorem handlers_post {a : ABServer} (h : a.Open) (m : Sent) : (post a m).handlers = a.handlers := by
  unfold post
  split
  · simp [ABServer.step, h.running, ABServer.act, ABServer.broadcast]
  · simp [ABServer.step, h.running, ABServer.act, ABServer.unicast]

private theorem owes_post {a : ABServer} (h : a.Open) (m : Sent) (id : Int64) (msg : Pb.Message) :
    (post a m).owes id msg = a.owes id msg + m.addressed id msg := by
  unfold post
  split
  · rename_i hd
    rw [ABServer.owes_broadcast id msg h]
    simp [Sent.addressed, hd]
  · rename_i dest hd
    rw [ABServer.owes_unicast id msg h]
    simp [Sent.addressed, hd]

/-- All that a replica sends in one action is handed to its server. -/
theorem posts_spec {a : ABServer} (h : a.Open) (ms : List Sent) :
    (ms.foldl post a).Open ∧ (ms.foldl post a).handlers = a.handlers ∧
      ∀ id msg, (ms.foldl post a).owes id msg = a.owes id msg + tally (Sent.addressed id msg) ms := by
  induction ms generalizing a with
  | nil => exact ⟨h, rfl, fun id msg => rfl⟩
  | cons m ms ih =>
    obtain ⟨hopen, hhandlers, howes⟩ := ih (open_post h m)
    refine ⟨hopen, hhandlers.trans (handlers_post h m), fun id msg => ?_⟩
    have hpost := owes_post h m id msg
    have hrest := howes id msg
    simp only [List.foldl_cons, Lib.tally_cons]
    omega

section Steps

variable {ids : List Int64} {acts : List (Int64 × Action)} {c : Cluster}

private theorem Accounted.actNode (h : Accounted ids acts c) (E : NetEnv) (id : Int64) (a : Action) :
    Accounted ids acts (c.actNode E id a) := by
  obtain ⟨ms, hms, -⟩ := Node.exists_step_sent (E.node id) (c.net id) a
  have hself : c.net.step E (id, a) id = (c.net id).step (E.node id) a := Net.step_self E c.net (id, a)
  have hdrop : ((c.net.step E (id, a) id).sent.drop (c.net id).sent.length) = ms := by
    rw [hself, hms, List.drop_left]
  obtain ⟨hopen, hhandlers, howes⟩ := posts_spec (h.opened id) ms
  -- the server of `id` has new calls, the other ones are as they were
  have hserver : ∀ id', ((c.actNode E id a).server id' = ms.foldl post (c.server id) ∧ id' = id) ∨
      ((c.actNode E id a).server id' = c.server id' ∧ id' ≠ id) := by
    intro id'
    simp only [Cluster.actNode, hdrop]
    by_cases hid : id' = id
    · subst hid
      exact Or.inl ⟨Function.update_self _ _ _, rfl⟩
    · exact Or.inr ⟨Function.update_of_ne hid _ _, hid⟩
  refine ⟨fun id' => ?_, fun id' => ?_, h.worker, h.pending, h.self, h.nodes, h.status, fun id' src msg => ?_⟩
  · rcases hserver id' with ⟨heq, -⟩ | ⟨heq, -⟩
    · rw [heq]
      exact hopen
    · rw [heq]
      exact h.opened id'
  · rcases hserver id' with ⟨heq, rfl⟩ | ⟨heq, -⟩
    · rw [heq, hhandlers]
      exact h.clients id'
    · rw [heq]
      exact h.clients id'
  · have hcount := h.count id' src msg
    unfold onTheWay at hcount ⊢
    rcases hserver src with ⟨heq, rfl⟩ | ⟨heq, hne⟩
    · have hsent : ((c.actNode E src a).net src).sentTo id' msg =
          (c.net src).sentTo id' msg + tally (Sent.addressed id' msg) ms := by
        simp only [Cluster.actNode, Node.sentTo, hself, hms, Lib.tally_append]
      rw [hsent, heq, howes id' msg]
      simp only [Cluster.actNode]
      omega
    · have hsent : (c.actNode E id a).net src = c.net src := Net.step_of_ne E c.net hne
      rw [hsent, heq]
      exact hcount

/-! ### Servers -/

private theorem exists_client_set {streams : List Stream} {i j : Nat} {s s' : Stream} {id : Int64}
    (hs : streams[i]? = some s) (hc : s'.client = s.client) (hj : ∃ s, streams[j]? = some s ∧ s.client = id) :
    ∃ s, (streams.set i s')[j]? = some s ∧ s.client = id := by
  obtain ⟨s₀, hs₀, hid⟩ := hj
  by_cases hij : i = j
  · subst hij
    rw [hs] at hs₀
    obtain rfl := Option.some.inj hs₀
    exact ⟨s', List.getElem?_set_self (List.getElem?_eq_some_iff.1 hs).1, hc.trans hid⟩
  · exact ⟨s₀, (List.getElem?_set_ne hij).trans hs₀, hid⟩

private theorem putOn_cases (streams : List Stream) (o : Option (Nat × Pb.Message)) :
    putOn streams o = streams ∨ ∃ i msg s, o = some (i, msg) ∧ streams[i]? = some s ∧
      putOn streams o = streams.set i { s with line := s.line ++ [msg] } := by
  unfold putOn
  split
  · exact Or.inl rfl
  · rename_i i msg
    split
    · exact Or.inl rfl
    · rename_i s hs
      exact Or.inr ⟨i, msg, s, rfl, hs, rfl⟩

private theorem map_client_putOn (streams : List Stream) (o : Option (Nat × Pb.Message)) :
    (putOn streams o).map (fun s => s.client) = streams.map fun s => s.client := by
  rcases putOn_cases streams o with heq | ⟨i, msg, s, -, hs, heq⟩
  · rw [heq]
  · rw [heq]
    exact Lib.map_set_of_eq hs rfl

private theorem tally_putOn_le {streams : List Stream} {a : ABServer}
    (hclients : streams.map (fun s => s.client) = a.handlers.map fun h => h.src) (mv : ABServer.Move) (id : Int64)
    (msg : Pb.Message) : tally (Stream.owes id msg) (putOn streams (a.output mv)) ≤
      tally (Stream.owes id msg) streams + a.passes id msg mv := by
  rcases putOn_cases streams (a.output mv) with heq | ⟨i, m, s, ho, hs, heq⟩
  · rw [heq]
    omega
  · have hset := Lib.tally_set (w := Stream.owes id msg) { s with line := s.line ++ [m] } hs
    have hclient : (a.handlers[i]?).map (fun h => h.src) = some s.client := by
      rw [← List.getElem?_map, ← hclients, List.getElem?_map, hs, Option.map_some]
    have hone : Stream.owes id msg { s with line := s.line ++ [m] } = s.owes id msg + a.passes id msg mv := by
      simp only [ABServer.passes, ABServer.leadsTo, ho, Option.toList_some, Lib.tally_cons, Lib.tally_nil, hclient]
      by_cases hid : s.client = id
      · by_cases hm : m = msg
        · simp [Stream.owes, hid, hm]
        · simp [Stream.owes, hid, hm]
      · simp [Stream.owes, hid]
    rw [heq]
    omega

private theorem map_src_step {a : ABServer} {mv : ABServer.Move} (hown : mv.IsOwn) :
    (a.step mv).handlers.map (fun h => h.src) = a.handlers.map fun h => h.src := by
  generalize hres : a.step mv = a'
  have hmove := ABServer.step_result a mv
  rw [hres] at hmove
  cases hmove with
  | handshake => cases hown
  | register hi => exact Lib.map_set_of_eq hi rfl
  | succeed hi => exact Lib.map_set_of_eq hi rfl
  | fail hi => exact Lib.map_set_of_eq hi rfl
  | remove hi => exact Lib.map_set_of_eq hi rfl
  | finish hi => exact Lib.map_set_of_eq hi rfl
  | deliver _ _ hh => exact Lib.map_set_of_eq hh rfl
  | _ => rfl

private theorem Accounted.serve (h : Accounted ids acts c) (id : Int64) (mv : ABServer.Move) :
    Accounted ids acts (c.serve id mv) := by
  unfold Cluster.serve
  split
  · rename_i hown
    refine ⟨fun id' => ?_, fun id' => ?_, fun {id' peer i} hw => ?_, h.pending, h.self, h.nodes, h.status,
      fun id' src msg => ?_⟩
    · by_cases hid : id' = id
      · subst hid
        simp only [Function.update_self]
        exact (h.opened id').step mv
      · simp only [Function.update_of_ne hid]
        exact h.opened id'
    · by_cases hid : id' = id
      · subst hid
        simp only [Function.update_self]
        rw [map_client_putOn, map_src_step hown]
        exact h.clients id'
      · simp only [Function.update_of_ne hid]
        exact h.clients id'
    · obtain ⟨hpeer, hid', hne, hs⟩ := h.worker hw
      refine ⟨hpeer, hid', hne, ?_⟩
      by_cases hp : peer = id
      · subst hp
        simp only [Function.update_self]
        rcases putOn_cases (c.streams peer) ((c.server peer).output mv) with heq | ⟨j, m, s, -, hj, heq⟩
        · rw [heq]
          exact hs
        · rw [heq]
          exact exists_client_set hj rfl hs
      · simp only [Function.update_of_ne hp]
        exact hs
    · have hcount := h.count id' src msg
      unfold onTheWay at hcount ⊢
      by_cases hsrc : src = id
      · subst hsrc
        have hput := tally_putOn_le (h.clients src) mv id' msg
        have hstep := ABServer.owes_step id' msg (h.opened src) hown
        simp only [Function.update_self]
        omega
      · simp only [Function.update_of_ne hsrc]
        exact hcount
  · exact h

/-! ### Connections -/

private theorem Accounted.openStream (h : Accounted ids acts c) (id : Int64) (ctx : StreamContext) :
    Accounted ids acts (c.openStream id ctx) := by
  have hhandlers : ((c.server id).step (.handshake (extractRemoteAddress ctx))).handlers =
      (c.server id).handlers ++ [⟨extractRemoteAddress ctx, .registering, none, false⟩] := by
    simp [ABServer.step, (h.opened id).running, ABServer.act]
  unfold Cluster.openStream
  refine ⟨fun id' => ?_, fun id' => ?_, fun {id' peer i} hw => ?_, h.pending, h.self, h.nodes, h.status,
    fun id' src msg => ?_⟩
  · by_cases hid : id' = id
    · subst hid
      simp only [Function.update_self]
      exact (h.opened id').step _
    · simp only [Function.update_of_ne hid]
      exact h.opened id'
  · by_cases hid : id' = id
    · subst hid
      simp only [Function.update_self, hhandlers, List.map_append, h.clients id']
      rfl
    · simp only [Function.update_of_ne hid]
      exact h.clients id'
  · obtain ⟨hpeer, hid', hne, s, hs, hclient⟩ := h.worker hw
    refine ⟨hpeer, hid', hne, s, ?_, hclient⟩
    by_cases hp : peer = id
    · subst hp
      simp only [Function.update_self]
      rw [List.getElem?_append_left (List.getElem?_eq_some_iff.1 hs).1]
      exact hs
    · simp only [Function.update_of_ne hp]
      exact hs
  · have hcount := h.count id' src msg
    unfold onTheWay at hcount ⊢
    by_cases hsrc : src = id
    · subst hsrc
      have hserver := ABServer.owes_handshake id' msg (h.opened src) (extractRemoteAddress ctx)
      have hempty : Stream.owes id' msg ⟨extractRemoteAddress ctx, []⟩ = 0 := by simp [Stream.owes]
      simp only [Function.update_self, Lib.tally_append, Lib.tally_cons, Lib.tally_nil, hempty, hserver]
      exact hcount
    · simp only [Function.update_of_ne hsrc]
      exact hcount

private theorem Accounted.setWorker (h : Accounted ids acts c) {id peer : Int64} (hpeer : peer ∈ ids) (hid : id ∈ ids)
    (hne : peer ≠ id) {stream : Option Nat} (hs : ∀ i ∈ stream, ∃ s, (c.streams peer)[i]? = some s ∧ s.client = id) :
    Accounted ids acts (c.setWorker id peer stream) := by
  unfold Cluster.setWorker
  refine ⟨h.opened, h.clients, fun {id' peer' i} hw => ?_, h.pending, fun id' => ?_, fun id' peer' => ?_,
    fun id' peer' => ?_, h.count⟩
  · by_cases hid' : id' = id
    · subst hid'
      simp only [Function.update_self] at hw
      by_cases hp : peer' = peer
      · subst hp
        rw [Function.update_self] at hw
        exact ⟨hpeer, hid, hne, hs i hw⟩
      · rw [Function.update_of_ne hp] at hw
        exact h.worker hw
    · simp only [Function.update_of_ne hid'] at hw
      exact h.worker hw
  · by_cases hid' : id' = id
    · subst hid'
      simp only [Function.update_self, NodeManager.setConnected_self]
      exact h.self id'
    · simp only [Function.update_of_ne hid']
      exact h.self id'
  · by_cases hid' : id' = id
    · subst hid'
      simp only [Function.update_self, NodeManager.mem_setConnected]
      exact h.nodes id' peer'
    · simp only [Function.update_of_ne hid']
      exact h.nodes id' peer'
  · by_cases hid' : id' = id
    · subst hid'
      simp only [Function.update_self]
      by_cases hp : peer' = peer
      · subst hp
        rw [NodeManager.getConnectStatus_setConnected ((h.nodes id' peer').2 hpeer), Function.update_self]
        simp [hne]
      · rw [NodeManager.getConnectStatus_setConnected_of_ne hp, Function.update_of_ne hp]
        exact h.status id' peer'
    · simp only [Function.update_of_ne hid']
      exact h.status id' peer'

private theorem Accounted.dial (h : Accounted ids acts c) (id peer : Int64) : Accounted ids acts (c.dial id peer) := by
  unfold Cluster.dial
  split
  · rename_i hw
    obtain ⟨⟨hsome, hmem, hself⟩, -⟩ := hw
    have hid : id ∈ ids := by
      by_contra hid
      rw [h.self, if_neg hid] at hsome
      cases hsome
    rw [h.self, if_pos hid] at hself
    have hne : peer ≠ id := fun heq => hself (congrArg some heq.symm)
    refine (h.openStream peer (dialContext id)).setWorker ((h.nodes id peer).1 hmem) hid hne ?_
    intro i hi
    obtain rfl := Option.some.inj hi
    refine ⟨⟨id, []⟩, ?_, rfl⟩
    simp [Cluster.openStream, extractRemoteAddress_dial]
  · exact h

private theorem Accounted.broken (h : Accounted ids acts c) (id peer : Int64) :
    Accounted ids acts (c.broken id peer) := by
  unfold Cluster.broken
  split
  · exact h
  · rename_i i hw
    obtain ⟨hpeer, hid, hne, -⟩ := h.worker hw
    exact h.setWorker hpeer hid hne (by simp)

private theorem Accounted.recv (h : Accounted ids acts c) (id peer : Int64) : Accounted ids acts (c.recv id peer) := by
  unfold Cluster.recv
  split
  · exact h
  rename_i i hw
  split
  · exact h
  rename_i s hs
  split
  · exact h
  rename_i msg rest hline
  obtain ⟨hpeer, hid, hne, s', hs', hclient⟩ := h.worker hw
  obtain rfl : s = s' := Option.some.inj (hs.symm.trans hs')
  refine ⟨h.opened, fun id' => ?_, fun {id' peer' j} hw' => ?_, fun {id' e} he => ?_, h.self, h.nodes, h.status,
    fun id' src msg' => ?_⟩
  · by_cases hp : id' = peer
    · subst hp
      have hclients : ((c.streams id').set i { s with line := rest }).map (fun s => s.client) =
          (c.streams id').map fun s => s.client := Lib.map_set_of_eq hs rfl
      simp only [Function.update_self, hclients]
      exact h.clients id'
    · simp only [Function.update_of_ne hp]
      exact h.clients id'
  · obtain ⟨hpeer', hid', hne', hstream⟩ := h.worker hw'
    refine ⟨hpeer', hid', hne', ?_⟩
    by_cases hp : peer' = peer
    · subst hp
      simp only [Function.update_self]
      exact exists_client_set hs rfl hstream
    · simp only [Function.update_of_ne hp]
      exact hstream
  · by_cases hid' : id' = id
    · subst hid'
      simp only [Function.update_self] at he
      rcases List.mem_append.1 he with he | he
      · exact h.pending he
      · rw [List.mem_singleton.1 he]
        exact ⟨hpeer, hid, hne⟩
    · simp only [Function.update_of_ne hid'] at he
      exact h.pending he
  · -- the copy has left the stream and is with the new goroutine
    have hcount := h.count id' src msg'
    have hset := Lib.tally_set (w := Stream.owes id' msg') { s with line := rest } hs
    unfold onTheWay at hcount ⊢
    by_cases hsrc : src = peer
    · subst hsrc
      by_cases hid' : id' = id
      · subst hid'
        have hline' : s.owes id' msg' = Stream.owes id' msg' { s with line := rest } + [(src, msg)].count (src, msg') := by
          simp [Stream.owes, hclient, hline, List.count_cons]
        simp only [Function.update_self, List.count_append]
        omega
      · have hline' : Stream.owes id' msg' { s with line := rest } ≤ s.owes id' msg' := by
          simp [Stream.owes, hclient, Ne.symm hid']
        simp only [Function.update_self, Function.update_of_ne hid']
        omega
    · have hpend : (Function.update c.pending id (c.pending id ++ [(peer, msg)]) id').count (src, msg') =
          (c.pending id').count (src, msg') := by
        by_cases hid' : id' = id
        · subst hid'
          simp [Ne.symm hsrc]
        · rw [Function.update_of_ne hid']
      simp only [Function.update_of_ne hsrc, hpend]
      exact hcount

/-! ### Runs -/

/-- The copy that the goroutine hands over is no longer there. -/
theorem count_dropPending {id src : Int64} {k : Nat} {msg : Pb.Message} (hk : (c.pending id)[k]? = some (src, msg))
    (id' src' : Int64) (msg' : Pb.Message) : ((c.dropPending id k).pending id').count (src', msg') +
      (if id = id' ∧ (src, msg) = (src', msg') then 1 else 0) = (c.pending id').count (src', msg') := by
  by_cases hid : id' = id
  · subst hid
    have herase : ((c.pending id').eraseIdx k).count (src', msg') + [(src, msg)].count (src', msg') =
        (c.pending id').count (src', msg') := by
      have := (List.getElem_cons_eraseIdx_perm (List.getElem?_eq_some_iff.1 hk).1).count_eq (src', msg')
      rw [(List.getElem?_eq_some_iff.1 hk).2, ← List.singleton_append, List.count_append] at this
      omega
    simp only [List.count_singleton, beq_iff_eq] at herase
    simp only [Cluster.dropPending, Function.update_self, true_and]
    exact herase
  · simp [Cluster.dropPending, Function.update_of_ne hid, Ne.symm hid]

private theorem Accounted.dropPending (h : Accounted ids acts c) {id src : Int64} {k : Nat} {msg : Pb.Message}
    (hk : (c.pending id)[k]? = some (src, msg)) :
    Accounted ids (acts ++ [(id, .message src msg)]) (c.dropPending id k) := by
  refine ⟨h.opened, h.clients, h.worker, fun {id' e} he => ?_, h.self, h.nodes, h.status, fun id' src' msg' => ?_⟩
  · unfold Cluster.dropPending at he
    by_cases hid : id' = id
    · subst hid
      simp only [Function.update_self] at he
      exact h.pending ((List.eraseIdx_sublist _ _).subset he)
    · simp only [Function.update_of_ne hid] at he
      exact h.pending he
  · have hcount := h.count id' src' msg'
    have hpending := count_dropPending hk id' src' msg'
    have hrest : (c.dropPending id k).server = c.server ∧ (c.dropPending id k).streams = c.streams ∧
        (c.dropPending id k).net = c.net := ⟨rfl, rfl, rfl⟩
    unfold onTheWay at hcount ⊢
    rw [Net.deliveries_message, hrest.1, hrest.2.1, hrest.2.2]
    omega

/-- The replicas are where the actions `acts` lead, and these are actions that the messages allow. -/
structure Follows (E : NetEnv) (ids : List Int64) (acts : List (Int64 × Action)) (c : Cluster) : Prop where
  net : c.net = run (Net.step E) Net.start acts
  steps : StepsMeet Net.record (Net.Deliverable E ids) [] acts
  accounted : Accounted ids acts c

/-- The actions after a move: at most one more, of the replica that moves. -/
def ActedBy (acts acts' : List (Int64 × Action)) (x : Int64 × Move) : Prop :=
  acts' = acts ∨ ∃ a, acts' = acts ++ [(x.1, a)] ∧ (a.arrival = none → x.2 = .act a)

private theorem Follows.of_net {E : NetEnv} {c' : Cluster} (h : Follows E ids acts c) (hnet : c'.net = c.net)
    (hacc : Accounted ids acts c') (x : Int64 × Move) : ∃ acts', Follows E ids acts' c' ∧ ActedBy acts acts' x :=
  ⟨acts, ⟨hnet.trans h.net, h.steps, hacc⟩, Or.inl rfl⟩

private theorem Follows.actNode {E : NetEnv} {c' : Cluster} (h : Follows E ids acts c) (hnet : c'.net = c.net)
    {id : Int64} {a : Action} (ha : Net.Deliverable E ids acts (id, a)) (hacc : Accounted ids (acts ++ [(id, a)]) c') :
    Follows E ids (acts ++ [(id, a)]) (c'.actNode E id a) where
  net := by
    rw [Lib.run_append, ← h.net, ← hnet]
    rfl
  steps := Net.stepsMeet_snoc.2 ⟨h.steps, ha⟩
  accounted := hacc.actNode E id a

private theorem Accounted.deliveries_lt (h : Accounted ids acts c) {id src : Int64} {msg : Pb.Message}
    (he : (src, msg) ∈ c.pending id) : Net.deliveries id src msg acts < (c.net src).sentTo id msg := by
  have hcount := h.count id src msg
  have hpos := List.count_pos_iff.2 he
  unfold onTheWay at hcount
  omega

theorem Follows.step {E : NetEnv} (h : Follows E ids acts c) (x : Int64 × Move) :
    ∃ acts', Follows E ids acts' (c.step E x) ∧ ActedBy acts acts' x := by
  obtain ⟨id, mv⟩ := x
  cases mv with
  | act a =>
    simp only [Cluster.step]
    split
    · rename_i ha
      refine ⟨_, h.actNode rfl (a := a) ?_ ?_, Or.inr ⟨a, rfl, fun _ => rfl⟩⟩
      · simp [Net.Deliverable, ha]
      · refine { h.accounted with count := fun id' src msg => ?_ }
        rw [Net.deliveries_of_arrival_none ha]
        exact h.accounted.count id' src msg
    · exact ⟨acts, h, Or.inl rfl⟩
  | serve mv =>
    refine h.of_net ?_ (h.accounted.serve id mv) _
    show (c.serve id mv).net = c.net
    unfold Cluster.serve
    split <;> rfl
  | accept ctx =>
    refine h.of_net ?_ (h.accounted.openStream id ctx) _
    rfl
  | dial peer =>
    refine h.of_net ?_ (h.accounted.dial id peer) _
    show (c.dial id peer).net = c.net
    unfold Cluster.dial
    split <;> rfl
  | recv peer =>
    refine h.of_net ?_ (h.accounted.recv id peer) _
    show (c.recv id peer).net = c.net
    unfold Cluster.recv
    repeat' split
    all_goals rfl
  | broken peer =>
    refine h.of_net ?_ (h.accounted.broken id peer) _
    show (c.broken id peer).net = c.net
    unfold Cluster.broken
    split <;> rfl
  | take k =>
    simp only [Cluster.step, Cluster.take]
    split
    · exact ⟨acts, h, Or.inl rfl⟩
    · rename_i src msg hk
      have hmem := List.mem_of_getElem? hk
      have hpeers : Net.Deliverable E ids acts (id, .message src msg) := by
        obtain ⟨hsrc, hid, hne⟩ := h.accounted.pending hmem
        have hlt := h.accounted.deliveries_lt hmem
        rw [h.net] at hlt
        exact ⟨hsrc, hid, hne, hlt⟩
      have hnet : (c.dropPending id k).net = c.net := rfl
      refine ⟨_, h.actNode hnet hpeers (h.accounted.dropPending hk), Or.inr ⟨_, rfl, fun ha => ?_⟩⟩
      cases ha

/-- The actions that the moves lead to; all but the messages are moves themselves. -/
theorem exists_follows (E : NetEnv) (ids : List Int64) (moves : List (Int64 × Move)) :
    ∃ acts, Follows E ids acts (run (step E) (start ids) moves) ∧
      ∀ y ∈ acts, ∃ mv, (y.1, mv) ∈ moves ∧ (y.2.arrival = none → mv = .act y.2) := by
  induction moves using List.reverseRecOn with
  | nil => exact ⟨[], ⟨rfl, trivial, accounted_start ids⟩, by simp⟩
  | append_singleton moves x ih =>
    obtain ⟨acts, h, hmoves⟩ := ih
    have hbefore : ∀ y ∈ acts, ∃ mv, (y.1, mv) ∈ moves ++ [x] ∧ (y.2.arrival = none → mv = .act y.2) := by
      intro y hy
      obtain ⟨mv, hmem, hact⟩ := hmoves y hy
      exact ⟨mv, List.mem_append_left _ hmem, hact⟩
    obtain ⟨acts', h', hacted⟩ := h.step x
    rw [Lib.run_append]
    refine ⟨acts', h', fun y hy => ?_⟩
    rcases hacted with rfl | ⟨a, rfl, hact⟩
    · exact hbefore y hy
    · rcases List.mem_append.1 hy with hy | hy
      · exact hbefore y hy
      · rw [List.mem_singleton.1 hy]
        exact ⟨x.2, List.mem_append_right _ (List.mem_singleton_self x), hact⟩

end Steps

end Cluster

/-- Whatever replicas, servers, workers and strangers do, and in whatever order: the replicas are where a run of the plain
network leads in which every message that arrives comes from a peer that has sent it to the receiver, and arrives at most as
often as it has been sent, also across reconnections.  A replica finds a peer connected exactly as long as its worker reads a
stream whose handler at the peer goes by the replica's id. -/
theorem transport_refines (E : NetEnv) (ids : List Int64) (moves : List (Int64 × Cluster.Move)) :
    ∃ acts : List (Int64 × Action),
      (run (Cluster.step E) (Cluster.start ids) moves).net = run (Net.step E) Net.start acts ∧
      StepsMeet Net.record (Net.Deliverable E ids) [] acts ∧
      ∀ id peer, peer ≠ id →
        (((run (Cluster.step E) (Cluster.start ids) moves).manager id).getConnectStatus peer = true ↔
          ∃ i h, (run (Cluster.step E) (Cluster.start ids) moves).worker id peer = some i ∧
            ((run (Cluster.step E) (Cluster.start ids) moves).server peer).handlers[i]? = some h ∧ h.src = id) := by
  obtain ⟨acts, h, -⟩ := Cluster.exists_follows E ids moves
  generalize run (Cluster.step E) (Cluster.start ids) moves = c at h ⊢
  refine ⟨acts, h.net, h.steps, fun id peer hne => ?_⟩
  rw [h.accounted.status id peer]
  constructor
  · rintro (⟨heq, -⟩ | hsome)
    · exact absurd heq hne
    · obtain ⟨i, hi⟩ := Option.isSome_iff_exists.1 hsome
      obtain ⟨-, -, -, s, hs, hclient⟩ := h.accounted.worker hi
      have hsrc : ((c.server peer).handlers[i]?).map (fun h => h.src) = some id := by
        rw [← List.getElem?_map, ← h.accounted.clients, List.getElem?_map, hs, Option.map_some, hclient]
      obtain ⟨h', hh', hsrc'⟩ := Option.map_eq_some_iff.1 hsrc
      exact ⟨i, h', hi, hh', hsrc'⟩
  · rintro ⟨i, -, hi, -⟩
    exact Or.inr (by simp [hi])

end GoHotstuff
