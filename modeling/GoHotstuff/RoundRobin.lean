import GoHotstuff.Core

/-!
# The round-robin pacemaker (`pacemaker/roundrobin.go`)

`Node` is one replica: its core, the state of its `RoundRobinPM`, the goroutines that have been started and have not
run yet, and what it has handed to the transport.  A method of the pacemaker is a function on nodes.  Peers' connection
status is an argument, `conn k id` being the answer to the `k`-th question (counted down) about replica `id`.

The recursions of `OnNextSyncView` and of `OnReceiveProposal` over disconnected leaders go through `N` consecutive
views, hence over every replica id, at most; without an end there they have none, and the stack overflows.

`nvWaiting` and `nvWoken` are the new-view messages whose handler waits in `AsyncWaitBlock`, or has been woken there.
`sent`, `executed` and `wal` are histories: messages given to `Unicast` (with the destination) or `Broadcast`, commands
given to `decideExec`, entries given to `wal.Save`.
-/

namespace GoHotstuff

open Lib (Bytes)

/-! ### State -/

/-- A goroutine that has been started and has not run yet. -/
inductive Task where
  | event (e : Event)
  | beat
  | nextSync
  | submit (cmds : Bytes)
deriving DecidableEq

structure Sent where
  dest : Option Int64
  msg : Pb.Message
deriving DecidableEq

/-- An entry of the write-ahead log: the committed height, the index and the proposal that is the entry's data. -/
structure WalEntry where
  committed : UInt64
  index : UInt64
  viewNumber : Int64
  block : Pb.Block

structure Node where
  core : Core
  curView : Int64
  views : AList (fun _ : Int64 => AList (fun _ : Int64 => NewView))
  submitC : List Bytes
  timer : Bool
  tasks : List Task
  nvWaiting : List (Int64 × NewView)
  nvWoken : List (Int64 × NewView)
  sent : List Sent
  executed : List Bytes
  wal : List WalEntry

/-- `Env` with the protobuf library's coding of new-view messages. -/
structure NodeEnv extends Env where
  marshal : NewView → Except String Bytes
  unmarshal : Bytes → Except String Pb.NewView

/-- The replica after `NewHotStuffBase`, `NewRoundRobinPM` and the start of `Run`, in the loop of `Start`: `wal.startNode`,
which comes before the loop, is taken to have returned.  In the repository it does not, since `loadSnapshot` calls `Load` of
the storage that `startNode` is about to set. -/
def newNode : Node :=
  { core := newHotStuffCore, curView := 0, views := ∅, submitC := [], timer := false, tasks := [.beat]
    nvWaiting := [], nvWoken := [], sent := [], executed := [], wal := [] }

namespace Node

/-- The node with a new state of its core; each event the core has notified is executed in a goroutine of its own. -/
def withCore (n : Node) (core : Core) : Node :=
  { n with core := core, tasks := n.tasks ++ (core.notified.drop n.core.notified.length).map .event }

def crash (n : Node) : Node := { n with core := n.core.crash }

def startNewViewTimer (n : Node) : Node := { n with timer := true }

def stopNewViewTimer (n : Node) : Node := { n with timer := false }

def unicast (n : Node) (msg : Pb.Message) (dest : Int64) : Node := { n with sent := n.sent ++ [⟨some dest, msg⟩] }

def broadcast (n : Node) (msg : Pb.Message) : Node := { n with sent := n.sent ++ [⟨none, msg⟩] }

def spawn (n : Node) (t : Task) : Node := { n with tasks := n.tasks ++ [t] }

/-! ### Leaders and views -/

def getLeader (env : NodeEnv) (view : Int64) : Int64 := (view + 1) % env.replicas.metadata.n

def getCurLeader (env : NodeEnv) (viewNumber : Int64) : Int64 := viewNumber % env.replicas.metadata.n

def updateQcHigh (n : Node) (viewNumber : Int64) : Node :=
  if viewNumber > n.curView then { n with curView := viewNumber } else n

def clearViews (n : Node) : Node :=
  { n with views := n.views.keys.foldl (fun vs k => if k < n.curView then vs.erase k else vs) n.views }

/-- The loop over the collected messages that picks `highView`. -/
def highView (views : AList (fun _ : Int64 => NewView)) : Option NewView :=
  views.entries.foldl (fun high e =>
    match high with
    | none => some e.2
    | some h => if e.2.viewNumber > h.viewNumber then some e.2 else some h) none

def addNewViewMsg (env : NodeEnv) (n : Node) (id : Int64) (newView : NewView) : Option NewView × Node :=
  match n.views.lookup newView.viewNumber with
  | some views =>
    if getQuorumSize env.replicas.metadata ≤ views.keys.length then (none, n)
    else
      match views.lookup id with
      | some view =>
        if view.genericQc.viewNumber > newView.genericQc.viewNumber then
          (none, { n with views := n.views.insert newView.viewNumber (views.insert id newView) })
        else (none, n)
      | none =>
        let views := views.insert id newView
        let n := { n with views := n.views.insert newView.viewNumber views }
        if (views.keys.length : Int) = getQuorumSize env.replicas.metadata then (highView views, n) else (none, n)
  | none =>
    let n := { n with views := n.views.insert newView.viewNumber (AList.singleton id newView) }
    if 1 = getQuorumSize env.replicas.metadata then (some newView, n) else (none, n)

/-- The signer is called on the encoded new-view message itself. -/
def createSignedViewChange (env : NodeEnv) (n : Node) : Except String Pb.Message × Node :=
  match env.marshal ⟨n.curView, n.core.genericQC⟩ with
  | .error e => (.error e, n)
  | .ok data =>
    match env.sign n.core.signLog.length data with
    | .error e => (.error e, { n with core := { n.core with signLog := n.core.signLog ++ [(data, none)] } })
    | .ok sig =>
      (.ok (.viewChange data sig), { n with core := { n.core with signLog := n.core.signLog ++ [(data, some sig)] } })

/-! ### New-view messages -/

/-- `OnReceiveNewView` from the point where the certificate's block has been found. -/
def processNewView (env : NodeEnv) (n : Node) (id : Int64) (newView : NewView) (block : Block) : Node :=
  if newView.genericQc.viewNumber > n.core.genericQC.viewNumber then
    let n := n.withCore (n.core.updateHighestQC env.toEnv block newView.genericQc none)
    let n := n.updateQcHigh newView.viewNumber
    if n.submitC.length > 0 then n.spawn .beat else n.spawn .nextSync
  else if newView.viewNumber > n.curView then
    -- the replicas synchronise their view numbers
    match { n.stopNewViewTimer with curView := newView.viewNumber }.createSignedViewChange env with
    | (.error _, n) => n
    | (.ok viewMsg, n) => (n.broadcast viewMsg).startNewViewTimer
  else
    match n.addNewViewMsg env id newView with
    | (none, n) => n
    | (some high, n) =>
      let n := n.withCore (n.core.updateHighestQC env.toEnv block newView.genericQc none)
      let n := n.updateQcHigh high.viewNumber
      if n.submitC.length > 0 then n.stopNewViewTimer.spawn .beat else n.startNewViewTimer

/-- `OnReceiveNewView`, up to its end or to the wait in `AsyncWaitBlock`. -/
def onReceiveNewView (env : NodeEnv) (n : Node) (id : Int64) (newView : NewView) : Node :=
  if newView.viewNumber < n.curView then n
  else
    match n.core.loadBlock newView.genericQc.blockHash with
    | (none, core) => { n with core := core, nvWaiting := n.nvWaiting ++ [(id, newView)] }
    | (some block, core) => { n with core := core }.processNewView env id newView block

/-- The handler of the `i`-th woken new-view message goes on behind the wait. -/
def resumeNewView (env : NodeEnv) (n : Node) (i : Nat) : Node :=
  match n.nvWoken[i]? with
  | none => n
  | some (id, newView) =>
    let n := { n with nvWoken := n.nvWoken.eraseIdx i }
    match n.core.loadBlock newView.genericQc.blockHash with
    | (none, core) => { n with core := core }
    | (some block, core) => { n with core := core }.processNewView env id newView block

def onNextSyncView (env : NodeEnv) (conn : Nat → Int64 → Bool) : Nat → Node → Node
  | 0, n => n.crash
  | k + 1, n =>
    let leader := getLeader env n.curView
    let n := { n with curView := n.curView + 1 }
    if leader ≠ env.id then
      if ¬ conn k leader then onNextSyncView env conn k n
      else
        match n.startNewViewTimer.createSignedViewChange env with
        | (.error _, n) => n
        | (.ok viewMsg, n) => (n.unicast viewMsg leader).clearViews
    else if n.submitC.length > 0 then
      (n.onReceiveNewView env env.id ⟨n.curView, n.core.genericQC⟩).clearViews
    else n.startNewViewTimer.clearViews

/-! ### Events of the core -/

def onProposeEvent (env : NodeEnv) (conn : Nat → Int64 → Bool) (n : Node) (proposal : Proposal) : Node :=
  if getLeader env n.curView ≠ env.id then
    let n := n.startNewViewTimer
    if ¬ conn 0 (getLeader env n.curView) then
      let n := { n with curView := n.curView + 1 }
      n.broadcast (.proposal n.curView (some proposal.block.toPb))
    else n.broadcast (.proposal proposal.viewNumber (some proposal.block.toPb))
  else n.broadcast (.proposal proposal.viewNumber (some proposal.block.toPb))

/-- The vote is unicast to the next leader, or counted at once by the next leader itself. -/
def handOver (env : NodeEnv) (n : Node) (viewNumber : Int64) (vote : Vote) : Node :=
  let leader := getLeader env viewNumber
  if leader ≠ env.id then n.unicast vote.toPb leader
  else n.withCore (n.core.onProposalVote env.toEnv vote).2

/-- `OnReceiveProposal` of the pacemaker for a proposal whose `ViewNumber` is `viewNumber`; the proposal's number when
the call returns comes with the node, since a recursive call changes it. -/
def onReceiveProposal (env : NodeEnv) (conn : Nat → Int64 → Bool) : Nat → Node → Int64 → Vote → Int64 × Node
  | 0, n, viewNumber, _ => (viewNumber, n.crash)
  | k + 1, n, viewNumber, vote =>
    let n := n.updateQcHigh viewNumber
    let (viewNumber, n) :=
      if getLeader env n.curView ≠ env.id then
        if ¬ conn k (getLeader env n.curView) then
          onReceiveProposal env conn k { n with curView := n.curView + 1 } (n.curView + 1) vote
        else (viewNumber, n)
      else (viewNumber, n.stopNewViewTimer)
    if n.core.crashed then (viewNumber, n) else (viewNumber, n.handOver env viewNumber vote)

def onQcFinishEvent (env : NodeEnv) (n : Node) (qc : QuorumCert) : Node :=
  let n := n.updateQcHigh qc.viewNumber
  if getLeader env n.curView = env.id then
    let n := { n with curView := n.curView + 1 }
    if n.submitC.length > 0 then n.spawn .beat else n.spawn .nextSync
  else n.spawn .nextSync

def doDecide (n : Node) (block : Block) : Node := { n with executed := n.executed ++ [block.cmds] }

/-- The depth of the recursions over disconnected leaders. -/
def depth (env : NodeEnv) : Nat := env.replicas.metadata.n.toNatClampNeg

def executeEvent (env : NodeEnv) (conn : Nat → Int64 → Bool) (n : Node) : Event → Node
  | .propose proposal => n.onProposeEvent env conn proposal
  | .receiveProposal proposal vote => (onReceiveProposal env conn (depth env) n proposal.viewNumber vote).2
  | .receiveNewView replicaId view => n.onReceiveNewView env replicaId view
  | .qcFinish _ qc => n.onQcFinishEvent env qc
  | .hqcUpdate qc => n.updateQcHigh qc.viewNumber
  | .decide block => n.doDecide block

/-! ### Commands -/

/-- The capacity of `submitC`. -/
def submitCap : Nat := 100

/-- `OnBeat` with a command taken from `submitC`. -/
def onBeat (env : NodeEnv) (n : Node) (s : Bytes) (now : Int64) : Node :=
  let leader := getCurLeader env n.curView
  if leader ≠ env.id then (n.unicast (.forward s) leader).startNewViewTimer
  else n.withCore (n.core.onPropose env.toEnv n.curView n.core.genericQC.blockHash s now).2

/-- The goroutine `t` runs; it stays where it is while its channel blocks it. -/
def runTask (env : NodeEnv) (conn : Nat → Int64 → Bool) (now : Int64) (n : Node) : Task → Node
  | .event e => n.executeEvent env conn e
  | .beat =>
    match n.submitC with
    | [] => n.spawn .beat
    | s :: rest => { n with submitC := rest }.onBeat env s now
  | .nextSync => onNextSyncView env conn (depth env) n
  | .submit cmds => if n.submitC.length < submitCap then { n with submitC := n.submitC ++ [cmds] } else n.spawn (.submit cmds)

end Node

end GoHotstuff
