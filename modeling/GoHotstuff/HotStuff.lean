import GoHotstuff.RoundRobin

/-!
# Message handlers (`consensus/hotstuff.go`) and the steps of a replica

A message that arrives is handled by `handleMessage`; the core's events, beats and view synchronisations run as the
goroutines they are, in any order (`Action.task`).  One action is one handler run without interruption; a handler that
waits in `AsyncWaitBlock` continues in an action of its own.  Nothing happens after the process has crashed.
-/

namespace GoHotstuff

open Lib (Bytes)

/-- The block of a proposal, unless its `SelfQc` is nil. -/
def Pb.Block.toBlock? (b : Pb.Block) : Option GoHotstuff.Block :=
  b.selfQc.map fun selfQc => ⟨b.parentHash, b.cmds, b.proposer, b.height, b.timestamp, b.justify, selfQc⟩

namespace Node

/-- The handler writes the proposal to the log before anything is checked, with the height of the last executed
block. -/
def handleProposal (env : NodeEnv) (n : Node) (viewNumber : Int64) (block : Option Pb.Block) : Node :=
  match block with
  | none => n
  | some block =>
    match n.core.loadBlock n.core.execQC.blockHash with
    | (none, core) => { n with core := core.crash }
    | (some execBlock, core) =>
      let entry : WalEntry := ⟨execBlock.height.toUInt64, block.height.toUInt64, viewNumber, block⟩
      let n := { n with core := core, wal := n.wal ++ [entry] }
      match block.toBlock? with
      | none => n.crash
      | some block =>
        let n := n.withCore (n.core.onReceiveProposal env.toEnv ⟨viewNumber, block⟩).2
        -- the broadcast on `cond` wakes the new-view handlers too
        { n with nvWaiting := [], nvWoken := n.nvWoken ++ n.nvWaiting }

def handleViewChange (env : NodeEnv) (n : Node) (id : Int64) (data signature : Bytes) : Node :=
  if env.replicas.verifyIdentity id signature data then
    match env.unmarshal data with
    | .error _ => n
    | .ok newView =>
      match newView.genericQc with
      | none => n
      | some genericQc => n.withCore (n.core.notify (.receiveNewView id ⟨newView.viewNumber, genericQc⟩))
  else n

def handleVote (env : NodeEnv) (n : Node) (id viewNumber voter : Int64) (blockHash : Bytes) (cert : Option PartCert) :
    Node :=
  match cert with
  | none => n
  | some cert =>
    if blockHash.length = 0 then n
    else if env.replicas.verifyIdentity id cert.signature blockHash then
      if id ≠ voter then n
      else if getLeader env viewNumber ≠ env.id then n
      else n.withCore (n.core.onProposalVote env.toEnv ⟨viewNumber, voter, blockHash, cert⟩).2
    else n

def handleForward (n : Node) (data : Bytes) : Node := n.spawn (.submit data)

def handleMessage (env : NodeEnv) (n : Node) (src : Int64) : Pb.Message → Node
  | .proposal viewNumber block => n.handleProposal env viewNumber block
  | .viewChange data signature => n.handleViewChange env src data signature
  | .vote viewNumber voter blockHash cert => n.handleVote env src viewNumber voter blockHash cert
  | .forward data => n.handleForward data
  | .unset => n

/-- `Submit` of the gRPC service; an empty request is refused. -/
def submit (n : Node) (cmds : Bytes) : Node := if cmds.length = 0 then n else n.spawn (.submit cmds)

end Node

/-- What can happen at a replica. -/
inductive Action where
  | message (src : Int64) (msg : Pb.Message)
  | submit (cmds : Bytes)
  | task (i : Nat) (conn : Nat → Int64 → Bool) (now : Int64)
  | resumeProposal (i : Nat)
  | resumeNewView (i : Nat)
  | timeout

namespace Node

def act (env : NodeEnv) (n : Node) : Action → Node
  | .message src msg => n.handleMessage env src msg
  | .submit cmds => n.submit cmds
  | .task i conn now =>
    match n.tasks[i]? with
    | none => n
    | some t => { n with tasks := n.tasks.eraseIdx i }.runTask env conn now t
  | .resumeProposal i => n.withCore (n.core.resumeProposal env.toEnv i).2
  | .resumeNewView i => n.resumeNewView env i
  | .timeout => if n.timer then { n with timer := false }.spawn .nextSync else n

def step (env : NodeEnv) (n : Node) (a : Action) : Node := if n.core.crashed then n else n.act env a

end Node

end GoHotstuff
