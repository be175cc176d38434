import GoHotstuff.Entity
import GoHotstuff.LruCache

/-!
# The consensus core (`consensus/consensus.go`)

`Core` is the state of a `HotStuffCore`; every method is a function from a state to its result and the new state, so
that a method which returns an error still leaves behind whatever it changed before.

Pointers.  A block in the store is an object: votes are written into its `SelfQc` in place, and `genericQC` may be that
very certificate.  The store holds blocks with the number of their object, `genericObj` says which object's certificate
`genericQC` is, if any, and `setSigns` writes through both.  In a fresh core `lockedQC` and `execQC` are the same pointer as
`genericQC`, the certificate of the genesis block, so that votes for this block are written into them as well; `setSigns`
leaves them as they are, because of these two the program only reads the block hash.  Of a `Justify` nothing is ever
written.  So these three are plain values.

`cond` is split in two: `waiting` are the proposals whose handler waits in `AsyncWaitBlock`, `woken` those which a
broadcast has released and which have not run yet.

`crashed` is set when a handler dereferences a nil pointer, which ends the process.  The fields `notified`, `signLog`,
`votes` and `stored` are histories: the events sent on `notifyChan`, the calls of the signer with their results, the votes
made by `voteProposal` with the height it was called with, and the blocks given to `StoreBlock`, each oldest first.
-/

namespace GoHotstuff

open Lib (Bytes encodeToString)

/-! ### State -/

/-- The errors the core returns, with the values their texts show. -/
inductive CoreError where
  /-- Error retrieving memorydb key -/
  | keyNotFound (hash : Bytes)
  /-- parent block not found -/
  | parentNotFound (hash : Bytes)
  /-- new block should be higher than vote height -/
  | notHigher (newHeight voteHeight : Int64)
  /-- OnReceiveProposal: not found expected block -/
  | expectedNotFound (hash : Bytes)
  /-- duplicate vote for a block from a voter -/
  | duplicateVote (hash : Bytes) (voter : Int64)
  /-- block's justify is null -/
  | justifyNull
  /-- the signer's own error -/
  | signer (text : String)
deriving DecidableEq

/-- The events the core hands to the pacemaker (`consensus/events.go`). -/
inductive Event where
  | propose (proposal : Proposal)
  | receiveProposal (proposal : Proposal) (vote : Vote)
  | receiveNewView (replicaId : Int64) (view : NewView)
  | qcFinish (proposer : Int64) (qc : QuorumCert)
  | hqcUpdate (qc : QuorumCert)
  | decide (block : Block)
deriving DecidableEq

/-- A block object in the store. -/
@[ext]
structure Stored where
  obj : Nat
  block : Block

/-- A vote as `voteProposal` makes it, with the height of the block voted for. -/
structure CastVote where
  height : Int64
  vote : Vote
deriving DecidableEq

structure Core where
  genericQC : QuorumCert
  genericObj : Option Nat
  lockedQC : QuorumCert
  execQC : QuorumCert
  voteHeight : Int64
  blockCache : Cache (List Char) Stored 30
  objects : Nat
  voteSet : AList (fun _ : List Char => List Vote)
  waiting : List Proposal
  woken : List Proposal
  notified : List Event
  signLog : List (Bytes × Option Bytes)
  votes : List CastVote
  stored : List Block
  crashed : Bool

/-- What a core is created with: its id, the replicas and the signer, whose result may differ from call to call. -/
structure Env where
  id : Int64
  replicas : ReplicaConf
  sign : Nat → Bytes → Except String Bytes

/-- How the run of a handler ends.  `panic` is the dereference of a nil pointer, `wait` the wait on `cond`. -/
inductive Outcome where
  | ok
  | error (e : CoreError)
  | wait
  | panic
deriving DecidableEq

/-! ### The block store -/

namespace Core

/-- The block object found under a hash. -/
def object? (s : Core) (hash : Bytes) : Option Stored := s.blockCache.find? (encodeToString hash)

/-- The block found under a hash. -/
def load (s : Core) (hash : Bytes) : Option Block := (s.object? hash).map fun o => o.block

/-- The state after a look-up, which makes the key the most recently used one. -/
def touch (s : Core) (hash : Bytes) : Core := { s with blockCache := s.blockCache.touch (encodeToString hash) }

def loadBlock (s : Core) (hash : Bytes) : Option Block × Core := (s.load hash, s.touch hash)

def storeBlock (s : Core) (block : Block) : Core :=
  { s with
    blockCache := s.blockCache.put (encodeToString block.selfQc.blockHash) ⟨s.objects, block⟩
    objects := s.objects + 1
    stored := s.stored ++ [block] }

/-- The signatures of the certificate of object `obj` become `signs`, wherever that certificate is held. -/
def setSigns (s : Core) (obj : Nat) (signs : Signs) : Core :=
  { s with
    blockCache := s.blockCache.mapValue fun o =>
      if o.obj = obj then ⟨o.obj, { o.block with selfQc := { o.block.selfQc with signs := signs } }⟩ else o
    genericQC := if s.genericObj = some obj then { s.genericQC with signs := signs } else s.genericQC }

def notify (s : Core) (e : Event) : Core := { s with notified := s.notified ++ [e] }

def setVoteHeight (s : Core) (vHeight : Int64) : Core := { s with voteHeight := vHeight }

end Core

/-- The genesis block without its certificate. -/
def genesisBody : Block := ⟨[], [], 0, 0, 0, none, default⟩

def genesisHash : Bytes := getBlockHash genesisBody

def genesisQC : QuorumCert := ⟨-1, genesisHash, ∅⟩

def genesis : Block := { genesisBody with selfQc := genesisQC }

/-- The state `NewHotStuffCore` builds. -/
def newHotStuffCore : Core :=
  Core.storeBlock
    { genericQC := genesisQC, genericObj := some 0, lockedQC := genesisQC, execQC := genesisQC, voteHeight := 0
      blockCache := Cache.new 30, objects := 0, voteSet := ∅, waiting := [], woken := []
      notified := [], signLog := [], votes := [], stored := [], crashed := false }
    genesis

namespace Core

/-! ### Certificates and the three phases -/

/-- The block a block's `Justify` names, with that certificate. -/
def getJustifyBlock (s : Core) (block : Block) : Except CoreError (QuorumCert × Block) × Core :=
  match block.justify with
  | none => (.error .justifyNull, s)
  | some qc =>
    match s.loadBlock qc.blockHash with
    | (none, s) => (.error (.keyNotFound qc.blockHash), s)
    | (some justifyBlock, s) => (.ok (qc, justifyBlock), s)

/-- `obj` says whose `SelfQc` the certificate is, when it is one. -/
def updateHighestQC (env : Env) (s : Core) (block : Block) (qc : QuorumCert) (obj : Option Nat) : Core :=
  if env.replicas.verifyQuorumCert qc then
    match s.loadBlock s.genericQC.blockHash with
    | (none, s) => s
    | (some highBlock, s) =>
      if block.height > highBlock.height then
        { s with genericQC := qc, genericObj := obj }.notify (.hqcUpdate qc)
      else s
  else s

def updateLockedQC (s : Core) (block : Block) (qc : QuorumCert) : Core :=
  match s.loadBlock s.lockedQC.blockHash with
  | (none, s) => s
  | (some lockedBlock, s) => if block.height > lockedBlock.height then { s with lockedQC := qc } else s

/-- The loop of the decide phase: `i` more blocks, from the one under `blockHash` upwards through the parents. -/
def decideLoop (s : Core) : Nat → Bytes → Except CoreError Unit × Core
  | 0, _ => (.ok (), s)
  | i + 1, blockHash =>
    match s.loadBlock blockHash with
    | (none, s) => (.error (.keyNotFound blockHash), s)
    | (some nblk, s) => decideLoop (s.notify (.decide nblk)) i nblk.parentHash

/-- DECIDE phase on `block0`, once the three-chain is established: `qc` is the certificate `block1.Justify`. -/
def decidePhase (s : Core) (qc : QuorumCert) (block0 : Block) : Except CoreError Unit × Core :=
  match s.loadBlock s.execQC.blockHash with
  | (none, s) => (.error (.keyNotFound s.execQC.blockHash), s)
  | (some execBlock, s) =>
    decideLoop { s with execQC := qc } (block0.height - execBlock.height).toNatClampNeg (getBlockHash block0)

def update (env : Env) (s : Core) (block : Block) : Except CoreError Unit × Core :=
  -- PRE-COMMIT phase on b''
  match s.getJustifyBlock block with
  | (.error e, s) => (.error e, s)
  | (.ok (qc2, block2), s) =>
    let s := s.updateHighestQC env block2 qc2 none
    -- COMMIT phase on b'
    match s.getJustifyBlock block2 with
    | (.error _, s) => (.ok (), s)
    | (.ok (qc1, block1), s) =>
      let s := s.updateLockedQC block1 qc1
      -- DECIDE phase on b
      match s.getJustifyBlock block1 with
      | (.error _, s) => (.ok (), s)
      | (.ok (qc0, block0), s) =>
        if block2.parentHash = qc1.blockHash ∧ block1.parentHash = qc0.blockHash then s.decidePhase qc0 block0
        else (.ok (), s)

/-! ### Votes -/

def createPartCert (env : Env) (s : Core) (hash : Bytes) : Except CoreError PartCert × Core :=
  match env.sign s.signLog.length hash with
  | .error e => (.error (.signer e), { s with signLog := s.signLog ++ [(hash, none)] })
  | .ok sig => (.ok ⟨env.id, sig⟩, { s with signLog := s.signLog ++ [(hash, some sig)] })

def voteProposal (env : Env) (s : Core) (viewNumber height : Int64) (hash : Bytes) :
    Except CoreError Vote × Core :=
  match s.createPartCert env hash with
  | (.error e, s) => (.error e, s)
  | (.ok cert, s) =>
    let vote : Vote := ⟨viewNumber, env.id, hash, cert⟩
    (.ok vote, { s with votes := s.votes ++ [⟨height, vote⟩] })

def addVoteMsg (s : Core) (vote : Vote) : Core :=
  let blockHash := encodeToString vote.blockHash
  match s.voteSet.lookup blockHash with
  | some voteSlice => { s with voteSet := s.voteSet.insert blockHash (voteSlice ++ [vote]) }
  | none => { s with voteSet := s.voteSet.insert blockHash [vote] }

/-- The stashed votes of a slice, added to a certificate's signatures where the voter is not there yet. -/
def mergeVotes (signs : Signs) (votes : List Vote) : Signs :=
  votes.foldl (fun signs v => if v.voter ∈ signs then signs else signs.insert v.voter v.cert) signs

/-- `applyVotes` on the certificate for `hash` with signatures `signs`. -/
def applyVotes (s : Core) (hash : Bytes) (signs : Signs) : Signs × Core :=
  let blockHash := encodeToString hash
  match s.voteSet.lookup blockHash with
  | some votes => (mergeVotes signs votes, { s with voteSet := s.voteSet.erase blockHash })
  | none => (signs, s)

def onProposalVote (env : Env) (s : Core) (vote : Vote) : Except CoreError Unit × Core :=
  match s.object? vote.blockHash, s.touch vote.blockHash with
  | none, s => (.ok (), s.addVoteMsg vote)
  | some ⟨obj, block⟩, s =>
    if getQuorumSize env.replicas.metadata ≤ block.selfQc.signs.keys.length then (.ok (), s)
    else if vote.voter ∈ block.selfQc.signs then (.error (.duplicateVote vote.blockHash vote.voter), s)
    else
      let (signs, s) := s.applyVotes block.selfQc.blockHash (block.selfQc.signs.insert vote.voter vote.cert)
      let s := s.setSigns obj signs
      if (signs.keys.length : Int) < getQuorumSize env.replicas.metadata then (.ok (), s)
      else
        let qc : QuorumCert := { block.selfQc with signs := signs }
        let s := s.updateHighestQC env { block with selfQc := qc } qc (some obj)
        (.ok (), s.notify (.qcFinish block.proposer qc))

/-! ### Proposals -/

/-- The block still lacks its own certificate; `now` is the clock's reading. -/
def createLeaf (env : Env) (s : Core) (parentHash cmds : Bytes) (height now : Int64) : Block :=
  ⟨parentHash, cmds, env.id, height, now, some s.genericQC, default⟩

/-- The block `OnPropose` makes on top of `block`, with its own empty certificate. -/
def newBlock (env : Env) (s : Core) (curView : Int64) (parentHash cmds : Bytes) (block : Block) (now : Int64) :
    Block :=
  let leaf := s.createLeaf env parentHash cmds (block.height + 1) now
  { leaf with selfQc := ⟨curView, getBlockHash leaf, ∅⟩ }

def onPropose (env : Env) (s : Core) (curView : Int64) (parentHash cmds : Bytes) (now : Int64) : Outcome × Core :=
  match s.loadBlock parentHash with
  | (none, s) => (.error (.parentNotFound parentHash), s)
  | (some block, s) =>
    -- create the new block
    let newBlock := s.newBlock env curView parentHash cmds block now
    if newBlock.height ≤ s.voteHeight then (.error (.notHigher newBlock.height s.voteHeight), s)
    else
      -- add new block to storage
      match (s.storeBlock newBlock).update env newBlock with
      | (.error e, s) => (.error e, s)
      | (.ok (), s) =>
        -- self vote
        match (s.setVoteHeight newBlock.height).voteProposal env curView newBlock.height newBlock.selfQc.blockHash with
        | (.error e, s) => (.error e, s)
        | (.ok vote, s) =>
          match s.onProposalVote env vote with
          | (.error e, s) => (.error e, s)
          | (.ok (), s) =>
            -- the object handed out has collected votes by now
            let block := (s.load newBlock.selfQc.blockHash).getD newBlock
            (.ok, s.notify (.propose ⟨curView, block⟩))

/-- `i` steps from `nblk` to its parent. -/
def walkParents (s : Core) : Nat → Block → Except CoreError Block × Core
  | 0, nblk => (.ok nblk, s)
  | i + 1, nblk =>
    match s.loadBlock nblk.parentHash with
    | (none, s) => (.error (.keyNotFound nblk.parentHash), s)
    | (some nblk, s) => walkParents s i nblk

/-- The part of `OnReceiveProposal` that may raise `voteHeight`. -/
def checkVote (s : Core) (block : Block) : Except CoreError Unit × Core :=
  if block.height > s.voteHeight then
    match s.getJustifyBlock block with
    | (.error e, s) => (.error e, s)
    | (.ok (_, jb), s) =>
      match s.loadBlock s.lockedQC.blockHash with
      | (none, s) => (.error (.keyNotFound s.lockedQC.blockHash), s)
      | (some lockedb, s) =>
        if jb.height > lockedb.height then
          -- liveness condition
          (.ok (), s.setVoteHeight block.height)
        else
          -- safety condition (extend the locked branch)
          match s.walkParents (block.height - lockedb.height).toNatClampNeg block with
          | (.error e, s) => (.error e, s)
          | (.ok nblk, s) =>
            if nblk.selfQc.blockHash = lockedb.selfQc.blockHash then (.ok (), s.setVoteHeight block.height)
            else (.ok (), s)
  else (.ok (), s)

/-- `OnReceiveProposal` from the point where the justify block has been found. -/
def processProposal (env : Env) (s : Core) (prop : Proposal) : Outcome × Core :=
  match s.update env prop.block with
  | (.error e, s) => (.error e, s)
  | (.ok (), s) =>
    match s.checkVote prop.block with
    | (.error e, s) => (.error e, s)
    | (.ok (), s) =>
      match s.voteProposal env prop.viewNumber prop.block.height prop.block.selfQc.blockHash with
      | (.error e, s) => (.error e, s)
      | (.ok vote, s) => (.ok, s.notify (.receiveProposal prop vote))

/-- A nil pointer is dereferenced. -/
def crash (s : Core) : Core := { s with crashed := true }

/-- `cond.Broadcast()` -/
def broadcast (s : Core) : Core := { s with waiting := [], woken := s.woken ++ s.waiting }

/-- `OnReceiveProposal`, up to its end or to the wait in `AsyncWaitBlock`. -/
def onReceiveProposal (env : Env) (s : Core) (prop : Proposal) : Outcome × Core :=
  let s := (s.storeBlock prop.block).broadcast
  match prop.block.justify with
  | none => (.panic, s.crash)
  | some qc =>
    match s.loadBlock qc.blockHash with
    | (some _, s) => s.processProposal env prop
    | (none, s) => (.wait, { s with waiting := s.waiting ++ [prop] })

/-- The handler of the `i`-th woken proposal goes on behind the wait. -/
def resumeProposal (env : Env) (s : Core) (i : Nat) : Outcome × Core :=
  match s.woken[i]? with
  | none => (.ok, s)
  | some prop =>
    let s := { s with woken := s.woken.eraseIdx i }
    match prop.block.justify with
    | none => (.panic, s.crash)
    | some qc =>
      match s.loadBlock qc.blockHash with
      | (none, s) => (.error (.expectedNotFound qc.blockHash), s)
      | (some _, s) => s.processProposal env prop

end Core

end GoHotstuff
