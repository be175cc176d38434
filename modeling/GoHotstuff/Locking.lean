import GoHotstuff.Lib.LockOrder

/-!
# The locks of a replica (`consensus/consensus.go`, `consensus/hotstuff.go`, `pacemaker/roundrobin.go`, `transport/abserver.go`)

Every message, event and beat is handled in a goroutine of its own, and the goroutines of a replica share seven locks.  Here
a method is reduced to what it does with them: the locks it takes and releases, the places where it hands something to the
loop in `Start` over `notifyChan` or `queue`, and the places where it waits for others: for a peer in the transport, for a
client or the capacity of `submitC`, for the log, for `decideExec`, for a broadcast on `cond`.  Conditions on data are left
open, so that a method may take either branch and run through a loop any number of times.  The signer, `VerifyQuorumCert`
with the goroutines it waits for, `GetConnectStatus`, the atomic operations on `curView` and the timer take no lock.

Neither channel has a buffer, and the loop takes one thing at a time, so that a sender waits for it: `UpdateHighestQC` does
so with `qcLock` held, and `OnReceiveNewView` of the pacemaker with its own lock as well.  `Broadcast` and `Unicast` wait
for the handlers of the streams with `sendLock` held, which can block it for ever.  The other six locks are taken in the
order of `rank`, above `sendLock`, and no goroutine waits for a peer, a client or the disk while it holds one; so as long as
the loop runs they are always set free again, whatever has become of the transport (`locks_drain`).
-/

namespace GoHotstuff

open Lib (run StepsMeet)
open Lib.LockOrder

namespace Locking

inductive Lock where
  /-- `sendLock` of the transport -/
  | sendLock
  /-- `mut` of the pacemaker -/
  | pmMut
  | qcLock
  /-- `cond.L` -/
  | condL
  /-- `mut` of the core -/
  | mut
  | vLock
  /-- `lock` of the block cache -/
  | cacheLock
deriving DecidableEq

def rank : Lock → Nat
  | .sendLock => 0
  | .pmMut => 1
  | .qcLock => 2
  | .condL => 3
  | .mut => 3
  | .vLock => 3
  | .cacheLock => 3

private theorem rank_eq_zero {l : Lock} : rank l = 0 ↔ l = .sendLock := by
  cases l <;> decide

/-! ### Statements -/

def lock (l : Lock) : Code Lock := .instr (.acquire l .write)

def unlock (l : Lock) : Code Lock := .instr (.release l)

def rlock (l : Lock) : Code Lock := .instr (.acquire l .read)

/-- A wait for somebody outside. -/
def await : Code Lock := .instr .pause

/-- One statement after the other. -/
def block (cs : List (Code Lock)) : Code Lock := cs.foldr .seq .skip

/-- Nothing more is done in the other case. -/
def perhaps (cs : List (Code Lock)) : Code Lock := .alt .skip (block cs)

/-- The body between `Lock` and the deferred `Unlock`. -/
def locked (l : Lock) (cs : List (Code Lock)) : Code Lock := block [lock l, block cs, unlock l]

/-! ### The core -/

def loadBlock : Code Lock := locked .cacheLock []

def storeBlock : Code Lock := locked .cacheLock []

def getVoteHeight : Code Lock := block [rlock .vLock, unlock .vLock]

def setVoteHeight : Code Lock := locked .vLock []

def getHighQC : Code Lock := locked .qcLock []

/-- The send on `notifyChan`, which the loop in `Start` has to take. -/
def notify : Code Lock := .instr .meet

/-- `Wait` releases `cond.L` while it waits. -/
def asyncWaitBlock : Code Lock :=
  block [loadBlock,
    perhaps [lock .condL, unlock .condL, await, lock .condL, unlock .condL, loadBlock]]

def getJustifyBlock : Code Lock := perhaps [loadBlock]

def updateHighestQC : Code Lock := perhaps [locked .qcLock [perhaps [loadBlock, perhaps [perhaps [notify]]]]]

def updateLockedQC : Code Lock := locked .qcLock [loadBlock]

def update : Code Lock :=
  block [getJustifyBlock,
    perhaps [updateHighestQC, getJustifyBlock,
      perhaps [updateLockedQC, getJustifyBlock,
        -- not a three-chain, or the DECIDE phase
        perhaps [lock .qcLock, perhaps [loadBlock], unlock .qcLock,
          -- the loop may end with a block that is not found
          .star (block [loadBlock, notify]), perhaps [loadBlock]]]]]

def addVoteMsg : Code Lock := locked .mut []

def onProposalVote : Code Lock :=
  block [loadBlock,
    .alt addVoteMsg
      (block [lock .mut,
        -- enough votes, a duplicate, one vote more, or the last one
        .alt (unlock .mut) (.alt (unlock .mut) (.alt (unlock .mut) (block [unlock .mut, updateHighestQC, notify])))])]

def onNewView : Code Lock := notify

def onPropose : Code Lock :=
  block [loadBlock,
    perhaps [getVoteHeight,
      .alt getVoteHeight
        (block [storeBlock, update,
          perhaps [setVoteHeight,
            perhaps [onProposalVote, perhaps [notify]]]])]]

/-- The height of the last vote is asked for by the log message first. -/
def onReceiveProposal : Code Lock :=
  block [getVoteHeight, storeBlock, asyncWaitBlock,
    perhaps [update,
      perhaps [getVoteHeight,
        -- the block is higher than the last vote, or not
        perhaps [getJustifyBlock,
          perhaps [loadBlock,
            perhaps [.star loadBlock, perhaps [setVoteHeight]]]],
        perhaps [notify]]]]

/-! ### The transport -/

/-- The handler of the stream has to take the message. -/
def unicast : Code Lock := perhaps [rlock .sendLock, perhaps [await], unlock .sendLock]

def broadcast : Code Lock := perhaps [rlock .sendLock, .star await, unlock .sendLock]

/-- The handler of one stream: it waits for a message, then for the peer, and drops the channel if that fails. -/
def handshake : Code Lock :=
  block [locked .sendLock [], .star (block [await, await, perhaps [locked .sendLock []]])]

/-- The send on `queue` for a message that was received. -/
def enqueue : Code Lock := .instr .meet

/-! ### The pacemaker -/

/-- `submitC` may be full. -/
def submit : Code Lock := await

def createSignedViewChange : Code Lock := getHighQC

def addNewViewMsg : Code Lock := locked .pmMut []

def clearViews : Code Lock := locked .pmMut []

/-- `OnReceiveNewView` of the pacemaker; the certificate is asked for by the log message first. -/
def onReceiveNewView : Code Lock :=
  perhaps [getHighQC, asyncWaitBlock,
    perhaps [lock .pmMut, getHighQC,
      .alt
        -- a higher certificate
        (block [perhaps [updateHighestQC], unlock .pmMut])
        (.alt
          -- a higher view
          (block [createSignedViewChange, unlock .pmMut])
          (block [unlock .pmMut, addNewViewMsg, perhaps [perhaps [updateHighestQC]]]))]]

/-- The calls for leaders that are not connected take no lock before the last one. -/
def onNextSyncView : Code Lock :=
  .alt
    (block [createSignedViewChange, perhaps [unicast, clearViews]])
    (block [perhaps [getHighQC, onReceiveNewView], clearViews])

/-- Each recursive call hands the vote over, and then the caller does. -/
def pmOnReceiveProposal : Code Lock :=
  block [.star (.alt unicast onProposalVote), .alt unicast onProposalVote]

def onBeat : Code Lock := block [await, perhaps [getHighQC, onPropose]]

/-- `decideExec` belongs to the application. -/
def doDecide : Code Lock := await

/-! ### The handlers of messages -/

/-- The entry is written to the log in between. -/
def handleProposal : Code Lock := perhaps [loadBlock, await, onReceiveProposal]

def handleViewChange : Code Lock := perhaps [onNewView]

def handleVote : Code Lock := perhaps [onProposalVote]

def handleForward : Code Lock := submit

/-! ### Goroutines -/

/-- The goroutines of a replica that use its locks or that others wait for. -/
inductive Goroutine where
  | handleProposal
  | handleViewChange
  | handleVote
  | handleForward
  | receiveProposalEvent
  | receiveNewViewEvent
  | decideEvent
  | onBeat
  | onNextSyncView
  /-- a call of the gRPC service -/
  | submit
  /-- started by `OnBeat`, `OnProposeEvent` and `OnReceiveNewView` -/
  | unicast
  | broadcast
  | handshake
  /-- started by `ConnectWorkers` for each message -/
  | enqueue

def Goroutine.body : Goroutine → Code Lock
  | handleProposal => Locking.handleProposal
  | handleViewChange => Locking.handleViewChange
  | handleVote => Locking.handleVote
  | handleForward => Locking.handleForward
  | receiveProposalEvent => pmOnReceiveProposal
  | receiveNewViewEvent => onReceiveNewView
  | decideEvent => doDecide
  | onBeat => Locking.onBeat
  | onNextSyncView => Locking.onNextSyncView
  | submit => Locking.submit
  | unicast => Locking.unicast
  | broadcast => Locking.broadcast
  | handshake => Locking.handshake
  | enqueue => Locking.enqueue

/-- Every goroutine takes its locks in order, releases what it has taken, and holds at most `sendLock` while it waits for
somebody outside. -/
private theorem check_body (g : Goroutine) : check rank g.body [] = some [] := by
  cases g <;> decide +kernel

end Locking

/-- Take any number of goroutines, started at any time, any interleaving of their steps with those of the loop in
`Start`, and a state in which the loop has not ended.  A goroutine that waits for somebody outside, or for `sendLock`, holds
none of the six other locks.  Let the goroutines that can go on without anybody outside, and the loop, take steps in any
order: there are at most `p.work` of them, and when none is left all of the six locks are free.  Goroutines that are blocked
in the transport do not change this, nor does a waiting writer that keeps new readers out. -/
theorem locks_drain (mvs : List (Move Locking.Lock)) (p : Pool Locking.Lock) (hp : p = run step Pool.start mvs)
    (hmvs : ∀ is, Move.spawn is ∈ mvs → ∃ g : Locking.Goroutine, Trace g.body is) (hloop : p.server ≠ .stopped) :
    (∀ t ∈ p.threads, ∀ i is, t.rest = i :: is → (i = .pause ∨ ∃ m, i = .acquire .sendLock m) →
        ∀ h ∈ t.held, h.1 = .sendLock) ∧
      ∀ mvs', StepsMeet step Forced p mvs' →
        mvs'.length ≤ p.work ∧
          ((∃ mv, Forced (run step p mvs') mv) ∨
            ∀ t ∈ (run step p mvs').threads, ∀ h ∈ t.held, h.1 = .sendLock) := by
  have hall : p.Disciplined Locking.rank := by
    rw [hp]
    refine disciplined_run fun is his => ?_
    obtain ⟨g, hg⟩ := hmvs is his
    exact disciplined_of_check (Locking.check_body g) hg
  refine ⟨fun t ht i is hrest hi h hh => ?_, fun mvs' hmvs' => ?_⟩
  · have hd := hall t ht
    rw [hrest] at hd
    refine Locking.rank_eq_zero.1 (hd.rank_eq_zero (hi.imp id ?_) h hh)
    rintro ⟨m, rfl⟩
    exact ⟨.sendLock, m, rfl, rfl⟩
  · obtain ⟨hbound, hend⟩ := drains hall hloop hmvs'
    exact ⟨by omega, hend.imp id fun h t ht x hx => Locking.rank_eq_zero.1 (h t ht x hx)⟩

/-- A broadcast to one peer. -/
def Locking.oneSend : List (Instr Locking.Lock) := [.acquire .sendLock .read, .pause, .release .sendLock]

/-- A certificate for a block that is higher than that of the highest one. -/
def Locking.higherQC : List (Instr Locking.Lock) :=
  [.acquire .cacheLock .write, .release .cacheLock, .acquire .mut .write, .release .mut,
    .acquire .qcLock .write, .acquire .cacheLock .write, .release .cacheLock, .meet, .release .qcLock, .meet]

private theorem Locking.trace_oneSend : Trace Locking.Goroutine.broadcast.body Locking.oneSend :=
  .right (.seq (.instr _) (.seq (.more (.instr _) .done) (.seq (.instr _) .skip)))

private theorem Locking.trace_higherQC : Trace Locking.Goroutine.handleVote.body Locking.higherQC := by
  have hload : Trace Locking.loadBlock [.acquire .cacheLock .write, .release .cacheLock] :=
    .seq (.instr _) (.seq .skip (.seq (.instr _) .skip))
  have hupdate : Trace Locking.updateHighestQC
      [.acquire .qcLock .write, .acquire .cacheLock .write, .release .cacheLock, .meet, .release .qcLock] :=
    .right (.seq (.seq (.instr _)
      (.seq (.seq (.right (.seq hload (.seq (.right (.seq (.right (.seq (.instr _) .skip)) .skip)) .skip))) .skip)
        (.seq (.instr _) .skip))) .skip)
  have hvote : Trace Locking.onProposalVote Locking.higherQC :=
    .seq hload (.seq (.right (.seq (.instr _)
      (.seq (.right (.right (.right (.seq (.instr _) (.seq hupdate (.seq (.instr _) .skip)))))) .skip))) .skip)
  exact .right (.seq hvote .skip)

/-- A broadcast is blocked with `sendLock` held, the last vote of a quorum is about to send on `notifyChan` with `qcLock`
held, and a received message has just been taken by the loop. -/
def Locking.stalled : List (Move Locking.Lock) :=
  [.spawn Locking.oneSend, .spawn Locking.higherQC, .spawn [.meet]] ++ [.exec 0, .exec 2] ++ List.replicate 7 (.exec 1)

theorem locks_drain_stalled :
    (run step Pool.start Locking.stalled).threads.map Thread.held = [[(.sendLock, .read)], [(.qcLock, .write)], []] ∧
      (run step Pool.start Locking.stalled).server = .busy ∧
      ∃ mv, Forced (run step Pool.start Locking.stalled) mv := by
  have hserver : (run step Pool.start Locking.stalled).server = .busy := by decide
  have hheld : (run step Pool.start Locking.stalled).threads.map Thread.held =
      [[(.sendLock, .read)], [(.qcLock, .write)], []] := by decide
  refine ⟨hheld, hserver, ?_⟩
  have hdrain := locks_drain Locking.stalled _ rfl (fun is his => ?_) (by rw [hserver]; decide)
  · refine ((hdrain.2 [] trivial).2).resolve_right fun hfree => ?_
    have hmem : [(Locking.Lock.qcLock, Mode.write)] ∈ (run step Pool.start Locking.stalled).threads.map Thread.held := by
      rw [hheld]
      decide
    obtain ⟨t, ht, hqc⟩ := List.mem_map.1 hmem
    have hsend := hfree t ht (.qcLock, .write) (by rw [hqc]; exact List.mem_singleton_self _)
    cases hsend
  · have his' : is = Locking.oneSend ∨ is = Locking.higherQC ∨ is = [.meet] := by simpa [Locking.stalled] using his
    rcases his' with rfl | rfl | rfl
    · exact ⟨.broadcast, Locking.trace_oneSend⟩
    · exact ⟨.handleVote, Locking.trace_higherQC⟩
    · exact ⟨.enqueue, .instr _⟩

end GoHotstuff
