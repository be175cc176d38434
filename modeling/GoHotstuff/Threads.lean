import Mathlib
import GoHotstuff.CoreStep
import GoHotstuff.Server
import GoHotstuff.Lib.TestAndSet

/-!
# Handlers that run concurrently

Every message and every event is handled in a goroutine of its own, and the core's locks protect single reads and writes
only.  Here `OnBeat` with `OnPropose`, and `OnReceiveProposal`, are cut at the accesses to `voteHeight` and at the two
reads of `genericQC`: a `Thread` is the place such a call has come to with its local variables, `advance` runs it to the
next place, and a `Machine` interleaves any number of them over one core.  The other handlers access `voteHeight` not at
all and replace `genericQC` in one critical section, so that each is one move.  Run alone, a thread does what the
handler of the sequential model does (`advance_onPropose`, `advance_onReceiveProposal`, `advance_resumeProposal`).

The test of `voteHeight` and the write that follows it are two critical sections, and so are the read of `genericQC` that
gives the parent and the one that gives the justify.  What the two pairs are for holds of every run that never
interrupts them (`no_equivocation`, `leaf_justifies_parent`), and fails where one is interrupted (`equivocation`,
`leaf_justified_by_sibling`).
-/

namespace GoHotstuff

open Lib (Bytes run StepsMeet)

namespace Core

/-- What `OnReceiveProposal` does between the test of `voteHeight` and the write: whether the height is to be raised. -/
def checkLock (s : Core) (block : Block) : Except CoreError Bool × Core :=
  match s.getJustifyBlock block with
  | (.error e, s) => (.error e, s)
  | (.ok (_, jb), s) =>
    match s.loadBlock s.lockedQC.blockHash with
    | (none, s) => (.error (.keyNotFound s.lockedQC.blockHash), s)
    | (some lockedb, s) =>
      if jb.height > lockedb.height then (.ok true, s)
      else
        match s.walkParents (block.height - lockedb.height).toNatClampNeg block with
        | (.error e, s) => (.error e, s)
        | (.ok nblk, s) => (.ok (nblk.selfQc.blockHash = lockedb.selfQc.blockHash), s)

private theorem checkVote_eq (s : Core) (block : Block) :
    s.checkVote block =
      if block.height > s.voteHeight then
        match s.checkLock block with
        | (.error e, s) => (.error e, s)
        | (.ok true, s) => (.ok (), s.setVoteHeight block.height)
        | (.ok false, s) => (.ok (), s)
      else (.ok (), s) := by
  unfold checkVote checkLock
  split
  · rcases s.getJustifyBlock block with ⟨_ | ⟨qc, jb⟩, s1⟩
    · rfl
    · dsimp only
      rcases s1.loadBlock s1.lockedQC.blockHash with ⟨_ | lockedb, s2⟩
      · rfl
      · dsimp only
        split
        · rfl
        · rcases s2.walkParents (block.height - lockedb.height).toNatClampNeg block with ⟨_ | nblk, s3⟩
          · rfl
          · dsimp only
            by_cases h : nblk.selfQc.blockHash = lockedb.selfQc.blockHash
            · rw [if_pos h, decide_eq_true h]
            · rw [if_neg h, decide_eq_false h]
  · rfl

private theorem quiet_checkLock (s : Core) (block : Block) : Quiet s (s.checkLock block).2 := by
  unfold checkLock
  rcases s.getJustifyBlock_cases block with ⟨e, s1, -, heq, q⟩ | ⟨qc, jb, s1, -, heq, q⟩
  · rw [heq]
    exact q
  · rw [heq]
    dsimp only [loadBlock]
    have q2 := q.trans (quiet_touch s1 s1.lockedQC.blockHash)
    split
    · rename_i h
      obtain ⟨-, rfl⟩ := Prod.mk.inj h
      exact q2
    · rename_i lockedb s2 h
      obtain ⟨-, rfl⟩ := Prod.mk.inj h
      split
      · exact q2
      · have q3 := q2.trans (walkParents_cases (s1.touch s1.lockedQC.blockHash)
          (block.height - lockedb.height).toNatClampNeg block).1
        split
        · rename_i h
          rw [h] at q3
          exact q3
        · rename_i h
          rw [h] at q3
          exact q3

end Core

/-! ### Threads -/

/-- The place a call has come to, named by what it does next, and its local variables. -/
inductive Thread where
  /-- `OnBeat` reads the hash of the highest certificate -/
  | beat (curView : Int64) (cmds : Bytes)
  /-- `OnPropose` loads the parent -/
  | propose (curView : Int64) (parentHash cmds : Bytes)
  /-- `createLeaf` reads the highest certificate -/
  | createLeaf (curView : Int64) (parentHash cmds : Bytes) (parent : Block)
  /-- the new block's height is compared with `voteHeight` -/
  | testHeight (curView : Int64) (parent newBlock : Block)
  /-- the text of the error shows `voteHeight`, which is read again -/
  | refuse (newHeight : Int64)
  /-- the new block is stored and `update` runs -/
  | store (curView : Int64) (parent newBlock : Block)
  /-- `voteHeight` is set -/
  | raise (curView : Int64) (parent newBlock : Block)
  /-- the vote is made and counted, the proposal handed to the pacemaker -/
  | selfVote (curView : Int64) (parent newBlock : Block)
  /-- `OnPropose` has returned nil -/
  | proposed (parent newBlock : Block)
  /-- `OnReceiveProposal` stores the block and looks for the justify block -/
  | receive (prop : Proposal)
  /-- the same look-up again behind the wait in `AsyncWaitBlock` -/
  | recheck (prop : Proposal)
  /-- `update` runs -/
  | process (prop : Proposal)
  /-- the height is compared with `voteHeight` -/
  | testVote (prop : Proposal)
  /-- the liveness and the safety condition are evaluated -/
  | check (prop : Proposal)
  /-- `voteHeight` is set -/
  | raiseVote (prop : Proposal)
  /-- the vote is made and handed to the pacemaker -/
  | castVote (prop : Proposal)
  /-- the call has returned, or it waits and goes on in a thread of its own -/
  | done (outcome : Outcome)

namespace Thread

/-- The thread runs from its place to the next one. -/
def advance (env : Env) (now : Int64) (s : Core) : Thread → Thread × Core
  | .beat curView cmds => (.propose curView s.genericQC.blockHash cmds, s)
  | .propose curView parentHash cmds =>
    match s.loadBlock parentHash with
    | (none, s) => (.done (.error (.parentNotFound parentHash)), s)
    | (some parent, s) => (.createLeaf curView parentHash cmds parent, s)
  | .createLeaf curView parentHash cmds parent =>
    (.testHeight curView parent (s.newBlock env curView parentHash cmds parent now), s)
  | .testHeight curView parent newBlock =>
    if newBlock.height ≤ s.voteHeight then (.refuse newBlock.height, s) else (.store curView parent newBlock, s)
  | .refuse newHeight => (.done (.error (.notHigher newHeight s.voteHeight)), s)
  | .store curView parent newBlock =>
    match (s.storeBlock newBlock).update env newBlock with
    | (.error e, s) => (.done (.error e), s)
    | (.ok (), s) => (.raise curView parent newBlock, s)
  | .raise curView parent newBlock => (.selfVote curView parent newBlock, s.setVoteHeight newBlock.height)
  | .selfVote curView parent newBlock =>
    match s.voteProposal env curView newBlock.height newBlock.selfQc.blockHash with
    | (.error e, s) => (.done (.error e), s)
    | (.ok vote, s) =>
      match s.onProposalVote env vote with
      | (.error e, s) => (.done (.error e), s)
      | (.ok (), s) =>
        let block := (s.load newBlock.selfQc.blockHash).getD newBlock
        (.proposed parent newBlock, s.notify (.propose ⟨curView, block⟩))
  | .receive prop =>
    let s := (s.storeBlock prop.block).broadcast
    match prop.block.justify with
    | none => (.done .panic, s.crash)
    | some qc =>
      match s.loadBlock qc.blockHash with
      | (some _, s) => (.process prop, s)
      | (none, s) => (.done .wait, { s with waiting := s.waiting ++ [prop] })
  | .recheck prop =>
    match prop.block.justify with
    | none => (.done .panic, s.crash)
    | some qc =>
      match s.loadBlock qc.blockHash with
      | (some _, s) => (.process prop, s)
      | (none, s) => (.done (.error (.expectedNotFound qc.blockHash)), s)
  | .process prop =>
    match s.update env prop.block with
    | (.error e, s) => (.done (.error e), s)
    | (.ok (), s) => (.testVote prop, s)
  | .testVote prop => if prop.block.height > s.voteHeight then (.check prop, s) else (.castVote prop, s)
  | .check prop =>
    match s.checkLock prop.block with
    | (.error e, s) => (.done (.error e), s)
    | (.ok true, s) => (.raiseVote prop, s)
    | (.ok false, s) => (.castVote prop, s)
  | .raiseVote prop => (.castVote prop, s.setVoteHeight prop.block.height)
  | .castVote prop =>
    match s.voteProposal env prop.viewNumber prop.block.height prop.block.selfQc.blockHash with
    | (.error e, s) => (.done (.error e), s)
    | (.ok vote, s) => (.done .ok, s.notify (.receiveProposal prop vote))
  | .proposed parent newBlock => (.proposed parent newBlock, s)
  | .done outcome => (.done outcome, s)

/-- How the call has ended, once it has. -/
def outcome : Thread → Option Outcome
  | .proposed .. => some .ok
  | .done outcome => some outcome
  | _ => none

/-! ### A thread alone -/

/-- `k` places on, with no other thread in between. -/
def alone (env : Env) (now : Int64) (k : Nat) (t : Thread) (s : Core) : Thread × Core :=
  (fun x : Thread × Core => x.1.advance env now x.2)^[k] (t, s)

private theorem alone_succ (env : Env) (now : Int64) (k : Nat) (t : Thread) (s : Core) :
    alone env now (k + 1) t s = alone env now k (t.advance env now s).1 (t.advance env now s).2 := rfl

private theorem alone_done (env : Env) (now : Int64) (k : Nat) (o : Outcome) (s : Core) :
    alone env now k (.done o) s = (.done o, s) := by
  induction k with
  | zero => rfl
  | succ k ih => exact ih

/-- Run alone, the thread ends as `OnPropose` does, in the same state. -/
theorem advance_onPropose (env : Env) (s : Core) (curView : Int64) (parentHash cmds : Bytes) (now : Int64) :
    ((alone env now 6 (.propose curView parentHash cmds) s).1.outcome,
      (alone env now 6 (.propose curView parentHash cmds) s).2) =
    (some (s.onPropose env curView parentHash cmds now).1, (s.onPropose env curView parentHash cmds now).2) := by
  unfold Core.onPropose
  rw [alone_succ]
  dsimp only [advance]
  rcases s.loadBlock parentHash with ⟨_ | parent, s1⟩
  · dsimp only
    rw [alone_done]
    rfl
  · dsimp only
    rw [alone_succ, alone_succ]
    dsimp only [advance]
    generalize s1.newBlock env curView parentHash cmds parent now = newBlock
    split
    · rfl
    · rw [alone_succ]
      dsimp only [advance]
      rcases (s1.storeBlock newBlock).update env newBlock with ⟨_ | _, s2⟩
      · rfl
      · dsimp only
        rw [alone_succ, alone_succ]
        dsimp only [advance]
        rcases (s2.setVoteHeight newBlock.height).voteProposal env curView newBlock.height newBlock.selfQc.blockHash with
          ⟨_ | vote, s3⟩
        · rfl
        · dsimp only
          rcases s3.onProposalVote env vote with ⟨_ | _, s4⟩
          · rfl
          · rfl

private theorem advance_processProposal (env : Env) (s : Core) (prop : Proposal) (now : Int64) :
    ((alone env now 5 (.process prop) s).1.outcome, (alone env now 5 (.process prop) s).2) =
    (some (s.processProposal env prop).1, (s.processProposal env prop).2) := by
  unfold Core.processProposal
  rw [alone_succ]
  dsimp only [advance]
  rcases s.update env prop.block with ⟨_ | _, s1⟩
  · rfl
  · dsimp only
    rw [alone_succ, Core.checkVote_eq]
    dsimp only [advance]
    -- the last place, reached in one, two or three steps
    have hvote : ∀ (k : Nat) (s2 : Core), ((alone env now (k + 1) (.castVote prop) s2).1.outcome,
        (alone env now (k + 1) (.castVote prop) s2).2) =
        match s2.voteProposal env prop.viewNumber prop.block.height prop.block.selfQc.blockHash with
        | (.error e, s) => (some (.error e), s)
        | (.ok vote, s) => (some .ok, s.notify (.receiveProposal prop vote)) := by
      intro k s2
      rw [alone_succ]
      dsimp only [advance]
      rcases s2.voteProposal env prop.viewNumber prop.block.height prop.block.selfQc.blockHash with ⟨_ | vote, s3⟩
      · dsimp only
        rw [alone_done]
        rfl
      · dsimp only
        rw [alone_done]
        rfl
    split
    · rw [alone_succ]
      dsimp only [advance]
      rcases s1.checkLock prop.block with ⟨_ | _ | _, s2⟩
      · rfl
      · dsimp only
        rw [hvote]
        rcases s2.voteProposal env prop.viewNumber prop.block.height prop.block.selfQc.blockHash with ⟨_ | vote, s3⟩
        · rfl
        · rfl
      · dsimp only
        rw [alone_succ]
        dsimp only [advance]
        rw [hvote]
        rcases (s2.setVoteHeight prop.block.height).voteProposal env prop.viewNumber prop.block.height
          prop.block.selfQc.blockHash with ⟨_ | vote, s3⟩
        · rfl
        · rfl
    · rw [hvote]
      dsimp only
      rcases s1.voteProposal env prop.viewNumber prop.block.height prop.block.selfQc.blockHash with ⟨_ | vote, s3⟩
      · rfl
      · rfl

/-- Run alone, the thread ends as `OnReceiveProposal` does, in the same state. -/
theorem advance_onReceiveProposal (env : Env) (s : Core) (prop : Proposal) (now : Int64) :
    ((alone env now 6 (.receive prop) s).1.outcome, (alone env now 6 (.receive prop) s).2) =
    (some (s.onReceiveProposal env prop).1, (s.onReceiveProposal env prop).2) := by
  unfold Core.onReceiveProposal
  rw [alone_succ]
  dsimp only [advance]
  cases prop.block.justify with
  | none => rfl
  | some qc =>
    dsimp only
    rcases ((s.storeBlock prop.block).broadcast).loadBlock qc.blockHash with ⟨_ | _, s1⟩
    · rfl
    · exact advance_processProposal env s1 prop now

/-- The same for a handler that goes on behind its wait. -/
theorem advance_resumeProposal (env : Env) (s : Core) {i : Nat} {prop : Proposal} (hi : s.woken[i]? = some prop)
    (now : Int64) :
    ((alone env now 6 (.recheck prop) { s with woken := s.woken.eraseIdx i }).1.outcome,
      (alone env now 6 (.recheck prop) { s with woken := s.woken.eraseIdx i }).2) =
    (some (s.resumeProposal env i).1, (s.resumeProposal env i).2) := by
  unfold Core.resumeProposal
  rw [alone_succ, hi]
  dsimp only [advance]
  cases prop.block.justify with
  | none => rfl
  | some qc =>
    dsimp only
    rcases Core.loadBlock { s with woken := s.woken.eraseIdx i } qc.blockHash with ⟨_ | _, s1⟩
    · rfl
    · exact advance_processProposal env s1 prop now

end Thread

/-! ### The machine -/

/-- The operations that are not proposals. -/
def CoreOp.Other : CoreOp → Prop
  | .propose .. | .receive _ | .resume _ => False
  | _ => True

/-- The threads of a replica and what they share. -/
structure Machine where
  core : Core
  threads : List Thread

/-- What can happen next: a call begins, a handler that waited goes on, a thread runs to its next place, or another
handler of the core runs. -/
inductive Move where
  | beat (curView : Int64) (cmds : Bytes)
  | propose (curView : Int64) (parentHash cmds : Bytes)
  | receive (prop : Proposal)
  | resume (i : Nat)
  | advance (i : Nat) (now : Int64)
  | other (op : CoreOp) (h : op.Other)

namespace Machine

def start : Machine := ⟨newHotStuffCore, []⟩

def fork (m : Machine) (t : Thread) : Machine := { m with threads := m.threads ++ [t] }

def act (env : Env) (m : Machine) : Move → Machine
  | .beat curView cmds => m.fork (.beat curView cmds)
  | .propose curView parentHash cmds => m.fork (.propose curView parentHash cmds)
  | .receive prop => m.fork (.receive prop)
  | .resume i =>
    match m.core.woken[i]? with
    | none => m
    | some prop => fork { m with core := { m.core with woken := m.core.woken.eraseIdx i } } (.recheck prop)
  | .advance i now =>
    match m.threads[i]? with
    | none => m
    | some t => ⟨(t.advance env now m.core).2, m.threads.set i (t.advance env now m.core).1⟩
  | .other op _ => { m with core := m.core.step env op }

/-- Nothing happens after the process has crashed. -/
def step (env : Env) (m : Machine) (mv : Move) : Machine := if m.core.crashed then m else m.act env mv

/-- What a move can do: nothing, begin a thread, change something outside the threads, or run a thread on. -/
inductive MoveResult (env : Env) (m : Machine) : Move → Machine → Prop
  | idle {mv : Move} : MoveResult env m mv m
  | fork {mv : Move} {core : Core} {t : Thread} (hcore : core = m.core ∨
      ∃ i, core = { m.core with woken := m.core.woken.eraseIdx i })
      (ht : (∃ curView cmds, t = .beat curView cmds) ∨
        (∃ curView parentHash cmds, t = .propose curView parentHash cmds ∧ mv = .propose curView parentHash cmds) ∨
        (∃ prop, t = .receive prop) ∨ ∃ prop, t = .recheck prop) :
      MoveResult env m mv ⟨core, m.threads ++ [t]⟩
  | advance {i : Nat} {now : Int64} {t : Thread} (hi : m.threads[i]? = some t) :
      MoveResult env m (.advance i now) ⟨(t.advance env now m.core).2, m.threads.set i (t.advance env now m.core).1⟩
  | other {op : CoreOp} {h : op.Other} : MoveResult env m (.other op h) ⟨m.core.step env op, m.threads⟩

private theorem step_result (env : Env) (m : Machine) (mv : Move) : MoveResult env m mv (m.step env mv) := by
  unfold step
  split
  · exact .idle
  cases mv with
  | beat curView cmds => exact .fork (Or.inl rfl) (Or.inl ⟨_, _, rfl⟩)
  | propose curView parentHash cmds => exact .fork (Or.inl rfl) (Or.inr (Or.inl ⟨_, _, _, rfl, rfl⟩))
  | receive prop => exact .fork (Or.inl rfl) (Or.inr (Or.inr (Or.inl ⟨_, rfl⟩)))
  | resume i =>
    unfold act
    dsimp only
    split
    · exact .idle
    · exact .fork (Or.inr ⟨i, rfl⟩) (Or.inr (Or.inr (Or.inr ⟨_, rfl⟩)))
  | advance i now =>
    unfold act
    dsimp only
    split
    · exact .idle
    · rename_i hi
      exact .advance hi
  | other op h => exact .other

end Machine

/-! ### The vote height -/

namespace Thread

/-- The call compares its block's height with `voteHeight`. -/
def tests : Thread → Bool
  | .testHeight .. | .testVote _ => true
  | _ => false

/-- The height a call may still write, once it has passed its test. -/
def claim : Thread → Option Int64
  | .store _ _ newBlock | .raise _ _ newBlock => some newBlock.height
  | .check prop | .raiseVote prop => some prop.block.height
  | _ => none

/-- The height of the block of an `OnPropose` that has written it. -/
def own : Thread → Option Int64
  | .selfVote _ _ newBlock | .proposed _ newBlock => some newBlock.height
  | _ => none

/-- The block of an `OnPropose` that has returned nil. -/
def proposed? : Thread → Option Block
  | .proposed _ newBlock => some newBlock
  | _ => none

/-- What running a thread on does to `voteHeight`. -/
inductive HeightResult (s : Core) (t : Thread) (s' : Core) (t' : Thread) : Prop
  | same (hs : s'.voteHeight = s.voteHeight) (hc : ∀ h ∈ t'.claim, h ∈ t.claim) (ho : ∀ h ∈ t'.own, h ∈ t.own)
  | test {h : Int64} (ht : t.tests = true) (hs : s'.voteHeight = s.voteHeight) (hlt : s.voteHeight < h)
      (hc : t'.claim = some h) (ho : t'.own = none)
  | write {h : Int64} (hc : t.claim = some h) (hs : s'.voteHeight = h) (hc' : t'.claim = none)
      (ho : ∀ k ∈ t'.own, k = h)

private theorem HeightResult.idle {s s' : Core} {t t' : Thread} (hs : s'.voteHeight = s.voteHeight)
    (hc : t'.claim = none) (ho : t'.own = none) : HeightResult s t s' t' := by
  refine .same hs ?_ ?_
  · rw [hc]
    exact fun _ h => absurd h (Option.not_mem_none _)
  · rw [ho]
    exact fun _ h => absurd h (Option.not_mem_none _)

private theorem voteHeight_voteProposal (env : Env) (s : Core) (viewNumber height : Int64) (hash : Bytes) :
    (s.voteProposal env viewNumber height hash).2.voteHeight = s.voteHeight := by
  unfold Core.voteProposal Core.createPartCert
  cases env.sign s.signLog.length hash with
  | error e => rfl
  | ok sig => rfl

private theorem advance_height (env : Env) (now : Int64) (s : Core) (t : Thread) :
    HeightResult s t (t.advance env now s).2 (t.advance env now s).1 := by
  cases t with
  | beat curView cmds => exact .idle rfl rfl rfl
  | propose curView parentHash cmds =>
    dsimp only [advance, Core.loadBlock]
    cases s.load parentHash with
    | none => exact .idle rfl rfl rfl
    | some parent => exact .idle rfl rfl rfl
  | createLeaf curView parentHash cmds parent => exact .idle rfl rfl rfl
  | testHeight curView parent newBlock =>
    dsimp only [advance]
    split
    · exact .idle rfl rfl rfl
    · rename_i hle
      exact .test rfl rfl (Int64.not_le.1 hle) rfl rfl
  | refuse newHeight => exact .idle rfl rfl rfl
  | store curView parent newBlock =>
    have hu := (Core.update_cases env (s.storeBlock newBlock) newBlock).votes.2
    dsimp only [advance]
    split
    · rename_i heq
      rw [heq] at hu
      exact .idle hu rfl rfl
    · rename_i heq
      rw [heq] at hu
      exact .same hu (fun h hh => hh) nofun
  | raise curView parent newBlock => exact .write rfl rfl rfl fun k hk => (Option.some.inj hk).symm
  | selfVote curView parent newBlock =>
    have hv := voteHeight_voteProposal env s curView newBlock.height newBlock.selfQc.blockHash
    dsimp only [advance]
    split
    · rename_i heq
      rw [heq] at hv
      exact .idle hv rfl rfl
    · rename_i vote s1 heq
      rw [heq] at hv
      have hc := (Core.onProposalVote_cases env s1 vote).frame.2.2.1
      split
      · rename_i heq1
        rw [heq1] at hc
        exact .idle (hc.trans hv) rfl rfl
      · rename_i heq1
        rw [heq1] at hc
        exact .same (hc.trans hv) nofun (fun h hh => hh)
  | proposed parent newBlock => exact .same rfl nofun (fun h hh => hh)
  | receive prop =>
    dsimp only [advance, Core.loadBlock]
    cases prop.block.justify with
    | none => exact .idle rfl rfl rfl
    | some qc =>
      dsimp only
      cases ((s.storeBlock prop.block).broadcast).load qc.blockHash with
      | none => exact .idle rfl rfl rfl
      | some block => exact .idle rfl rfl rfl
  | recheck prop =>
    dsimp only [advance, Core.loadBlock]
    cases prop.block.justify with
    | none => exact .idle rfl rfl rfl
    | some qc =>
      dsimp only
      cases s.load qc.blockHash with
      | none => exact .idle rfl rfl rfl
      | some block => exact .idle rfl rfl rfl
  | process prop =>
    have hu := (Core.update_cases env s prop.block).votes.2
    dsimp only [advance]
    split
    · rename_i heq
      rw [heq] at hu
      exact .idle hu rfl rfl
    · rename_i heq
      rw [heq] at hu
      exact .idle hu rfl rfl
  | testVote prop =>
    dsimp only [advance]
    split
    · rename_i hlt
      exact .test rfl rfl hlt rfl rfl
    · exact .idle rfl rfl rfl
  | check prop =>
    have hq := (Core.quiet_checkLock s prop.block).voteHeight
    dsimp only [advance]
    split
    · rename_i heq
      rw [heq] at hq
      exact .idle hq rfl rfl
    · rename_i heq
      rw [heq] at hq
      exact .same hq (fun h hh => hh) nofun
    · rename_i heq
      rw [heq] at hq
      exact .idle hq rfl rfl
  | raiseVote prop => exact .write rfl rfl rfl nofun
  | castVote prop =>
    have hv := voteHeight_voteProposal env s prop.viewNumber prop.block.height prop.block.selfQc.blockHash
    dsimp only [advance]
    split
    · rename_i heq
      rw [heq] at hv
      exact .idle hv rfl rfl
    · rename_i heq
      rw [heq] at hv
      exact .idle hv rfl rfl
  | done outcome => exact .idle rfl rfl rfl

end Thread

private theorem Core.voteHeight_step_other (env : Env) (s : Core) {op : CoreOp} (h : op.Other) :
    (s.step env op).voteHeight = s.voteHeight := by
  cases op with
  | propose curView parentHash cmds now => exact h.elim
  | receive prop => exact h.elim
  | resume i => exact h.elim
  | vote vote => exact (Core.onProposalVote_cases env s vote).frame.2.2.1
  | newView id view => rfl
  | look hash => rfl
  | adopt qc =>
    show (s.adoptQC env qc).voteHeight = _
    unfold Core.adoptQC
    dsimp only [Core.loadBlock]
    split
    · rename_i heq
      obtain ⟨-, rfl⟩ := Prod.mk.inj heq
      rfl
    · rename_i block s1 heq
      obtain ⟨-, rfl⟩ := Prod.mk.inj heq
      obtain ⟨g, o, n, hh⟩ := Core.highQC_frame env (s.touch qc.blockHash) block qc none
      rw [(Core.quiet_updateHighestQC env (s.touch qc.blockHash) block qc none).voteHeight, hh]
      rfl
  | sign data => rfl
  | crash => rfl

namespace Machine

/-- A call compares its height with `voteHeight` only while no other is between its own test and its write. -/
def Exclusive (m : Machine) : Move → Prop
  | .advance i _ => ∀ t ∈ m.threads[i]?, t.tests = true → ∀ u ∈ m.threads, u.claim = none
  | _ => True

instance (m : Machine) : (mv : Move) → Decidable (m.Exclusive mv)
  | .advance i _ => inferInstanceAs (Decidable (∀ t ∈ m.threads[i]?, t.tests = true → ∀ u ∈ m.threads, u.claim = none))
  | .beat .. | .propose .. | .receive _ | .resume _ | .other .. => .isTrue trivial

/-- The heights as the shared value that the threads test and write. -/
def heights (m : Machine) : Lib.Shared Nat Int where
  value := m.core.voteHeight.toInt
  claim i := ((m.threads[i]?).bind Thread.claim).map Int64.toInt
  own i := ((m.threads[i]?).bind Thread.own).map Int64.toInt

private theorem heights_start : start.heights.Ordered := ⟨nofun, nofun, nofun, nofun⟩

private theorem heights_fork {m : Machine} (h : m.heights.Ordered) {core : Core}
    (hv : core.voteHeight = m.core.voteHeight)
    {t : Thread} (hc : t.claim = none) (ho : t.own = none) : (heights ⟨core, m.threads ++ [t]⟩).Ordered := by
  have hold : ∀ {f : Thread → Option Int64}, f t = none → ∀ i : Nat,
      ((m.threads ++ [t])[i]?).bind f = (m.threads[i]?).bind f := by
    intro f hf i
    rcases Nat.lt_trichotomy i m.threads.length with hlt | rfl | hgt
    · rw [List.getElem?_append_left hlt]
    · simp [hf]
    · rw [List.getElem?_eq_none (by simp; omega), List.getElem?_eq_none (by omega)]
  refine h.mono (congrArg Int64.toInt hv) (fun {i x} hi => ?_) (fun {i x} hi => ?_)
  · simpa only [heights, hold hc] using hi
  · simpa only [heights, hold ho] using hi

private theorem heights_access {m : Machine} {i : Nat} {t t' : Thread} {core : Core} (hi : m.threads[i]? = some t)
    (hg : t.tests = true → ∀ u ∈ m.threads, u.claim = none) (r : Thread.HeightResult m.core t core t') :
    m.heights.Access i (heights ⟨core, m.threads.set i t'⟩) := by
  have hself : (m.threads.set i t')[i]? = some t' := List.getElem?_set_self (List.getElem?_eq_some_iff.1 hi).1
  cases r with
  | same hs hc ho =>
    refine .keep (congrArg Int64.toInt hs) (fun x hx => ?_) (fun x hx => ?_)
    · obtain ⟨y, hy, rfl⟩ := Option.map_eq_some_iff.1 hx
      simp only [hself, Option.bind_some] at hy
      simp [heights, hi, show t.claim = some y from hc y hy]
    · obtain ⟨y, hy, rfl⟩ := Option.map_eq_some_iff.1 hx
      simp only [hself, Option.bind_some] at hy
      simp [heights, hi, show t.own = some y from ho y hy]
  | @test x ht hs hlt hc ho =>
    refine .test (fun j => ?_) (congrArg Int64.toInt hs) (Int64.lt_iff_toInt_lt.1 hlt) ?_ ?_
    · show ((m.threads[j]?).bind Thread.claim).map Int64.toInt = none
      cases hj : m.threads[j]? with
      | none => rfl
      | some u => simp [hg ht u (List.mem_of_getElem? hj)]
    · simp [heights, hself, hc]
    · simp [heights, hself, ho]
  | @write x hc hs hc' ho =>
    refine .write (x := x.toInt) ?_ (congrArg Int64.toInt hs) ?_ (fun y hy => ?_)
    · simp [heights, hi, hc]
    · simp [heights, hself, hc']
    · obtain ⟨z, hz, rfl⟩ := Option.map_eq_some_iff.1 hy
      simp only [hself, Option.bind_some] at hz
      rw [ho z hz]

private theorem heights_others {m : Machine} {i : Nat} {t' : Thread} {core : Core} (j : Nat) (hj : j ≠ i) :
    (heights ⟨core, m.threads.set i t'⟩).claim j = m.heights.claim j ∧
      (heights ⟨core, m.threads.set i t'⟩).own j = m.heights.own j := by
  simp [heights, List.getElem?_set_ne (Ne.symm hj)]

private theorem heights_step {env : Env} {m : Machine} (h : m.heights.Ordered) {mv : Move} (hg : m.Exclusive mv) :
    m.core.voteHeight ≤ (m.step env mv).core.voteHeight ∧ (m.step env mv).heights.Ordered := by
  rw [Int64.le_iff_toInt_le]
  have hr := step_result env m mv
  generalize m.step env mv = m' at hr ⊢
  cases hr with
  | idle => exact ⟨Int.le_refl _, h⟩
  | @fork _ core t hcore ht =>
    have hv : core.voteHeight = m.core.voteHeight := by
      rcases hcore with rfl | ⟨i, rfl⟩
      · rfl
      · rfl
    refine ⟨Int.le_of_eq (congrArg Int64.toInt hv.symm), heights_fork h hv ?_ ?_⟩
    · rcases ht with ⟨_, _, rfl⟩ | ⟨_, _, _, rfl, -⟩ | ⟨_, rfl⟩ | ⟨_, rfl⟩ <;> rfl
    · rcases ht with ⟨_, _, rfl⟩ | ⟨_, _, _, rfl, -⟩ | ⟨_, rfl⟩ | ⟨_, rfl⟩ <;> rfl
  | @advance i now t hi =>
    exact h.access heights_others (heights_access hi (hg t hi) (t.advance_height env now m.core))
  | @other op hop =>
    have hv := congrArg Int64.toInt (Core.voteHeight_step_other env m.core hop)
    exact ⟨Int.le_of_eq hv.symm, h.mono hv (fun hj => hj) (fun hj => hj)⟩

private theorem own_of_proposed {m : Machine} {i : Nat} {b : Block}
    (h : (m.threads[i]?).bind Thread.proposed? = some b) :
    m.heights.own i = some b.height.toInt := by
  obtain ⟨t, ht, hb⟩ := Option.bind_eq_some_iff.1 h
  have hown : t.own = some b.height := by
    cases t with
    | proposed parent newBlock =>
      obtain rfl := Option.some.inj hb
      rfl
    | _ => cases hb
  simp [heights, ht, hown]

end Machine

/-- In every interleaving in which no test of `voteHeight` comes between another call's test and its write, `voteHeight`
never decreases, and calls of `OnPropose` that return nil have made blocks of different heights. -/
theorem no_equivocation (env : Env) (mvs : List Move)
    (hguard : StepsMeet (Machine.step env) Machine.Exclusive Machine.start mvs) :
    (∀ pre mv, pre ++ [mv] <+: mvs → (run (Machine.step env) Machine.start pre).core.voteHeight ≤
      (run (Machine.step env) Machine.start (pre ++ [mv])).core.voteHeight) ∧
    ∀ (i j : Nat) b b', ((run (Machine.step env) Machine.start mvs).threads[i]?).bind Thread.proposed? = some b →
      ((run (Machine.step env) Machine.start mvs).threads[j]?).bind Thread.proposed? = some b' → i ≠ j →
      b.height ≠ b'.height := by
  have hinv : ∀ mvs, StepsMeet (Machine.step env) Machine.Exclusive Machine.start mvs →
      (run (Machine.step env) Machine.start mvs).heights.Ordered := fun mvs hmvs =>
    hmvs.invariant (I := fun m => m.heights.Ordered) (fun m mv h hg => (Machine.heights_step h hg).2)
      Machine.heights_start
  constructor
  · rintro pre mv ⟨rest, rfl⟩
    obtain ⟨hpre, hmv⟩ := Lib.stepsMeet_append.1 (Lib.stepsMeet_append.1 hguard).1
    rw [Lib.run_append]
    exact (Machine.heights_step (hinv pre hpre) hmv.1).1
  · intro i j b b' hi hj hij heq
    exact hij ((hinv mvs hguard).distinct (Machine.own_of_proposed hi) (heq ▸ Machine.own_of_proposed hj))

/-- Thread `i` runs `k` places on. -/
def Move.runOn (k i : Nat) : List Move := List.replicate k (.advance i 0)

/-- Two beats: while the second one waits to begin, the first one proposes a block and the votes for it arrive. -/
def Server.twoBeats : List Move :=
  [.beat 0 [1], .beat 4 [2]] ++ Move.runOn 7 0 ++
    [.other (.vote ⟨0, 1, (chain 1).selfQc.blockHash, ⟨1, sign 1 (chain 1).selfQc.blockHash⟩⟩) trivial,
      .other (.vote ⟨0, 2, (chain 1).selfQc.blockHash, ⟨2, sign 2 (chain 1).selfQc.blockHash⟩⟩) trivial] ++
    Move.runOn 7 1

/-- Both beats run through: the second one raises `voteHeight` with its sixth step, and the blocks are of different heights. -/
theorem no_equivocation_server :
    (run (Machine.step (Server.env 0)) Machine.start (Server.twoBeats.take 16)).core.voteHeight ≤
      (run (Machine.step (Server.env 0)) Machine.start (Server.twoBeats.take 16 ++ [.advance 1 0])).core.voteHeight ∧
    ∃ b b', ((run (Machine.step (Server.env 0)) Machine.start Server.twoBeats).threads[0]?).bind Thread.proposed? = some b ∧
      ((run (Machine.step (Server.env 0)) Machine.start Server.twoBeats).threads[1]?).bind Thread.proposed? = some b' ∧
      b.height ≠ b'.height := by
  obtain ⟨hraise, hheights⟩ := no_equivocation (Server.env 0) Server.twoBeats (by decide +kernel)
  have hthreads : (((run (Machine.step (Server.env 0)) Machine.start Server.twoBeats).threads[0]?).bind
        Thread.proposed?).isSome = true ∧
      (((run (Machine.step (Server.env 0)) Machine.start Server.twoBeats).threads[1]?).bind
        Thread.proposed?).isSome = true := by
    decide +kernel
  obtain ⟨b, hb⟩ := Option.isSome_iff_exists.1 hthreads.1
  obtain ⟨b', hb'⟩ := Option.isSome_iff_exists.1 hthreads.2
  exact ⟨hraise _ _ ⟨Move.runOn 1 1, rfl⟩, b, b', hb, hb', hheights 0 1 b b' hb hb' (by decide)⟩

/-- Two calls that test one behind the other and then write propose two blocks of one height; a call that is overtaken
between its test and its write takes `voteHeight` back. -/
theorem equivocation :
    ((run (Machine.step (Server.env 0)) Machine.start ([.beat 0 [1], .beat 0 [2]] ++ Move.runOn 4 0 ++ Move.runOn 4 1 ++
      Move.runOn 3 0 ++ Move.runOn 3 1)).threads.map fun t => t.proposed?.map fun b => (b.height, b.cmds)) =
      [some (1, [1]), some (1, [2])] ∧
    (run (Machine.step (Server.env 0)) Machine.start ([.receive ⟨0, Server.chain 1⟩, .receive ⟨1, Server.chain 2⟩] ++
      Move.runOn 3 0 ++ Move.runOn 6 1)).core.voteHeight = 2 ∧
    (run (Machine.step (Server.env 0)) Machine.start ([.receive ⟨0, Server.chain 1⟩, .receive ⟨1, Server.chain 2⟩] ++
      Move.runOn 3 0 ++ Move.runOn 6 1 ++ Move.runOn 2 0)).core.voteHeight = 1 := by
  decide +kernel

/-! ### The parent and the justify of a new block -/

namespace Thread

/-- The hash `OnBeat` has read, until `createLeaf` reads the certificate itself. -/
def reading : Thread → Option Bytes
  | .propose _ parentHash _ | .createLeaf _ parentHash _ _ => some parentHash
  | _ => none

/-- The thread calls `UpdateHighestQC` before its next place. -/
def mayAdopt : Thread → Bool
  | .store .. | .selfVote .. | .process _ => true
  | _ => false

/-- The block made by `createLeaf`, with the parent that was loaded for it. -/
def leaf : Thread → Option (Block × Block)
  | .testHeight _ parent newBlock | .store _ parent newBlock | .raise _ parent newBlock
  | .selfVote _ parent newBlock | .proposed parent newBlock => some (parent, newBlock)
  | _ => none

/-- The block's justify is a certificate for its parent, which was `seen` under that hash, and its height is one more. -/
def Justifies (seen : Bytes → Block → Prop) (parent newBlock : Block) : Prop :=
  ∃ qc, newBlock.justify = some qc ∧ qc.blockHash = newBlock.parentHash ∧ seen qc.blockHash parent ∧
    parent.height = newBlock.height - 1

/-- What holds of a thread while `generic` is the hash of the highest certificate. -/
structure Sound (seen : Bytes → Block → Prop) (generic : Bytes) (t : Thread) : Prop where
  reads : ∀ hash ∈ t.reading, hash = generic
  found : ∀ curView hash cmds parent, t = .createLeaf curView hash cmds parent → seen hash parent
  justifies : ∀ x ∈ t.leaf, Justifies seen x.1 x.2

private theorem Sound.mono {seen seen' : Bytes → Block → Prop} (hseen : ∀ hash b, seen hash b → seen' hash b)
    {generic generic' : Bytes} {t : Thread} (h : Sound seen generic t)
    (hg : ∀ hash ∈ t.reading, generic = generic') : Sound seen' generic' t where
  reads hash hh := (h.reads hash hh).trans (hg hash hh)
  found curView hash cmds parent ht := hseen _ _ (h.found curView hash cmds parent ht)
  justifies x hx := by
    obtain ⟨qc, hj, hp, hs, hh⟩ := h.justifies x hx
    exact ⟨qc, hj, hp, hseen _ _ hs, hh⟩

private theorem sound_of_none {seen : Bytes → Block → Prop} {generic : Bytes} {t : Thread} (hr : t.reading = none)
    (hl : t.leaf = none) : Sound seen generic t where
  reads hash hh := by
    rw [hr] at hh
    cases hh
  found curView hash cmds parent ht := by
    rw [ht] at hr
    cases hr
  justifies x hx := by
    rw [hl] at hx
    cases hx

private theorem Sound.of_leaf {seen : Bytes → Block → Prop} {generic generic' : Bytes} {t t' : Thread}
    (h : Sound seen generic t) (hr : t'.reading = none) (hl : t'.leaf = t.leaf) : Sound seen generic' t' where
  reads hash hh := by
    rw [hr] at hh
    cases hh
  found curView hash cmds parent ht := by
    rw [ht] at hr
    cases hr
  justifies x hx := h.justifies x (hl ▸ hx)

private theorem advance_sound (env : Env) (now : Int64) (s : Core) {seen : Bytes → Block → Prop}
    (hseen : ∀ hash b, s.load hash = some b → seen hash b) {t : Thread} (h : Sound seen s.genericQC.blockHash t) :
    Sound seen (t.advance env now s).2.genericQC.blockHash (t.advance env now s).1 ∧
      (t.mayAdopt = false → (t.advance env now s).2.genericQC = s.genericQC) := by
  cases t with
  | beat curView cmds =>
    exact ⟨⟨fun hash hh => (Option.some.inj hh).symm, nofun, nofun⟩, fun _ => rfl⟩
  | propose curView parentHash cmds =>
    dsimp only [advance, Core.loadBlock]
    cases hl : s.load parentHash with
    | none => exact ⟨sound_of_none rfl rfl, fun _ => rfl⟩
    | some parent =>
      refine ⟨⟨fun hash hh => h.reads hash hh, fun _ hash _ b heq => ?_, nofun⟩, fun _ => rfl⟩
      cases heq
      exact hseen _ _ hl
  | createLeaf curView parentHash cmds parent =>
    refine ⟨⟨nofun, nofun, fun x hx => ?_⟩, fun _ => rfl⟩
    obtain rfl := Option.some.inj hx
    have hgen : parentHash = s.genericQC.blockHash := h.reads parentHash rfl
    refine ⟨s.genericQC, rfl, hgen.symm, hgen ▸ h.found _ _ _ _ rfl, ?_⟩
    show parent.height = parent.height + 1 - 1
    exact (Int64.add_sub_cancel _ _).symm
  | testHeight curView parent newBlock =>
    dsimp only [advance]
    split
    · exact ⟨sound_of_none rfl rfl, fun _ => rfl⟩
    · exact ⟨h.of_leaf rfl rfl, fun _ => rfl⟩
  | refuse newHeight => exact ⟨sound_of_none rfl rfl, fun _ => rfl⟩
  | store curView parent newBlock =>
    dsimp only [advance]
    split
    · exact ⟨sound_of_none rfl rfl, nofun⟩
    · exact ⟨h.of_leaf rfl rfl, nofun⟩
  | raise curView parent newBlock => exact ⟨h.of_leaf rfl rfl, fun _ => rfl⟩
  | selfVote curView parent newBlock =>
    dsimp only [advance]
    split
    · exact ⟨sound_of_none rfl rfl, nofun⟩
    · split
      · exact ⟨sound_of_none rfl rfl, nofun⟩
      · exact ⟨h.of_leaf rfl rfl, nofun⟩
  | proposed parent newBlock => exact ⟨h, fun _ => rfl⟩
  | receive prop =>
    dsimp only [advance, Core.loadBlock]
    cases prop.block.justify with
    | none => exact ⟨sound_of_none rfl rfl, fun _ => rfl⟩
    | some qc =>
      dsimp only
      cases ((s.storeBlock prop.block).broadcast).load qc.blockHash with
      | none => exact ⟨sound_of_none rfl rfl, fun _ => rfl⟩
      | some b => exact ⟨sound_of_none rfl rfl, fun _ => rfl⟩
  | recheck prop =>
    dsimp only [advance, Core.loadBlock]
    cases prop.block.justify with
    | none => exact ⟨sound_of_none rfl rfl, fun _ => rfl⟩
    | some qc =>
      dsimp only
      cases s.load qc.blockHash with
      | none => exact ⟨sound_of_none rfl rfl, fun _ => rfl⟩
      | some b => exact ⟨sound_of_none rfl rfl, fun _ => rfl⟩
  | process prop =>
    dsimp only [advance]
    split
    · exact ⟨sound_of_none rfl rfl, nofun⟩
    · exact ⟨sound_of_none rfl rfl, nofun⟩
  | testVote prop =>
    dsimp only [advance]
    split
    · exact ⟨sound_of_none rfl rfl, fun _ => rfl⟩
    · exact ⟨sound_of_none rfl rfl, fun _ => rfl⟩
  | check prop =>
    obtain ⟨c, w, k, x, -, -, hq⟩ := Core.quiet_checkLock s prop.block
    have hq := congrArg Core.genericQC hq
    dsimp only [advance]
    split
    · rename_i heq
      rw [heq] at hq
      exact ⟨sound_of_none rfl rfl, fun _ => hq⟩
    · rename_i heq
      rw [heq] at hq
      exact ⟨sound_of_none rfl rfl, fun _ => hq⟩
    · rename_i heq
      rw [heq] at hq
      exact ⟨sound_of_none rfl rfl, fun _ => hq⟩
  | raiseVote prop => exact ⟨sound_of_none rfl rfl, fun _ => rfl⟩
  | castVote prop =>
    have hv : (s.voteProposal env prop.viewNumber prop.block.height prop.block.selfQc.blockHash).2.genericQC =
        s.genericQC := by
      unfold Core.voteProposal Core.createPartCert
      cases env.sign s.signLog.length prop.block.selfQc.blockHash with
      | error e => rfl
      | ok sig => rfl
    dsimp only [advance]
    split
    · rename_i heq
      rw [heq] at hv
      exact ⟨sound_of_none rfl rfl, fun _ => hv⟩
    · rename_i heq
      rw [heq] at hv
      exact ⟨sound_of_none rfl rfl, fun _ => hv⟩
  | done outcome => exact ⟨sound_of_none rfl rfl, fun _ => rfl⟩

end Thread

namespace Machine

/-- The move calls `UpdateHighestQC`. -/
def mayAdopt (m : Machine) : Move → Bool
  | .advance i _ => (m.threads[i]?).any Thread.mayAdopt
  | .other (.vote _) _ | .other (.adopt _) _ => true
  | _ => false

/-- `OnPropose` is called by `OnBeat` only, and `UpdateHighestQC` is not called while a thread is between the two reads of
the highest certificate. -/
def Steady (m : Machine) (mv : Move) : Prop :=
  (∀ curView parentHash cmds, mv ≠ .propose curView parentHash cmds) ∧
    (m.mayAdopt mv = true → ∀ t ∈ m.threads, t.reading = none)

instance (m : Machine) : (mv : Move) → Decidable (m.Steady mv)
  | .propose curView parentHash cmds => .isFalse fun h => h.1 curView parentHash cmds rfl
  | .advance i now => decidable_of_iff (m.mayAdopt (.advance i now) = true → ∀ t ∈ m.threads, t.reading = none)
      ⟨fun h => ⟨nofun, h⟩, fun h => h.2⟩
  | .other op hop => decidable_of_iff (m.mayAdopt (.other op hop) = true → ∀ t ∈ m.threads, t.reading = none)
      ⟨fun h => ⟨nofun, h⟩, fun h => h.2⟩
  | .beat .. | .receive _ | .resume _ => .isTrue ⟨nofun, nofun⟩

def AllSound (seen : Bytes → Block → Prop) (m : Machine) : Prop :=
  ∀ t ∈ m.threads, t.Sound seen m.core.genericQC.blockHash

theorem AllSound.step {env : Env} {seen : Bytes → Block → Prop} {m : Machine} (h : m.AllSound seen)
    (hseen : ∀ hash b, m.core.load hash = some b → seen hash b) {mv : Move} (hg : m.Steady mv) :
    (m.step env mv).AllSound seen := by
  have hr := step_result env m mv
  generalize m.step env mv = m' at hr ⊢
  -- a move that keeps the certificate, or one that meets no thread between the reads
  have hothers : ∀ core : Core, (m.mayAdopt mv = false → core.genericQC = m.core.genericQC) →
      ∀ t ∈ m.threads, t.Sound seen core.genericQC.blockHash := by
    intro core hcore t ht
    refine (h t ht).mono (fun _ _ hs => hs) fun hash hh => ?_
    cases hm : m.mayAdopt mv with
    | false => rw [hcore hm]
    | true =>
      rw [hg.2 hm t ht] at hh
      cases hh
  cases hr with
  | idle => exact h
  | @fork mv core t hcore ht =>
    have hgen : core.genericQC = m.core.genericQC := by
      rcases hcore with rfl | ⟨i, rfl⟩
      · rfl
      · rfl
    intro u hu
    rcases List.mem_append.1 hu with hu | hu
    · exact hothers core (fun _ => hgen) u hu
    · rw [List.mem_singleton.1 hu]
      rcases ht with ⟨_, _, rfl⟩ | ⟨_, _, _, -, hmv⟩ | ⟨_, rfl⟩ | ⟨_, rfl⟩
      · exact Thread.sound_of_none rfl rfl
      · exact absurd hmv (hg.1 _ _ _)
      · exact Thread.sound_of_none rfl rfl
      · exact Thread.sound_of_none rfl rfl
  | @advance i now t hi =>
    obtain ⟨hsound, hgen⟩ := Thread.advance_sound env now m.core hseen (h t (List.mem_of_getElem? hi))
    intro u hu
    rcases List.mem_or_eq_of_mem_set hu with hu | rfl
    · exact hothers _ (fun hm => hgen (by simpa [mayAdopt, hi] using hm)) u hu
    · exact hsound
  | @other op hop =>
    refine hothers (m.core.step env op) fun hm => ?_
    cases op with
    | propose curView parentHash cmds now => exact hop.elim
    | receive prop => exact hop.elim
    | resume i => exact hop.elim
    | vote vote => cases hm
    | adopt qc => cases hm
    | newView id view => rfl
    | look hash => rfl
    | sign data => rfl
    | crash => rfl

end Machine

/-- In every interleaving in which no certificate can be adopted between the two reads of the highest one, each block that
`OnPropose` makes is justified by a certificate for its parent, the block that was found under that hash, whose height is
one less. -/
theorem leaf_justifies_parent (env : Env) (mvs : List Move)
    (hguard : StepsMeet (Machine.step env) Machine.Steady Machine.start mvs) (t : Thread)
    (ht : t ∈ (run (Machine.step env) Machine.start mvs).threads) (parent newBlock : Block)
    (hleaf : t.leaf = some (parent, newBlock)) :
    ∃ qc, newBlock.justify = some qc ∧ qc.blockHash = newBlock.parentHash ∧
      (∃ pre, pre <+: mvs ∧ (run (Machine.step env) Machine.start pre).core.load qc.blockHash = some parent) ∧
      parent.height = newBlock.height - 1 := by
  have hsound : (run (Machine.step env) Machine.start mvs).AllSound fun hash b =>
      ∃ pre, pre <+: mvs ∧ (run (Machine.step env) Machine.start pre).core.load hash = some b := by
    clear ht
    induction mvs using List.reverseRecOn with
    | nil => exact nofun
    | append_singleton mvs mv ih =>
      obtain ⟨hmvs, hmv⟩ := Lib.stepsMeet_append.1 hguard
      have hprev : (run (Machine.step env) Machine.start mvs).AllSound fun hash b =>
          ∃ pre, pre <+: mvs ++ [mv] ∧ (run (Machine.step env) Machine.start pre).core.load hash = some b :=
        fun u hu => (ih hmvs u hu).mono (fun hash b ⟨pre, hpre, hl⟩ =>
          ⟨pre, hpre.trans (List.prefix_append mvs [mv]), hl⟩) fun _ _ => rfl
      rw [Lib.run_append]
      exact hprev.step (fun hash b hl => ⟨mvs, List.prefix_append mvs [mv], hl⟩) hmv.1
  exact (hsound t ht).justifies (parent, newBlock) hleaf

/-- A beat, and a proposal that is received between the two reads and processed behind them. -/
def Move.beatRun : List Move :=
  [.beat 0 [7], .receive ⟨0, Server.chain 1⟩] ++ runOn 2 0 ++ runOn 1 1 ++ runOn 5 0 ++ runOn 5 1

theorem leaf_justifies_parent_server :
    ∃ parent newBlock, ((run (Machine.step (Server.env 0)) Machine.start Move.beatRun).threads[0]?).bind Thread.leaf =
      some (parent, newBlock) ∧ ∃ qc, newBlock.justify = some qc ∧ qc.blockHash = newBlock.parentHash := by
  have hsome : (((run (Machine.step (Server.env 0)) Machine.start Move.beatRun).threads[0]?).bind Thread.leaf).isSome := by
    decide +kernel
  obtain ⟨⟨parent, newBlock⟩, hleaf⟩ := Option.isSome_iff_exists.1 hsome
  obtain ⟨t, ht, hl⟩ := Option.bind_eq_some_iff.1 hleaf
  obtain ⟨qc, hj, hp, -⟩ := leaf_justifies_parent (Server.env 0) Move.beatRun (by decide +kernel) t
    (List.mem_of_getElem? ht) parent newBlock hl
  exact ⟨parent, newBlock, hleaf, qc, hj, hp⟩

/-- `OnBeat` reads the genesis certificate; before `createLeaf`, the certificate for the first block of the chain is
adopted.  The block proposed then has the genesis block as its parent and is justified by a block of its own height. -/
theorem leaf_justified_by_sibling :
    ((run (Machine.step (Server.env 0)) Machine.start
      ([.beat 0 [7], .receive ⟨0, Server.chain 1⟩, .receive ⟨1, Server.chain 2⟩] ++ Move.runOn 1 0 ++ Move.runOn 1 1 ++
        Move.runOn 2 2 ++ Move.runOn 6 0)).threads[0]?.bind Thread.proposed?).map
      (fun b => (b.parentHash, b.justify.map fun qc => qc.blockHash, b.height)) =
    some (genesisHash, some (Server.chain 1).selfQc.blockHash, (Server.chain 1).height) ∧
    genesisHash ≠ (Server.chain 1).selfQc.blockHash := by
  decide +kernel

end GoHotstuff
