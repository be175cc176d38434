import GoHotstuff.Commands
import GoHotstuff.Execution

/-!
# Calls that fail midway

`update` moves `execQC` before it walks from `block0` to the last executed block, and emits a `DecideEvent` at every
step of the walk; a block that is not in the store ends the walk with an error, when `execQC` has moved and part of the
events are out (`decided_halfway`).  It takes no eviction: a replica that missed the beginning of a chain gets there with
the first three-chain it sees.  Nothing is half-executed exactly if the store holds all blocks the walk visits, or the
walk is not reached at all (`failed_update_unexecuted`).

`OnPropose` stores the new block, and raises `voteHeight` behind `update`, before it signs; a signer's error leaves both
(`height_used_up`).  It leaves neither exactly if whatever can fail fails before the block is stored, or the block was in the
store before, with its certificate as it is made, and `update` fails (`failed_propose_undone`).
-/

namespace GoHotstuff

open Lib (Bytes run)

namespace Core

/-- The blocks between the last executed block `xb` and `b0`, `b0` included and `xb` not. -/
def passed (s : Core) (b0 xb : Block) : List Block :=
  s.ancestors (b0.height - xb.height).toNatClampNeg (getBlockHash b0)

private theorem UpdateResult.executes {env : Env} {s s' : Core} {b : Block} {r : Except CoreError Unit}
    (u : UpdateResult env s b r s') (hall : s.WalkCached b) :
    (s'.execQC = s.execQC ∧ s'.decided = s.decided) ∨
    (r = .ok () ∧ ∃ xb b0, s.load s.execQC.blockHash = some xb ∧ s.load s'.execQC.blockHash = some b0 ∧
      (s.passed b0 xb).length = (b0.height - xb.height).toNatClampNeg ∧ s'.decided = s.decided ++ s.passed b0 xb) := by
  obtain h | ⟨qc2, b2, qc1, b1, qc0, b0, xb, h2, h1, h0, hp2, hp1, hx, he, hd⟩ := u.exec
  · exact .inl h
  · -- the walk is reached, and it finds what it needs
    have hlen := hall b0 (mem_decides?.2 ⟨_, _, _, _, _, h2, h1, h0, hp2, hp1⟩) xb hx
    have hok := (u.exec_of_threeChain h2 h1 h0 hp2 hp1 hx).2.2.2 hlen
    refine .inr ⟨hok, xb, b0, hx, ?_, hlen, hd⟩
    rw [he]
    exact (justifyBlock?_eq_some.1 h0).2

private theorem UpdateResult.moves {env : Env} {s s' : Core} {b : Block} {r : Except CoreError Unit}
    (u : UpdateResult env s b r s') (h : ¬ s.WalkCached b) : (∃ e, r = .error e) ∧ s'.execQC ≠ s.execQC := by
  unfold WalkCached at h
  push Not at h
  obtain ⟨b0, hb0, xb, hx, hlen⟩ := h
  obtain ⟨qc2, b2, qc1, b1, qc0, h2, h1, h0, hp2, hp1⟩ := mem_decides?.1 hb0
  obtain ⟨hexec, -, hok⟩ := u.exec_of_threeChain h2 h1 h0 hp2 hp1 hx
  refine ⟨?_, fun heq => hlen ?_⟩
  · cases r with
    | error e => exact ⟨e, rfl⟩
    | ok => exact absurd (hok.1 rfl) hlen
  · -- the block of `execQC` is its own last block, and the walk to it is empty
    have hb0 : s.load qc0.blockHash = some b0 := (justifyBlock?_eq_some.1 h0).2
    rw [hexec] at heq
    rw [heq, hx] at hb0
    obtain rfl := Option.some.inj hb0
    rw [Int64.sub_self]
    rfl

private theorem load_storeBlock_of_load {s : Core} {b : Block} (h : s.load b.selfQc.blockHash = some b) (hash : Bytes) :
    (s.storeBlock b).load hash = s.load hash := by
  by_cases hk : hash = b.selfQc.blockHash
  · rw [hk, load_storeBlock_self, h]
  · obtain ⟨obj, hobj⟩ := load_eq_some.1 h
    have hne : Lib.encodeToString hash ≠ Lib.encodeToString b.selfQc.blockHash := by
      rw [Ne, Lib.encodeToString_inj]
      exact hk
    have hfind : (s.storeBlock b).object? hash = s.object? hash :=
      Cache.find?_put_of_not_evicts hne fun hev => by
        have hnone : s.object? b.selfQc.blockHash = none := hev.1
        rw [hobj] at hnone
        cases hnone
    unfold load
    rw [hfind]

/-- `OnPropose` stops before it stores the block, or finds what it needs to come to its end, or `update` fails for a block
that the store holds already. -/
def LeavesNoTrace (env : Env) (s : Core) (curView : Int64) (parentHash cmds : Bytes) (now : Int64) : Prop :=
  ∀ parent ∈ s.load parentHash, s.voteHeight < (s.newBlock env curView parentHash cmds parent now).height →
    s.Finishes env curView parentHash cmds now parent ∨
    s.load (s.newBlock env curView parentHash cmds parent now).selfQc.blockHash =
        some (s.newBlock env curView parentHash cmds parent now) ∧
      ¬ ((s.touch parentHash).storeBlock (s.newBlock env curView parentHash cmds parent now)).CanUpdate
        (s.newBlock env curView parentHash cmds parent now)

instance (env : Env) (s : Core) (curView : Int64) (parentHash cmds : Bytes) (now : Int64) :
    Decidable (s.LeavesNoTrace env curView parentHash cmds now) :=
  inferInstanceAs (Decidable (∀ parent ∈ s.load parentHash, _ → _))

end Core

/-- A failed `update` leaves nothing half-executed, exactly if the store holds the blocks of the walk: then an error of
`update` comes with the old `execQC` and no new `DecideEvent`; and where `execQC` moves, every block it passes gets its
`DecideEvent`. -/
theorem failed_update_unexecuted (env : Env) (s : Core) (b : Block) :
    ((∀ e, (s.update env b).1 = .error e →
        (s.update env b).2.execQC = s.execQC ∧ (s.update env b).2.decided = s.decided) ↔ s.WalkCached b) ∧
    (s.WalkCached b → (s.update env b).2.execQC ≠ s.execQC → ∃ xb b0, s.load s.execQC.blockHash = some xb ∧
      s.load (s.update env b).2.execQC.blockHash = some b0 ∧
      (s.passed b0 xb).length = (b0.height - xb.height).toNatClampNeg ∧
      (s.update env b).2.decided = s.decided ++ s.passed b0 xb) := by
  have u := Core.update_cases env s b
  refine ⟨⟨fun h => ?_, fun hall e he => ?_⟩, fun hall hne => ?_⟩
  · by_contra hmissing
    obtain ⟨⟨e, he⟩, hmoved⟩ := u.moves hmissing
    exact hmoved (h e he).1
  · obtain hold | ⟨hok, -⟩ := u.executes hall
    · exact hold
    · rw [hok] at he
      cases he
  · obtain ⟨hexec, -⟩ | ⟨-, h⟩ := u.executes hall
    · exact absurd hexec hne
    · exact h

namespace Server

def receivedFrom (i k : Nat) : Core := run (Core.step (env 3)) newHotStuffCore (receivesFrom i k)

end Server

theorem failed_update_unexecuted_server :
    (((Server.receivedFrom 0 2).update (Server.env 3) (Server.chain 4)).1 =
        .error (.keyNotFound (Server.chain 3).selfQc.blockHash) ∧
      ((Server.receivedFrom 0 2).update (Server.env 3) (Server.chain 4)).2.execQC =
        (Server.receivedFrom 0 2).execQC) ∧
    ((Server.receivedFrom 0 4).update (Server.env 3) (Server.chain 5)).2.execQC ≠ (Server.receivedFrom 0 4).execQC ∧
    ∃ xb b0, (Server.receivedFrom 0 4).load (Server.receivedFrom 0 4).execQC.blockHash = some xb ∧
      ((Server.receivedFrom 0 4).passed b0 xb).length = (b0.height - xb.height).toNatClampNeg ∧
      ((Server.receivedFrom 0 4).update (Server.env 3) (Server.chain 5)).2.decided =
        (Server.receivedFrom 0 4).decided ++ (Server.receivedFrom 0 4).passed b0 xb := by
  obtain ⟨herr, hne, hcached, hcached'⟩ :
      ((Server.receivedFrom 0 2).update (Server.env 3) (Server.chain 4)).1 =
        .error (.keyNotFound (Server.chain 3).selfQc.blockHash) ∧
      ((Server.receivedFrom 0 4).update (Server.env 3) (Server.chain 5)).2.execQC ≠ (Server.receivedFrom 0 4).execQC ∧
      (Server.receivedFrom 0 2).WalkCached (Server.chain 4) ∧ (Server.receivedFrom 0 4).WalkCached (Server.chain 5) := by
    decide +kernel
  obtain ⟨xb, b0, hx, -, hlen, hdecided⟩ :=
    (failed_update_unexecuted (Server.env 3) (Server.receivedFrom 0 4) (Server.chain 5)).2 hcached' hne
  exact ⟨⟨herr, ((failed_update_unexecuted (Server.env 3) (Server.receivedFrom 0 2) (Server.chain 4)).1.2
    hcached _ herr).1⟩, hne, xb, b0, hx, hlen, hdecided⟩

/-- A replica that gets the chain from block `5` on: with block `8` the first three-chain is complete, `execQC` moves to
block `5` and its `DecideEvent` goes out, and the walk fails at block `4`.  Blocks `1` to `4` are passed for good. -/
theorem decided_halfway :
    ((Server.receivedFrom 4 3).onReceiveProposal (Server.env 3) ⟨7, Server.chain 8⟩).1 =
      .error (.keyNotFound (Server.chain 4).selfQc.blockHash) ∧
    ((Server.receivedFrom 4 3).update (Server.env 3) (Server.chain 8)).1 =
      .error (.keyNotFound (Server.chain 4).selfQc.blockHash) ∧
    (Server.receivedFrom 4 3).execQC = genesisQC ∧ (Server.receivedFrom 4 3).decided = [] ∧
    ((Server.receivedFrom 4 3).update (Server.env 3) (Server.chain 8)).2.execQC.blockHash =
      (Server.chain 5).selfQc.blockHash ∧
    ((Server.receivedFrom 4 3).update (Server.env 3) (Server.chain 8)).2.decided.map (fun b => b.height) = [5] := by
  decide +kernel

/-- A failed proposal leaves no trace: an error of `OnPropose` comes with the old `voteHeight` and the old entries of the
store, exactly if what can fail fails before the block is stored, or the block was in the store already and `update`
fails. -/
theorem failed_propose_undone (env : Env) (s : Core) (curView : Int64) (parentHash cmds : Bytes) (now : Int64) :
    (∀ e, (s.onPropose env curView parentHash cmds now).1 = .error e →
      (s.onPropose env curView parentHash cmds now).2.voteHeight = s.voteHeight ∧
        ∀ hash, (s.onPropose env curView parentHash cmds now).2.load hash = s.load hash) ↔
    s.LeavesNoTrace env curView parentHash cmds now := by
  constructor
  · intro h parent hl hh
    by_cases hf : s.Finishes env curView parentHash cmds now parent
    · exact .inl hf
    · obtain ⟨e, s', heq, -, hwhy⟩ := Core.onPropose_fails hl hh hf
      obtain ⟨hheight, hload⟩ := h e (congrArg Prod.fst heq)
      rw [heq] at hheight hload
      rcases hwhy with hu | ⟨-, hraised⟩
      · -- the block that is in the store now has been there before
        refine .inr ⟨?_, fun hcan => ?_⟩
        · rw [← hload, (Core.update_result hu).load]
          exact Core.load_storeBlock_self _ _
        · rw [← Core.update_ok_iff env, hu] at hcan
          cases hcan
      · rw [hheight] at hraised
        rw [hraised] at hh
        exact absurd hh (Int64.lt_irrefl)
  · intro h e herr
    obtain q | ⟨parent, hl, hh, -⟩ := Core.onPropose_cases env s curView parentHash cmds now
    · exact ⟨q.voteHeight, q.load⟩
    · by_cases hf : s.Finishes env curView parentHash cmds now parent
      · obtain ⟨s4, b, -, hok⟩ := Core.onPropose_finishes hl hh hf
        rw [hok] at herr
        cases herr
      · obtain ⟨hthere, hcan⟩ := (h parent hl hh).resolve_left hf
        obtain ⟨e', s', heq, -, hu | ⟨hcan', -⟩⟩ := Core.onPropose_fails hl hh hf
        · rw [heq]
          have u := Core.update_result hu
          refine ⟨u.votes.2, fun hash => ?_⟩
          have hthere' : (s.touch parentHash).load (s.newBlock env curView parentHash cmds parent now).selfQc.blockHash =
              some (s.newBlock env curView parentHash cmds parent now) := by
            rw [(Core.quiet_touch s parentHash).load, hthere]
          rw [u.load, Core.load_storeBlock_of_load hthere', (Core.quiet_touch s parentHash).load]
        · exact absurd hcan' hcan

theorem failed_propose_undone_server :
    ((Server.receivedFrom 0 1).onPropose (Server.env 3) 3 genesisHash [9] 0).1 = .error (.notHigher 1 1) ∧
    ((Server.receivedFrom 0 1).onPropose (Server.env 3) 3 genesisHash [9] 0).2.voteHeight =
      (Server.receivedFrom 0 1).voteHeight := by
  obtain ⟨herr, htrace⟩ :
      ((Server.receivedFrom 0 1).onPropose (Server.env 3) 3 genesisHash [9] 0).1 = .error (.notHigher 1 1) ∧
      (Server.receivedFrom 0 1).LeavesNoTrace (Server.env 3) 3 genesisHash [9] 0 := by
    decide +kernel
  exact ⟨herr, ((failed_propose_undone (Server.env 3) (Server.receivedFrom 0 1) 3 genesisHash [9] 0).2 htrace _ herr).1⟩

namespace Server

def flakyEnv : Env :=
  { env 0 with sign := fun i digest => if i = 0 then .error "read /dev/urandom" else .ok (sign 0 digest) }

end Server

/-- The signer fails once, on the first proposal after the start: the block is in the store, `voteHeight` is up, and the
same command cannot be proposed at that height again, although the signer works by then. -/
theorem height_used_up :
    (newHotStuffCore.onPropose Server.flakyEnv 0 genesisHash [1] 0).1 = .error (.signer "read /dev/urandom") ∧
    newHotStuffCore.voteHeight = 0 ∧
    (newHotStuffCore.onPropose Server.flakyEnv 0 genesisHash [1] 0).2.voteHeight = 1 ∧
    newHotStuffCore.load (Server.chain 1).selfQc.blockHash = none ∧
    ((newHotStuffCore.onPropose Server.flakyEnv 0 genesisHash [1] 0).2.load (Server.chain 1).selfQc.blockHash).isSome =
      true ∧
    ((newHotStuffCore.onPropose Server.flakyEnv 0 genesisHash [1] 0).2.onPropose Server.flakyEnv 0 genesisHash [1] 0).1 =
      .error (.notHigher 1 1) := by
  decide +kernel

end GoHotstuff
