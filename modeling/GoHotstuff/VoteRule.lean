import GoHotstuff.BlockStore

/-!
# The vote rule

`OnReceiveProposal` computes the two guards of HotStuff, the block being higher than the last one voted for and either its
justify block being higher than the locked block or the locked block an ancestor, but they only decide whether `voteHeight`
is raised: the vote is made in any case (`vote_rule_unguarded`).  `VoteGuard` is the condition that the guards hold for
every proposal that is processed, stated on the store before `update` runs, which may move the lock to the block justified
by the justify block (`nextLock`).  Under it the votes of a replica have strictly increasing heights and obey the lock
(`vote_rule`).
-/

namespace GoHotstuff

open Lib (Bytes run StepsMeet)

namespace Core

/-- The block that is locked once `b` has been processed: the locked block or, if that is higher, the block which the
justify block of `b` justifies. -/
def nextLock (s : Core) (b : Block) : Option Block :=
  match s.load s.lockedQC.blockHash, (s.justifyBlock? b).bind fun x => s.justifyBlock? x.2 with
  | some lockedb, some x => some (if lockedb.height < x.2.height then x.2 else lockedb)
  | lockedb, _ => lockedb

/-- The guard against the lock: the justify block of `b` is higher than the block that will be locked, or `b` is and the
walk from `b` down to its height ends there. -/
def LockSafe (s : Core) (b : Block) : Prop :=
  ∀ x ∈ s.justifyBlock? b, ∃ c ∈ s.nextLock b, c.height < x.2.height ∨ (0 < b.height - c.height ∧ s.Extends b c)

instance (s : Core) (b : Block) : Decidable (s.LockSafe b) :=
  inferInstanceAs (Decidable (∀ x ∈ s.justifyBlock? b, ∃ c ∈ s.nextLock b,
    c.height < x.2.height ∨ (0 < b.height - c.height ∧ s.Extends b c)))

/-- Both guards for a block whose justify block is there. -/
def VoteSafe (s : Core) (b : Block) : Prop :=
  ((s.justifyBlock? b).isSome → s.voteHeight < b.height) ∧ s.LockSafe b

instance (s : Core) (b : Block) : Decidable (s.VoteSafe b) :=
  inferInstanceAs (Decidable (((s.justifyBlock? b).isSome → s.voteHeight < b.height) ∧ s.LockSafe b))

/-- The guards hold for every proposal the call processes; for an own proposal `OnPropose` itself compares the heights. -/
def VoteGuard (env : Env) (s : Core) : CoreOp → Prop
  | .receive prop => (s.storeBlock prop.block).VoteSafe prop.block
  | .resume i => ∀ prop ∈ s.woken[i]?, s.VoteSafe prop.block
  | .propose curView parentHash cmds now => ∀ parent ∈ s.load parentHash,
      ((s.touch parentHash).storeBlock (s.newBlock env curView parentHash cmds parent now)).LockSafe
        (s.newBlock env curView parentHash cmds parent now)
  | _ => True

instance (env : Env) (s : Core) : (op : CoreOp) → Decidable (s.VoteGuard env op)
  | .receive prop => inferInstanceAs (Decidable ((s.storeBlock prop.block).VoteSafe prop.block))
  | .resume i => inferInstanceAs (Decidable (∀ prop ∈ s.woken[i]?, s.VoteSafe prop.block))
  | .propose curView parentHash cmds now => inferInstanceAs (Decidable (∀ parent ∈ s.load parentHash,
      ((s.touch parentHash).storeBlock (s.newBlock env curView parentHash cmds parent now)).LockSafe
        (s.newBlock env curView parentHash cmds parent now)))
  | .vote _ | .newView .. | .look _ | .adopt _ | .sign _ | .crash => .isTrue trivial

/-- The block a call processes. -/
inductive Handles (env : Env) (s : Core) : CoreOp → Block → Prop
  | receive (prop : Proposal) : Handles env s (.receive prop) prop.block
  | resume {i : Nat} {prop : Proposal} (hi : s.woken[i]? = some prop) : Handles env s (.resume i) prop.block
  | propose {curView now : Int64} {parentHash cmds : Bytes} {parent : Block} (hl : s.load parentHash = some parent) :
      Handles env s (.propose curView parentHash cmds now) (s.newBlock env curView parentHash cmds parent now)

/-- The justify block of `b` is strictly higher than the locked block, or the locked block is found on the way from `b`
through its parents. -/
def LockRule (s : Core) (b : Block) : Prop :=
  ∃ qc jb lockedb, s.justifyBlock? b = some (qc, jb) ∧ s.load s.lockedQC.blockHash = some lockedb ∧
    (lockedb.height < jb.height ∨
      ∃ i nblk, 0 < i ∧ s.parentWalk i b = some nblk ∧ nblk.selfQc.blockHash = lockedb.selfQc.blockHash)

theorem UpdateResult.nextLock {env : Env} {s s' : Core} {b : Block} {r : Except CoreError Unit}
    (u : UpdateResult env s b r s') : s'.load s'.lockedQC.blockHash = s.nextLock b := by
  rw [u.load]
  unfold Core.nextLock
  cases h2 : s.justifyBlock? b with
  | none =>
    have hlock : s'.lockedQC = s.lockedQC := by
      obtain ⟨c, w, k, x, hc, hp, rfl⟩ := u.quiet_of_none h2
      rfl
    rw [hlock]
    cases s.load s.lockedQC.blockHash <;> rfl
  | some x =>
    obtain ⟨qc2, b2⟩ := x
    rw [u.locked_eq h2, Option.bind_some]
    cases h1 : s.justifyBlock? b2 with
    | none => cases s.load s.lockedQC.blockHash <;> rfl
    | some x =>
      obtain ⟨qc1, b1⟩ := x
      obtain ⟨-, hl1⟩ := justifyBlock?_eq_some.1 h1
      unfold lockQC
      cases hl : s.load s.lockedQC.blockHash with
      | none => simp [hl]
      | some lockedb =>
        by_cases hlt : lockedb.height < b1.height
        · simp [hlt, hl1]
        · simp [hlt, hl]

private theorem justifyBlock?_of_load {s s' : Core} (h : ∀ hash, s'.load hash = s.load hash) (b : Block) :
    s'.justifyBlock? b = s.justifyBlock? b := by
  unfold justifyBlock?
  simp only [h]

private theorem extends_of_load {s s' : Core} (h : ∀ hash, s'.load hash = s.load hash) (b c : Block) :
    s'.Extends b c ↔ s.Extends b c := by
  unfold Extends
  rw [parentWalk_congr h]

private theorem nextLock_of_load {s s' : Core} (h : ∀ hash, s'.load hash = s.load hash) (hl : s'.lockedQC = s.lockedQC)
    (b : Block) : s'.nextLock b = s.nextLock b := by
  unfold nextLock
  simp only [hl, h, justifyBlock?_of_load h]

theorem lockSafe_of_load {s s' : Core} (h : ∀ hash, s'.load hash = s.load hash) (hl : s'.lockedQC = s.lockedQC)
    (b : Block) : s'.LockSafe b ↔ s.LockSafe b := by
  unfold LockSafe
  simp only [justifyBlock?_of_load h, nextLock_of_load h hl, extends_of_load h]

/-- The guards, in the state in which the justify block has been found. -/
private theorem VoteSafe.of_quiet {s s' : Core} {b : Block} {x : QuorumCert × Block} (h : s.VoteSafe b) (q : Quiet s s')
    (hj : s'.justifyBlock? b = some x) : s'.voteHeight < b.height ∧ s'.LockSafe b := by
  have hj' : (s.justifyBlock? b).isSome := by
    rw [← q.justifyBlock?, hj]
    rfl
  have hload := q.load
  obtain ⟨c, w, k, y, hc, hp, rfl⟩ := q
  exact ⟨h.1 hj', (lockSafe_of_load hload rfl b).2 h.2⟩

private theorem lockRule_of_load {s s' : Core} (h : ∀ hash, s'.load hash = s.load hash) (hl : s'.lockedQC = s.lockedQC)
    {b : Block} (hr : s.LockRule b) : s'.LockRule b := by
  obtain ⟨qc, jb, lockedb, hj, hlock, hor⟩ := hr
  refine ⟨qc, jb, lockedb, ?_, ?_, ?_⟩
  · rw [justifyBlock?_of_load h]
    exact hj
  · rw [hl, h]
    exact hlock
  · simpa only [parentWalk_congr h] using hor

private theorem UpdateResult.exists_justify {env : Env} {s s' : Core} {b : Block}
    (u : UpdateResult env s b (.ok ()) s') :
    ∃ x, s.justifyBlock? b = some x := by
  cases u with
  | preCommit h2 => exact ⟨_, h2⟩
  | commit h2 => exact ⟨_, h2⟩
  | decide h2 => exact ⟨_, h2⟩

/-- After `update`, a block that was safe against the coming lock obeys the lock rule and may be voted for. -/
private theorem UpdateResult.lockRule {env : Env} {s s' : Core} {b : Block} (u : UpdateResult env s b (.ok ()) s')
    (hsafe : s.LockSafe b) : s'.LockRule b ∧ (s.voteHeight < b.height → s'.MayVote b) := by
  have hload := u.load
  obtain ⟨⟨qc, jb⟩, hj⟩ := u.exists_justify
  obtain ⟨c, hc, hor⟩ := hsafe (qc, jb) hj
  have hj' : s'.justifyBlock? b = some (qc, jb) := by
    rw [justifyBlock?_of_load hload]
    exact hj
  have hlock : s'.load s'.lockedQC.blockHash = some c := by
    rw [u.nextLock]
    exact hc
  refine ⟨⟨qc, jb, c, hj', hlock, ?_⟩, fun hvh => ⟨?_, qc, jb, c, hj', hlock, ?_⟩⟩
  · rcases hor with hlt | ⟨hlt, nblk, hw, heq⟩
    · exact Or.inl hlt
    · refine Or.inr ⟨(b.height - c.height).toNatClampNeg, nblk, ?_, ?_, heq⟩
      · have hpos := Int64.lt_iff_toInt_lt.1 hlt
        have hnat := Int64.toNat_toInt (b.height - c.height)
        rw [Int64.toInt_zero] at hpos
        omega
      · rw [parentWalk_congr hload]
        exact hw
  · obtain ⟨g, o, l, e, n, cc, w, k, x, hcc, hp, rfl⟩ := u.frame
    exact hvh
  · rcases hor with hlt | ⟨-, hext⟩
    · exact Or.inl hlt
    · exact Or.inr ((extends_of_load hload b c).2 hext)

/-! ### Steps -/

theorem SameEntries.load_body {s s' : Core} (e : SameEntries s s') {hash : Bytes} {b : Block}
    (h : s.load hash = some b) : ∃ b', s'.load hash = some b' ∧ b'.body = b.body := by
  obtain ⟨obj, ho⟩ := load_eq_some.1 h
  obtain ⟨-, -, hk | ⟨obj', signs, hk⟩⟩ := e
  · exact ⟨b, load_eq_some.2 ⟨obj, (hk _).trans ho⟩, rfl⟩
  · refine ⟨(writeSigns obj' signs ⟨obj, b⟩).block, load_eq_some.2 ⟨(writeSigns obj' signs ⟨obj, b⟩).obj, ?_⟩,
      body_writeSigns obj' signs ⟨obj, b⟩⟩
    have hf : s'.object? hash = (s.object? hash).map (writeSigns obj' signs) := hk _
    rw [hf, ho]
    rfl

private theorem SameEntries.parentWalk {s s' : Core} (e : SameEntries s s') {i : Nat} {b b' x : Block}
    (hb : b'.parentHash = b.parentHash) (h : s.parentWalk (i + 1) b = some x) :
    ∃ x', s'.parentWalk (i + 1) b' = some x' ∧ x'.body = x.body := by
  induction i generalizing b b' with
  | zero =>
    unfold Core.parentWalk at h ⊢
    obtain ⟨p, hp, hx⟩ := Option.bind_eq_some_iff.1 h
    obtain ⟨p', hp', hbody⟩ := e.load_body hp
    obtain rfl : p = x := Option.some.inj hx
    refine ⟨p', ?_, hbody⟩
    rw [hb, hp']
    rfl
  | succ i ih =>
    unfold Core.parentWalk at h ⊢
    obtain ⟨p, hp, hx⟩ := Option.bind_eq_some_iff.1 h
    obtain ⟨p', hp', hbody⟩ := e.load_body hp
    obtain ⟨x', hx', hxbody⟩ := ih (parentHash_body hbody) hx
    refine ⟨x', ?_, hxbody⟩
    rw [hb, hp', Option.bind_some]
    exact hx'

/-- Votes collected for blocks do not matter to the lock rule. -/
private theorem SameEntries.lockRule {s s' : Core} (e : SameEntries s s') (hl : s'.lockedQC = s.lockedQC) {b : Block}
    (hr : s.LockRule b) : s'.LockRule b := by
  obtain ⟨qc, jb, lockedb, hj, hlock, hor⟩ := hr
  obtain ⟨hqc, hjb⟩ := justifyBlock?_eq_some.1 hj
  obtain ⟨jb', hjb', hjbody⟩ := e.load_body hjb
  obtain ⟨lockedb', hlock', hlbody⟩ := e.load_body hlock
  refine ⟨qc, jb', lockedb', justifyBlock?_eq_some.2 ⟨hqc, hjb'⟩, ?_, ?_⟩
  · rw [hl]
    exact hlock'
  · rcases hor with hlt | ⟨i, nblk, hi, hw, heq⟩
    · left
      rw [height_body hjbody, height_body hlbody]
      exact hlt
    · right
      obtain ⟨i, rfl⟩ := Nat.exists_eq_succ_of_ne_zero (by omega : i ≠ 0)
      obtain ⟨nblk', hw', hnbody⟩ := e.parentWalk (rfl : b.parentHash = b.parentHash) hw
      refine ⟨i + 1, nblk', hi, hw', ?_⟩
      rw [body_selfQc_blockHash hnbody, body_selfQc_blockHash hlbody]
      exact heq

/-- What a call does to the votes of the replica, with the block it handles. -/
def VoteStep (s : Core) (b : Block) (s' : Core) : Prop :=
  (s'.votes = s.votes ∧ (s'.voteHeight = s.voteHeight ∨ s'.voteHeight = b.height)) ∨
  ∃ vote : Vote, vote.blockHash = b.selfQc.blockHash ∧ s'.votes = s.votes ++ [⟨b.height, vote⟩] ∧
    s'.voteHeight = b.height ∧ s'.LockRule b

theorem ProcessResult.voteStep {env : Env} {s s' : Core} {prop : Proposal} (p : ProcessResult env s prop s')
    (hvh : s.voteHeight < prop.block.height) (hsafe : s.LockSafe prop.block) : VoteStep s prop.block s' := by
  cases p with
  | updateError hu =>
    have u := update_result hu
    exact Or.inl ⟨u.votes.1, Or.inl u.votes.2⟩
  | checkError hu hv q =>
    have u := update_result hu
    exact absurd ((u.lockRule hsafe).2 hvh) hv
  | @signError vh s1 s2 hu hv q =>
    have u := update_result hu
    obtain ⟨c, w, k, y, hc, hp, rfl⟩ := q
    rcases hv with ⟨-, rfl⟩ | ⟨hno, -⟩
    · exact Or.inl ⟨u.votes.1, Or.inr rfl⟩
    · exact absurd ((u.lockRule hsafe).2 hvh) hno
  | @voted vh sig vote s1 s2 hu hv q hvote =>
    have u := update_result hu
    have hload := q.load
    obtain ⟨c, w, k, y, hc, hp, rfl⟩ := q
    obtain ⟨hrule, hmay⟩ := u.lockRule hsafe
    rcases hv with ⟨-, rfl⟩ | ⟨hno, -⟩
    · refine Or.inr ⟨vote, by rw [hvote], ?_, rfl, ?_⟩
      · exact congrArg (· ++ _) u.votes.1
      · refine lockRule_of_load (s := s1) ?_ ?_ hrule
        · exact hload
        · rfl
    · exact absurd (hmay hvh) hno

private theorem ProposeResult.voteStep {env : Env} {s s' : Core} {curView : Int64} {b : Block}
    (p : ProposeResult env s curView b s') (hsafe : s.LockSafe b) : VoteStep s b s' := by
  cases p with
  | updateError hu =>
    have u := update_result hu
    exact Or.inl ⟨u.votes.1, Or.inl u.votes.2⟩
  | signError hu =>
    have u := update_result hu
    exact Or.inl ⟨u.votes.1, Or.inr rfl⟩
  | @voted sig vote r s1 s3 _ hu hvote v hs' =>
    have u := update_result hu
    obtain ⟨hlocked, -, hheight, -, -, hvotes, -, -⟩ := v.frame
    have hrule : s3.LockRule b := by
      refine v.sameEntries.lockRule hlocked ?_
      refine lockRule_of_load (s := s1) ?_ ?_ (u.lockRule hsafe).1
      · exact fun _ => rfl
      · rfl
    have hvotes' : s3.votes = s.votes ++ [⟨b.height, vote⟩] := by
      rw [hvotes]
      exact congrArg (· ++ _) u.votes.1
    rcases hs' with rfl | rfl
    · exact Or.inr ⟨vote, by rw [hvote], hvotes', hheight, hrule⟩
    · refine Or.inr ⟨vote, by rw [hvote], hvotes', hheight, lockRule_of_load (s := s3) ?_ ?_ hrule⟩
      · exact fun _ => rfl
      · rfl

/-- A guarded call makes no vote and keeps or raises the vote height, or it makes one vote by the rule. -/
private theorem step_vote {env : Env} {s : Core} {op : CoreOp} (hg : s.VoteGuard env op) :
    ((s.step env op).votes = s.votes ∧ (s.step env op).voteHeight = s.voteHeight) ∨
    ∃ b, Handles env s op b ∧ s.voteHeight < b.height ∧ VoteStep s b (s.step env op) := by
  have hres := step_cases env s op
  generalize s.step env op = s' at hres
  cases hres with
  | quiet hop q => exact Or.inl ⟨q.votes, q.voteHeight⟩
  | @propose curView now parentHash cmds parent _ hl hh p =>
    exact Or.inr ⟨_, .propose hl, hh, p.voteStep (hg parent hl)⟩
  | store hw q => exact Or.inl ⟨q.votes, q.voteHeight⟩
  | @receive prop s1 _ x q hj p =>
    obtain ⟨hvh, hsafe⟩ := hg.of_quiet q hj
    obtain ⟨c, w, k, y, hc, hp, rfl⟩ := q
    exact Or.inr ⟨prop.block, .receive prop, hvh, p.voteStep hvh hsafe⟩
  | @resume i prop s1 _ x hi q hj p =>
    obtain ⟨hvh, hsafe⟩ := (hg prop hi).of_quiet q hj
    obtain ⟨c, w, k, y, hc, hp, rfl⟩ := q
    exact Or.inr ⟨prop.block, .resume hi, hvh, p.voteStep hvh hsafe⟩
  | vote v =>
    obtain ⟨-, -, hheight, -, -, hvotes, -, -⟩ := v.frame
    exact Or.inl ⟨hvotes, hheight⟩
  | newView => exact Or.inl ⟨rfl, rfl⟩
  | @adopt qc b _ hl q =>
    obtain ⟨g, o, n, heq⟩ := highQC_frame env s b qc none
    rw [heq] at q
    exact Or.inl ⟨q.votes, q.voteHeight⟩
  | sign => exact Or.inl ⟨rfl, rfl⟩

/-- The heights of the votes made increase and none exceeds the vote height. -/
def VotesOrdered (s : Core) : Prop :=
  s.votes.Pairwise (fun c d => c.height < d.height) ∧ ∀ c ∈ s.votes, c.height ≤ s.voteHeight

theorem VotesOrdered.step {env : Env} {s : Core} {op : CoreOp} (h : s.VotesOrdered) (hg : s.VoteGuard env op) :
    (s.step env op).VotesOrdered := by
  obtain ⟨hpair, hle⟩ := h
  unfold VotesOrdered
  rcases step_vote hg with ⟨hv, hh⟩ | ⟨b, -, hlt, ⟨hv, hh | hh⟩ | ⟨vote, -, hv, hh, -⟩⟩
  · rw [hv, hh]
    exact ⟨hpair, hle⟩
  · rw [hv, hh]
    exact ⟨hpair, hle⟩
  · rw [hv, hh]
    refine ⟨hpair, fun c hc => ?_⟩
    have := hle c hc
    lia
  · rw [hv, hh]
    constructor
    · rw [List.pairwise_append]
      refine ⟨hpair, List.pairwise_singleton _ _, fun c hc d hd => ?_⟩
      rw [List.mem_singleton.1 hd]
      have := hle c hc
      show c.height < b.height
      lia
    · intro c hc
      rcases List.mem_append.1 hc with hc | hc
      · have := hle c hc
        lia
      · rw [List.mem_singleton.1 hc]
        show b.height ≤ b.height
        lia

private theorem votesOrdered_run {env : Env} {ops : List CoreOp}
    (hg : StepsMeet (step env) (VoteGuard env) newHotStuffCore ops) :
    (run (step env) newHotStuffCore ops).VotesOrdered := by
  refine hg.invariant (fun _ _ h hg => h.step hg) ⟨List.Pairwise.nil, fun c hc => ?_⟩
  cases hc

end Core

/-- The vote rule, for runs in which the guards hold for every proposal that is processed.  A call makes no vote, or one
vote, for the block it handles: that block is higher than all blocks voted for before, and its justify block is higher
than the locked block or the locked block is an ancestor, in the state the call leaves.  Over the whole run the heights of
the votes are strictly increasing, so no two votes are for blocks of the same height. -/
theorem vote_rule (env : Env) (ops : List CoreOp) (op : CoreOp)
    (hguard : StepsMeet (Core.step env) (Core.VoteGuard env) newHotStuffCore (ops ++ [op])) :
    ((run (Core.step env) newHotStuffCore (ops ++ [op])).votes = (run (Core.step env) newHotStuffCore ops).votes ∨
      ∃ b vote, Core.Handles env (run (Core.step env) newHotStuffCore ops) op b ∧
        (run (Core.step env) newHotStuffCore (ops ++ [op])).votes =
          (run (Core.step env) newHotStuffCore ops).votes ++ [⟨b.height, vote⟩] ∧
        vote.blockHash = b.selfQc.blockHash ∧
        (∀ c ∈ (run (Core.step env) newHotStuffCore ops).votes, c.height < b.height) ∧
        (run (Core.step env) newHotStuffCore (ops ++ [op])).LockRule b) ∧
    (run (Core.step env) newHotStuffCore (ops ++ [op])).votes.Pairwise (fun c d => c.height < d.height) := by
  obtain ⟨hbefore, hlast, -⟩ := Lib.stepsMeet_append.1 hguard
  refine ⟨?_, (Core.votesOrdered_run hguard).1⟩
  obtain ⟨-, hle⟩ := Core.votesOrdered_run hbefore
  rw [Lib.run_append]
  rcases Core.step_vote hlast with ⟨hv, -⟩ | ⟨b, hb, hlt, ⟨hv, -⟩ | ⟨vote, hhash, hv, -, hrule⟩⟩
  · exact Or.inl hv
  · exact Or.inl hv
  · refine Or.inr ⟨b, vote, hb, hv, hhash, fun c hc => ?_, hrule⟩
    have := hle c hc
    lia

/-- Two proposals of one chain arrive, one after the other. -/
theorem vote_rule_server :
    (run (Core.step (Server.env 0)) newHotStuffCore
      ([.receive ⟨0, Server.chain 1⟩] ++ [.receive ⟨1, Server.chain 2⟩])).votes.Pairwise
        (fun c d => c.height < d.height) :=
  (vote_rule (Server.env 0) [.receive ⟨0, Server.chain 1⟩] (.receive ⟨1, Server.chain 2⟩) (by decide +kernel)).2

/-- Another block on the genesis block. -/
def Server.fork : Block := Server.child 0 genesis genesisQC [9]

/-- Two blocks of height `1` arrive, and the replica votes for both. -/
theorem vote_rule_unguarded :
    ∃ c d, (run (Core.step (Server.env 0)) newHotStuffCore
        [.receive ⟨0, Server.chain 1⟩, .receive ⟨0, Server.fork⟩]).votes = [c, d] ∧
      c.height = d.height ∧ c.vote.blockHash ≠ d.vote.blockHash := by
  refine ⟨⟨1, ⟨0, 0, (Server.chain 1).selfQc.blockHash, ⟨0, Server.sign 0 (Server.chain 1).selfQc.blockHash⟩⟩⟩,
    ⟨1, ⟨0, 0, Server.fork.selfQc.blockHash, ⟨0, Server.sign 0 Server.fork.selfQc.blockHash⟩⟩⟩, ?_, rfl, ?_⟩
  · decide +kernel
  · decide +kernel

end GoHotstuff
