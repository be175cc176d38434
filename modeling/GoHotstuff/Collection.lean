import Mathlib.Data.List.Count
import GoHotstuff.VoteCount
import GoHotstuff.NodeStep

/-!
# Concurrent votes for one block

`OnProposalVote` has one critical section for a vote that is counted and another one for a vote that is stashed; the
look-up of the block, the update of the highest certificate and the event lie outside them.  Here a call is cut at these
places, and a `Collection` interleaves any number of calls for one hash over a core in whose cache the block stays as one
object.  The other calls on the core are single moves; those that would evict the block or store it again do not happen.
Run alone, a call does what `onProposalVote` does (`run_call`).

The certificate only grows, and exactly one call, the one whose critical section brings it to a quorum, reports it
(`votes_collected`).
-/

namespace GoHotstuff

open Lib (Bytes run encodeToString)

/-! ### Calls on the core that leave the block where it is -/

namespace Core

private theorem SameEntries.object?_obj {s s' : Core} (e : SameEntries s s') (hash : Bytes) :
    (s'.object? hash).map Stored.obj = (s.object? hash).map Stored.obj := by
  obtain ⟨-, -, hk | ⟨obj, signs, hk⟩⟩ := e
  · exact congrArg (Option.map Stored.obj) (hk (encodeToString hash))
  · have ho : s'.object? hash = (s.object? hash).map (writeSigns obj signs) := hk (encodeToString hash)
    rw [ho, Option.map_map]
    exact congrArg (fun f => (s.object? hash).map f) (funext (obj_writeSigns obj signs))

section OneObject

variable {hash : Bytes} {env : Env} {s s' : Core} {b : Stored}

/-- A block that is stored is a new object, so it is stored under another hash. -/
private theorem StoreInv.ne_of_obj (hst : StoreInv s) (hb : s.object? hash = some b)
    (hobj : (s'.object? hash).map Stored.obj = some b.obj) {s1 : Core} {b' : Block} (q : Quiet s s1)
    (e : SameEntries (s1.storeBlock b') s') : b'.selfQc.blockHash ≠ hash := by
  rintro rfl
  rw [e.object?_obj, object?_storeBlock_self, Option.map_some, Option.some.injEq] at hobj
  have hobjects : s1.objects = s.objects := q.sameEntries.1
  have := hst.fresh _ _ hb
  dsimp only at hobj
  omega

private theorem step_deliveries_of_obj (hst : StoreInv s) (hb : s.object? hash = some b) {op : CoreOp}
    (hobj : ((s.step env op).object? hash).map Stored.obj = some b.obj) :
    (s.step env op).deliveries hash = s.deliveries hash := by
  unfold deliveries
  rcases step_entries env s op with e | ⟨b', s1, -, q, e⟩
  · rw [e.2.1]
  · have hne := hst.ne_of_obj hb hobj q e
    have hstored : (s.step env op).stored = s.stored ++ [b'] := by
      rw [e.2.1, ← q.sameEntries.2.1]
      rfl
    rw [hstored, List.countP_append, List.countP_singleton, if_neg (by simpa using hne)]
    rfl

private theorem step_object?_of_obj (hst : StoreInv s) (hb : s.object? hash = some b) {op : CoreOp}
    (hop : ∀ v, op = .vote v → v.blockHash ≠ hash) (hobj : ((s.step env op).object? hash).map Stored.obj = some b.obj) :
    (s.step env op).object? hash = some b := by
  obtain ⟨o, ho, -⟩ := Option.map_eq_some_iff.1 hobj
  have hold := (step_aside hst hop (step_deliveries_of_obj hst hb hobj)).1 o ho
  rw [ho, ← hold, hb]

end OneObject

/-- The event reports a certificate for `hash`. -/
def finishes (hash : Bytes) : Event → Bool
  | .qcFinish _ qc => qc.blockHash = hash
  | _ => false

private theorem Notifies.countP_finishes {hash : Bytes} {s s' : Core}
    (h : Notifies (fun e => finishes hash e = false) s s') :
    s'.notified.countP (finishes hash) = s.notified.countP (finishes hash) := by
  obtain ⟨es, heq, hes⟩ := h
  have hnone : es.countP (finishes hash) = 0 := List.countP_eq_zero.2 fun e he => by simp [hes e he]
  rw [heq, List.countP_append, hnone]
  rfl

private theorem inner_finishes (hash : Bytes) : Inner fun e => finishes hash e = false := ⟨fun _ => rfl, fun _ => rfl⟩

private theorem step_finishes_of_obj {hash : Bytes} {env : Env} {s : Core} {b : Stored} (hst : StoreInv s)
    (hb : s.object? hash = some b) {op : CoreOp} (hop : ∀ v, op = .vote v → v.blockHash ≠ hash)
    (hobj : ((s.step env op).object? hash).map Stored.obj = some b.obj) :
    (s.step env op).notified.countP (finishes hash) = s.notified.countP (finishes hash) := by
  refine (step_notifies_of (inner_finishes hash) ?_ (fun _ _ _ _ _ _ _ _ _ => rfl) (fun _ _ _ _ => rfl)
    fun _ _ => rfl).countP_finishes
  intro hash' o hc ho _ _
  have hkey : o.block.selfQc.blockHash = hash' :=
    (hst.step env op).selfQc_blockHash (load_eq_some.2 ⟨o.obj, ho⟩)
  have hne : hash' ≠ hash := by
    cases hc with
    | vote vote => exact hop vote rfl
    | propose h q e => exact hst.ne_of_obj hb hobj q e
  exact decide_eq_false (hkey ▸ hne)

end Core

/-! ### Calls and collections -/

/-- A vote for the block with the given hash. -/
structure VoteFor (hash : Bytes) extends Vote where
  blockHash_eq : blockHash = hash

/-- The place a call of `OnProposalVote` has come to, named by what it does next. -/
inductive VoteThread (hash : Bytes) where
  /-- the block is looked up -/
  | load (vote : VoteFor hash)
  /-- the block was not there, and the vote is stashed -/
  | stash (vote : VoteFor hash)
  /-- the block was there, and the vote is counted -/
  | count (vote : VoteFor hash)
  /-- the vote has completed the certificate, and `UpdateHighestQC` runs -/
  | update
  /-- the event is sent -/
  | report
  /-- the call has returned -/
  | done (result : Except CoreError Unit)

namespace VoteThread

variable {hash : Bytes}

/-- The vote of a call that has not yet counted or stashed it. -/
def vote? : VoteThread hash → Option Vote
  | .load vote | .stash vote | .count vote => some vote.toVote
  | _ => none

/-- The call will report the certificate. -/
def reports : VoteThread hash → Bool
  | .update | .report => true
  | _ => false

end VoteThread

/-- A core with a block that is in its cache under `hash`, and the calls of `OnProposalVote` for it. -/
structure Collection (hash : Bytes) where
  core : Core
  inv : core.StoreInv
  block : Stored
  here : core.object? hash = some block
  threads : List (VoteThread hash)

/-- What can happen next: a call begins or runs to its next place, or another call on the core is made. -/
inductive VoteMove (hash : Bytes) where
  | call (vote : VoteFor hash)
  | advance (i : Nat)
  | other (op : CoreOp) (h : ∀ vote, op = .vote vote → vote.blockHash ≠ hash)

namespace Collection

variable {hash : Bytes}

/-- `block.SelfQc.Signs` -/
def signs (m : Collection hash) : Signs := m.block.block.selfQc.signs

/-- The call has looked the block up. -/
def touch (m : Collection hash) : Collection hash :=
  { m with
    core := m.core.touch hash
    inv := (Core.quiet_touch m.core hash).storeInv m.inv
    here := ((Core.quiet_touch m.core hash).object? hash).trans m.here }

private theorem addVoteMsg_sameEntries (s : Core) (vote : Vote) : Core.SameEntries s (s.addVoteMsg vote) := by
  rw [Core.addVoteMsg_eq]
  exact ⟨rfl, rfl, Or.inl fun _ => rfl⟩

private theorem addVoteMsg_object? (s : Core) (vote : Vote) : (s.addVoteMsg vote).object? hash = s.object? hash := by
  rw [Core.addVoteMsg_eq]
  rfl

def addVoteMsg (m : Collection hash) (vote : VoteFor hash) : Collection hash :=
  { m with
    core := m.core.addVoteMsg vote.toVote
    inv := (addVoteMsg_sameEntries m.core vote.toVote).storeInv m.inv
    here := (addVoteMsg_object? m.core vote.toVote).trans m.here }

/-- The signatures with the vote and the stashed ones, and the core without these. -/
def merged (m : Collection hash) (vote : VoteFor hash) : Signs × Core :=
  m.core.applyVotes m.block.block.selfQc.blockHash (m.signs.insert vote.voter vote.cert)

private theorem selfQc_blockHash (m : Collection hash) : m.block.block.selfQc.blockHash = hash :=
  m.inv.selfQc_blockHash (Core.load_eq_some.2 ⟨m.block.obj, m.here⟩)

private theorem merged_eq (m : Collection hash) (vote : VoteFor hash) :
    m.merged vote = (Core.mergeVotes (m.signs.insert vote.voter vote.cert) (m.core.stashed hash),
      { m.core with voteSet := m.core.voteSet.erase (encodeToString hash) }) := by
  unfold merged
  rw [Core.applyVotes_eq, m.selfQc_blockHash]

/-- The vote is counted together with the stashed ones. -/
def collect (m : Collection hash) (vote : VoteFor hash) : Collection hash where
  core := (m.merged vote).2.setSigns m.block.obj (m.merged vote).1
  inv := by
    rw [merged_eq]
    refine Core.SameEntries.storeInv (s := m.core) ?_ m.inv
    exact ⟨rfl, rfl, Or.inr ⟨m.block.obj, _, fun _ => Cache.find?_mapValue _ _ _⟩⟩
  block := Core.writeSigns m.block.obj (m.merged vote).1 m.block
  here := by
    have hobj : (m.merged vote).2.object? hash = some m.block := by
      rw [merged_eq]
      exact m.here
    rw [Core.object?_setSigns, hobj]
    rfl
  threads := m.threads

private theorem block_collect (m : Collection hash) (vote : VoteFor hash) :
    (m.collect vote).block = ⟨m.block.obj, { m.block.block with
      selfQc := { m.block.block.selfQc with signs := (m.merged vote).1 } }⟩ := if_pos rfl

private theorem signs_collect (m : Collection hash) (vote : VoteFor hash) :
    (m.collect vote).signs =
      Core.mergeVotes (m.signs.insert vote.voter vote.cert) (m.core.stashed hash) := by
  unfold signs
  rw [block_collect, merged_eq]
  rfl

private theorem updateHighestQC_sameEntries (env : Env) (s : Core) (b : Block) (qc : QuorumCert) (obj : Option Nat) :
    Core.SameEntries s (s.updateHighestQC env b qc obj) := by
  obtain ⟨g, o, n, heq⟩ := Core.highQC_frame env s b qc obj
  have q := Core.quiet_updateHighestQC env s b qc obj
  rw [heq] at q
  refine Core.SameEntries.trans_quiet ?_ q
  exact ⟨rfl, rfl, Or.inl fun _ => rfl⟩

private theorem updateHighestQC_object? (env : Env) (s : Core) (b : Block) (qc : QuorumCert) (obj : Option Nat) :
    (s.updateHighestQC env b qc obj).object? hash = s.object? hash := by
  obtain ⟨g, o, n, heq⟩ := Core.highQC_frame env s b qc obj
  have q := Core.quiet_updateHighestQC env s b qc obj
  rw [heq] at q
  exact q.object? hash

def updateHighestQC (env : Env) (m : Collection hash) : Collection hash :=
  { m with
    core := m.core.updateHighestQC env m.block.block m.block.block.selfQc (some m.block.obj)
    inv := (updateHighestQC_sameEntries env m.core _ _ _).storeInv m.inv
    here := (updateHighestQC_object? env m.core _ _ _).trans m.here }

/-- The certificate is reported as it then is. -/
def notify (m : Collection hash) : Collection hash :=
  { m with
    core := m.core.notify (.qcFinish m.block.block.proposer m.block.block.selfQc)
    inv := m.inv.of_find? rfl rfl fun _ => rfl
    here := m.here }

/-- The call runs from its place to the next one; `count` is a critical section. -/
def advance (env : Env) (m : Collection hash) : VoteThread hash → VoteThread hash × Collection hash
  | .load vote =>
    match m.core.load hash with
    | none => (.stash vote, m.touch)
    | some _ => (.count vote, m.touch)
  | .stash vote => (.done (.ok ()), m.addVoteMsg vote)
  | .count vote =>
    if getQuorumSize env.replicas.metadata ≤ m.signs.keys.length then (.done (.ok ()), m)
    else if vote.voter ∈ m.signs then (.done (.error (.duplicateVote hash vote.voter)), m)
    else if ((m.collect vote).signs.keys.length : Int) < getQuorumSize env.replicas.metadata then
      (.done (.ok ()), m.collect vote)
    else (.update, m.collect vote)
  | .update => (.report, m.updateHighestQC env)
  | .report => (.done (.ok ()), m.notify)
  | .done result => (.done result, m)

def step (env : Env) (m : Collection hash) : VoteMove hash → Collection hash
  | .call vote => { m with threads := m.threads ++ [.load vote] }
  | .advance i =>
    match m.threads[i]? with
    | none => m
    | some t => { (m.advance env t).2 with threads := m.threads.set i (m.advance env t).1 }
  | .other op h =>
    -- the block stays in the cache as one object
    if hobj : ((m.core.step env op).object? hash).map Stored.obj = some m.block.obj then
      { m with
        core := m.core.step env op
        inv := m.inv.step env op
        here := Core.step_object?_of_obj m.inv m.here h hobj }
    else m

/-- What the critical section does, with the conditions it tests. -/
inductive CountResult (env : Env) (m : Collection hash) (vote : VoteFor hash) :
    VoteThread hash × Collection hash → Prop
  | full (hq : getQuorumSize env.replicas.metadata ≤ m.signs.keys.length) : CountResult env m vote (.done (.ok ()), m)
  | duplicate (hq : ¬ getQuorumSize env.replicas.metadata ≤ m.signs.keys.length) (hv : vote.voter ∈ m.signs) :
      CountResult env m vote (.done (.error (.duplicateVote hash vote.voter)), m)
  | counted (hq : ¬ getQuorumSize env.replicas.metadata ≤ m.signs.keys.length) (hv : vote.voter ∉ m.signs)
      (hlt : ((m.collect vote).signs.keys.length : Int) < getQuorumSize env.replicas.metadata) :
      CountResult env m vote (.done (.ok ()), m.collect vote)
  | finished (hq : ¬ getQuorumSize env.replicas.metadata ≤ m.signs.keys.length) (hv : vote.voter ∉ m.signs)
      (hlt : ¬ ((m.collect vote).signs.keys.length : Int) < getQuorumSize env.replicas.metadata) :
      CountResult env m vote (.update, m.collect vote)

private theorem advance_count (env : Env) (m : Collection hash) (vote : VoteFor hash) :
    CountResult env m vote (m.advance env (.count vote)) := by
  dsimp only [advance]
  split
  · exact .full ‹_›
  split
  · exact .duplicate ‹_› ‹_›
  split
  · exact .counted ‹_› ‹_› ‹_›
  · exact .finished ‹_› ‹_› ‹_›

private theorem advance_load (env : Env) (m : Collection hash) (vote : VoteFor hash) :
    m.advance env (.load vote) = (.count vote, m.touch) := by
  unfold advance
  rw [Core.load_eq_some.2 ⟨m.block.obj, m.here⟩]

/-! ### A call alone -/

/-- `k` places on, with nothing in between. -/
def alone (env : Env) (k : Nat) (t : VoteThread hash) (m : Collection hash) : VoteThread hash × Collection hash :=
  (fun x : VoteThread hash × Collection hash => x.2.advance env x.1)^[k] (t, m)

private theorem alone_succ (env : Env) (k : Nat) (t : VoteThread hash) (m : Collection hash) :
    alone env (k + 1) t m = alone env k (m.advance env t).1 (m.advance env t).2 := rfl

/-- Run alone, the call ends as `OnProposalVote` does, in the same state. -/
theorem run_call (env : Env) (m : Collection hash) (vote : VoteFor hash) :
    ((alone env 4 (.load vote) m).1, (alone env 4 (.load vote) m).2.core) =
      (.done (m.core.onProposalVote env vote.toVote).1, (m.core.onProposalVote env vote.toVote).2) := by
  obtain ⟨vote, rfl⟩ := vote
  have hmerged : (m.core.touch vote.blockHash).applyVotes m.block.block.selfQc.blockHash
      (m.block.block.selfQc.signs.insert vote.voter vote.cert) = m.touch.merged ⟨vote, rfl⟩ := rfl
  have hcount := advance_count env m.touch ⟨vote, rfl⟩
  rw [alone_succ, advance_load, alone_succ]
  generalize m.touch.advance env (.count ⟨vote, rfl⟩) = x at hcount ⊢
  unfold Core.onProposalVote
  rw [m.here]
  dsimp only
  cases hcount with
  | full hq =>
    rw [if_pos (show _ ≤ (m.block.block.selfQc.signs.keys.length : Int) from hq)]
    rfl
  | duplicate hq hv =>
    rw [if_neg (show ¬ _ ≤ (m.block.block.selfQc.signs.keys.length : Int) from hq),
      if_pos (show vote.voter ∈ m.block.block.selfQc.signs from hv)]
    rfl
  | counted hq hv hlt =>
    unfold signs at hlt
    rw [block_collect] at hlt
    rw [if_neg (show ¬ _ ≤ (m.block.block.selfQc.signs.keys.length : Int) from hq),
      if_neg (show vote.voter ∉ m.block.block.selfQc.signs from hv), hmerged, if_pos hlt]
    rfl
  | finished hq hv hlt =>
    unfold signs at hlt
    rw [block_collect] at hlt
    have hend : ∀ c : Collection vote.blockHash, (alone env 2 .update c).2.core =
        (c.core.updateHighestQC env c.block.block c.block.block.selfQc (some c.block.obj)).notify
          (.qcFinish c.block.block.proposer c.block.block.selfQc) := fun _ => rfl
    rw [if_neg (show ¬ _ ≤ (m.block.block.selfQc.signs.keys.length : Int) from hq),
      if_neg (show vote.voter ∉ m.block.block.selfQc.signs from hv), hmerged, if_neg hlt, hend, block_collect]
    rfl

/-! ### The certificate grows -/

private theorem lookup_mergeVotes {signs : Signs} {votes : List Vote} {voter : Int64} {cert : PartCert}
    (h : signs.lookup voter = some cert) : (Core.mergeVotes signs votes).lookup voter = some cert := by
  unfold Core.mergeVotes
  induction votes generalizing signs with
  | nil => exact h
  | cons v votes ih =>
    rw [List.foldl_cons]
    apply ih
    split
    · exact h
    · rename_i hv
      have hne : voter ≠ v.voter := by
        rintro rfl
        exact hv (AList.lookup_isSome.1 (h ▸ rfl))
      rw [AList.lookup_insert_ne hne]
      exact h

private theorem lookup_mergeVotes_cases {signs : Signs} {votes : List Vote} {voter : Int64} {cert : PartCert}
    (h : (Core.mergeVotes signs votes).lookup voter = some cert) :
    signs.lookup voter = some cert ∨ ∃ v ∈ votes, v.voter = voter ∧ v.cert = cert := by
  unfold Core.mergeVotes at h
  induction votes generalizing signs with
  | nil => exact Or.inl h
  | cons v votes ih =>
    rw [List.foldl_cons] at h
    rcases ih h with h | ⟨w, hw, hvoter, hcert⟩
    · split at h
      · exact Or.inl h
      by_cases hv : voter = v.voter
      · subst hv
        rw [AList.lookup_insert, Option.some.injEq] at h
        exact Or.inr ⟨v, List.mem_cons_self, rfl, h⟩
      · rw [AList.lookup_insert_ne hv] at h
        exact Or.inl h
    · exact Or.inr ⟨w, List.mem_cons_of_mem _ hw, hvoter, hcert⟩

private theorem collect_lookup {m : Collection hash} {vote : VoteFor hash} (hv : vote.voter ∉ m.signs) {voter : Int64}
    {cert : PartCert} (h : m.signs.lookup voter = some cert) :
    (m.collect vote).signs.lookup voter = some cert := by
  rw [signs_collect]
  refine lookup_mergeVotes ?_
  have hne : voter ≠ vote.voter := by
    rintro rfl
    exact hv (AList.lookup_isSome.1 (h ▸ rfl))
  rw [AList.lookup_insert_ne hne]
  exact h

private theorem advance_lookup (env : Env) {m : Collection hash} (t : VoteThread hash) {voter : Int64} {cert : PartCert}
    (h : m.signs.lookup voter = some cert) : (m.advance env t).2.signs.lookup voter = some cert := by
  cases t with
  | load vote =>
    rw [advance_load]
    exact h
  | count vote =>
    have hcount := advance_count env m vote
    generalize m.advance env (.count vote) = x at hcount ⊢
    cases hcount with
    | full hq => exact h
    | duplicate hq hv => exact h
    | counted hq hv hlt => exact collect_lookup hv h
    | finished hq hv hlt => exact collect_lookup hv h
  | stash vote => exact h
  | update => exact h
  | report => exact h
  | done result => exact h

/-- What a move can do. -/
inductive StepResult (env : Env) (m : Collection hash) : VoteMove hash → Collection hash → Prop
  | idle {mv : VoteMove hash} : StepResult env m mv m
  | call {vote : VoteFor hash} : StepResult env m (.call vote) { m with threads := m.threads ++ [.load vote] }
  | advance {i : Nat} {t : VoteThread hash} (hi : m.threads[i]? = some t) :
      StepResult env m (.advance i) { (m.advance env t).2 with threads := m.threads.set i (m.advance env t).1 }
  | other {op : CoreOp} {h : ∀ vote, op = .vote vote → vote.blockHash ≠ hash} {m' : Collection hash}
      (hobj : ((m.core.step env op).object? hash).map Stored.obj = some m.block.obj)
      (hcore : m'.core = m.core.step env op) (hblock : m'.block = m.block) (hthreads : m'.threads = m.threads) :
      StepResult env m (.other op h) m'

private theorem step_result (env : Env) (m : Collection hash) (mv : VoteMove hash) :
    StepResult env m mv (m.step env mv) := by
  cases mv with
  | call vote => exact .call
  | advance i =>
    dsimp only [step]
    split
    · exact .idle
    · exact .advance ‹_›
  | other op h =>
    dsimp only [step]
    split
    · exact .other ‹_› rfl rfl rfl
    · exact .idle

/-- The certificate recorded for a voter stays. -/
private theorem step_lookup (env : Env) {m : Collection hash} (mv : VoteMove hash) {voter : Int64} {cert : PartCert}
    (h : m.signs.lookup voter = some cert) : (m.step env mv).signs.lookup voter = some cert := by
  have hres := step_result env m mv
  generalize m.step env mv = m' at hres ⊢
  cases hres with
  | idle => exact h
  | call => exact h
  | advance hi => exact advance_lookup env _ h
  | other hobj hcore hblock hthreads =>
    unfold signs
    rw [hblock]
    exact h

private theorem run_lookup (env : Env) (moves : List (VoteMove hash)) {m : Collection hash} {voter : Int64}
    {cert : PartCert}
    (h : m.signs.lookup voter = some cert) : (run (step env) m moves).signs.lookup voter = some cert := by
  induction moves generalizing m with
  | nil => exact h
  | cons mv moves ih => exact ih (step_lookup env mv h)

/-! ### Where the signatures come from -/

/-- Every signature that is recorded, stashed or on its way satisfies `P`. -/
structure From (P : Int64 → PartCert → Prop) (m : Collection hash) : Prop where
  recorded : ∀ voter cert, m.signs.lookup voter = some cert → P voter cert
  stashed : ∀ v ∈ m.core.stashed hash, P v.voter v.cert
  thread : ∀ t ∈ m.threads, ∀ v, t.vote? = some v → P v.voter v.cert

private theorem stashed_addVoteMsg (s : Core) (vote : VoteFor hash) :
    (s.addVoteMsg vote.toVote).stashed hash = s.stashed hash ++ [vote.toVote] := by
  obtain ⟨vote, rfl⟩ := vote
  rw [Core.addVoteMsg_eq]
  unfold Core.stashed
  rw [AList.lookup_insert]
  rfl

private theorem stashed_collect (m : Collection hash) (vote : VoteFor hash) : (m.collect vote).core.stashed hash =
    [] := by
  have hvs : (m.collect vote).core.voteSet = (m.merged vote).2.voteSet := rfl
  unfold Core.stashed
  rw [hvs, merged_eq, AList.lookup_erase]
  rfl

private theorem From.collect {P : Int64 → PartCert → Prop} {m : Collection hash} (h : From P m) {vote : VoteFor hash}
    (hvote : P vote.voter vote.cert) : From P (m.collect vote) := by
  refine ⟨fun voter cert hl => ?_, fun v hv => ?_, h.thread⟩
  · rw [signs_collect] at hl
    rcases lookup_mergeVotes_cases hl with hl | ⟨v, hv, rfl, rfl⟩
    · by_cases hne : voter = vote.voter
      · subst hne
        rw [AList.lookup_insert, Option.some.injEq] at hl
        exact hl ▸ hvote
      · rw [AList.lookup_insert_ne hne] at hl
        exact h.recorded voter cert hl
    · exact h.stashed v hv
  · rw [stashed_collect] at hv
    cases hv

private theorem stashed_updateHighestQC (env : Env) (s : Core) (b : Block) (qc : QuorumCert) (obj : Option Nat) :
    (s.updateHighestQC env b qc obj).stashed hash = s.stashed hash :=
  ((Core.aside_highQC b qc obj).trans (Core.quiet_updateHighestQC env s b qc obj).aside).2

/-- The call brings only its own vote. -/
theorem From.advance {P : Int64 → PartCert → Prop} {m : Collection hash} (h : From P m) (env : Env)
    {t : VoteThread hash} (ht : ∀ v, t.vote? = some v → P v.voter v.cert) :
    From P (m.advance env t).2 ∧ ∀ v, (m.advance env t).1.vote? = some v → P v.voter v.cert := by
  cases t with
  | load vote =>
    rw [advance_load]
    exact ⟨⟨h.recorded, h.stashed, h.thread⟩, ht⟩
  | stash vote =>
    refine ⟨⟨h.recorded, fun v hv => ?_, h.thread⟩, nofun⟩
    have hv : v ∈ (m.core.addVoteMsg vote.toVote).stashed hash := hv
    rw [stashed_addVoteMsg, List.mem_append, List.mem_singleton] at hv
    rcases hv with hv | rfl
    · exact h.stashed v hv
    · exact ht _ rfl
  | count vote =>
    have hcount := advance_count env m vote
    generalize m.advance env (.count vote) = x at hcount ⊢
    cases hcount with
    | full hq => exact ⟨h, nofun⟩
    | duplicate hq hv => exact ⟨h, nofun⟩
    | counted hq hv hlt => exact ⟨h.collect (ht _ rfl), nofun⟩
    | finished hq hv hlt => exact ⟨h.collect (ht _ rfl), nofun⟩
  | update =>
    refine ⟨⟨h.recorded, fun v hv => ?_, h.thread⟩, nofun⟩
    have hv : v ∈ (m.core.updateHighestQC env _ _ _).stashed hash := hv
    rw [stashed_updateHighestQC] at hv
    exact h.stashed v hv
  | report => exact ⟨⟨h.recorded, h.stashed, h.thread⟩, nofun⟩
  | done result => exact ⟨h, nofun⟩

theorem From.step {P : Int64 → PartCert → Prop} {m : Collection hash} (h : From P m) (env : Env) {mv : VoteMove hash}
    (hcall : ∀ vote, mv = .call vote → P vote.voter vote.cert) : From P (m.step env mv) := by
  have hres := step_result env m mv
  generalize m.step env mv = m' at hres ⊢
  cases hres with
  | idle => exact h
  | @call vote =>
    refine ⟨h.recorded, h.stashed, fun t ht v hv => ?_⟩
    rcases List.mem_append.1 ht with ht | ht
    · exact h.thread t ht v hv
    · rw [List.mem_singleton] at ht
      subst ht
      obtain rfl := Option.some.inj hv
      exact hcall vote rfl
  | @advance i t hi =>
    obtain ⟨hadv, hthread⟩ := h.advance env (h.thread t (List.mem_of_getElem? hi))
    refine ⟨hadv.recorded, hadv.stashed, fun t' ht' => ?_⟩
    rcases List.mem_or_eq_of_mem_set ht' with ht' | rfl
    · exact h.thread t' ht'
    · exact hthread
  | @other op hop _ hobj hcore hblock hthreads =>
    refine ⟨?_, ?_, hthreads ▸ h.thread⟩
    · unfold signs
      rw [hblock]
      exact h.recorded
    · rw [hcore, (Core.step_aside m.inv hop (Core.step_deliveries_of_obj m.inv m.here hobj)).2]
      exact h.stashed

private theorem From.run {P : Int64 → PartCert → Prop} {m : Collection hash} (h : From P m) (env : Env)
    {moves : List (VoteMove hash)} (hcall : ∀ vote, .call vote ∈ moves → P vote.voter vote.cert) :
    From P (Lib.run (Collection.step env) m moves) := by
  induction moves generalizing m with
  | nil => exact h
  | cons mv moves ih =>
    refine ih (h.step env fun vote hmv => hcall vote ?_) fun vote hmem => hcall vote (List.mem_cons_of_mem _ hmem)
    rw [hmv]
    exact List.mem_cons_self

/-! ### The reports -/

/-- How often a certificate for the hash has been reported. -/
def reported (m : Collection hash) : Nat := m.core.notified.countP (Core.finishes hash)

/-- How many calls are on their way to report the certificate. -/
def reporting (m : Collection hash) : Nat := m.threads.countP VoteThread.reports

/-- Whether the certificate has a quorum. -/
def complete (env : Env) (m : Collection hash) : Bool := getQuorumSize env.replicas.metadata ≤ m.signs.keys.length

/-- A call that begins to report completes the certificate, and a call that has reported no longer reports. -/
private theorem advance_balance (env : Env) (m : Collection hash) (t : VoteThread hash) :
    (m.advance env t).2.reported + (m.advance env t).1.reports.toNat + (m.complete env).toNat =
      m.reported + t.reports.toNat + ((m.advance env t).2.complete env).toNat := by
  cases t with
  | load vote =>
    rw [advance_load]
    rfl
  | stash vote =>
    have hrep : (m.addVoteMsg vote).reported = m.reported := by
      unfold reported addVoteMsg
      simp only [Core.addVoteMsg_eq]
    show (m.addVoteMsg vote).reported + _ + _ = _
    rw [hrep]
    rfl
  | count vote =>
    have hcount := advance_count env m vote
    generalize m.advance env (.count vote) = x at hcount ⊢
    have hrep : (m.collect vote).reported = m.reported := by
      have hn : (m.collect vote).core.notified = (m.merged vote).2.notified := rfl
      unfold reported
      rw [hn, merged_eq]
    cases hcount with
    | full hq => rfl
    | duplicate hq hv => rfl
    | counted hq hv hlt =>
      have h : m.complete env = false := decide_eq_false hq
      have h' : (m.collect vote).complete env = false := decide_eq_false (by omega)
      dsimp only
      rw [hrep, h, h']
      rfl
    | finished hq hv hlt =>
      have h : m.complete env = false := decide_eq_false hq
      have h' : (m.collect vote).complete env = true := decide_eq_true (by omega)
      dsimp only
      rw [hrep, h, h']
      rfl
  | update =>
    have hn := (Core.highQC_notifies (Core.inner_finishes hash) env m.core m.block.block m.block.block.selfQc
      (some m.block.obj)).trans (Core.notifies_of_eq (Core.quiet_updateHighestQC env _ _ _ _).notified)
    have hrep : (m.updateHighestQC env).reported = m.reported := hn.countP_finishes
    show (m.updateHighestQC env).reported + _ + _ = _
    rw [hrep]
    rfl
  | report =>
    have hrep : m.notify.reported = m.reported + 1 := by
      have hfin : Core.finishes hash (.qcFinish m.block.block.proposer m.block.block.selfQc) = true :=
        decide_eq_true m.selfQc_blockHash
      show (m.core.notified ++ [_]).countP _ = _
      rw [List.countP_append, List.countP_singleton, if_pos hfin]
      rfl
    show m.notify.reported + 0 + _ = m.reported + 1 + _
    rw [hrep]
    rfl
  | done result => rfl

private theorem countP_set_balance {α : Type} (p : α → Bool) {l : List α} {i : Nat} {a : α} (h : l[i]? = some a)
    (b : α) :
    (l.set i b).countP p + (p a).toNat = l.countP p + (p b).toNat := by
  induction l generalizing i with
  | nil => cases h
  | cons x l ih =>
    cases i with
    | zero =>
      obtain rfl := Option.some.inj h
      rw [List.set_cons_zero, List.countP_cons, List.countP_cons]
      cases p b <;> cases p x <;> simp
    | succ i =>
      have hrest := ih (i := i) h
      rw [List.set_cons_succ, List.countP_cons, List.countP_cons]
      omega

private theorem step_balance (env : Env) (m : Collection hash) (mv : VoteMove hash) :
    (m.step env mv).reported + (m.step env mv).reporting + (m.complete env).toNat =
      m.reported + m.reporting + ((m.step env mv).complete env).toNat := by
  have hres := step_result env m mv
  generalize m.step env mv = m' at hres ⊢
  cases hres with
  | idle => rfl
  | @call vote =>
    have hrep : Collection.reporting { m with threads := m.threads ++ [.load vote] } = m.reporting := by
      unfold reporting
      rw [List.countP_append]
      rfl
    rw [hrep]
    rfl
  | @advance i t hi =>
    have hadv := advance_balance env m t
    have hset := countP_set_balance VoteThread.reports hi (m.advance env t).1
    show (m.advance env t).2.reported + (m.threads.set i (m.advance env t).1).countP VoteThread.reports + _ =
      m.reported + m.threads.countP VoteThread.reports + ((m.advance env t).2.complete env).toNat
    omega
  | @other op hop m' hobj hcore hblock hthreads =>
    have hrep : m'.reported = m.reported := by
      unfold reported
      rw [hcore]
      exact Core.step_finishes_of_obj m.inv m.here hop hobj
    unfold reporting complete signs
    rw [hrep, hblock, hthreads]

private theorem run_balance (env : Env) (m : Collection hash) (moves : List (VoteMove hash)) :
    (run (step env) m moves).reported + (run (step env) m moves).reporting + (m.complete env).toNat =
      m.reported + m.reporting + ((run (step env) m moves).complete env).toNat := by
  induction moves generalizing m with
  | nil => rfl
  | cons mv moves ih =>
    have hstep := step_balance env m mv
    have hrest := ih (m.step env mv)
    rw [Lib.run_cons]
    omega

end Collection

/-- The calls for one block, in any interleaving.  What is recorded for a voter stays; it was there before, or it is the
certificate of a vote that was delivered or stashed; and the certificate is reported by one call, once it has a
quorum. -/
theorem votes_collected {hash : Bytes} (env : Env) (m : Collection hash)
    (hfew : (m.signs.keys.length : Int) < getQuorumSize env.replicas.metadata)
    (hstart : ∀ t ∈ m.threads, t.reports = false) (moves later : List (VoteMove hash)) (m1 m2 : Collection hash)
    (h1 : m1 = run (Collection.step env) m moves) (h2 : m2 = run (Collection.step env) m1 later) :
    (∀ voter cert, m1.signs.lookup voter = some cert → m2.signs.lookup voter = some cert) ∧
    (∀ voter cert, m1.signs.lookup voter = some cert → m.signs.lookup voter = some cert ∨
      ∃ v : Vote, v.voter = voter ∧ v.cert = cert ∧ ((∃ w : VoteFor hash, w.toVote = v ∧ .call w ∈ moves) ∨
        v ∈ m.core.stashed hash ∨ ∃ t ∈ m.threads, t.vote? = some v)) ∧
    m1.reported + m1.reporting =
      m.reported + if getQuorumSize env.replicas.metadata ≤ m1.signs.keys.length then 1 else 0 := by
  subst h1 h2
  refine ⟨fun voter cert h => Collection.run_lookup env later h, ?_, ?_⟩
  · refine (Collection.From.run (m := m) ⟨fun voter cert h => Or.inl h, fun v hv => ?_, fun t ht v hv => ?_⟩ env
      fun vote hmem => ?_).recorded
    · exact Or.inr ⟨v, rfl, rfl, Or.inr (Or.inl hv)⟩
    · exact Or.inr ⟨v, rfl, rfl, Or.inr (Or.inr ⟨t, ht, hv⟩)⟩
    · exact Or.inr ⟨vote.toVote, rfl, rfl, Or.inl ⟨vote, rfl, hmem⟩⟩
  · have hbalance := Collection.run_balance env m moves
    have hnone : m.reporting = 0 := List.countP_eq_zero.2 fun t ht => by simp [hstart t ht]
    have hinit : m.complete env = false := decide_eq_false (by omega)
    rw [hnone, hinit] at hbalance
    refine hbalance.trans (congrArg (m.reported + ·) ?_)
    unfold Collection.complete
    split
    · rename_i hq
      rw [decide_eq_true hq]
      rfl
    · rename_i hq
      rw [decide_eq_false hq]
      rfl

namespace Server

/-- The first block has just arrived with one signature; the call with the vote of replica `2` came too early and is about
to stash it. -/
def collecting : Collection (carrying [0]).block.selfQc.blockHash where
  core := newHotStuffCore.storeBlock (carrying [0]).block
  inv := Core.storeInv_newHotStuffCore.storeBlock _
  block := ⟨newHotStuffCore.objects, (carrying [0]).block⟩
  here := Core.object?_storeBlock_self _ _
  threads := [.stash ⟨voteFrom 2, rfl⟩]

/-- The vote of `3` is counted together with the stashed one, which completes the certificate; the vote of `1`, whose call
has looked the block up before, comes too late. -/
def racing : List (VoteMove (carrying [0]).block.selfQc.blockHash) :=
  [.advance 0, .call ⟨voteFrom 3, rfl⟩, .call ⟨voteFrom 1, rfl⟩, .advance 1, .advance 2, .advance 1, .advance 2,
    .advance 1, .advance 1]

end Server

theorem votes_collected_server :
    (run (Collection.step (Server.env 1)) Server.collecting Server.racing).reported = 1 := by
  have h := (votes_collected (Server.env 1) Server.collecting (by decide +kernel)
    (fun t ht => by rw [List.mem_singleton.1 ht]; rfl) Server.racing [] _ _ rfl rfl).2.2
  have hreporting : (run (Collection.step (Server.env 1)) Server.collecting Server.racing).reporting = 0 := by
    decide +kernel
  have hinit : Server.collecting.reported = 0 := by decide +kernel
  rw [if_pos (by decide +kernel), hreporting, hinit] at h
  omega

end GoHotstuff
