import GoHotstuff.Execution

/-!
# Deliveries that wait for each other

`OnReceiveProposal` in smaller steps.  Every delivered proposal has a handler of its own, and the store, the broadcast,
the first look-up, the entry into `cond.Wait`, the second look-up and the rest of the handler are separate steps of it,
interleaved with those of the others.

The wait is not in a loop and the first look-up is not under the lock of `cond`.  A handler can therefore miss the
broadcast for its block and wait for ever (`wakeup_lost`), and any broadcast makes it look again and give up.  `Guard`
excludes both, and asks that handlers reach `update` in the order of the chain.  Then all handlers return without an
error and the order of delivery leaves no trace (`delivery_order_independent`).
-/

namespace GoHotstuff

open Lib (Bytes encodeToString run StepsMeet)

/-- Where the handler of a proposal is. -/
inductive Phase where
  /-- not delivered yet -/
  | idle
  /-- behind `StoreBlock` -/
  | stored
  /-- behind `cond.Broadcast` -/
  | broadcasted
  /-- the justify block was not there, the wait comes next -/
  | missing
  /-- in `cond.Wait` -/
  | waiting
  /-- released by a broadcast, the second look-up comes next -/
  | woken
  /-- the justify block has been found -/
  | ready
  | returned (o : Outcome)
deriving DecidableEq

def Phase.isReturned : Phase → Bool
  | .returned _ => true
  | _ => false

structure Deliveries where
  core : Core
  phase : Nat → Phase

namespace Deliveries

def start : Deliveries := ⟨newHotStuffCore, fun _ => .idle⟩

def setPhase (d : Deliveries) (k : Nat) (p : Phase) : Deliveries := { d with phase := Function.update d.phase k p }

/-- A look-up of the justify block, in `AsyncWaitBlock`; `absent` is what follows if it is not there. -/
def look (d : Deliveries) (k : Nat) (prop : Proposal) (absent : Bytes → Phase) : Deliveries :=
  match prop.block.justify with
  | none => { d with core := d.core.crash }.setPhase k (.returned .panic)
  | some qc =>
    match d.core.loadBlock qc.blockHash with
    | (some _, core) => { d with core := core }.setPhase k .ready
    | (none, core) => { d with core := core }.setPhase k (absent qc.blockHash)

/-- `cond.Broadcast()` -/
def broadcast (d : Deliveries) : Deliveries :=
  { d with phase := fun j => if d.phase j = Phase.waiting then .woken else d.phase j }

/-- The handler of proposal `k` takes its next step, if it is not waiting. -/
def step (env : Env) (props : Nat → Proposal) (d : Deliveries) (k : Nat) : Deliveries :=
  match d.phase k with
  | .idle => { d with core := d.core.storeBlock (props k).block }.setPhase k .stored
  | .stored => d.broadcast.setPhase k .broadcasted
  | .broadcasted => d.look k (props k) fun _ => .missing
  | .missing => d.setPhase k .waiting
  | .waiting => d
  | .woken => d.look k (props k) fun hash => .returned (.error (.expectedNotFound hash))
  | .ready =>
    let (o, core) := d.core.processProposal env (props k)
    { d with core := core }.setPhase k (.returned o)
  | .returned _ => d

/-- A handler that runs without interruption while none waits does what `onReceiveProposal` does. -/
theorem run_uninterrupted {env : Env} {props : Nat → Proposal} {d : Deliveries} {k : Nat} {qc : QuorumCert} {jb : Block}
    (hp : d.phase k = .idle) (hnone : ∀ j, d.phase j ≠ .waiting) (hcore : d.core.waiting = [] ∧ d.core.woken = [])
    (hj : (props k).block.justify = some qc)
    (hl : (d.core.storeBlock (props k).block).load qc.blockHash = some jb) :
    run (step env props) d [k, k, k, k] =
      { core := (d.core.onReceiveProposal env (props k)).2
        phase := Function.update d.phase k (.returned (d.core.onReceiveProposal env (props k)).1) } := by
  have hstored : step env props d k = setPhase { d with core := d.core.storeBlock (props k).block } k .stored := by
    unfold step
    rw [hp]
  have hbroadcast : step env props (setPhase { d with core := d.core.storeBlock (props k).block } k .stored) k =
      setPhase { d with core := d.core.storeBlock (props k).block } k .broadcasted := by
    unfold step broadcast setPhase
    simp only [Function.update_self]
    congr 1
    funext j
    by_cases hjk : j = k
    · subst hjk
      simp
    · simp [hjk, hnone j]
  have hcore' : (d.core.storeBlock (props k).block).broadcast = d.core.storeBlock (props k).block := by
    unfold Core.broadcast Core.storeBlock
    rw [hcore.1, hcore.2]
    rfl
  have hlook : step env props (setPhase { d with core := d.core.storeBlock (props k).block } k .broadcasted) k =
      setPhase { d with core := (d.core.storeBlock (props k).block).touch qc.blockHash } k .ready := by
    unfold step look Core.loadBlock setPhase
    simp only [Function.update_self, hj, hl, Function.update_idem]
  have hready : step env props
      (setPhase { d with core := (d.core.storeBlock (props k).block).touch qc.blockHash } k .ready) k =
      setPhase { d with core := (((d.core.storeBlock (props k).block).touch qc.blockHash).processProposal env (props k)).2 }
        k (.returned (((d.core.storeBlock (props k).block).touch qc.blockHash).processProposal env (props k)).1) := by
    unfold step setPhase
    simp only [Function.update_self, Function.update_idem]
  have hreceive : d.core.onReceiveProposal env (props k) =
      ((d.core.storeBlock (props k).block).touch qc.blockHash).processProposal env (props k) := by
    unfold Core.onReceiveProposal Core.loadBlock
    simp only [hcore', hj, hl]
  rw [Lib.run_cons, hstored, Lib.run_cons, hbroadcast, Lib.run_cons, hlook, Lib.run_cons, hready, Lib.run_nil, hreceive]
  rfl

/-- Each of the handlers `1` to `n` has been started and cannot take a step any more. -/
def Complete (n : Nat) (d : Deliveries) : Prop := ∀ k ≤ n, 1 ≤ k → d.phase k = .waiting ∨ (d.phase k).isReturned

instance (n : Nat) (d : Deliveries) : Decidable (Complete n d) :=
  inferInstanceAs (Decidable (∀ k ≤ n, 1 ≤ k → d.phase k = .waiting ∨ (d.phase k).isReturned))

def PhaseGuard (n : Nat) (props : Nat → Proposal) (d : Deliveries) (k : Nat) : Phase → Prop
  | .stored => ∀ j ≤ n, d.phase j = .waiting → (d.core.justifyBlock? (props j).block).isSome
  | .missing => d.core.justifyBlock? (props k).block = none
  | .ready => ∀ j < k, 1 ≤ j → (d.phase j).isReturned
  | _ => True

instance (n : Nat) (props : Nat → Proposal) (d : Deliveries) (k : Nat) : (p : Phase) → Decidable (PhaseGuard n props d k p)
  | .stored => inferInstanceAs (Decidable (∀ j ≤ n, d.phase j = .waiting → (d.core.justifyBlock? (props j).block).isSome))
  | .missing => inferInstanceAs (Decidable (d.core.justifyBlock? (props k).block = none))
  | .ready => inferInstanceAs (Decidable (∀ j < k, 1 ≤ j → (d.phase j).isReturned))
  | .idle | .broadcasted | .waiting | .woken | .returned _ => .isTrue trivial

/-- The step of handler `k` wakes nobody whose block is not there, does not begin to wait for a block that has arrived
meanwhile, and enters `update` only when the handlers of the blocks below have returned. -/
def Guard (n : Nat) (props : Nat → Proposal) (d : Deliveries) (k : Nat) : Prop :=
  (1 ≤ k ∧ k ≤ n) ∧ PhaseGuard n props d k (d.phase k)

instance (n : Nat) (props : Nat → Proposal) (d : Deliveries) (k : Nat) : Decidable (Guard n props d k) :=
  inferInstanceAs (Decidable ((1 ≤ k ∧ k ≤ n) ∧ PhaseGuard n props d k (d.phase k)))

end Deliveries

/-! ### The state after the first `m` blocks -/

private theorem HonestChain.toInt_height {chain : Nat → Block} {n k : Nat} (hc : HonestChain chain n) (hn : n < 30)
    (hk : k ≤ n) : (chain k).height.toInt = k := by
  induction k with
  | zero =>
    rw [hc.zero]
    rfl
  | succ k ih =>
    rw [hc.height k (by omega), Int64.toInt_add, ih (by omega), Int64.toInt_one, Int.bmod_eq_of_le (by omega) (by omega)]
    rfl

private theorem HonestChain.height_lt {chain : Nat → Block} {n j k : Nat} (hc : HonestChain chain n) (hn : n < 30)
    (hj : j ≤ n) (hk : k ≤ n) : (chain j).height < (chain k).height ↔ j < k := by
  rw [Int64.lt_iff_toInt_lt, hc.toInt_height hn hj, hc.toInt_height hn hk]
  omega

namespace Core

variable {chain : Nat → Block} {n : Nat}

/-- What a replica has come to once the blocks `1` to `m` of a chain have been processed in order. -/
structure Settled (chain : Nat → Block) (m : Nat) (s : Core) : Prop where
  generic : s.genericQC = if 2 ≤ m then (chain m).justifyQC else genesisQC
  locked : s.lockedQC = if 3 ≤ m then (chain (m - 1)).justifyQC else genesisQC
  exec : s.execQC = if 3 ≤ m then (chain (m - 2)).justifyQC else genesisQC
  voteHeight : s.voteHeight = (chain m).height
  decided : s.decided.map Block.body = (List.range (m - 3)).map fun k => (chain (k + 1)).body

/-- The certificates name the blocks one, two and three below the last one. -/
theorem Settled.blockHash {s : Core} {m : Nat} (hc : HonestChain chain n) (hm : m ≤ n) (h : Settled chain m s) :
    s.genericQC.blockHash = (chain (m - 1)).selfQc.blockHash ∧
      s.lockedQC.blockHash = (chain (m - 2)).selfQc.blockHash ∧
      s.execQC.blockHash = (chain (m - 3)).selfQc.blockHash := by
  have hgen : genesisQC.blockHash = (chain 0).selfQc.blockHash := by
    rw [hc.zero]
    rfl
  rw [h.generic, h.locked, h.exec]
  refine ⟨?_, ?_, ?_⟩
  · split
    · obtain ⟨k, rfl⟩ : ∃ k, m = k + 1 := ⟨m - 1, by omega⟩
      exact (hc.justifyQC (by omega)).2
    · rw [show m - 1 = 0 by omega]
      exact hgen
  · split
    · obtain ⟨k, rfl⟩ : ∃ k, m = k + 2 := ⟨m - 2, by omega⟩
      exact (hc.justifyQC (by omega : k < n)).2
    · rw [show m - 2 = 0 by omega]
      exact hgen
  · split
    · obtain ⟨k, rfl⟩ : ∃ k, m = k + 3 := ⟨m - 3, by omega⟩
      exact (hc.justifyQC (by omega : k < n)).2
    · rw [show m - 3 = 0 by omega]
      exact hgen

/-- The blocks `0` to `m` are cached. -/
def Cached (chain : Nat → Block) (m : Nat) (s : Core) : Prop := ∀ k ≤ m, (s.load (chain k).selfQc.blockHash).isSome

/-- The first two phases of `update` on the next block. -/
private theorem Settled.phases {env : Env} {s : Core} {m : Nat} (hc : HonestChain chain n) (hn : n < 30) (hm : m < n)
    (hv : 1 ≤ m → env.replicas.verifyQuorumCert (chain (m + 1)).justifyQC = true) (hs : ChainStore chain n s)
    (hcached : s.Cached chain m) (h : Settled chain m s) {b : Block} (hb : b.body = (chain (m + 1)).body)
    {r : Except CoreError Unit} {s' : Core} (u : UpdateResult env s b r s') :
    (s'.genericQC = if 2 ≤ m + 1 then (chain (m + 1)).justifyQC else genesisQC) ∧
      s'.lockedQC = if 3 ≤ m + 1 then (chain m).justifyQC else genesisQC := by
  obtain ⟨hgen, hlock, -⟩ := h.blockHash hc (by omega)
  obtain ⟨b2, h2, hb2⟩ := hs.justifyBlock? hc hm hb (hcached m (Nat.le_refl m))
  obtain ⟨hb, hhb⟩ := Option.isSome_iff_exists.1 (hcached (m - 1) (by omega))
  have hhbody := hs.load_body hc (by omega) hhb
  obtain ⟨lb, hlb⟩ := Option.isSome_iff_exists.1 (hcached (m - 2) (by omega))
  have hlbody := hs.load_body hc (by omega) hlb
  rw [← hgen] at hhb
  rw [← hlock] at hlb
  constructor
  · rw [(u.generic_eq h2).1]
    unfold highQC
    simp only [hhb, Option.mem_def, Option.some.injEq, exists_eq_left', height_body hhbody, height_body hb2,
      hc.height_lt hn (by omega : m - 1 ≤ n) (by omega : m ≤ n)]
    rcases Nat.eq_zero_or_pos m with rfl | hpos
    · rw [if_neg (by omega), if_neg (by omega), h.generic, if_neg (by omega)]
    · rw [if_pos ⟨hv hpos, by omega⟩, if_pos (by omega)]
  · rw [u.locked_eq h2]
    rcases Nat.eq_zero_or_pos m with rfl | hpos
    · have hnone : s.justifyBlock? b2 = none := justifyBlock?_genesis (hb2.trans (congrArg Block.body hc.zero))
      rw [hnone, if_neg (by omega)]
      simp only
      rw [h.locked, if_neg (by omega)]
    · obtain ⟨j, rfl⟩ : ∃ j, m = j + 1 := ⟨m - 1, by omega⟩
      obtain ⟨b1, h1, hb1⟩ := hs.justifyBlock? hc (by omega) hb2 (hcached j (by omega))
      rw [h1]
      simp only
      unfold lockQC
      simp only [hlb, Option.mem_def, Option.some.injEq, exists_eq_left', height_body hlbody, height_body hb1,
        hc.height_lt hn (by omega : j + 1 - 2 ≤ n) (by omega : j ≤ n)]
      rcases Nat.eq_zero_or_pos j with rfl | hpos'
      · rw [if_neg (by omega), if_neg (by omega), h.locked, if_neg (by omega)]
      · rw [if_pos (by omega), if_pos (by omega)]

/-- After `update` the guards of the vote hold for the next block. -/
private theorem ChainStore.mayVote {s : Core} {m : Nat} (hc : HonestChain chain n) (hn : n < 30) (hm : m < n)
    (hs : ChainStore chain n s) (hcached : s.Cached chain m) {b : Block} (hb : b.body = (chain (m + 1)).body)
    (hlock : s.lockedQC.blockHash = (chain (m - 1)).selfQc.blockHash) (hvh : s.voteHeight = (chain m).height) :
    s.MayVote b := by
  obtain ⟨jb, hj, hjbody⟩ := hs.justifyBlock? hc hm hb (hcached m (Nat.le_refl m))
  obtain ⟨lb, hlb⟩ := Option.isSome_iff_exists.1 (hcached (m - 1) (by omega))
  have hlbody := hs.load_body hc (by omega) hlb
  rw [← hlock] at hlb
  refine ⟨?_, _, jb, lb, hj, hlb, ?_⟩
  · rw [hvh, height_body hb, hc.height_lt hn (by omega) (by omega)]
    omega
  rcases Nat.eq_zero_or_pos m with rfl | hpos
  · -- the first block extends the genesis block
    right
    have hone : (b.height - lb.height).toNatClampNeg = 1 := by
      have hdiff : b.height - lb.height = 1 := by
        rw [height_body hb, height_body hlbody, hc.height 0 hm]
        lia
      rw [hdiff]
      rfl
    refine ⟨lb, ?_, rfl⟩
    rw [hone]
    show (s.load b.parentHash).bind _ = some lb
    rw [parentHash_body hb, hc.parent 0 hm, ← hlock, hlb]
    rfl
  · left
    rw [height_body hlbody, height_body hjbody, hc.height_lt hn (by omega) (by omega)]
    omega

/-- The handler of a proposal, from the point where the justify block has been found, when the guards of the vote hold and
the signer signs. -/
private theorem processProposal_ok {env : Env} {s s1 : Core} {prop : Proposal}
    (hu : s.update env prop.block = (.ok (), s1))
    (hv : s1.MayVote prop.block) (hsign : ∀ i data, ∃ sig, env.sign i data = .ok sig) :
    (s.processProposal env prop).1 = .ok ∧ (s.processProposal env prop).2.voteHeight = prop.block.height ∧
      (s.processProposal env prop).2.genericQC = s1.genericQC := by
  unfold processProposal
  rw [hu]
  simp only
  have hcheck := checkVote_cases s1 prop.block
  generalize s1.checkVote prop.block = r at hcheck
  obtain ⟨r, s2⟩ := r
  rcases hcheck with ⟨e, -, -, hno⟩ | ⟨-, -, hno⟩ | ⟨hr, q, -⟩
  · exact absurd hv hno
  · exact absurd hv hno
  obtain rfl : r = .ok () := hr
  obtain ⟨c, w, k, x, hc, hp, rfl⟩ := q
  simp only
  unfold voteProposal createPartCert
  obtain ⟨sig, hsig⟩ := hsign s1.signLog.length prop.block.selfQc.blockHash
  have hlog : (s1.setVoteHeight prop.block.height).signLog = s1.signLog := rfl
  simp only [hlog, hsig]
  exact ⟨trivial, rfl, rfl⟩

private theorem SameEntries.chainStore {s s' : Core} (e : SameEntries s s') (h : ChainStore chain n s) :
    ChainStore chain n s' := by
  refine ⟨e.storeInv h.toStoreInv, ?_⟩
  rw [e.2.1]
  exact h.blocks

/-- The handler of the next block returns without an error and moves everything on by one block. -/
private theorem Settled.process {env : Env} {s : Core} {m : Nat} (hc : HonestChain chain n) (hn : n < 30) (hm : m < n)
    (hv : 1 ≤ m → env.replicas.verifyQuorumCert (chain (m + 1)).justifyQC = true)
    (hsign : ∀ i data, ∃ sig, env.sign i data = .ok sig) (hs : ChainStore chain n s) (hcached : s.Cached chain m)
    (h : Settled chain m s) {prop : Proposal} (hb : prop.block.body = (chain (m + 1)).body) :
    (s.processProposal env prop).1 = .ok ∧ Settled chain (m + 1) (s.processProposal env prop).2 ∧
      SameEntries s (s.processProposal env prop).2 := by
  have u := update_cases env s prop.block
  obtain ⟨hgeneric, hlocked⟩ := h.phases hc hn hm hv hs hcached hb u
  obtain ⟨hexec, hdecided, hok⟩ := u.exec_chain hc hs hm hb (fun k hk _ => hcached k hk) (h.blockHash hc (by omega)).2.2
  have p := processProposal_cases env s prop
  obtain ⟨hplock, hpexec, hpdec⟩ := p.update
  generalize hs1 : s.update env prop.block = r at u hgeneric hlocked hexec hdecided hok hplock hpexec hpdec
  obtain ⟨r, s1⟩ := r
  obtain rfl : r = .ok () := hok
  have hentries : SameEntries s s1 := by
    obtain ⟨ho, hst, hk⟩ := u.quiet_store
    exact ⟨ho, hst, Or.inl hk⟩
  have hlockhash : s1.lockedQC.blockHash = (chain (m - 1)).selfQc.blockHash := by
    have hlq : s1.lockedQC = _ := hlocked
    rw [hlq]
    split
    · obtain ⟨k, rfl⟩ : ∃ k, m = k + 1 := ⟨m - 1, by omega⟩
      exact (hc.justifyQC (by omega)).2
    · rw [show m - 1 = 0 by omega, hc.zero]
      rfl
  have hmay : s1.MayVote prop.block := by
    refine (hentries.chainStore hs).mayVote hc hn hm (fun k hk => ?_) hb hlockhash ?_
    · rw [hentries.isSome_load]
      exact hcached k hk
    · rw [u.votes.2, h.voteHeight]
  obtain ⟨hout, hheight, hgen⟩ := processProposal_ok hs1 hmay hsign
  refine ⟨hout, ⟨?_, ?_, ?_, ?_, ?_⟩, p.sameEntries⟩
  · rw [hgen]
    exact hgeneric
  · rw [hplock]
    exact hlocked
  · rw [hpexec, hexec, h.exec]
    rcases Nat.lt_or_ge m 2 with hlt | hge
    · rw [if_neg (by omega), if_neg (by omega), if_neg (by omega)]
    · rw [if_pos (by omega), if_pos (by omega)]
      rfl
  · rw [hheight, height_body hb]
  · rw [hpdec, hdecided, h.decided]
    rcases Nat.lt_or_ge m 3 with hlt | hge
    · rw [if_neg (by omega), List.append_nil, show m + 1 - 3 = m - 3 by omega]
    · obtain ⟨k, rfl⟩ : ∃ k, m = k + 3 := ⟨m - 3, by omega⟩
      rw [if_pos (by omega), show k + 3 + 1 - 3 = k + 1 by omega, show k + 3 - 3 = k by omega, List.range_succ,
        List.map_append]
      rfl

/-- While there is room, a block that is stored displaces no other. -/
private theorem ChainStore.load_storeBlock {s : Core} (hc : HonestChain chain n) (hn : n < 30)
    (hs : ChainStore chain n s)
    {j k : Nat} (hj : j ≤ n) (hk : k ≤ n) (hjk : j ≠ k) (hfree : s.load (chain k).selfQc.blockHash = none) {b : Block}
    (hb : b.selfQc.blockHash = (chain k).selfQc.blockHash) :
    (s.storeBlock b).load (chain j).selfQc.blockHash = s.load (chain j).selfQc.blockHash := by
  have hkeys : ∀ key o, s.blockCache.find? key = some o →
      key ∈ (((List.range (n + 1)).erase k).map fun i => encodeToString (chain i).selfQc.blockHash) := by
    intro key o hf
    obtain ⟨b₀, hb₀, hbody⟩ := hs.mem key o hf
    obtain ⟨i, hi, hbi⟩ := hs.blocks b₀ hb₀
    have hkey : key = encodeToString (chain i).selfQc.blockHash := by
      rw [hs.key key o hf, ← body_selfQc_blockHash hbody, body_selfQc_blockHash hbi]
    have hik : i ≠ k := by
      intro hik
      rw [hkey, hik] at hf
      have hload : s.load (chain k).selfQc.blockHash = some o.block := load_eq_some.2 ⟨o.obj, hf⟩
      rw [hfree] at hload
      cases hload
    rw [hkey]
    refine List.mem_map.2 ⟨i, ?_, rfl⟩
    rw [List.mem_erase_of_ne hik, List.mem_range]
    omega
  have hlen : ((((List.range (n + 1)).erase k).map fun i => encodeToString (chain i).selfQc.blockHash).length : Int) < 30 := by
    rw [List.length_map, List.length_erase_of_mem (List.mem_range.2 (by omega)), List.length_range]
    omega
  have hne : encodeToString (chain j).selfQc.blockHash ≠ encodeToString b.selfQc.blockHash := by
    rw [Ne, Lib.encodeToString_inj, hb]
    exact fun heq => hjk (hc.inj j hj k hk heq)
  exact congrArg (Option.map fun o => o.block) (Cache.find?_put_retained hne hkeys hlen)

end Core

/-! ### Runs of the handlers -/

namespace Deliveries

variable {chain : Nat → Block} {n : Nat}

@[simp]
theorem phase_setPhase (d : Deliveries) (k : Nat) (p : Phase) (j : Nat) :
    (d.setPhase k p).phase j = if j = k then p else d.phase j := Function.update_apply _ _ _ _

@[simp]
theorem core_setPhase (d : Deliveries) (k : Nat) (p : Phase) : (d.setPhase k p).core = d.core := rfl

/-- The handlers of the blocks `1` to `m` have returned.  A handler that waits does so for a block whose own handler has
not yet made its broadcast; a handler that has been woken finds its block. -/
structure Inv (chain : Nat → Block) (n m : Nat) (d : Deliveries) : Prop where
  store : Core.ChainStore chain n d.core
  cached : ∀ k ≤ n, (d.core.load (chain k).selfQc.blockHash).isSome ↔ k = 0 ∨ d.phase k ≠ .idle
  settled : Core.Settled chain m d.core
  le : m ≤ n
  done : ∀ k, 1 ≤ k → k ≤ m → d.phase k = .returned .ok
  todo : ∀ k, m < k → ∀ o, d.phase k ≠ .returned o
  waits : ∀ k < n, d.phase (k + 1) = .waiting → k ≠ 0 ∧ (d.phase k = .idle ∨ d.phase k = .stored)
  finds : ∀ k < n, d.phase (k + 1) = .woken ∨ d.phase (k + 1) = .ready → k = 0 ∨ d.phase k ≠ .idle

private theorem inv_start (hc : HonestChain chain n) : Inv chain n 0 start := by
  have hzero : (chain 0).selfQc.blockHash = genesisHash := by
    rw [hc.zero]
    rfl
  have hstore := (Core.chainInv_newHotStuffCore hc).toChainStore
  refine ⟨hstore, ?_, ⟨rfl, rfl, rfl, ?_, rfl⟩, Nat.zero_le n, ?_, ?_, ?_, ?_⟩
  · intro k hk
    constructor
    · intro hsome
      left
      obtain ⟨b, hb⟩ := Option.isSome_iff_exists.1 hsome
      have hgen : b = genesis := by
        rcases Core.load_storeBlock hb with ⟨-, heq⟩ | ⟨-, hl⟩
        · exact heq
        · cases hl
      have hbody := hstore.load_body hc hk hb
      rw [hgen] at hbody
      refine hc.inj k hk 0 (Nat.zero_le n) ?_
      rw [← body_selfQc_blockHash hbody, hzero]
      rfl
    · intro hor
      rcases hor with rfl | hne
      · rw [hzero]
        rfl
      · exact absurd rfl hne
  · rw [hc.zero]
    rfl
  · intro k h1 h0
    omega
  · intro k hk o h
    cases h
  · intro k hk h
    cases h
  · intro k hk h
    rcases h with h | h
    · cases h
    · cases h

/-- A handler that has made its broadcast and has not returned moves to another such phase. -/
private theorem Inv.move {m : Nat} {d : Deliveries} (h : Inv chain n m d) {k : Nat} {p : Phase} {core : Core}
    (q : Core.Quiet d.core core) (hold : d.phase k ≠ .idle ∧ d.phase k ≠ .stored) (hk : m < k) (hidle : p ≠ .idle)
    (hret : ∀ o, p ≠ .returned o) (hwait : p = .waiting → ∀ j, k = j + 1 → j ≠ 0 ∧ (d.phase j = .idle ∨ d.phase j = .stored))
    (hfind : p = .woken ∨ p = .ready → ∀ j, k = j + 1 → j = 0 ∨ d.phase j ≠ .idle) :
    Inv chain n m (setPhase { d with core := core } k p) := by
  refine ⟨q.sameEntries.chainStore h.store, ?_, ?_, h.le, ?_, ?_, ?_, ?_⟩
  · intro j hj
    rw [core_setPhase, q.sameEntries.isSome_load, h.cached j hj, phase_setPhase]
    by_cases hjk : j = k
    · subst hjk
      simp [hold.1, hidle]
    · simp [hjk]
  · obtain ⟨c, w, kk, x, hcc, hp, rfl⟩ := q
    exact ⟨h.settled.generic, h.settled.locked, h.settled.exec, h.settled.voteHeight, h.settled.decided⟩
  · intro j h1 hjm
    rw [phase_setPhase, if_neg (by omega)]
    exact h.done j h1 hjm
  · intro j hj o
    rw [phase_setPhase]
    split
    · exact hret o
    · exact h.todo j hj o
  · intro j hj hw
    rw [phase_setPhase] at hw
    have hjk : j ≠ k → d.phase j = (setPhase { d with core := core } k p).phase j := by
      intro hne
      rw [phase_setPhase, if_neg hne]
    by_cases heq : j + 1 = k
    · rw [if_pos heq] at hw
      rw [← hjk (by omega)]
      exact hwait hw j heq.symm
    · rw [if_neg heq] at hw
      have hprev := h.waits j hj hw
      by_cases hjk' : j = k
      · -- the handler of the block below has made its broadcast already
        subst hjk'
        rcases hprev.2 with hp | hp
        · exact absurd hp hold.1
        · exact absurd hp hold.2
      · rw [← hjk hjk']
        exact hprev
  · intro j hj hf
    rw [phase_setPhase] at hf
    by_cases heq : j + 1 = k
    · rw [if_pos heq] at hf
      rw [phase_setPhase, if_neg (by omega)]
      exact hfind hf j heq.symm
    · rw [if_neg heq] at hf
      rw [phase_setPhase]
      by_cases hjk' : j = k
      · rw [if_pos hjk']
        exact Or.inr hidle
      · rw [if_neg hjk']
        exact h.finds j hj hf

private theorem Inv.lt_of_open {m : Nat} {d : Deliveries} (h : Inv chain n m d) {k : Nat} (h1 : 1 ≤ k)
    (hp : ∀ o, d.phase k ≠ .returned o) : m < k := by
  by_contra hle
  exact hp .ok (h.done k h1 (by omega))

/-- The look-up of the justify block of block `k + 1`. -/
private theorem Inv.justifyBlock? {m : Nat} {d : Deliveries} (hc : HonestChain chain n) (h : Inv chain n m d) {k : Nat}
    (hk : k < n) : (d.core.justifyBlock? (chain (k + 1))).isSome ↔ k = 0 ∨ d.phase k ≠ .idle := by
  rw [← h.cached k (by omega)]
  obtain ⟨hqc, hhash⟩ := hc.justifyQC hk
  unfold Core.justifyBlock?
  rw [hqc, Option.bind_some, Option.isSome_map, hhash]

private theorem Inv.store_step {m : Nat} {d : Deliveries} (hc : HonestChain chain n) (hn : n < 30) (h : Inv chain n m d)
    {k : Nat} (h1 : 1 ≤ k) (hk : k ≤ n) (hp : d.phase k = .idle) :
    Inv chain n m (setPhase { d with core := d.core.storeBlock (chain k) } k .stored) := by
  have hmk := h.lt_of_open h1 (fun o => by rw [hp]; exact fun he => by cases he)
  have hfree : d.core.load (chain k).selfQc.blockHash = none := by
    have hnot := (h.cached k hk).not.2 (fun hor => hor.elim (by omega) (fun hne => hne hp))
    simpa using hnot
  refine ⟨⟨h.store.toStoreInv.storeBlock _, ?_⟩, ?_, ?_, h.le, ?_, ?_, ?_, ?_⟩
  · intro b hb
    rcases List.mem_append.1 hb with hb | hb
    · exact h.store.blocks b hb
    · rw [List.mem_singleton.1 hb]
      exact ⟨k, hk, rfl⟩
  · intro j hj
    rw [core_setPhase, phase_setPhase]
    by_cases hjk : j = k
    · subst hjk
      simp only [Core.load_storeBlock_self, if_true, Option.isSome_some, true_iff]
      exact Or.inr (fun he => by cases he)
    · simp only [h.store.load_storeBlock hc hn hj hk hjk hfree rfl, if_neg hjk]
      exact h.cached j hj
  · exact ⟨h.settled.generic, h.settled.locked, h.settled.exec, h.settled.voteHeight, h.settled.decided⟩
  · intro j hj1 hjm
    rw [phase_setPhase, if_neg (by omega)]
    exact h.done j hj1 hjm
  · intro j hj o
    rw [phase_setPhase]
    split
    · exact fun he => by cases he
    · exact h.todo j hj o
  · intro j hj hw
    rw [phase_setPhase] at hw
    split at hw
    · cases hw
    · obtain ⟨hne, hor⟩ := h.waits j hj hw
      refine ⟨hne, ?_⟩
      rw [phase_setPhase]
      split
      · exact Or.inr rfl
      · exact hor
  · intro j hj hf
    rw [phase_setPhase] at hf
    split at hf
    · rcases hf with hf | hf
      · cases hf
      · cases hf
    · rw [phase_setPhase]
      split
      · exact Or.inr (fun he => by cases he)
      · exact h.finds j hj hf

private theorem phase_broadcast (d : Deliveries) (j : Nat) :
    d.broadcast.phase j = if d.phase j = Phase.waiting then .woken else d.phase j := rfl

private theorem Inv.broadcast_step {m : Nat} {d : Deliveries} (hc : HonestChain chain n) (h : Inv chain n m d) {k : Nat}
    (h1 : 1 ≤ k) (hp : d.phase k = .stored)
    (hg : ∀ j ≤ n, d.phase j = .waiting → (d.core.justifyBlock? (chain j)).isSome) :
    Inv chain n m (d.broadcast.setPhase k .broadcasted) := by
  have hmk := h.lt_of_open h1 (fun o => by rw [hp]; exact fun he => by cases he)
  -- a handler is idle, or has returned, exactly if it was or had before
  have hidle : ∀ j, (d.broadcast.setPhase k .broadcasted).phase j = .idle ↔ d.phase j = .idle := by
    intro j
    rw [phase_setPhase, phase_broadcast]
    by_cases hjk : j = k
    · subst hjk
      simp [hp]
    · by_cases hw : d.phase j = .waiting
      · simp [hjk, hw]
      · simp [hjk, hw]
  have hret : ∀ j o, (d.broadcast.setPhase k .broadcasted).phase j = .returned o ↔ d.phase j = .returned o := by
    intro j o
    rw [phase_setPhase, phase_broadcast]
    by_cases hjk : j = k
    · subst hjk
      simp [hp]
    · by_cases hw : d.phase j = .waiting
      · simp [hjk, hw]
      · simp [hjk, hw]
  refine ⟨h.store, ?_, h.settled, h.le, ?_, ?_, ?_, ?_⟩
  · intro j hj
    rw [Ne, hidle]
    exact h.cached j hj
  · intro j hj1 hjm
    rw [hret]
    exact h.done j hj1 hjm
  · intro j hj o
    rw [Ne, hret]
    exact h.todo j hj o
  · intro j hj hw
    rw [phase_setPhase, phase_broadcast] at hw
    split at hw
    · cases hw
    · split at hw
      · cases hw
      · exact absurd hw (by assumption)
  · intro j hj hf
    rw [Ne, hidle]
    rw [phase_setPhase, phase_broadcast] at hf
    split at hf
    · rcases hf with hf | hf
      · cases hf
      · cases hf
    · by_cases hw : d.phase (j + 1) = .waiting
      · exact (h.justifyBlock? hc hj).1 (hg (j + 1) hj hw)
      · rw [if_neg hw] at hf
        exact h.finds j hj hf

/-- A look-up in `AsyncWaitBlock`, of the justify block of block `k + 1`. -/
private theorem look_cases {m : Nat} {d : Deliveries} (hc : HonestChain chain n) (h : Inv chain n m d) {k : Nat}
    (hk : k < n) (prop : Proposal) (hprop : prop.block = chain (k + 1)) (absent : Bytes → Phase) :
    ∃ core hash, Core.Quiet d.core core ∧
      (((k = 0 ∨ d.phase k ≠ .idle) ∧ d.look (k + 1) prop absent = setPhase { d with core := core } (k + 1) .ready) ∨
        (¬ (k = 0 ∨ d.phase k ≠ .idle) ∧
          d.look (k + 1) prop absent = setPhase { d with core := core } (k + 1) (absent hash))) := by
  obtain ⟨hqc, hhash⟩ := hc.justifyQC hk
  refine ⟨d.core.touch (chain (k + 1)).justifyQC.blockHash, (chain (k + 1)).justifyQC.blockHash, Core.quiet_touch _ _, ?_⟩
  have hcached := h.cached k (by omega)
  rw [← hhash] at hcached
  unfold look Core.loadBlock
  rw [hprop, hqc]
  simp only
  cases hl : d.core.load (chain (k + 1)).justifyQC.blockHash with
  | none =>
    rw [hl] at hcached
    exact Or.inr ⟨fun hor => Bool.false_ne_true (hcached.2 hor), rfl⟩
  | some b =>
    rw [hl] at hcached
    exact Or.inl ⟨hcached.1 rfl, rfl⟩

private theorem Inv.process_step {env : Env} {m : Nat} {d : Deliveries} (hc : HonestChain chain n) (hn : n < 30)
    (hv : ∀ k, 1 ≤ k → k < n → env.replicas.verifyQuorumCert (chain (k + 1)).justifyQC = true)
    (hsign : ∀ i data, ∃ sig, env.sign i data = .ok sig) (h : Inv chain n m d) (hm : m < n) {prop : Proposal}
    (hprop : prop.block = chain (m + 1)) (hp : d.phase (m + 1) = .ready) :
    Inv chain n (m + 1) (setPhase { d with core := (d.core.processProposal env prop).2 } (m + 1)
      (.returned (d.core.processProposal env prop).1)) := by
  have hcached : d.core.Cached chain m := by
    intro k hk
    rw [h.cached k (by omega)]
    rcases Nat.eq_zero_or_pos k with h0 | hpos
    · exact Or.inl h0
    · rw [h.done k hpos hk]
      exact Or.inr (fun he => by cases he)
  obtain ⟨hok, hsettled, hentries⟩ := h.settled.process hc hn hm (fun h1 => hv m h1 hm) hsign h.store hcached
    (congrArg Block.body hprop)
  rw [hok]
  refine ⟨hentries.chainStore h.store, ?_, hsettled, hm, ?_, ?_, ?_, ?_⟩
  · intro j hj
    rw [core_setPhase, hentries.isSome_load, h.cached j hj, phase_setPhase]
    by_cases hjm : j = m + 1
    · subst hjm
      simp [hp]
    · simp [hjm]
  · intro j hj1 hjm
    rw [phase_setPhase]
    split
    · rfl
    · exact h.done j hj1 (by omega)
  · intro j hj o
    rw [phase_setPhase, if_neg (by omega)]
    exact h.todo j (by omega) o
  · intro j hj hw
    rw [phase_setPhase] at hw
    split at hw
    · cases hw
    · obtain ⟨hne, hor⟩ := h.waits j hj hw
      refine ⟨hne, ?_⟩
      rw [phase_setPhase, if_neg]
      · exact hor
      · intro hjm
        rw [hjm, hp] at hor
        rcases hor with hor | hor
        · cases hor
        · cases hor
  · intro j hj hf
    rw [phase_setPhase] at hf
    split at hf
    · rcases hf with hf | hf
      · cases hf
      · cases hf
    · rw [phase_setPhase]
      split
      · exact Or.inr (fun he => by cases he)
      · exact h.finds j hj hf

theorem Inv.step {env : Env} {views : Nat → Int64} {m : Nat} {d : Deliveries} (hc : HonestChain chain n) (hn : n < 30)
    (hv : ∀ k, 1 ≤ k → k < n → env.replicas.verifyQuorumCert (chain (k + 1)).justifyQC = true)
    (hsign : ∀ i data, ∃ sig, env.sign i data = .ok sig) (h : Inv chain n m d) {k : Nat}
    (hg : Guard n (fun k => ⟨views k, chain k⟩) d k) :
    ∃ m', Inv chain n m' (step env (fun k => ⟨views k, chain k⟩) d k) := by
  obtain ⟨⟨h1, hk⟩, hg⟩ := hg
  obtain ⟨j, rfl⟩ : ∃ j, k = j + 1 := ⟨k - 1, by omega⟩
  have hopen : (∀ o, d.phase (j + 1) ≠ .returned o) → m < j + 1 := h.lt_of_open h1
  unfold Deliveries.step
  cases hp : d.phase (j + 1) with
  | idle => exact ⟨m, h.store_step hc hn h1 hk hp⟩
  | stored =>
    rw [hp] at hg
    exact ⟨m, h.broadcast_step hc h1 hp hg⟩
  | broadcasted =>
    rw [hp] at hopen
    obtain ⟨core, hash, q, ⟨hfound, heq⟩ | ⟨-, heq⟩⟩ :=
      look_cases hc h hk ⟨views (j + 1), chain (j + 1)⟩ rfl (fun _ => .missing)
    · refine ⟨m, ?_⟩
      simp only [heq]
      refine h.move q (by simp [hp]) (hopen (by simp)) (by simp) (by simp) (by simp) ?_
      intro _ i hi
      obtain rfl : i = j := by omega
      exact hfound
    · refine ⟨m, ?_⟩
      simp only [heq]
      exact h.move q (by simp [hp]) (hopen (by simp)) (by simp) (by simp) (by simp) (by simp)
  | missing =>
    rw [hp] at hg hopen
    refine ⟨m, h.move (Core.Quiet.refl d.core) (by simp [hp]) (hopen (by simp)) (by simp) (by simp) ?_ (by simp)⟩
    intro _ i hi
    obtain rfl : i = j := by omega
    -- the block has not been stored, so its handler has not started
    have hnone : ¬ (i = 0 ∨ d.phase i ≠ .idle) := by
      rw [← h.justifyBlock? hc hk, show d.core.justifyBlock? (chain (i + 1)) = none from hg]
      simp
    rw [not_or, not_not] at hnone
    exact ⟨hnone.1, Or.inl hnone.2⟩
  | waiting => exact ⟨m, h⟩
  | woken =>
    rw [hp] at hopen
    obtain ⟨core, hash, q, ⟨hfound, heq⟩ | ⟨habsent, -⟩⟩ :=
      look_cases hc h hk ⟨views (j + 1), chain (j + 1)⟩ rfl
        (fun hash => .returned (.error (.expectedNotFound hash)))
    · refine ⟨m, ?_⟩
      simp only [heq]
      refine h.move q (by simp [hp]) (hopen (by simp)) (by simp) (by simp) (by simp) ?_
      intro _ i hi
      obtain rfl : i = j := by omega
      exact hfound
    · exact absurd (h.finds j hk (Or.inl hp)) habsent
  | ready =>
    rw [hp] at hg hopen
    have hlt := hopen (by simp)
    -- the handlers of all blocks below have returned, so this is the next block
    obtain rfl : j = m := by
      rcases Nat.lt_or_ge m j with hmj | hge
      · have hret := hg j (Nat.lt_succ_self j) (by omega)
        cases hpj : d.phase j with
        | returned o => exact absurd hpj (h.todo j hmj o)
        | _ =>
          rw [hpj] at hret
          cases hret
      · omega
    exact ⟨j + 1, h.process_step hc hn hv hsign hk rfl hp⟩
  | returned o => exact ⟨m, h⟩

/-- When no handler can take a step any more, all have returned. -/
private theorem Inv.complete {m : Nat} {d : Deliveries} (h : Inv chain n m d) (hd : Complete n d) : m = n := by
  by_contra hne
  have hlt : m < n := by
    have hle := h.le
    omega
  rcases hd (m + 1) hlt (by omega) with hw | hret
  · obtain ⟨hne0, hor⟩ := h.waits m hlt hw
    rw [h.done m (by omega) (Nat.le_refl m)] at hor
    rcases hor with hor | hor
    · cases hor
    · cases hor
  · cases hp : d.phase (m + 1) with
    | returned o => exact h.todo (m + 1) (Nat.lt_succ_self m) o hp
    | _ =>
      rw [hp] at hret
      cases hret

private theorem Inv.run {env : Env} {views : Nat → Int64} (hc : HonestChain chain n) (hn : n < 30)
    (hv : ∀ k, 1 ≤ k → k < n → env.replicas.verifyQuorumCert (chain (k + 1)).justifyQC = true)
    (hsign : ∀ i data, ∃ sig, env.sign i data = .ok sig) {order : List Nat}
    (hg : StepsMeet (Deliveries.step env fun k => ⟨views k, chain k⟩) (Guard n fun k => ⟨views k, chain k⟩) start order)
    (hd : Complete n (Lib.run (Deliveries.step env fun k => ⟨views k, chain k⟩) start order)) :
    Inv chain n n (Lib.run (Deliveries.step env fun k => ⟨views k, chain k⟩) start order) := by
  obtain ⟨m, hinv⟩ := hg.invariant (I := fun d => ∃ m, Inv chain n m d)
    (fun d k h hg => h.elim fun m hm => hm.step hc hn hv hsign hg) ⟨0, inv_start hc⟩
  have hmn := hinv.complete hd
  rw [hmn] at hinv
  exact hinv

end Deliveries

/-- Delivery-order independence, for runs in which no handler is woken before its block has been stored, none begins to
wait for a block that has been stored, handlers enter `update` in the order of the chain, and the signer does not fail.  In
any two such runs, whatever the order of delivery and the interleaving, every handler returns without an error, none is left
waiting, and the certificates, the vote height and the decided blocks are the same. -/
theorem delivery_order_independent (env : Env) (chain : Nat → Block) (views : Nat → Int64) (n : Nat) (hn : n < 30)
    (hchain : HonestChain chain n)
    (hverified : ∀ k, 1 ≤ k → k < n → env.replicas.verifyQuorumCert (chain (k + 1)).justifyQC = true)
    (hsign : ∀ i data, ∃ sig, env.sign i data = .ok sig) (order₁ order₂ : List Nat) (d₁ d₂ : Deliveries)
    (h₁ : d₁ = run (Deliveries.step env fun k => ⟨views k, chain k⟩) .start order₁)
    (h₂ : d₂ = run (Deliveries.step env fun k => ⟨views k, chain k⟩) .start order₂)
    (hguard₁ : StepsMeet (Deliveries.step env fun k => ⟨views k, chain k⟩)
      (Deliveries.Guard n fun k => ⟨views k, chain k⟩) .start order₁)
    (hguard₂ : StepsMeet (Deliveries.step env fun k => ⟨views k, chain k⟩)
      (Deliveries.Guard n fun k => ⟨views k, chain k⟩) .start order₂)
    (hall₁ : d₁.Complete n) (hall₂ : d₂.Complete n) :
    (∀ k, 1 ≤ k → k ≤ n → d₁.phase k = .returned .ok ∧ d₂.phase k = .returned .ok) ∧
      d₁.core.genericQC = d₂.core.genericQC ∧ d₁.core.lockedQC = d₂.core.lockedQC ∧
      d₁.core.execQC = d₂.core.execQC ∧ d₁.core.voteHeight = d₂.core.voteHeight ∧
      d₁.core.decided.map Block.body = d₂.core.decided.map Block.body := by
  subst h₁
  subst h₂
  have hinv₁ := Deliveries.Inv.run hchain hn hverified hsign hguard₁ hall₁
  have hinv₂ := Deliveries.Inv.run hchain hn hverified hsign hguard₂ hall₂
  refine ⟨fun k h1 hk => ⟨hinv₁.done k h1 hk, hinv₂.done k h1 hk⟩, ?_, ?_, ?_, ?_, ?_⟩
  · rw [hinv₁.settled.generic, hinv₂.settled.generic]
  · rw [hinv₁.settled.locked, hinv₂.settled.locked]
  · rw [hinv₁.settled.exec, hinv₂.settled.exec]
  · rw [hinv₁.settled.voteHeight, hinv₂.settled.voteHeight]
  · rw [hinv₁.settled.decided, hinv₂.settled.decided]

/-- Two proposals, delivered in order and in reverse order. -/
theorem delivery_order_independent_server :
    (run (Deliveries.step (Server.env 3) fun k => ⟨.ofNat k, Server.chain k⟩) .start
      [1, 1, 1, 1, 2, 2, 2, 2]).core.genericQC =
    (run (Deliveries.step (Server.env 3) fun k => ⟨.ofNat k, Server.chain k⟩) .start
      [2, 2, 2, 2, 1, 1, 1, 1, 2, 2]).core.genericQC :=
  (delivery_order_independent (Server.env 3) Server.chain (fun k => .ofNat k) 2 (by decide) (by decide +kernel)
    (by decide +kernel) (fun _ data => ⟨Server.sign 3 data, rfl⟩) [1, 1, 1, 1, 2, 2, 2, 2] [2, 2, 2, 2, 1, 1, 1, 1, 2, 2]
    _ _ rfl rfl (by decide +kernel) (by decide +kernel) (by decide +kernel) (by decide +kernel)).2.1

/-- The second proposal is delivered first and its handler finds the first block missing; before it begins to wait, the
first proposal is delivered and makes its broadcast.  No step is left, and the handler waits for ever.  Delivered in order,
both handlers return and the highest certificate is another one. -/
theorem wakeup_lost :
    HonestChain Server.chain 2 ∧ Server.replicas.verifyQuorumCert (Server.chain 2).justifyQC = true ∧
    (run (Deliveries.step (Server.env 3) fun k => ⟨.ofNat k, Server.chain k⟩) .start
      [2, 2, 2, 1, 1, 1, 1, 2]).phase 1 = .returned .ok ∧
    (run (Deliveries.step (Server.env 3) fun k => ⟨.ofNat k, Server.chain k⟩) .start
      [2, 2, 2, 1, 1, 1, 1, 2]).phase 2 = .waiting ∧
    (run (Deliveries.step (Server.env 3) fun k => ⟨.ofNat k, Server.chain k⟩) .start
      [2, 2, 2, 1, 1, 1, 1, 2]).core.genericQC ≠
    (run (Deliveries.step (Server.env 3) fun k => ⟨.ofNat k, Server.chain k⟩) .start
      [1, 1, 1, 1, 2, 2, 2, 2]).core.genericQC := by
  decide +kernel

end GoHotstuff
