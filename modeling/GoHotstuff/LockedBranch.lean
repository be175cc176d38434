import GoHotstuff.Execution

/-!
# The test for the locked branch

Where the justify block is not higher than the locked block, `OnReceiveProposal` raises `voteHeight` only for a block of the
locked branch.  It does not follow the chain until it meets the lock; it takes as many steps to the parent as the heights
of the two blocks differ by, none if the difference is not positive, and compares the hashes there.

In a store whose entries are filed under their `SelfQc.BlockHash` a positive answer is right whatever the heights are
(`Extends.isAncestor`).  If every block is one higher than its parent in the store, the walk ends at the only ancestor of
the lock's height, so the answer is exact (`extends_iff_isAncestor`); a chain within the store has at most 30 blocks, so
the difference of the heights does not overflow.
-/

namespace GoHotstuff

open Lib (Bytes encodeToString run)

namespace Core

/-! ### The entries of the store -/

/-- The entries of `blockCache`, the most recently used one first. -/
def entries (s : Core) : List (List Char × Block) := s.blockCache.val.lru.map fun e => (e.2.key, e.2.value.block)

/-- Every entry is filed under its `SelfQc.BlockHash`. -/
def Keyed (s : Core) : Prop := ∀ e ∈ s.entries, e.1 = encodeToString e.2.selfQc.blockHash

instance (s : Core) : Decidable s.Keyed :=
  inferInstanceAs (Decidable (∀ e ∈ s.entries, e.1 = encodeToString e.2.selfQc.blockHash))

/-- Every block is one higher than its parent, if that is in the store; the genesis block has no parent there. -/
def OneHigher (s : Core) : Prop := ∀ e ∈ s.entries, ∀ p ∈ s.load e.2.parentHash, e.2.height.toInt = p.height.toInt + 1

instance (s : Core) : Decidable s.OneHigher :=
  inferInstanceAs (Decidable (∀ e ∈ s.entries, ∀ p ∈ s.load e.2.parentHash, e.2.height.toInt = p.height.toInt + 1))

private theorem mem_entries_of_load {s : Core} {hash : Bytes} {b : Block} (h : s.load hash = some b) :
    (encodeToString hash, b) ∈ s.entries := by
  obtain ⟨obj, ho⟩ := load_eq_some.1 h
  obtain ⟨e, hmem⟩ := (LRUCache.find?_eq_some s.blockCache.wf).1 ho
  exact List.mem_map.2 ⟨_, hmem, rfl⟩

private theorem length_entries_le (s : Core) : s.entries.length ≤ 30 := by
  have h := s.blockCache.wf.bounded
  rw [s.blockCache.capacity_eq] at h
  unfold entries
  rw [List.length_map]
  omega

private theorem Keyed.selfQc_blockHash {s : Core} (h : s.Keyed) {hash : Bytes} {b : Block} (hl : s.load hash = some b) :
    b.selfQc.blockHash = hash := by
  have := h _ (mem_entries_of_load hl)
  exact (Lib.encodeToString_inj.1 this).symm

private theorem Keyed.load_self {s : Core} (h : s.Keyed) {hash : Bytes} {b : Block} (hl : s.load hash = some b) :
    s.load b.selfQc.blockHash = some b := by
  rw [h.selfQc_blockHash hl]
  exact hl

/-! ### Ancestors -/

/-- `a` is `b` or an ancestor of `b` by `ParentHash`. -/
def IsAncestor (s : Core) (b a : Block) : Prop := ∃ k, s.parentWalk k b = some a

private theorem parentWalk_succ (s : Core) (k : Nat) (b : Block) :
    s.parentWalk (k + 1) b = (s.parentWalk k b).bind fun x => s.load x.parentHash := by
  induction k generalizing b with
  | zero =>
    show (s.load b.parentHash).bind some = s.load b.parentHash
    exact Option.bind_fun_some _
  | succ k ih =>
    show (s.load b.parentHash).bind (s.parentWalk (k + 1)) = ((s.load b.parentHash).bind (s.parentWalk k)).bind _
    rw [Option.bind_assoc]
    exact congrArg _ (funext ih)

private theorem isSome_parentWalk_of_le {s : Core} {b a : Block} {j k : Nat} (hw : s.parentWalk k b = some a)
    (hj : j ≤ k) :
    (s.parentWalk j b).isSome := by
  induction k generalizing a with
  | zero =>
    obtain rfl : j = 0 := by omega
    rfl
  | succ k ih =>
    rcases Nat.eq_or_lt_of_le hj with rfl | hlt
    · rw [hw]
      rfl
    · rw [parentWalk_succ] at hw
      obtain ⟨x, hx, -⟩ := Option.bind_eq_some_iff.1 hw
      exact ih hx (by omega)

section Walk

variable {s : Core} {b : Block} (hkey : s.Keyed) (hself : s.load b.selfQc.blockHash = some b)

include hkey hself

private theorem load_of_parentWalk {k : Nat} {a : Block} (hw : s.parentWalk k b = some a) :
    s.load a.selfQc.blockHash = some a := by
  cases k with
  | zero =>
    obtain rfl := Option.some.inj hw
    exact hself
  | succ k =>
    rw [parentWalk_succ] at hw
    obtain ⟨x, -, hx⟩ := Option.bind_eq_some_iff.1 hw
    exact hkey.load_self hx

/-- A positive answer of the test is right. -/
theorem Extends.isAncestor {lockedb : Block} (hl : s.load lockedb.selfQc.blockHash = some lockedb)
    (h : s.Extends b lockedb) : s.IsAncestor b lockedb := by
  obtain ⟨nblk, hw, hhash⟩ := h
  have hn := load_of_parentWalk hkey hself hw
  rw [hhash, hl] at hn
  obtain rfl := Option.some.inj hn
  exact ⟨_, hw⟩

variable (hone : s.OneHigher)

include hone

private theorem height_of_parentWalk {k : Nat} {a : Block} (hw : s.parentWalk k b = some a) :
    b.height.toInt = a.height.toInt + k := by
  induction k generalizing a with
  | zero =>
    obtain rfl := Option.some.inj hw
    omega
  | succ k ih =>
    rw [parentWalk_succ] at hw
    obtain ⟨x, hx, ha⟩ := Option.bind_eq_some_iff.1 hw
    have h1 := ih hx
    have h2 : x.height.toInt = a.height.toInt + 1 :=
      hone _ (mem_entries_of_load (load_of_parentWalk hkey hself hx)) a ha
    push_cast
    omega

private theorem lt_of_parentWalk {k : Nat} {a : Block} (hw : s.parentWalk k b = some a) : k < 30 := by
  -- the block that is `j` steps away
  let x : Nat → Block := fun j => (s.parentWalk j b).getD b
  have hx : ∀ j ≤ k, s.parentWalk j b = some (x j) := by
    intro j hj
    obtain ⟨y, hy⟩ := Option.isSome_iff_exists.1 (isSome_parentWalk_of_le hw hj)
    rw [hy]
    exact congrArg some (by simp only [x, hy, Option.getD_some])
  have hnodup : ((List.range (k + 1)).map fun j => (encodeToString (x j).selfQc.blockHash, x j)).Nodup := by
    refine List.Nodup.map_on ?_ List.nodup_range
    intro i hi j hj heq
    rw [List.mem_range] at hi hj
    have hsame : x i = x j := (Prod.mk.inj heq).2
    have h1 := height_of_parentWalk hkey hself hone (hx i (by omega))
    have h2 := height_of_parentWalk hkey hself hone (hx j (by omega))
    rw [hsame] at h1
    omega
  have hsub : ((List.range (k + 1)).map fun j => (encodeToString (x j).selfQc.blockHash, x j)) ⊆ s.entries := by
    intro e he
    obtain ⟨j, hj, rfl⟩ := List.mem_map.1 he
    rw [List.mem_range] at hj
    exact mem_entries_of_load (load_of_parentWalk hkey hself (hx j (by omega)))
  have hlen := (List.subperm_of_subset hnodup hsub).length_le
  rw [List.length_map, List.length_range] at hlen
  have := s.length_entries_le
  omega

private theorem isSome_parentWalk {x : Int64}
    (hcached : ∀ a, s.IsAncestor b a → x < a.height → (s.load a.parentHash).isSome) {i : Nat}
    (hi : (i : Int) ≤ max 0 (b.height.toInt - x.toInt)) : (s.parentWalk i b).isSome := by
  induction i with
  | zero => rfl
  | succ i ih =>
    obtain ⟨a, ha⟩ := Option.isSome_iff_exists.1 (ih (by omega))
    have hheight := height_of_parentWalk hkey hself hone ha
    have habove : x < a.height := Int64.lt_iff_toInt_lt.2 (by omega)
    obtain ⟨p, hp⟩ := Option.isSome_iff_exists.1 (hcached a ⟨i, ha⟩ habove)
    rw [parentWalk_succ, ha]
    exact Option.isSome_of_eq_some hp

/-- The test is exact. -/
theorem extends_iff_isAncestor {lockedb : Block} (hl : s.load lockedb.selfQc.blockHash = some lockedb) :
    s.Extends b lockedb ↔ s.IsAncestor b lockedb := by
  refine ⟨fun h => h.isAncestor hkey hself hl, ?_⟩
  rintro ⟨k, hw⟩
  have hk := lt_of_parentWalk hkey hself hone hw
  have hheight := height_of_parentWalk hkey hself hone hw
  have hsteps : (b.height - lockedb.height).toNatClampNeg = k := by
    have h1 := Int64.toInt_sub b.height lockedb.height
    rw [Int.bmod_eq_of_le (by omega) (by omega)] at h1
    have h2 := Int64.toNat_toInt (b.height - lockedb.height)
    omega
  refine ⟨lockedb, ?_, rfl⟩
  rw [hsteps]
  exact hw

end Walk

/-! ### `OnReceiveProposal` -/

private theorem checkVote_ok {s : Core} {b jb lockedb nblk : Block} {qc : QuorumCert}
    (hj : s.justifyBlock? b = some (qc, jb)) (hl : s.load s.lockedQC.blockHash = some lockedb)
    (hw : s.parentWalk (b.height - lockedb.height).toNatClampNeg b = some nblk) : (s.checkVote b).1 = .ok () := by
  unfold checkVote
  by_cases hh : b.height > s.voteHeight
  swap
  · rw [if_neg hh]
  rw [if_pos hh]
  obtain ⟨e, s1, hj', -⟩ | ⟨qc', jb', s1, -, heq, hq1⟩ := getJustifyBlock_cases s b
  · rw [hj] at hj'
    cases hj'
  rw [heq]
  have hlocked : s1.lockedQC = s.lockedQC := by
    obtain ⟨c, w, k, x, -, -, rfl⟩ := hq1
    rfl
  have hq2 := hq1.trans (quiet_touch s1 s.lockedQC.blockHash)
  simp only [loadBlock, hlocked, hq1.load, hl]
  by_cases hlive : jb'.height > lockedb.height
  · rw [if_pos hlive]
  rw [if_neg hlive]
  obtain ⟨-, hwalk⟩ := walkParents_cases (s1.touch s.lockedQC.blockHash) (b.height - lockedb.height).toNatClampNeg b
  rw [parentWalk_congr hq2.load, hw] at hwalk
  generalize (s1.touch s.lockedQC.blockHash).walkParents (b.height - lockedb.height).toNatClampNeg b = r at hwalk
  obtain ⟨r, s3⟩ := r
  rcases hwalk with ⟨e, hnone, -⟩ | ⟨b', -, rfl⟩
  · cases hnone
  · simp only
    split
    · rfl
    · rfl

private theorem voteHeight_processProposal {env : Env} {s s1 : Core} {prop : Proposal}
    (hu : s.update env prop.block = (.ok (), s1)) :
    (s1.MayVote prop.block ∧ (s.processProposal env prop).2.voteHeight = prop.block.height) ∨
    (¬ s1.MayVote prop.block ∧ (s.processProposal env prop).2.voteHeight = s1.voteHeight) := by
  have p := processProposal_cases env s prop
  generalize (s.processProposal env prop).2 = s' at p
  cases p with
  | updateError hu' =>
    rw [hu] at hu'
    cases hu'
  | checkError hu' hv q =>
    rw [hu] at hu'
    obtain ⟨-, rfl⟩ := Prod.mk.inj hu'
    obtain ⟨c, w, k, x, -, -, rfl⟩ := q
    exact .inr ⟨hv, rfl⟩
  | signError hu' hv q =>
    rw [hu] at hu'
    obtain ⟨-, rfl⟩ := Prod.mk.inj hu'
    obtain ⟨c, w, k, x, -, -, rfl⟩ := q
    exact hv
  | voted hu' hv q hvote hsig =>
    rw [hu] at hu'
    obtain ⟨-, rfl⟩ := Prod.mk.inj hu'
    obtain ⟨c, w, k, x, -, -, rfl⟩ := q
    exact hv

private theorem mayVote_iff_extends {s : Core} {b jb lockedb : Block} {qc : QuorumCert} (hvh : s.voteHeight < b.height)
    (hj : s.justifyBlock? b = some (qc, jb)) (hl : s.load s.lockedQC.blockHash = some lockedb)
    (hle : jb.height ≤ lockedb.height) : s.MayVote b ↔ s.Extends b lockedb := by
  constructor
  · rintro ⟨-, qc', jb', lockedb', hj', hl', hor⟩
    rw [hj] at hj'
    rw [hl] at hl'
    obtain ⟨rfl, rfl⟩ := Prod.mk.inj (Option.some.inj hj')
    obtain rfl := Option.some.inj hl'
    exact hor.resolve_left (Int64.not_lt.2 hle)
  · intro h
    exact ⟨hvh, qc, jb, lockedb, hj, hl, .inr h⟩

end Core

/-- The extends-locked-branch test is exact.  `update` has succeeded on a block of the store that is higher than
`voteHeight` (which no run makes negative) and whose justify block is not higher than the locked block.  If the blocks of
the store are one higher than their parents and the ancestors of the block down to the height of the lock are there, the
check returns no error and raises `voteHeight` if and only if the locked block is the block itself or one of its
ancestors; and it raises it for no other block even if the heights are arbitrary. -/
theorem lock_test_exact (env : Env) (s s1 : Core) (prop : Proposal) (hu : s.update env prop.block = (.ok (), s1))
    (hkey : s.Keyed) (hself : s.load prop.block.selfQc.blockHash = some prop.block) (h0 : 0 ≤ s.voteHeight)
    (hvh : s.voteHeight < prop.block.height) (qc : QuorumCert) (jb lockedb : Block)
    (hj : s.justifyBlock? prop.block = some (qc, jb)) (hl : s.load s1.lockedQC.blockHash = some lockedb)
    (hle : jb.height ≤ lockedb.height) :
    (s.OneHigher → (∀ a, s.IsAncestor prop.block a → lockedb.height < a.height → (s.load a.parentHash).isSome) →
      (s1.checkVote prop.block).1 = .ok () ∧
      ((s.processProposal env prop).2.voteHeight = prop.block.height ↔ s.IsAncestor prop.block lockedb)) ∧
    (¬ s.IsAncestor prop.block lockedb → (s.processProposal env prop).2.voteHeight = s.voteHeight) := by
  have u := Core.update_result hu
  have hvotes := u.votes.2
  have hlself := hkey.load_self hl
  -- the state behind `update` has the same blocks
  have hj1 : s1.justifyBlock? prop.block = some (qc, jb) := by
    obtain ⟨h, hload⟩ := Core.justifyBlock?_eq_some.1 hj
    exact Core.justifyBlock?_eq_some.2 ⟨h, (u.load _).trans hload⟩
  have hl1 : s1.load s1.lockedQC.blockHash = some lockedb := (u.load _).trans hl
  have hext : s1.Extends prop.block lockedb ↔ s.Extends prop.block lockedb := by
    unfold Core.Extends
    rw [Core.parentWalk_congr u.load]
  have hmay : s1.MayVote prop.block ↔ s.Extends prop.block lockedb :=
    (Core.mayVote_iff_extends (by rw [hvotes]; exact hvh) hj1 hl1 hle).trans hext
  have hres := Core.voteHeight_processProposal hu
  rw [hvotes, hmay] at hres
  refine ⟨fun hone hcached => ⟨?_, ?_⟩, fun hnot => ?_⟩
  · -- the number of steps is not more than the heights differ by, also if the difference wraps
    obtain ⟨nblk, hw⟩ := Option.isSome_iff_exists.1 (Core.isSome_parentWalk hkey hself hone hcached
      (i := (prop.block.height - lockedb.height).toNatClampNeg) (by
        have h1 := Int64.toInt_sub prop.block.height lockedb.height
        have h2 := Int64.toNat_toInt (prop.block.height - lockedb.height)
        have h3 := prop.block.height.toInt_lt
        have h4 := lockedb.height.le_toInt
        have h5 := lockedb.height.toInt_lt
        have h6 : 0 < prop.block.height.toInt := by
          have := Int64.lt_iff_toInt_lt.1 hvh
          have := Int64.le_iff_toInt_le.1 h0
          have : (0 : Int64).toInt = 0 := rfl
          omega
        rw [Int.bmod_def] at h1
        omega))
    rw [← Core.parentWalk_congr u.load] at hw
    exact Core.checkVote_ok hj1 hl1 hw
  · rw [← Core.extends_iff_isAncestor hkey hself hone hlself]
    obtain ⟨hyes, hraised⟩ | ⟨hno, hkept⟩ := hres
    · exact ⟨fun _ => hyes, fun _ => hraised⟩
    · refine ⟨fun h => ?_, fun h => absurd h hno⟩
      rw [hkept] at h
      rw [h] at hvh
      exact absurd hvh Int64.lt_irrefl
  · obtain ⟨hyes, -⟩ | ⟨-, hkept⟩ := hres
    · exact absurd (hyes.isAncestor hkey hself hlself) hnot
    · exact hkept

namespace Server

/-- A block on block `3` of the chain that justifies block `1` only, on which replica `3` is locked by then. -/
def late : Block := child 3 (chain 3) (quorumCert 0 (chain 1).selfQc.blockHash [0, 1, 2]) [1]

/-- Replica `3` with the blocks `1` to `3` of the chain and the late block. -/
def lateStore : Core := (run (Core.step (env 3)) newHotStuffCore (receivesFrom 0 3)).storeBlock late

end Server

/-- The late block is not above the lock by its justify block, and three steps lead from it to the lock. -/
theorem lock_test_exact_server :
    (Server.lateStore.processProposal (Server.env 3) ⟨3, Server.late⟩).2.voteHeight = Server.late.height := by
  have hok : ∀ r : Except CoreError Unit × Core, r.1 = .ok () → r = (.ok (), r.2) := fun r h => Prod.ext h rfl
  obtain ⟨hupdate, hkey, hone, hself, hentries, h0, hvh, hj, hl, hle, hwalk⟩ :
      (Server.lateStore.update (Server.env 3) Server.late).1 = .ok () ∧ Server.lateStore.Keyed ∧
      Server.lateStore.OneHigher ∧ Server.lateStore.load Server.late.selfQc.blockHash = some Server.late ∧
      (∀ a ∈ Server.lateStore.entries.map (fun e => e.2), (Server.chain 1).height < a.height →
        (Server.lateStore.load a.parentHash).isSome) ∧
      0 ≤ Server.lateStore.voteHeight ∧ Server.lateStore.voteHeight < Server.late.height ∧
      Server.lateStore.justifyBlock? Server.late =
        some (Server.quorumCert 0 (Server.chain 1).selfQc.blockHash [0, 1, 2], Server.chain 1) ∧
      Server.lateStore.load (Server.lateStore.update (Server.env 3) Server.late).2.lockedQC.blockHash =
        some (Server.chain 1) ∧
      (Server.chain 1).height ≤ (Server.chain 1).height ∧
      Server.lateStore.parentWalk 3 Server.late = some (Server.chain 1) := by
    decide +kernel
  have hcached : ∀ a, Server.lateStore.IsAncestor Server.late a → (Server.chain 1).height < a.height →
      (Server.lateStore.load a.parentHash).isSome := by
    rintro a ⟨k, hw⟩
    have hmem := Core.mem_entries_of_load (Core.load_of_parentWalk hkey hself hw)
    exact hentries a (List.mem_map.2 ⟨_, hmem, rfl⟩)
  have htest := lock_test_exact (Server.env 3) Server.lateStore (Server.lateStore.update (Server.env 3) Server.late).2
    ⟨3, Server.late⟩ (hok _ hupdate) hkey hself h0 hvh (Server.quorumCert 0 (Server.chain 1).selfQc.blockHash [0, 1, 2])
    (Server.chain 1) (Server.chain 1) hj hl hle
  exact (htest.1 hone hcached).2.2 ⟨3, hwalk⟩

end GoHotstuff
