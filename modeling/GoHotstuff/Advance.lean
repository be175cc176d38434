import GoHotstuff.RecentBlocks

/-!
# A core that follows the chain

What the handlers of the core do in the normal course of a round, when the next block of the chain is proposed, received
and voted for.  `Upto m g` is the state of a core that has processed the blocks up to the `m`-th and has a certificate for
the `g`-th: the lock is on block `m - 2`, block `m - 3` is executed, and the last blocks are in the cache.  `OnPropose` and
`OnReceiveProposal` take it to block `m + 1` and decide block `m - 2` (`Upto.propose`, `Upto.receive`); the votes that
`OnProposalVote` is given make the certificate for block `m` (`Upto.vote`).
-/

namespace GoHotstuff

open Lib (Bytes encodeToString)

theorem ofNat_lt_ofNat {j k : Nat} (hj : j < 2 ^ 63) (hk : k < 2 ^ 63) : Int64.ofNat j < Int64.ofNat k ↔ j < k := by
  rw [Int64.lt_iff_toInt_lt, Int64.toInt_ofNat_of_lt hj, Int64.toInt_ofNat_of_lt hk]
  omega

private theorem toNatClampNeg_ofNat_sub {j k : Nat} (hjk : j ≤ k) (hk : k < 2 ^ 63) :
    (Int64.ofNat k - Int64.ofNat j).toNatClampNeg = k - j := by
  rw [← Int64.ofNat_sub k j hjk]
  exact Int64.toNatClampNeg_ofNat_of_lt (by omega)

/-! ### The cache along the chain -/

/-- The cache holds the last five of the first `m` blocks. -/
structure ChainCache (replicas : ReplicaConf) (cmd : Nat → Bytes) (m : Nat) (c : Cache (List Char) Stored 30) : Prop where
  recent : RecentCache cmd m c
  found : ∀ k ≤ m, m ≤ k + 4 → ∃ o, c.find? (chainKey cmd k) = some o ∧ IsBlock replicas cmd k o.block

/-- `c'` is the cache `c` after some of the last blocks have been looked up. -/
structure Looked (cmd : Nat → Bytes) (m : Nat) (c c' : Cache (List Char) Stored 30) : Prop where
  find? : ∀ key, c'.find? key = c.find? key
  recent : RecentCache cmd m c → RecentCache cmd m c'

section ChainCache

variable {replicas : ReplicaConf} {cmd : Nat → Bytes} {m k : Nat} {c c' c'' : Cache (List Char) Stored 30}

private theorem Looked.refl : Looked cmd m c c := ⟨fun _ => rfl, fun h => h⟩

private theorem Looked.trans (h : Looked cmd m c c') (h' : Looked cmd m c' c'') : Looked cmd m c c'' :=
  ⟨fun key => (h'.find? key).trans (h.find? key), fun hr => h'.recent (h.recent hr)⟩

private theorem looked_touch (hk : k ≤ m) (hm : m ≤ k + 4) : Looked cmd m c (c.touch (chainKey cmd k)) :=
  ⟨fun key => Cache.find?_touch c _ key, fun h => h.touch hk hm⟩

theorem ChainCache.looked (h : ChainCache replicas cmd m c) (hl : Looked cmd m c c') : ChainCache replicas cmd m c' := by
  refine ⟨hl.recent h.recent, fun k hk hm => ?_⟩
  rw [hl.find?]
  exact h.found k hk hm

/-- Votes are written into the blocks. -/
private theorem ChainCache.writeSigns (h : ChainCache replicas cmd m c) (obj : Nat) (signs : Signs) :
    ChainCache replicas cmd m (c.mapValue (Core.writeSigns obj signs)) := by
  refine ⟨h.recent.mapValue _, fun k hk hm => ?_⟩
  obtain ⟨o, ho, hb⟩ := h.found k hk hm
  refine ⟨Core.writeSigns obj signs o, ?_, hb.of_body (Core.body_writeSigns obj signs o)⟩
  rw [Cache.find?_mapValue, ho]
  rfl

private theorem ChainCache.put (h : ChainCache replicas cmd m c)
    (hnew : ∀ k ≤ m, chainHash cmd k ≠ chainHash cmd (m + 1)) {o : Stored} (ho : IsBlock replicas cmd (m + 1) o.block) :
    ChainCache replicas cmd (m + 1) (c.put (chainKey cmd (m + 1)) o) := by
  obtain ⟨hrecent, hkept⟩ := h.recent.put o
  refine ⟨hrecent, fun k hk hm => ?_⟩
  by_cases hkm : k = m + 1
  · subst hkm
    exact ⟨o, Cache.find?_put_self (by decide) _ _ _, ho⟩
  · rw [hkept k (by omega) (by omega) fun heq => hnew k (by omega) (Lib.encodeToString_injective heq)]
    exact h.found k (by omega) (by omega)

end ChainCache

namespace Core

variable {replicas : ReplicaConf} {cmd : Nat → Bytes} {env : Env} {m k g : Nat} {s : Core} {b : Block}

/-! ### Look-ups -/

theorem loadBlock_chain (h : ChainCache replicas cmd m s.blockCache) (hk : k ≤ m) (hm : m ≤ k + 4) :
    ∃ b c, s.loadBlock (chainHash cmd k) = (some b, { s with blockCache := c }) ∧ IsBlock replicas cmd k b ∧
      Looked cmd m s.blockCache c := by
  obtain ⟨o, ho, hb⟩ := h.found k hk hm
  refine ⟨o.block, _, ?_, hb, looked_touch hk hm⟩
  have hload : s.load (chainHash cmd k) = some o.block := load_eq_some.2 ⟨o.obj, ho⟩
  unfold loadBlock
  rw [hload]
  rfl

private theorem getJustifyBlock_chain (h : ChainCache replicas cmd m s.blockCache) (hb : IsBlock replicas cmd (k + 1) b)
    (hk : k ≤ m) (hm : m ≤ k + 4) :
    ∃ qc jb c, s.getJustifyBlock b = (.ok (qc, jb), { s with blockCache := c }) ∧ qc.blockHash = chainHash cmd k ∧
      (k ≠ 0 → replicas.verifyQuorumCert qc = true) ∧ IsBlock replicas cmd k jb ∧ Looked cmd m s.blockCache c := by
  obtain ⟨qc, hqc, hhash, hver⟩ := hb.justify k rfl
  obtain ⟨jb, c, hload, hjb, hc⟩ := loadBlock_chain h hk hm
  refine ⟨qc, jb, c, ?_, hhash, hver, hjb, hc⟩
  unfold getJustifyBlock
  rw [hqc]
  dsimp only
  rw [hhash, hload]

private theorem getJustifyBlock_root (hb : IsBlock replicas cmd 0 b) :
    s.getJustifyBlock b = (.error .justifyNull, s) := by
  have hnone : b.justify = none := justify_body (hb.root rfl)
  unfold getJustifyBlock
  rw [hnone]

/-! ### The three phases -/

/-- `UpdateHighestQC` with the certificate of a block that is not below the highest one. -/
private theorem updateHighestQC_chain (h : ChainCache env.replicas cmd m s.blockCache)
    (hb : IsBlock env.replicas cmd k b)
    (hk : k < 2 ^ 63) {qc : QuorumCert} (hqc : k ≠ 0 → env.replicas.verifyQuorumCert qc = true)
    (hg : s.genericQC.blockHash = chainHash cmd g) (hgk : g ≤ k) (hgm : g ≤ m) (hmg : m ≤ g + 4) (obj : Option Nat) :
    ∃ c qc' obj' evs, Looked cmd m s.blockCache c ∧
      s.updateHighestQC env b qc obj =
        { s with blockCache := c, genericQC := qc', genericObj := obj', notified := s.notified ++ evs } ∧
      (g < k → qc' = qc) ∧ (g = k → qc' = s.genericQC) := by
  have hsame : ∀ c, ({ s with blockCache := c } : Core) =
      { s with blockCache := c, genericQC := s.genericQC, genericObj := s.genericObj, notified := s.notified ++ [] } := by
    intro c
    rw [List.append_nil]
  unfold updateHighestQC
  by_cases hver : env.replicas.verifyQuorumCert qc = true
  · obtain ⟨hb', c, hload, hhigh, hc⟩ := loadBlock_chain h hgm hmg
    rw [if_pos hver, hg, hload]
    dsimp only
    by_cases hlt : g < k
    · refine ⟨c, qc, obj, [.hqcUpdate qc], hc, ?_, fun _ => rfl, fun heq => absurd heq (by omega)⟩
      rw [if_pos (by rw [hb.height, hhigh.height]; exact (ofNat_lt_ofNat (by omega) hk).2 hlt)]
      rfl
    · refine ⟨c, s.genericQC, s.genericObj, [], hc, ?_, fun h => absurd h hlt, fun _ => rfl⟩
      rw [if_neg (by rw [hb.height, hhigh.height]; exact fun h => hlt ((ofNat_lt_ofNat (by omega) hk).1 h))]
      exact hsame c
  · rw [if_neg hver]
    have hzero : k = 0 := by
      by_contra hne
      exact hver (hqc hne)
    exact ⟨s.blockCache, s.genericQC, s.genericObj, [], .refl, hsame _, fun h => absurd h (by omega), fun _ => rfl⟩

/-- `updateLockedQC` with the certificate of a block that is not below the locked one. -/
private theorem updateLockedQC_chain (h : ChainCache replicas cmd m s.blockCache) (hb : IsBlock replicas cmd k b)
    (hk : k < 2 ^ 63) {qc : QuorumCert} (hqc : qc.blockHash = chainHash cmd k)
    (hg : s.lockedQC.blockHash = chainHash cmd g) (hgk : g ≤ k) (hgm : g ≤ m) (hmg : m ≤ g + 4) :
    ∃ c qc', Looked cmd m s.blockCache c ∧ s.updateLockedQC b qc = { s with blockCache := c, lockedQC := qc' } ∧
      qc'.blockHash = chainHash cmd k := by
  obtain ⟨lb, c, hload, hlb, hc⟩ := loadBlock_chain h hgm hmg
  unfold updateLockedQC
  rw [hg, hload]
  dsimp only
  by_cases hlt : g < k
  · refine ⟨c, qc, hc, ?_, hqc⟩
    rw [if_pos (by rw [hb.height, hlb.height]; exact (ofNat_lt_ofNat (by omega) hk).2 hlt)]
  · obtain rfl : g = k := by omega
    refine ⟨c, s.lockedQC, hc, ?_, hg⟩
    rw [if_neg (by rw [hb.height, hlb.height]; exact fun h => hlt ((ofNat_lt_ofNat hk hk).1 h))]

/-- The decide phase moves from the last executed block to the next one, or stays where it is. -/
private theorem decidePhase_chain (h : ChainCache replicas cmd m s.blockCache) (hb : IsBlock replicas cmd k b)
    (hk : k < 2 ^ 63) (hx : s.execQC.blockHash = chainHash cmd (k - 1)) (hkm : k ≤ m) (hmk : m ≤ k - 1 + 4)
    (qc : QuorumCert) :
    ∃ c evs, Looked cmd m s.blockCache c ∧
      s.decidePhase qc b = (.ok (), { s with blockCache := c, execQC := qc, notified := s.notified ++ evs }) ∧
      (k ≠ 0 → ∃ d, IsBlock replicas cmd k d ∧ Event.decide d ∈ evs) := by
  obtain ⟨xb, c, hload, hxb, hc⟩ := loadBlock_chain h (by omega : k - 1 ≤ m) hmk
  unfold decidePhase
  rw [hx, hload]
  dsimp only
  rw [hb.height, hxb.height, toNatClampNeg_ofNat_sub (by omega) hk, hb.getBlockHash_eq]
  rcases Nat.eq_zero_or_pos k with rfl | hpos
  · refine ⟨c, [], hc, ?_, fun hne => absurd rfl hne⟩
    rw [List.append_nil]
    rfl
  · rw [show k - (k - 1) = 0 + 1 by omega, decideLoop]
    obtain ⟨d, c', hload', hd, hc'⟩ :=
      loadBlock_chain (s := { s with blockCache := c, execQC := qc }) (h.looked hc) hkm (by omega : m ≤ k + 4)
    rw [hload']
    exact ⟨c', [.decide d], hc.trans hc', rfl, fun _ => ⟨d, hd, List.mem_singleton_self _⟩⟩

/-- `update` with the next block, once it is stored. -/
private theorem update_chain (h : ChainCache env.replicas cmd (m + 1) s.blockCache) (hm : m + 1 < 2 ^ 63)
    (hb : IsBlock env.replicas cmd (m + 1) b) (hg : s.genericQC.blockHash = chainHash cmd g) (hgm : g ≤ m)
    (hmg : m ≤ g + 1) (hl : s.lockedQC.blockHash = chainHash cmd (m - 2))
    (hx : s.execQC.blockHash = chainHash cmd (m - 3)) :
    ∃ c gqc obj lqc xqc evs, Looked cmd (m + 1) s.blockCache c ∧
      s.update env b = (.ok (), { s with
        blockCache := c, genericQC := gqc, genericObj := obj, lockedQC := lqc, execQC := xqc
        notified := s.notified ++ evs }) ∧
      gqc.blockHash = chainHash cmd m ∧ lqc.blockHash = chainHash cmd (m - 1) ∧ xqc.blockHash = chainHash cmd (m - 2) ∧
      (3 ≤ m → ∃ d, IsBlock env.replicas cmd (m - 2) d ∧ Event.decide d ∈ evs) := by
  -- PRE-COMMIT
  obtain ⟨qc2, b2, c1, h1, hq2, hv2, hb2, hc1⟩ := getJustifyBlock_chain h hb (by omega) (by omega)
  obtain ⟨c2, gqc, obj, evs, hc2, h2, hnew, hold⟩ := updateHighestQC_chain (s := { s with blockCache := c1 })
    (h.looked hc1) hb2 (by omega) hv2 hg hgm (by omega) (by omega) none
  have hgen : gqc.blockHash = chainHash cmd m := by
    rcases Nat.lt_or_ge g m with hlt | hge
    · rw [hnew hlt, hq2]
    · rw [hold (by omega), ← show g = m by omega]
      exact hg
  have hl2 := hc1.trans hc2
  unfold update
  rw [h1]
  dsimp only
  rw [h2]
  rcases m with _ | m
  · rw [getJustifyBlock_root hb2]
    exact ⟨c2, gqc, obj, s.lockedQC, s.execQC, evs, hl2, rfl, hgen, hl, hx, fun h => absurd h (by omega)⟩
  -- COMMIT
  obtain ⟨qc1, b1, c3, h3, hq1, -, hb1, hc3⟩ := getJustifyBlock_chain
    (s := { s with blockCache := c2, genericQC := gqc, genericObj := obj, notified := s.notified ++ evs })
    (h.looked hl2) hb2 (by omega) (by omega)
  obtain ⟨c4, lqc, hc4, h4, hlq⟩ := updateLockedQC_chain
    (s := { s with blockCache := c3, genericQC := gqc, genericObj := obj, notified := s.notified ++ evs })
    (h.looked (hl2.trans hc3)) hb1 (by omega) hq1 hl (by omega) (by omega) (by omega)
  have hl4 := (hl2.trans hc3).trans hc4
  rw [h3]
  dsimp only
  rw [h4]
  rcases m with _ | m
  · rw [getJustifyBlock_root hb1]
    exact ⟨c4, gqc, obj, lqc, s.execQC, evs, hl4, rfl, hgen, hlq, hx, fun h => absurd h (by omega)⟩
  -- DECIDE
  obtain ⟨qc0, b0, c5, h5, hq0, -, hb0, hc5⟩ := getJustifyBlock_chain
    (s := { s with
      blockCache := c4, genericQC := gqc, genericObj := obj, lockedQC := lqc, notified := s.notified ++ evs })
    (h.looked hl4) hb1 (by omega) (by omega)
  have hl5 := hl4.trans hc5
  obtain ⟨c6, evs', hc6, h6, hdec⟩ := decidePhase_chain
    (s := { s with
      blockCache := c5, genericQC := gqc, genericObj := obj, lockedQC := lqc, notified := s.notified ++ evs })
    (h.looked hl5) hb0 (by omega) hx (by omega) (by omega) qc0
  rw [h5]
  dsimp only
  rw [if_pos ⟨(hb2.parent (m + 1) rfl).trans hq1.symm, (hb1.parent m rfl).trans hq0.symm⟩, h6]
  refine ⟨c6, gqc, obj, lqc, qc0, evs ++ evs', hl5.trans hc6, ?_, hgen, hlq, hq0, fun h => ?_⟩
  · rw [List.append_assoc]
  · obtain ⟨d, hd, hmem⟩ := hdec (by omega)
    exact ⟨d, hd, List.mem_append_right _ hmem⟩

/-- The voting rule lets the next block pass. -/
private theorem checkVote_chain (h : ChainCache replicas cmd (m + 1) s.blockCache) (hm : m + 1 < 2 ^ 63)
    (hb : IsBlock replicas cmd (m + 1) b) (hv : s.voteHeight = Int64.ofNat m)
    (hl : s.lockedQC.blockHash = chainHash cmd (m - 1)) :
    ∃ c, Looked cmd (m + 1) s.blockCache c ∧
      s.checkVote b = (.ok (), { s with blockCache := c, voteHeight := Int64.ofNat (m + 1) }) := by
  obtain ⟨qc, jb, c1, h1, -, -, hjb, hc1⟩ := getJustifyBlock_chain h hb (by omega) (by omega)
  obtain ⟨lb, c2, h2, hlb, hc2⟩ := loadBlock_chain (s := { s with blockCache := c1 }) (k := m - 1) (h.looked hc1)
    (by omega) (by omega)
  have hl2 := hc1.trans hc2
  have hhigher : b.height > s.voteHeight := by
    rw [hb.height, hv]
    exact (ofNat_lt_ofNat (by omega) hm).2 (by omega)
  unfold checkVote
  rw [if_pos hhigher, h1]
  dsimp only
  rw [hl, h2]
  dsimp only
  rw [hjb.height, hlb.height, hb.height]
  rcases Nat.eq_zero_or_pos m with rfl | hpos
  · -- the first block: its parent, the genesis block, is locked
    obtain ⟨gb, c3, h3, hgb, hc3⟩ := loadBlock_chain (s := { s with blockCache := c2 }) (h.looked hl2)
      (by omega : 0 ≤ 0 + 1) (by omega)
    have hwalk : walkParents { s with blockCache := c2 } 1 b = (.ok gb, { s with blockCache := c3 }) := by
      rw [walkParents, hb.parent 0 rfl, h3]
      rfl
    rw [if_neg (by decide), toNatClampNeg_ofNat_sub (by omega) (by omega), Nat.sub_zero, hwalk]
    dsimp only
    refine ⟨c3, hl2.trans hc3, ?_⟩
    rw [if_pos (hgb.self.trans hlb.self.symm)]
    rfl
  · rw [if_pos ((ofNat_lt_ofNat (by omega) (by omega)).2 (by omega))]
    exact ⟨c2, hl2, rfl⟩

/-! ### Signatures -/

end Core

/-- The signer never fails, and the other replicas accept its signatures. -/
def Env.SignerWorks (env : Env) : Prop :=
  ∀ k data, ∃ sig, env.sign k data = .ok sig ∧ env.replicas.verifyIdentity env.id sig data = true

/-- Every signature is one that the replicas accept. -/
def ReplicaConf.Signed (rc : ReplicaConf) (hash : Bytes) (signs : Signs) : Prop :=
  ∀ id pc, signs.lookup id = some pc → rc.accepts id pc.signature hash = true

private theorem ReplicaConf.signed_empty (rc : ReplicaConf) (hash : Bytes) : rc.Signed hash ∅ := by
  intro id pc h
  rw [AList.lookup_empty] at h
  cases h

private theorem ReplicaConf.Signed.insert {rc : ReplicaConf} {hash : Bytes} {signs : Signs} (h : rc.Signed hash signs)
    {id : Int64}
    {pc : PartCert} (hpc : rc.accepts id pc.signature hash = true) : rc.Signed hash (signs.insert id pc) := by
  intro id' pc' hl
  by_cases hid : id' = id
  · subst hid
    rw [AList.lookup_insert] at hl
    cases hl
    exact hpc
  · rw [AList.lookup_insert_ne hid] at hl
    exact h id' pc' hl

/-- A certificate with a quorum of such signatures verifies. -/
private theorem ReplicaConf.Signed.verify {rc : ReplicaConf} {qc : QuorumCert} (h : rc.Signed qc.blockHash qc.signs)
    (h0 : 0 ≤ getQuorumSize rc.metadata) (hq : getQuorumSize rc.metadata ≤ qc.signs.keys.length) :
    rc.verifyQuorumCert qc = true := by
  have hall : rc.verifiedIds qc = qc.signs.keys := by
    unfold verifiedIds
    rw [List.filter_eq_self.2 fun e he => h e.1 e.2 (AList.mem_lookup_iff.2 he)]
    rfl
  unfold verifyQuorumCert
  rw [if_neg (by omega), hall]
  unfold getQuorumSize at h0 hq
  have hle : (0 : Int64) ≤ rc.metadata.n - rc.metadata.f := Int64.le_iff_toInt_le.2 (by simpa using h0)
  have htoNat := Int64.toNat_toInt (rc.metadata.n - rc.metadata.f)
  rw [Int64.toNat_toUInt64_of_le hle]
  exact decide_eq_true (by omega)

namespace Core

variable {cmd : Nat → Bytes} {env : Env} {m g : Nat} {s : Core} {b : Block}

private theorem voteProposal_works (hw : env.SignerWorks) (s : Core) (viewNumber height : Int64) (hash : Bytes) :
    ∃ sig log votes, env.replicas.verifyIdentity env.id sig hash = true ∧
      s.voteProposal env viewNumber height hash =
        (.ok ⟨viewNumber, env.id, hash, ⟨env.id, sig⟩⟩, { s with signLog := log, votes := votes }) := by
  obtain ⟨sig, hsig, hver⟩ := hw s.signLog.length hash
  refine ⟨sig, s.signLog ++ [(hash, some sig)], s.votes ++ [⟨height, viewNumber, env.id, hash, ⟨env.id, sig⟩⟩], hver, ?_⟩
  unfold voteProposal createPartCert
  rw [hsig]

/-! ### Proposals and votes -/

/-- The state of the core between blocks: the `m`-th block is the last one processed, the highest certificate is one for
block `g`. -/
structure Upto (replicas : ReplicaConf) (cmd : Nat → Bytes) (m g : Nat) (s : Core) : Prop where
  cache : ChainCache replicas cmd m s.blockCache
  generic : s.genericQC.blockHash = chainHash cmd g
  locked : s.lockedQC.blockHash = chainHash cmd (m - 2)
  exec : s.execQC.blockHash = chainHash cmd (m - 3)
  voteHeight : s.voteHeight = Int64.ofNat m
  voteSet : s.voteSet = ∅
  crashed : s.crashed = false

/-- The part of `OnReceiveProposal` behind the wait. -/
private theorem processProposal_chain (h : ChainCache env.replicas cmd (m + 1) s.blockCache) (hm : m + 1 < 2 ^ 63)
    (hb : IsBlock env.replicas cmd (m + 1) b) (hw : env.SignerWorks) (hg : s.genericQC.blockHash = chainHash cmd g)
    (hgm : g ≤ m) (hmg : m ≤ g + 1) (hl : s.lockedQC.blockHash = chainHash cmd (m - 2))
    (hx : s.execQC.blockHash = chainHash cmd (m - 3)) (hv : s.voteHeight = Int64.ofNat m) (hs : s.voteSet = ∅)
    (hcr : s.crashed = false) (viewNumber : Int64) :
    ∃ s' sig evs, s.processProposal env ⟨viewNumber, b⟩ = (.ok, s') ∧ Upto env.replicas cmd (m + 1) m s' ∧
      (∀ key, s'.blockCache.find? key = s.blockCache.find? key) ∧ s'.notified = s.notified ++ evs ∧
      env.replicas.verifyIdentity env.id sig (chainHash cmd (m + 1)) = true ∧
      Event.receiveProposal ⟨viewNumber, b⟩ ⟨viewNumber, env.id, chainHash cmd (m + 1), ⟨env.id, sig⟩⟩ ∈ evs ∧
      (3 ≤ m → ∃ d, IsBlock env.replicas cmd (m - 2) d ∧ Event.decide d ∈ evs) := by
  obtain ⟨c1, gqc, obj, lqc, xqc, evs, hc1, h1, hgq, hlq, hxq, hdec⟩ := update_chain h hm hb hg hgm hmg hl hx
  obtain ⟨c2, hc2, h2⟩ := checkVote_chain
    (s := { s with
      blockCache := c1, genericQC := gqc, genericObj := obj, lockedQC := lqc, execQC := xqc
      notified := s.notified ++ evs })
    (h.looked hc1) hm hb hv hlq
  have hl2 := hc1.trans hc2
  obtain ⟨sig, log, votes, hsig, h3⟩ := voteProposal_works hw
    { s with
      blockCache := c2, genericQC := gqc, genericObj := obj, lockedQC := lqc, execQC := xqc
      voteHeight := Int64.ofNat (m + 1), notified := s.notified ++ evs }
    viewNumber b.height b.selfQc.blockHash
  rw [hb.self] at hsig
  unfold processProposal
  dsimp only
  rw [h1]
  dsimp only
  rw [h2]
  dsimp only
  rw [h3, hb.self]
  refine ⟨_, sig, evs ++ [.receiveProposal ⟨viewNumber, b⟩ ⟨viewNumber, env.id, chainHash cmd (m + 1), ⟨env.id, sig⟩⟩], rfl,
    ⟨h.looked hl2, hgq, hlq, hxq, rfl, hs, hcr⟩, hl2.find?, ?_, hsig,
    List.mem_append_right _ (List.mem_singleton_self _), fun hle => ?_⟩
  · show s.notified ++ evs ++ [_] = _
    rw [List.append_assoc]
  · obtain ⟨d, hd, hmem⟩ := hdec hle
    exact ⟨d, hd, List.mem_append_left _ hmem⟩

/-- The next block in the store. -/
private theorem Upto.storeBlock (h : Upto env.replicas cmd m g s)
    (hnew : ∀ k ≤ m, chainHash cmd k ≠ chainHash cmd (m + 1))
    (hb : IsBlock env.replicas cmd (m + 1) b) : ChainCache env.replicas cmd (m + 1) (s.storeBlock b).blockCache := by
  have hstore : (s.storeBlock b).blockCache = s.blockCache.put (chainKey cmd (m + 1)) ⟨s.objects, b⟩ := by
    unfold chainKey
    rw [← hb.self]
    rfl
  rw [hstore]
  exact h.cache.put hnew hb

/-- `OnReceiveProposal` with the next block: the replica votes for it, and three blocks below are decided. -/
theorem Upto.receive (h : Upto env.replicas cmd m g s) (hgm : g ≤ m) (hmg : m ≤ g + 1) (hm : m + 1 < 2 ^ 63)
    (hnew : ∀ k ≤ m, chainHash cmd k ≠ chainHash cmd (m + 1)) (hw : env.SignerWorks)
    (hb : IsBlock env.replicas cmd (m + 1) b) (viewNumber : Int64) :
    ∃ s' sig evs, s.onReceiveProposal env ⟨viewNumber, b⟩ = (.ok, s') ∧ Upto env.replicas cmd (m + 1) m s' ∧
      s'.object? (chainHash cmd (m + 1)) = some ⟨s.objects, b⟩ ∧ s'.notified = s.notified ++ evs ∧
      env.replicas.verifyIdentity env.id sig (chainHash cmd (m + 1)) = true ∧
      Event.receiveProposal ⟨viewNumber, b⟩ ⟨viewNumber, env.id, chainHash cmd (m + 1), ⟨env.id, sig⟩⟩ ∈ evs ∧
      (3 ≤ m → ∃ d, IsBlock env.replicas cmd (m - 2) d ∧ Event.decide d ∈ evs) := by
  have hcache := h.storeBlock hnew hb
  obtain ⟨qc, hqc, hhash, -⟩ := hb.justify m rfl
  obtain ⟨jb, c, hload, -, hc⟩ := loadBlock_chain (s := (s.storeBlock b).broadcast) (k := m) hcache (by omega) (by omega)
  obtain ⟨s', sig, evs, hproc, hupto, hfind, hevs⟩ := processProposal_chain
    (s := { s.storeBlock b with blockCache := c, waiting := [], woken := s.woken ++ s.waiting }) (hcache.looked hc)
    hm hb hw h.generic hgm hmg h.locked h.exec h.voteHeight h.voteSet h.crashed viewNumber
  refine ⟨s', sig, evs, ?_, hupto, ?_, hevs⟩
  · unfold onReceiveProposal
    dsimp only
    rw [hqc]
    dsimp only
    rw [hhash, hload]
    exact hproc
  · unfold object?
    rw [hfind, hc.find?, ← hb.self]
    exact object?_storeBlock_self s b

/-- `UpdateHighestQC` with the certificate of the last block. -/
private theorem Upto.certify (h : Upto env.replicas cmd (m + 1) m s) (hm : m + 1 < 2 ^ 63)
    (hb : IsBlock env.replicas cmd (m + 1) b)
    {qc : QuorumCert} (hver : env.replicas.verifyQuorumCert qc = true) (hqc : qc.blockHash = chainHash cmd (m + 1))
    (obj : Option Nat) :
    ∃ evs, (s.updateHighestQC env b qc obj).notified = s.notified ++ evs ∧
      Upto env.replicas cmd (m + 1) (m + 1) (s.updateHighestQC env b qc obj) ∧
      (s.updateHighestQC env b qc obj).genericQC = qc := by
  obtain ⟨c, qc', obj', evs, hc, heq, hnew, -⟩ := updateHighestQC_chain h.cache hb hm (fun _ => hver) h.generic
    (by omega) (by omega) (by omega) obj
  obtain rfl := hnew (by omega)
  rw [heq]
  exact ⟨evs, rfl, ⟨h.cache.looked hc, hqc, h.locked, h.exec, h.voteHeight, h.voteSet, h.crashed⟩, rfl⟩

/-- The core collects votes for block `m + 1` and has those of the replicas `ids`. -/
structure Collects (replicas : ReplicaConf) (cmd : Nat → Bytes) (m : Nat) (ids : List Int64) (s : Core) : Prop where
  upto : Upto replicas cmd (m + 1) m s
  block : ∃ obj b, s.object? (chainHash cmd (m + 1)) = some ⟨obj, b⟩ ∧ IsBlock replicas cmd (m + 1) b ∧
    replicas.Signed (chainHash cmd (m + 1)) b.selfQc.signs ∧ b.selfQc.signs.keys = ids

theorem Upto.setSigns (h : Upto env.replicas cmd m g s) (obj : Nat) (signs : Signs) :
    Upto env.replicas cmd m g (s.setSigns obj signs) := by
  refine ⟨h.cache.writeSigns obj signs, ?_, h.locked, h.exec, h.voteHeight, h.voteSet, h.crashed⟩
  have hgen : (if s.genericObj = some obj then { s.genericQC with signs := signs } else s.genericQC).blockHash =
      s.genericQC.blockHash := by
    split <;> rfl
  exact hgen.trans h.generic

private theorem Upto.touch (h : Upto env.replicas cmd m g s) {k : Nat} (hk : k ≤ m) (hm : m ≤ k + 4) :
    Upto env.replicas cmd m g (s.touch (chainHash cmd k)) :=
  ⟨h.cache.looked (looked_touch hk hm), h.generic, h.locked, h.exec, h.voteHeight, h.voteSet, h.crashed⟩

private theorem applyVotes_of_empty (h : s.voteSet = ∅) (hash : Bytes) (signs : Signs) :
    s.applyVotes hash signs = (signs, s) := by
  unfold applyVotes
  dsimp only
  rw [h, AList.lookup_empty]

/-- `OnProposalVote` with a new vote: it is counted, and if it completes the quorum the certificate is adopted and the
pacemaker told. -/
theorem Collects.vote {ids : List Int64} (h : Collects env.replicas cmd m ids s) (hm : m + 1 < 2 ^ 63)
    (hlt : (ids.length : Int) < getQuorumSize env.replicas.metadata) (vote : Vote)
    (hhash : vote.blockHash = chainHash cmd (m + 1)) (hnew : vote.voter ∉ ids)
    (hver : env.replicas.verifyIdentity vote.voter vote.cert.signature (chainHash cmd (m + 1)) = true) :
    ∃ s' evs, s.onProposalVote env vote = (.ok (), s') ∧ s'.notified = s.notified ++ evs ∧
      ((Collects env.replicas cmd m (vote.voter :: ids) s' ∧ (ids.length : Int) + 1 < getQuorumSize env.replicas.metadata) ∨
        getQuorumSize env.replicas.metadata ≤ ids.length + 1 ∧ Upto env.replicas cmd (m + 1) (m + 1) s' ∧
          env.replicas.verifyQuorumCert s'.genericQC = true ∧
          ∃ proposer qc, Event.qcFinish proposer qc ∈ evs ∧ qc.viewNumber = Int64.ofNat m) := by
  obtain ⟨hupto, obj, b, ho, hb, hsigned, rfl⟩ := h
  have hmem : vote.voter ∉ b.selfQc.signs := fun hin => hnew (AList.mem_keys.1 hin)
  -- the state with the vote in the block
  obtain ⟨signs, hsigns⟩ : ∃ signs, signs = b.selfQc.signs.insert vote.voter vote.cert := ⟨_, rfl⟩
  have hkeys : signs.keys = vote.voter :: b.selfQc.signs.keys := by
    rw [hsigns, AList.keys_insert, List.erase_of_not_mem hnew]
  have hsigned' : env.replicas.Signed (chainHash cmd (m + 1)) signs := hsigns ▸ hsigned.insert hver
  have hcounted := (hupto.touch (Nat.le_refl _) (by omega)).setSigns obj signs
  have hobject : ((s.touch (chainHash cmd (m + 1))).setSigns obj signs).object? (chainHash cmd (m + 1)) =
      some ⟨obj, { b with selfQc := { b.selfQc with signs := signs } }⟩ := by
    have htouch : (s.touch (chainHash cmd (m + 1))).object? (chainHash cmd (m + 1)) = some ⟨obj, b⟩ :=
      (Cache.find?_touch _ _ _).trans ho
    rw [object?_setSigns, htouch]
    show some (writeSigns obj signs ⟨obj, b⟩) = _
    rw [writeSigns, if_pos rfl]
  have hb' : IsBlock env.replicas cmd (m + 1) { b with selfQc := { b.selfQc with signs := signs } } := hb.of_body rfl
  unfold onProposalVote
  rw [hhash, ho]
  dsimp only
  rw [if_neg (by omega), if_neg hmem, ← hsigns,
    applyVotes_of_empty (s := s.touch (chainHash cmd (m + 1))) hupto.voteSet]
  dsimp only
  by_cases hmore : (signs.keys.length : Int) < getQuorumSize env.replicas.metadata
  · rw [if_pos hmore]
    refine ⟨_, [], rfl, (List.append_nil _).symm, Or.inl ⟨⟨hcounted, obj, _, hobject, hb', hsigned', hkeys⟩, ?_⟩⟩
    rw [hkeys, List.length_cons] at hmore
    omega
  · rw [if_neg hmore]
    have hqc : env.replicas.verifyQuorumCert { b.selfQc with signs := signs } = true := by
      refine ReplicaConf.Signed.verify ?_ (by omega) (Int.not_lt.1 hmore)
      show env.replicas.Signed b.selfQc.blockHash signs
      rw [hb.self]
      exact hsigned'
    obtain ⟨evs, hevs, hcert, hgen⟩ := hcounted.certify hm hb' hqc hb.self (some obj)
    refine ⟨_, evs ++ [.qcFinish b.proposer { b.selfQc with signs := signs }], rfl, ?_, Or.inr ⟨?_, ?_, ?_, b.proposer, _,
      List.mem_append_right _ (List.mem_singleton_self _), ?_⟩⟩
    · show _ ++ [_] = _
      rw [hevs, List.append_assoc]
      rfl
    · rw [hkeys, List.length_cons] at hmore
      omega
    · exact ⟨hcert.cache, hcert.generic, hcert.locked, hcert.exec, hcert.voteHeight, hcert.voteSet, hcert.crashed⟩
    · show env.replicas.verifyQuorumCert (updateHighestQC _ _ _ _ _).genericQC = true
      rw [hgen]
      exact hqc
    · show b.selfQc.viewNumber = Int64.ofNat m
      rw [hb.view, Int64.ofNat_add]
      exact Int64.add_sub_cancel _ _

/-- The block that the leader of the round makes. -/
private theorem isBlock_newBlock (hg : s.genericQC.blockHash = chainHash cmd m)
    (hver : m ≠ 0 → env.replicas.verifyQuorumCert s.genericQC = true) (hb : IsBlock env.replicas cmd m b) (now : Int64) :
    IsBlock env.replicas cmd (m + 1) (s.newBlock env (Int64.ofNat m) (chainHash cmd m) (cmd m) b now) := by
  have hheight : b.height + 1 = Int64.ofNat (m + 1) := by
    rw [hb.height, Int64.ofNat_add]
    rfl
  refine ⟨hheight, ?_, ?_, fun h => absurd h (Nat.succ_ne_zero m), ?_, ?_, ?_⟩
  · show getBlockHash (s.createLeaf env (chainHash cmd m) (cmd m) (b.height + 1) now) = chainHash cmd (m + 1)
    rw [hheight]
    rfl
  · show Int64.ofNat m = Int64.ofNat (m + 1) - 1
    rw [Int64.ofNat_add]
    exact (Int64.add_sub_cancel _ _).symm
  all_goals
    intro j hj
    obtain rfl : m = j := by omega
  · rfl
  · rfl
  · exact ⟨s.genericQC, rfl, hg, hver⟩

/-- `OnPropose` by the leader, whose certificate is for the last block: the next block is stored, voted for and handed to
the pacemaker, and three blocks below are decided. -/
theorem Upto.propose (h : Upto env.replicas cmd m m s) (hver : m ≠ 0 → env.replicas.verifyQuorumCert s.genericQC = true)
    (hm : m + 1 < 2 ^ 63) (hnew : ∀ k ≤ m, chainHash cmd k ≠ chainHash cmd (m + 1)) (hw : env.SignerWorks)
    (hq : 2 ≤ getQuorumSize env.replicas.metadata) (now : Int64) :
    ∃ s' b evs, s.onPropose env (Int64.ofNat m) s.genericQC.blockHash (cmd m) now = (.ok, s') ∧
      Upto env.replicas cmd (m + 1) m s' ∧ s'.notified = s.notified ++ evs ∧ IsBlock env.replicas cmd (m + 1) b ∧
      env.replicas.Signed (chainHash cmd (m + 1)) b.selfQc.signs ∧ b.selfQc.signs.keys = [env.id] ∧
      Event.propose ⟨Int64.ofNat m, b⟩ ∈ evs ∧
      (3 ≤ m → ∃ d, IsBlock env.replicas cmd (m - 2) d ∧ Event.decide d ∈ evs) := by
  obtain ⟨pb, c0, h0, hpb, hc0⟩ := loadBlock_chain (k := m) h.cache (by omega) (by omega)
  have hs0 : Upto env.replicas cmd m m { s with blockCache := c0 } :=
    ⟨h.cache.looked hc0, h.generic, h.locked, h.exec, h.voteHeight, h.voteSet, h.crashed⟩
  have hnb := isBlock_newBlock (s := { s with blockCache := c0 }) h.generic hver hpb now
  have hempty : (newBlock env { s with blockCache := c0 } (Int64.ofNat m) (chainHash cmd m) (cmd m) pb now).selfQc.signs =
      ∅ := rfl
  unfold onPropose
  rw [h.generic, h0]
  dsimp only
  generalize newBlock env { s with blockCache := c0 } (Int64.ofNat m) (chainHash cmd m) (cmd m) pb now = nb at hnb hempty ⊢
  have hlow : ¬ nb.height ≤ s.voteHeight := by
    rw [hnb.height, h.voteHeight, Int64.not_le]
    exact (ofNat_lt_ofNat (by omega) hm).2 (by omega)
  rw [if_neg hlow]
  have hcache := hs0.storeBlock hnew hnb
  have hself := object?_storeBlock_self { s with blockCache := c0 } nb
  rw [hnb.self] at hself
  obtain ⟨t, ht⟩ : ∃ t, t = Core.storeBlock { s with blockCache := c0 } nb := ⟨_, rfl⟩
  have hfields : t.genericQC = s.genericQC ∧ t.lockedQC = s.lockedQC ∧ t.execQC = s.execQC ∧ t.voteSet = s.voteSet ∧
      t.crashed = s.crashed ∧ t.notified = s.notified := by
    rw [ht]
    exact ⟨rfl, rfl, rfl, rfl, rfl, rfl⟩
  obtain ⟨hgen, hlock, hexec, hset, hcr, hnot⟩ := hfields
  rw [← ht] at hcache hself ⊢
  obtain ⟨c1, gqc, obj, lqc, xqc, evs, hc1, h1, hgq, hlq, hxq, hdec⟩ := update_chain hcache hm hnb
    (hgen ▸ h.generic) (Nat.le_refl m) (by omega) (hlock ▸ h.locked) (hexec ▸ h.exec)
  obtain ⟨sig, log, votes, hsig, h2⟩ := voteProposal_works hw
    { t with
      blockCache := c1, genericQC := gqc, genericObj := obj, lockedQC := lqc, execQC := xqc, voteHeight := nb.height
      notified := t.notified ++ evs }
    (Int64.ofNat m) nb.height nb.selfQc.blockHash
  rw [hnb.self] at hsig h2
  have hcollects : Collects env.replicas cmd m []
      { t with
        blockCache := c1, genericQC := gqc, genericObj := obj, lockedQC := lqc, execQC := xqc, voteHeight := nb.height
        notified := t.notified ++ evs, signLog := log, votes := votes } := by
    refine ⟨⟨hcache.looked hc1, hgq, hlq, hxq, hnb.height, hset.trans h.voteSet, hcr.trans h.crashed⟩, s.objects, nb,
      ?_, hnb, ?_, ?_⟩
    · exact (hc1.find? _).trans hself
    · rw [hempty]
      exact ReplicaConf.signed_empty _ _
    · rw [hempty]
      rfl
  obtain ⟨s', evs', h3, hevs', hcase⟩ := hcollects.vote hm (by simp; omega)
    ⟨Int64.ofNat m, env.id, chainHash cmd (m + 1), ⟨env.id, sig⟩⟩ rfl List.not_mem_nil hsig
  obtain ⟨hcollects', -⟩ : Collects env.replicas cmd m [env.id] s' ∧ _ := hcase.resolve_right fun hfull => by
    have hlen := hfull.1
    simp at hlen
    omega
  obtain ⟨hupto, obj', b, hobj, hb, hsigned, hkeys⟩ := hcollects'
  have hload : s'.load (chainHash cmd (m + 1)) = some b := load_eq_some.2 ⟨obj', hobj⟩
  rw [h1]
  dsimp only [setVoteHeight]
  rw [hnb.self, h2]
  dsimp only
  rw [h3]
  dsimp only
  rw [hload]
  refine ⟨_, b, evs ++ (evs' ++ [.propose ⟨Int64.ofNat m, b⟩]), rfl, ?_, ?_, hb, hsigned, hkeys, ?_, fun hle => ?_⟩
  · exact ⟨hupto.cache, hupto.generic, hupto.locked, hupto.exec, hupto.voteHeight, hupto.voteSet, hupto.crashed⟩
  · show s'.notified ++ [_] = _
    rw [hevs', hnot, List.append_assoc, List.append_assoc]
    rfl
  · exact List.mem_append_right _ (List.mem_append_right _ (List.mem_singleton_self _))
  · obtain ⟨d, hd, hmem⟩ := hdec hle
    exact ⟨d, hd, List.mem_append_left _ hmem⟩

end Core

end GoHotstuff
