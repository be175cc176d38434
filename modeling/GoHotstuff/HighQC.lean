import GoHotstuff.BlockStore
import GoHotstuff.NodeStep

/-!
# The highest certificate

`genericQC` is replaced in three places: by `update`, when a vote completes a certificate, and when a new-view message
brings one.  The invariant `HighInv` says that it is the genesis certificate or verifies.  Votes are written into a
certificate in place, and `genericQC` may be the certificate written to; but votes are only added while it has fewer than
a quorum, so a certificate that verifies is never written to again.

`HighStep s s'` says that a call keeps `genericQC`, apart from votes collected for it, or moves it to a certificate whose
block is higher, both blocks being looked up in the store as it then is.
-/

namespace GoHotstuff

open Lib (Bytes encodeToString run StepsMeet)

/-- The certificate of the genesis block, with whatever votes have been collected for it. -/
def QuorumCert.IsGenesis (qc : QuorumCert) : Prop := qc.viewNumber = -1 ∧ qc.blockHash = genesisHash

namespace Core

structure HighInv (env : Env) (s : Core) : Prop extends StoreInv s where
  objGeneric : ∀ k, s.genericObj = some k → k < s.objects
  same : ∀ k o, s.blockCache.find? k = some o → s.genericObj = some o.obj → o.block.selfQc = s.genericQC
  high : s.genericQC.IsGenesis ∨ env.replicas.verifyQuorumCert s.genericQC = true

/-- The height of the block found under a hash. -/
def height? (s : Core) (hash : Bytes) : Option Int64 := (s.load hash).map fun b => b.height

/-- `genericQC` is the same certificate in both states, apart from votes collected for it where it is the certificate of a
block in the store. -/
def HighKept (s s' : Core) : Prop :=
  s'.genericObj = s.genericObj ∧ (∃ signs, s'.genericQC = { s.genericQC with signs := signs }) ∧
    (s.genericObj = none → s'.genericQC = s.genericQC)

/-- `genericQC` has moved to a certificate for a higher block. -/
def HighRaised (s s' : Core) : Prop :=
  ∃ x y, s'.height? s.genericQC.blockHash = some x ∧ s'.height? s'.genericQC.blockHash = some y ∧ x < y

def HighStep (s s' : Core) : Prop := HighKept s s' ∨ HighRaised s s'

private theorem height?_of_load {s s' : Core} (h : ∀ hash, s'.load hash = s.load hash) (hash : Bytes) :
    s'.height? hash = s.height? hash := by
  unfold height?
  rw [h]

private theorem SameEntries.height? {s s' : Core} (e : SameEntries s s') (hash : Bytes) :
    s'.height? hash = s.height? hash := by
  obtain ⟨-, -, hk | ⟨obj, signs, hk⟩⟩ := e
  · apply height?_of_load
    intro h
    exact congrArg (Option.map fun o => o.block) (hk (encodeToString h))
  · have ho : s'.object? hash = (s.object? hash).map (writeSigns obj signs) := hk (encodeToString hash)
    unfold Core.height? load
    rw [ho]
    cases s.object? hash with
    | none => rfl
    | some o => exact congrArg some (height_body (body_writeSigns obj signs o))

theorem SameEntries.isSome_load {s s' : Core} (e : SameEntries s s') (hash : Bytes) :
    (s'.load hash).isSome = (s.load hash).isSome := by
  have hheight := e.height? hash
  unfold Core.height? at hheight
  have hsome := congrArg Option.isSome hheight
  rw [Option.isSome_map, Option.isSome_map] at hsome
  exact hsome

theorem highKept_of_eq {s s' : Core} (ho : s'.genericObj = s.genericObj) (hg : s'.genericQC = s.genericQC) :
    HighKept s s' := ⟨ho, ⟨s.genericQC.signs, hg⟩, fun _ => hg⟩

theorem HighKept.blockHash {s s' : Core} (h : HighKept s s') : s'.genericQC.blockHash = s.genericQC.blockHash := by
  obtain ⟨-, ⟨signs, hg⟩, -⟩ := h
  rw [hg]

private theorem HighKept.trans {s t s' : Core} (h : HighKept s t) (h' : HighKept t s') : HighKept s s' := by
  obtain ⟨hobj, ⟨signs, hg⟩, hown⟩ := h
  obtain ⟨hobj', ⟨signs', hg'⟩, hown'⟩ := h'
  refine ⟨hobj'.trans hobj, ⟨signs', by rw [hg', hg]⟩, fun hnone => ?_⟩
  exact (hown' (hobj.trans hnone)).trans (hown hnone)

private theorem highKept_setSigns (s : Core) (vs : AList (fun _ : List Char => List Vote)) (obj : Nat) (signs : Signs) :
    HighKept s (setSigns { s with voteSet := vs } obj signs) := by
  have hgeneric : (setSigns { s with voteSet := vs } obj signs).genericQC =
      if s.genericObj = some obj then { s.genericQC with signs := signs } else s.genericQC := rfl
  refine ⟨rfl, ?_, fun hnone => ?_⟩
  · rw [hgeneric]
    split
    · exact ⟨signs, rfl⟩
    · exact ⟨s.genericQC.signs, rfl⟩
  · rw [hgeneric, hnone, if_neg nofun]

private theorem HighStep.trans {s t s' : Core} (h : HighStep s t) (h' : HighStep t s')
    (hh : ∀ hash, s'.height? hash = t.height? hash) : HighStep s s' := by
  rcases h with hk | ⟨x, y, hx, hy, hlt⟩
  · rcases h' with hk' | ⟨x, y, hx, hy, hlt⟩
    · exact Or.inl (hk.trans hk')
    · rw [hk.blockHash] at hx
      exact Or.inr ⟨x, y, hx, hy, hlt⟩
  · right
    rcases h' with hk' | ⟨x', y', hx', hy', hlt'⟩
    · refine ⟨x, y, ?_, ?_, hlt⟩
      · rw [hh]
        exact hx
      · rw [hk'.blockHash, hh]
        exact hy
    · rw [hh, hy] at hx'
      obtain rfl := Option.some.inj hx'
      refine ⟨x, y', ?_, hy', by lia⟩
      rw [hh]
      exact hx

/-- A change that touches neither the two fields of the highest certificate nor the store. -/
private theorem HighInv.congr {env : Env} {s s' : Core} (h : HighInv env s) (hg : s'.genericQC = s.genericQC)
    (hgo : s'.genericObj = s.genericObj) (ho : s'.objects = s.objects) (hs : s'.stored = s.stored)
    (hk : ∀ key, s'.blockCache.find? key = s.blockCache.find? key) : HighInv env s' := by
  refine ⟨h.toStoreInv.of_find? ho hs hk, ?_, ?_, ?_⟩
  · rw [hgo, ho]
    exact h.objGeneric
  · intro k o
    rw [hk, hgo, hg]
    exact h.same k o
  · rw [hg]
    exact h.high

theorem Quiet.highInv {env : Env} {s s' : Core} (q : Quiet s s') (h : HighInv env s) : HighInv env s' := by
  obtain ⟨c, w, k, x, hc, hp, rfl⟩ := q
  exact h.congr rfl rfl rfl rfl hc

theorem Quiet.highKept {s s' : Core} (q : Quiet s s') : HighKept s s' := by
  obtain ⟨c, w, k, x, hc, hp, rfl⟩ := q
  exact highKept_of_eq rfl rfl

theorem HighInv.storeBlock {env : Env} {s : Core} (h : HighInv env s) (b : Block) : HighInv env (s.storeBlock b) := by
  refine ⟨h.toStoreInv.storeBlock b, ?_, ?_, h.high⟩
  · intro k hk
    exact Nat.lt_succ_of_lt (h.objGeneric k hk)
  · intro k o hf hobj
    rcases find?_storeBlock hf with ⟨-, rfl⟩ | hf'
    · exact absurd (h.objGeneric s.objects hobj) (Nat.lt_irrefl _)
    · exact h.same k o hf' hobj

/-- Replacing `genericQC` by a certificate that verifies and is not one of the store's. -/
private theorem HighInv.replace {env : Env} {s s' : Core} (h : HighInv env s) {qc : QuorumCert}
    (hv : env.replicas.verifyQuorumCert qc = true) (hg : s'.genericQC = qc) (hgo : s'.genericObj = none)
    (ho : s'.objects = s.objects) (hs : s'.stored = s.stored)
    (hk : ∀ key, s'.blockCache.find? key = s.blockCache.find? key) : HighInv env s' := by
  refine ⟨h.toStoreInv.of_find? ho hs hk, ?_, ?_, ?_⟩
  · intro k hobj
    rw [hgo] at hobj
    cases hobj
  · intro k o hf hobj
    rw [hgo] at hobj
    cases hobj
  · rw [hg]
    exact Or.inr hv

private theorem UpdateResult.highInv {env : Env} {s s' : Core} {b : Block} {r : Except CoreError Unit}
    (u : UpdateResult env s b r s') (h : HighInv env s) : HighInv env s' := by
  obtain ⟨ho, hs, hk⟩ := u.quiet_store
  rcases u.generic with ⟨hg, hgo⟩ | ⟨qc2, b2, hb, -, hv, -, -, hg, hgo⟩
  · exact h.congr hg hgo ho hs hk
  · exact h.replace hv hg hgo ho hs hk

private theorem UpdateResult.highStep {env : Env} {s s' : Core} {b : Block} {r : Except CoreError Unit}
    (u : UpdateResult env s b r s') : HighStep s s' := by
  rcases u.generic with ⟨hg, hgo⟩ | ⟨qc2, b2, hb, h2, hv, hl, hh, hg, hgo⟩
  · exact Or.inl (highKept_of_eq hgo hg)
  · obtain ⟨-, hl2⟩ := justifyBlock?_eq_some.1 h2
    refine Or.inr ⟨hb.height, b2.height, ?_, ?_, hh⟩
    · unfold height?
      rw [u.load, hl]
      rfl
    · unfold height?
      rw [u.load, hg, hl2]
      rfl

/-- Votes are written into the certificate of an object that has not got a quorum yet. -/
private theorem HighInv.of_setSigns {env : Env} {s : Core} (h : HighInv env s) {k : List Char} {o : Stored}
    (hf : s.blockCache.find? k = some o)
    (hq : (o.block.selfQc.signs.keys.length : Int) < getQuorumSize env.replicas.metadata)
    (vs : AList (fun _ : List Char => List Vote)) (signs : Signs) :
    HighInv env (setSigns { s with voteSet := vs } o.obj signs) := by
  have hfind : ∀ key, (setSigns { s with voteSet := vs } o.obj signs).blockCache.find? key =
      (s.blockCache.find? key).map (writeSigns o.obj signs) := fun key => Cache.find?_mapValue _ _ _
  have hgeneric : (setSigns { s with voteSet := vs } o.obj signs).genericQC =
      if s.genericObj = some o.obj then { s.genericQC with signs := signs } else s.genericQC := rfl
  have hsame : SameEntries s (setSigns { s with voteSet := vs } o.obj signs) :=
    ⟨rfl, rfl, Or.inr ⟨o.obj, signs, hfind⟩⟩
  refine ⟨hsame.storeInv h.toStoreInv, h.objGeneric, ?_, ?_⟩
  · intro key o' hf' hobj
    rw [hfind, Option.map_eq_some_iff] at hf'
    obtain ⟨o₀, hf₀, rfl⟩ := hf'
    rw [obj_writeSigns] at hobj
    have hqc := h.same key o₀ hf₀ hobj
    have hobj' : s.genericObj = some o₀.obj := hobj
    rw [hgeneric]
    unfold writeSigns
    by_cases heq : o₀.obj = o.obj
    · rw [if_pos heq, if_pos (hobj'.trans (congrArg some heq)), ← hqc]
    · rw [if_neg heq, if_neg (fun hc => heq (Option.some.inj (hobj'.symm.trans hc)))]
      exact hqc
  · rw [hgeneric]
    by_cases hobj : s.genericObj = some o.obj
    · -- the certificate written to is `genericQC` itself: it has no quorum, so it is the genesis certificate
      rw [if_pos hobj]
      rcases h.high with hgen | hver
      · exact Or.inl hgen
      · have hlen := ReplicaConf.quorumSize_le_of_verify hver
        rw [← h.same k o hf hobj] at hlen
        omega
    · rw [if_neg hobj]
      exact h.high

/-- A certificate completed by a vote replaces `genericQC`. -/
private theorem HighInv.finish {env : Env} {s : Core} (h : HighInv env s) {k : List Char} {o : Stored}
    (hf : s.blockCache.find? k = some o)
    (hq : (o.block.selfQc.signs.keys.length : Int) < getQuorumSize env.replicas.metadata)
    (vs : AList (fun _ : List Char => List Vote)) (signs : Signs) (b : Block) :
    HighInv env ((setSigns { s with voteSet := vs } o.obj signs).highQC env b { o.block.selfQc with signs := signs }
      (some o.obj)) := by
  have hset := h.of_setSigns hf hq vs signs
  rcases highQC_cases env (setSigns { s with voteSet := vs } o.obj signs) b { o.block.selfQc with signs := signs }
    (some o.obj) with heq | ⟨hb, hv, -, -, heq⟩
  · rw [heq]
    exact hset
  rw [heq]
  refine ⟨hset.toStoreInv.of_find? rfl rfl fun _ => rfl, ?_, ?_, Or.inr hv⟩
  · intro k' hk'
    obtain rfl := Option.some.inj hk'
    exact h.fresh k o hf
  · intro k' o' hf' hobj
    have hf' : ((s.blockCache.mapValue (writeSigns o.obj signs)).find? k') = some o' := hf'
    rw [Cache.find?_mapValue, Option.map_eq_some_iff] at hf'
    obtain ⟨o₀, hf₀, rfl⟩ := hf'
    rw [obj_writeSigns] at hobj
    have hobj : o.obj = o₀.obj := Option.some.inj hobj
    rw [h.inj k' o₀ k o hf₀ hf hobj.symm]
    unfold writeSigns
    rw [if_pos rfl]

private theorem VoteResult.highInv {env : Env} {s s' : Core} {vote : Vote} {r : Except CoreError Unit}
    (v : VoteResult env s vote r s') (h : HighInv env s) : HighInv env s' := by
  cases v with
  | stash ho q =>
    rw [addVoteMsg_eq] at q
    refine q.highInv ?_
    exact h.congr rfl rfl rfl rfl fun _ => rfl
  | full ho hq q => exact q.highInv h
  | duplicate ho hv q => exact q.highInv h
  | counted ho hq hsigns hvs q => exact q.highInv (h.of_setSigns ho hq _ _)
  | finished ho hq hsigns hvs q =>
    refine q.highInv ?_
    exact (h.finish ho hq _ _ _).congr rfl rfl rfl rfl fun _ => rfl

theorem VoteResult.highStep {env : Env} {s s' : Core} {vote : Vote} {r : Except CoreError Unit}
    (v : VoteResult env s vote r s') (h : StoreInv s) : HighStep s s' := by
  have hentries := v.sameEntries
  cases v with
  | stash ho q =>
    rw [addVoteMsg_eq] at q
    exact Or.inl q.highKept
  | full ho hq q => exact Or.inl q.highKept
  | duplicate ho hv q => exact Or.inl q.highKept
  | @counted o signs vs _ ho hq hsigns hvs q =>
    exact Or.inl ((highKept_setSigns s vs o.obj signs).trans q.highKept)
  | @finished o signs vs _ ho hq hsigns hvs q =>
    have hset := highKept_setSigns s vs o.obj signs
    have hkept := q.highKept
    rcases highQC_cases env (setSigns { s with voteSet := vs } o.obj signs)
      { o.block with selfQc := { o.block.selfQc with signs := signs } } { o.block.selfQc with signs := signs }
      (some o.obj) with heq | ⟨hb, -, hl, hh, heq⟩
    · rw [heq] at hkept
      exact Or.inl (hset.trans hkept)
    · -- the new certificate's block is the object just written to
      right
      have hnew : s.load o.block.selfQc.blockHash = some o.block := by
        have hkey := h.key _ _ ho
        rw [Lib.encodeToString_inj] at hkey
        rw [← hkey]
        exact load_eq_some.2 ⟨o.obj, ho⟩
      have hold : (setSigns { s with voteSet := vs } o.obj signs).height? s.genericQC.blockHash = some hb.height := by
        unfold height?
        rw [← hset.blockHash, hl]
        rfl
      have hsame : SameEntries s (setSigns { s with voteSet := vs } o.obj signs) :=
        ⟨rfl, rfl, Or.inr ⟨o.obj, signs, fun key => Cache.find?_mapValue _ _ _⟩⟩
      rw [hsame.height?] at hold
      have hhash := hkept.blockHash
      rw [heq] at hhash
      refine ⟨hb.height, o.block.height, ?_, ?_, hh⟩
      · rw [hentries.height?]
        exact hold
      · rw [hentries.height?, hhash]
        show s.height? o.block.selfQc.blockHash = some o.block.height
        unfold height?
        rw [hnew]
        rfl

theorem HighStep.congr_right {s s' s'' : Core} (h : HighStep s s') (hg : s''.genericQC = s'.genericQC)
    (hgo : s''.genericObj = s'.genericObj) (hl : ∀ hash, s''.height? hash = s'.height? hash) : HighStep s s'' :=
  h.trans (Or.inl (highKept_of_eq hgo hg)) hl

theorem ProcessResult.high {env : Env} {s s' : Core} {prop : Proposal} (p : ProcessResult env s prop s')
    (h : HighInv env s) : HighInv env s' ∧ HighStep s s' := by
  cases p with
  | updateError hu =>
    have u := update_result hu
    exact ⟨u.highInv h, u.highStep⟩
  | checkError hu hv q =>
    have u := update_result hu
    exact ⟨q.highInv (u.highInv h), u.highStep.trans (Or.inl q.highKept) q.sameEntries.height?⟩
  | signError hu hv q =>
    have u := update_result hu
    obtain ⟨c, w, k, x, hc, hp, rfl⟩ := q
    refine ⟨(u.highInv h).congr rfl rfl rfl rfl hc, u.highStep.congr_right rfl rfl ?_⟩
    exact SameEntries.height? ⟨rfl, rfl, Or.inl hc⟩
  | voted hu hv q hvote =>
    have u := update_result hu
    obtain ⟨c, w, k, x, hc, hp, rfl⟩ := q
    refine ⟨(u.highInv h).congr rfl rfl rfl rfl hc, u.highStep.congr_right rfl rfl ?_⟩
    exact SameEntries.height? ⟨rfl, rfl, Or.inl hc⟩

theorem ProposeResult.high {env : Env} {s s' : Core} {curView : Int64} {b : Block}
    (p : ProposeResult env s curView b s') (h : HighInv env s) : HighInv env s' ∧ HighStep s s' := by
  cases p with
  | updateError hu =>
    have u := update_result hu
    exact ⟨u.highInv h, u.highStep⟩
  | signError hu =>
    have u := update_result hu
    exact ⟨(u.highInv h).congr rfl rfl rfl rfl fun _ => rfl, u.highStep.congr_right rfl rfl fun _ => rfl⟩
  | @voted sig vote r s1 s3 _ hu hvote v hs' =>
    have u := update_result hu
    have hinv2 : HighInv env { s1.setVoteHeight b.height with
        signLog := s1.signLog ++ [(b.selfQc.blockHash, some sig)], votes := s1.votes ++ [⟨b.height, vote⟩] } :=
      (u.highInv h).congr rfl rfl rfl rfl fun _ => rfl
    have hstep2 : HighStep s { s1.setVoteHeight b.height with
        signLog := s1.signLog ++ [(b.selfQc.blockHash, some sig)], votes := s1.votes ++ [⟨b.height, vote⟩] } :=
      u.highStep.congr_right rfl rfl fun _ => rfl
    have hstep3 : HighStep s s3 := hstep2.trans (v.highStep hinv2.toStoreInv) v.sameEntries.height?
    have hinv3 := v.highInv hinv2
    rcases hs' with rfl | rfl
    · exact ⟨hinv3, hstep3⟩
    · exact ⟨hinv3.congr rfl rfl rfl rfl fun _ => rfl, hstep3.congr_right rfl rfl fun _ => rfl⟩

/-- Every call keeps the invariant, and the highest certificate or raises it. -/
theorem HighInv.step {env : Env} {s : Core} (h : HighInv env s) (op : CoreOp) :
    HighInv env (s.step env op) ∧ HighStep s (s.step env op) := by
  have hres := step_cases env s op
  generalize s.step env op = s' at hres
  cases hres with
  | quiet hop q => exact ⟨q.highInv h, Or.inl q.highKept⟩
  | propose hl hh p => exact p.high (((quiet_touch s _).highInv h).storeBlock _)
  | store hw q =>
    obtain ⟨c, w, k, x, hc, hp, rfl⟩ := q
    exact ⟨(h.storeBlock _).congr rfl rfl rfl rfl hc, Or.inl (highKept_of_eq rfl rfl)⟩
  | receive q hj p =>
    obtain ⟨hinv, hstep⟩ := p.high (q.highInv (h.storeBlock _))
    obtain ⟨c, w, k, x, hc, hp, rfl⟩ := q
    exact ⟨hinv, hstep⟩
  | resume hi q hj p =>
    obtain ⟨hinv, hstep⟩ := p.high (q.highInv h)
    obtain ⟨c, w, k, x, hc, hp, rfl⟩ := q
    exact ⟨hinv, hstep⟩
  | vote v => exact ⟨v.highInv h, v.highStep h.toStoreInv⟩
  | newView => exact ⟨h.congr rfl rfl rfl rfl fun _ => rfl, Or.inl (highKept_of_eq rfl rfl)⟩
  | @adopt qc b _ hl q =>
    rcases highQC_cases env s b qc none with heq | ⟨hb, hv, hlg, hh, heq⟩
    · rw [heq] at q
      exact ⟨q.highInv h, Or.inl q.highKept⟩
    · rw [heq] at q
      have hinv : HighInv env { s with
          genericQC := qc, genericObj := none, notified := s.notified ++ [.hqcUpdate qc] } :=
        h.replace hv rfl rfl rfl rfl fun _ => rfl
      have hstep : HighRaised s { s with
          genericQC := qc, genericObj := none, notified := s.notified ++ [.hqcUpdate qc] } := by
        refine ⟨hb.height, b.height, ?_, ?_, hh⟩
        · exact congrArg (Option.map fun b => b.height) hlg
        · exact congrArg (Option.map fun b => b.height) hl
      exact ⟨q.highInv hinv, HighStep.trans (Or.inr hstep) (Or.inl q.highKept) q.sameEntries.height?⟩
  | sign => exact ⟨h.congr rfl rfl rfl rfl fun _ => rfl, Or.inl (highKept_of_eq rfl rfl)⟩

theorem highInv_newHotStuffCore (env : Env) : HighInv env newHotStuffCore := by
  refine ⟨storeInv_newHotStuffCore, ?_, ?_, Or.inl ⟨rfl, rfl⟩⟩
  · intro k hk
    obtain rfl := Option.some.inj hk
    exact Nat.zero_lt_one
  · intro k o hf hobj
    rcases find?_storeBlock hf with ⟨-, rfl⟩ | hf'
    · rfl
    · cases hf'

end Core

namespace Node

open GoHotstuff.Core (HighInv HighStep)

/-- A list of minor calls: no block is stored, so that heights stay and the steps compose. -/
private theorem highInv_minor {env : NodeEnv} {n : Node} {a : Action} {ops : List CoreOp}
    (hops : ∀ op ∈ ops, MinorCall env n a op) {s : Core} (h : HighInv env.toEnv s) :
    HighInv env.toEnv (run (Core.step env.toEnv) s ops) ∧ HighStep s (run (Core.step env.toEnv) s ops) ∧
      ∀ hash, (run (Core.step env.toEnv) s ops).height? hash = s.height? hash := by
  induction ops generalizing s with
  | nil => exact ⟨h, Or.inl (Core.highKept_of_eq rfl rfl), fun _ => rfl⟩
  | cons op ops ih =>
    obtain ⟨hinv, hstep⟩ := h.step op
    have hheight := ((hops op (by simp)).sameEntries s).height?
    obtain ⟨hinv', hstep', hheight'⟩ := ih (fun op' hop' => hops op' (by simp [hop'])) hinv
    exact ⟨hinv', hstep.trans hstep' hheight', fun hash => (hheight' hash).trans (hheight hash)⟩

theorem highInv_step {env : NodeEnv} {n : Node} (h : HighInv env.toEnv n.core) (a : Action) :
    HighInv env.toEnv (n.step env a).core ∧ HighStep n.core (n.step env a).core := by
  cases step_case env n a with
  | minor m =>
    obtain ⟨ops, hcore, hops⟩ := m.core
    obtain ⟨hinv, hstep, -⟩ := highInv_minor hops h
    rw [hcore]
    exact ⟨hinv, hstep⟩
  | @main op s hop hcore m =>
    have hq := hop.quiet
    obtain ⟨hinv, hstep⟩ := (hq.highInv h).step op
    rw [hcore]
    obtain ⟨c, w, k, x, hc, hp, rfl⟩ := hq
    exact ⟨hinv, hstep⟩

private theorem highInv_run (env : NodeEnv) (as : List Action) :
    HighInv env.toEnv (run (step env) newNode as).core := by
  induction as using List.reverseRecOn with
  | nil => exact Core.highInv_newHotStuffCore env.toEnv
  | append_singleton as a ih =>
    rw [Lib.run_append]
    exact (highInv_step ih a).1

end Node

/-- The high QC invariant, over every run of a replica and whatever messages arrive.  `genericQC` is the genesis certificate
or verifies; and an action keeps it, apart from votes collected for it, or replaces it by a certificate under whose hash
the store has a block that is higher than the one under the old hash. -/
theorem high_qc_invariant (env : NodeEnv) (as : List Action) (a : Action) :
    ((run (Node.step env) newNode as).core.genericQC.IsGenesis ∨
      env.replicas.verifyQuorumCert (run (Node.step env) newNode as).core.genericQC = true) ∧
    (Core.HighKept (run (Node.step env) newNode as).core (run (Node.step env) newNode (as ++ [a])).core ∨
      ∃ old new, (run (Node.step env) newNode (as ++ [a])).core.load
          (run (Node.step env) newNode as).core.genericQC.blockHash = some old ∧
        (run (Node.step env) newNode (as ++ [a])).core.load
          (run (Node.step env) newNode (as ++ [a])).core.genericQC.blockHash = some new ∧
        old.height < new.height) := by
  have hinv := Node.highInv_run env as
  obtain ⟨-, hstep⟩ := Node.highInv_step hinv a
  rw [Lib.run_append]
  refine ⟨hinv.high, ?_⟩
  rcases hstep with hkept | ⟨x, y, hx, hy, hlt⟩
  · exact Or.inl hkept
  · right
    obtain ⟨old, hold, rfl⟩ := Option.map_eq_some_iff.1 hx
    obtain ⟨new, hnew, rfl⟩ := Option.map_eq_some_iff.1 hy
    exact ⟨old, new, hold, hnew, hlt⟩

end GoHotstuff
