import GoHotstuff.Core

/-!
# What the methods of the core do

For every method one lemma that says what its result and the new state can be.  Look-ups change nothing but the
recency of cache entries, and which proposals wait matters to no certificate; `Quiet s s'` says that `s'` is `s` up to
this.  The states are given up to `Quiet`, by the effects `highQC`, `lockQC` of the first two phases, the list
`ancestors` of the blocks the decide loop visits, and record updates.
-/

namespace GoHotstuff

open Lib (Bytes encodeToString)

namespace Core

/-! ### States up to recency -/

/-- `s'` is `s` but for the recency of cache entries, handlers that do not wait any more and a crash. -/
def Quiet (s s' : Core) : Prop :=
  ∃ (c : Cache (List Char) Stored 30) (w k : List Proposal) (x : Bool),
    (∀ key, c.find? key = s.blockCache.find? key) ∧ (∀ prop ∈ w ++ k, prop ∈ s.waiting ++ s.woken) ∧
      s' = { s with blockCache := c, waiting := w, woken := k, crashed := x }

theorem Quiet.refl (s : Core) : Quiet s s := ⟨_, _, _, _, fun _ => rfl, fun _ h => h, rfl⟩

theorem Quiet.trans {s s' s'' : Core} (h : Quiet s s') (h' : Quiet s' s'') : Quiet s s'' := by
  obtain ⟨c, w, k, x, hc, hp, rfl⟩ := h
  obtain ⟨c', w', k', x', hc', hp', rfl⟩ := h'
  exact ⟨c', w', k', x', fun key => (hc' key).trans (hc key), fun prop h => hp prop (hp' prop h), rfl⟩

theorem quiet_touch (s : Core) (hash : Bytes) : Quiet s (s.touch hash) :=
  ⟨_, _, _, _, fun key => Cache.find?_touch s.blockCache (encodeToString hash) key, fun _ h => h, rfl⟩

theorem quiet_crash (s : Core) : Quiet s s.crash := ⟨_, _, _, _, fun _ => rfl, fun _ h => h, rfl⟩

theorem quiet_broadcast (s : Core) : Quiet s s.broadcast := by
  refine ⟨s.blockCache, [], s.woken ++ s.waiting, s.crashed, fun _ => rfl, fun prop h => ?_, rfl⟩
  rw [List.nil_append, List.mem_append] at h
  rw [List.mem_append]
  exact h.symm

theorem Quiet.object? {s s' : Core} (h : Quiet s s') (hash : Bytes) : s'.object? hash = s.object? hash := by
  obtain ⟨c, w, k, x, hc, hp, rfl⟩ := h
  exact hc _

theorem Quiet.load {s s' : Core} (h : Quiet s s') (hash : Bytes) : s'.load hash = s.load hash := by
  unfold Core.load
  rw [h.object?]

theorem Quiet.pending {s s' : Core} (h : Quiet s s') {prop : Proposal} (hp : prop ∈ s'.waiting ++ s'.woken) :
    prop ∈ s.waiting ++ s.woken := by
  obtain ⟨c, w, k, x, hc, hpend, rfl⟩ := h
  exact hpend prop hp

/-- What reads none of the fields that may differ is the same. -/
private theorem Quiet.apply_eq {α : Type} {s s' : Core} (q : Quiet s s') (f : Core → α)
    (hf : ∀ (s : Core) c w k x, f { s with blockCache := c, waiting := w, woken := k, crashed := x } = f s) :
    f s' = f s := by
  obtain ⟨c, w, k, x, -, -, rfl⟩ := q
  exact hf s c w k x

section

variable {s s' : Core} (q : Quiet s s')
include q

theorem Quiet.lockedQC : s'.lockedQC = s.lockedQC := q.apply_eq Core.lockedQC fun _ _ _ _ _ => rfl

theorem Quiet.execQC : s'.execQC = s.execQC := q.apply_eq Core.execQC fun _ _ _ _ _ => rfl

theorem Quiet.voteHeight : s'.voteHeight = s.voteHeight := q.apply_eq Core.voteHeight fun _ _ _ _ _ => rfl

theorem Quiet.notified : s'.notified = s.notified := q.apply_eq Core.notified fun _ _ _ _ _ => rfl

theorem Quiet.votes : s'.votes = s.votes := q.apply_eq Core.votes fun _ _ _ _ _ => rfl

theorem Quiet.stored : s'.stored = s.stored := q.apply_eq Core.stored fun _ _ _ _ _ => rfl

end

theorem load_eq_some {s : Core} {hash : Bytes} {b : Block} :
    s.load hash = some b ↔ ∃ obj, s.object? hash = some ⟨obj, b⟩ := by
  unfold load
  cases h : s.object? hash with
  | none => simp
  | some o => simp [Stored.ext_iff]

/-! ### The store -/

theorem object?_storeBlock_self (s : Core) (b : Block) :
    (s.storeBlock b).object? b.selfQc.blockHash = some ⟨s.objects, b⟩ :=
  Cache.find?_put_self (by decide) _ _ _

theorem load_storeBlock_self (s : Core) (b : Block) : (s.storeBlock b).load b.selfQc.blockHash = some b :=
  load_eq_some.2 ⟨_, object?_storeBlock_self s b⟩

/-- An entry found after a store was found before, or it is the new one. -/
theorem object?_storeBlock {s : Core} {b : Block} {hash : Bytes} {o : Stored}
    (h : (s.storeBlock b).object? hash = some o) :
    (hash = b.selfQc.blockHash ∧ o = ⟨s.objects, b⟩) ∨ (hash ≠ b.selfQc.blockHash ∧ s.object? hash = some o) := by
  by_cases hk : hash = b.selfQc.blockHash
  · left
    rw [hk, object?_storeBlock_self] at h
    exact ⟨hk, (Option.some.inj h).symm⟩
  · right
    have hne : encodeToString hash ≠ encodeToString b.selfQc.blockHash := by
      rw [Ne, Lib.encodeToString_inj]
      exact hk
    exact ⟨hk, Cache.find?_put_of_ne hne h⟩

theorem load_storeBlock {s : Core} {b b' : Block} {hash : Bytes} (h : (s.storeBlock b).load hash = some b') :
    (hash = b.selfQc.blockHash ∧ b' = b) ∨ (hash ≠ b.selfQc.blockHash ∧ s.load hash = some b') := by
  obtain ⟨obj, ho⟩ := load_eq_some.1 h
  rcases object?_storeBlock ho with ⟨hk, heq⟩ | ⟨hk, ho'⟩
  · exact Or.inl ⟨hk, congrArg Stored.block heq⟩
  · exact Or.inr ⟨hk, load_eq_some.2 ⟨obj, ho'⟩⟩

/-- A store right behind the look-up of a block does not evict it. -/
theorem load_storeBlock_touch {s : Core} {hash : Bytes} {b : Block} (hl : s.load hash = some b) (b' : Block) :
    ∃ b'', ((s.touch hash).storeBlock b').load hash = some b'' := by
  by_cases hk : hash = b'.selfQc.blockHash
  · exact ⟨b', hk ▸ load_storeBlock_self (s.touch hash) b'⟩
  · obtain ⟨obj, ho⟩ := load_eq_some.1 hl
    have hne : encodeToString hash ≠ encodeToString b'.selfQc.blockHash := by
      rw [Ne, Lib.encodeToString_inj]
      exact hk
    exact ⟨b, load_eq_some.2 ⟨obj, Cache.find?_put_touch (by decide) hne ho⟩⟩

end Core

/-- A block without the votes collected for it. -/
def Block.body (b : Block) : Block := { b with selfQc := { b.selfQc with signs := ∅ } }

namespace Core

/-- What `setSigns` does to an entry of the cache. -/
def writeSigns (obj : Nat) (signs : Signs) (o : Stored) : Stored :=
  if o.obj = obj then ⟨o.obj, { o.block with selfQc := { o.block.selfQc with signs := signs } }⟩ else o

theorem obj_writeSigns (obj : Nat) (signs : Signs) (o : Stored) : (writeSigns obj signs o).obj = o.obj := by
  unfold writeSigns
  split <;> rfl

theorem body_writeSigns (obj : Nat) (signs : Signs) (o : Stored) :
    (writeSigns obj signs o).block.body = o.block.body := by
  unfold writeSigns
  split <;> rfl

theorem object?_setSigns (s : Core) (obj : Nat) (signs : Signs) (hash : Bytes) :
    (s.setSigns obj signs).object? hash = (s.object? hash).map (writeSigns obj signs) :=
  Cache.find?_mapValue _ _ _

theorem Quiet.setSigns {s s' : Core} (h : Quiet s s') (obj : Nat) (signs : Signs) :
    Quiet (s.setSigns obj signs) (s'.setSigns obj signs) := by
  obtain ⟨c, w, k, x, hc, hp, rfl⟩ := h
  refine ⟨_, w, k, x, fun key => ?_, hp, rfl⟩
  show (Cache.mapValue _ _).find? key = (Cache.mapValue _ _).find? key
  rw [Cache.find?_mapValue, Cache.find?_mapValue, hc]

/-! ### The three phases -/

/-- The block a block's `Justify` names, with that certificate, if it is there. -/
def justifyBlock? (s : Core) (b : Block) : Option (QuorumCert × Block) :=
  b.justify.bind fun qc => (s.load qc.blockHash).map fun jb => (qc, jb)

theorem justifyBlock?_eq_some {s : Core} {b jb : Block} {qc : QuorumCert} :
    s.justifyBlock? b = some (qc, jb) ↔ b.justify = some qc ∧ s.load qc.blockHash = some jb := by
  unfold justifyBlock?
  cases hj : b.justify with
  | none => simp
  | some qc' =>
    simp only [Option.bind_some, Option.map_eq_some_iff, Prod.mk.injEq, Option.some.injEq]
    constructor
    · rintro ⟨jb', hl, rfl, rfl⟩
      exact ⟨rfl, hl⟩
    · rintro ⟨rfl, hl⟩
      exact ⟨jb, hl, rfl, rfl⟩

theorem Quiet.justifyBlock? {s s' : Core} (h : Quiet s s') (b : Block) : s'.justifyBlock? b = s.justifyBlock? b := by
  unfold Core.justifyBlock?
  simp only [h.load]

theorem getJustifyBlock_cases (s : Core) (b : Block) :
    (∃ e s', s.justifyBlock? b = none ∧ s.getJustifyBlock b = (.error e, s') ∧ Quiet s s') ∨
    (∃ qc jb s', s.justifyBlock? b = some (qc, jb) ∧ s.getJustifyBlock b = (.ok (qc, jb), s') ∧ Quiet s s') := by
  unfold justifyBlock? getJustifyBlock loadBlock
  cases hj : b.justify with
  | none => exact Or.inl ⟨_, _, rfl, rfl, Quiet.refl s⟩
  | some qc =>
    cases hl : s.load qc.blockHash with
    | none => exact Or.inl ⟨.keyNotFound qc.blockHash, s.touch qc.blockHash, by simp [hl], by simp [hl], quiet_touch _ _⟩
    | some jb => exact Or.inr ⟨qc, jb, s.touch qc.blockHash, by simp [hl], by simp [hl], quiet_touch _ _⟩

/-- The effect of `UpdateHighestQC`. -/
def highQC (env : Env) (s : Core) (b : Block) (qc : QuorumCert) (obj : Option Nat) : Core :=
  if env.replicas.verifyQuorumCert qc = true ∧ ∃ hb ∈ s.load s.genericQC.blockHash, hb.height < b.height then
    { s with genericQC := qc, genericObj := obj, notified := s.notified ++ [.hqcUpdate qc] }
  else s

/-- The effect of `updateLockedQC`. -/
def lockQC (s : Core) (b : Block) (qc : QuorumCert) : Core :=
  if ∃ lb ∈ s.load s.lockedQC.blockHash, lb.height < b.height then { s with lockedQC := qc } else s

theorem quiet_updateHighestQC (env : Env) (s : Core) (b : Block) (qc : QuorumCert) (obj : Option Nat) :
    Quiet (s.highQC env b qc obj) (s.updateHighestQC env b qc obj) := by
  unfold highQC updateHighestQC loadBlock
  by_cases hv : env.replicas.verifyQuorumCert qc = true
  · cases hl : s.load s.genericQC.blockHash with
    | none => simpa [hv] using quiet_touch s _
    | some hb =>
      by_cases hh : hb.height < b.height
      · simp only [hv, hh, if_true, Option.mem_def, Option.some.injEq, exists_eq_left', and_self]
        obtain ⟨c, w, k, x, hc, hp, heq⟩ := quiet_touch s s.genericQC.blockHash
        rw [heq]
        exact ⟨c, w, k, x, hc, hp, rfl⟩
      · simpa [hv, hh] using quiet_touch s _
  · simpa [hv] using Quiet.refl s

private theorem quiet_updateLockedQC (s : Core) (b : Block) (qc : QuorumCert) :
    Quiet (s.lockQC b qc) (s.updateLockedQC b qc) := by
  unfold lockQC updateLockedQC loadBlock
  cases hl : s.load s.lockedQC.blockHash with
  | none => simpa using quiet_touch s _
  | some lb =>
    by_cases hh : lb.height < b.height
    · simp only [hh, if_true, Option.mem_def, Option.some.injEq, exists_eq_left']
      obtain ⟨c, w, k, x, hc, hp, heq⟩ := quiet_touch s s.lockedQC.blockHash
      rw [heq]
      exact ⟨c, w, k, x, hc, hp, rfl⟩
    · simpa [hh] using quiet_touch s _

theorem Quiet.highQC {s s' : Core} (h : Quiet s s') (env : Env) (b : Block) (qc : QuorumCert) (obj : Option Nat) :
    Quiet (s.highQC env b qc obj) (s'.highQC env b qc obj) := by
  have hl := h.load s.genericQC.blockHash
  obtain ⟨c, w, k, x, hc, hp, rfl⟩ := h
  unfold Core.highQC
  simp only [hl]
  split <;> exact ⟨c, w, k, x, hc, hp, rfl⟩

theorem Quiet.lockQC {s s' : Core} (h : Quiet s s') (b : Block) (qc : QuorumCert) :
    Quiet (s.lockQC b qc) (s'.lockQC b qc) := by
  have hl := h.load s.lockedQC.blockHash
  obtain ⟨c, w, k, x, hc, hp, rfl⟩ := h
  unfold Core.lockQC
  simp only [hl]
  split <;> exact ⟨c, w, k, x, hc, hp, rfl⟩

/-- The blocks the decide loop visits: at most `i`, from the one under `hash` on through the parents. -/
def ancestors (s : Core) : Nat → Bytes → List Block
  | 0, _ => []
  | i + 1, hash =>
    match s.load hash with
    | none => []
    | some b => b :: ancestors s i b.parentHash

private theorem ancestors_congr {s s' : Core} (h : ∀ hash, s'.load hash = s.load hash) (i : Nat) (hash : Bytes) :
    s'.ancestors i hash = s.ancestors i hash := by
  induction i generalizing hash with
  | zero => rfl
  | succ i ih =>
    unfold ancestors
    rw [h hash]
    cases s.load hash with
    | none => rfl
    | some b => exact congrArg (b :: ·) (ih b.parentHash)

private theorem decideLoop_spec (s : Core) (i : Nat) (hash : Bytes) :
    Quiet { s with notified := s.notified ++ (s.ancestors i hash).map .decide } (s.decideLoop i hash).2 ∧
      ((s.decideLoop i hash).1 = .ok () ↔ (s.ancestors i hash).length = i) := by
  induction i generalizing s hash with
  | zero => exact ⟨by simpa [ancestors, decideLoop] using Quiet.refl s, by simp [ancestors, decideLoop]⟩
  | succ i ih =>
    unfold ancestors decideLoop loadBlock
    cases hl : s.load hash with
    | none =>
      refine ⟨?_, by simp⟩
      simpa using quiet_touch s hash
    | some b =>
      have hload : ∀ h, ((s.touch hash).notify (.decide b)).load h = s.load h := (quiet_touch s hash).load
      obtain ⟨hq, hr⟩ := ih ((s.touch hash).notify (.decide b)) b.parentHash
      rw [ancestors_congr hload] at hq hr
      refine ⟨Quiet.trans ?_ hq, by simpa using hr⟩
      refine ⟨(s.touch hash).blockCache, s.waiting, s.woken, s.crashed, Cache.find?_touch _ _, fun _ h => h, ?_⟩
      simp [notify, touch]

/-- What `update` can do: it stops for want of a justify block, after the first, the second or the third phase, or for
want of the last executed block. -/
inductive UpdateResult (env : Env) (s : Core) (b : Block) : Except CoreError Unit → Core → Prop
  | noJustify {e : CoreError} {s' : Core} (h2 : s.justifyBlock? b = none) (q : Quiet s s') :
      UpdateResult env s b (.error e) s'
  | preCommit {qc2 : QuorumCert} {b2 : Block} {s' : Core} (h2 : s.justifyBlock? b = some (qc2, b2))
      (h1 : s.justifyBlock? b2 = none) (q : Quiet (s.highQC env b2 qc2 none) s') : UpdateResult env s b (.ok ()) s'
  | commit {qc2 qc1 : QuorumCert} {b2 b1 : Block} {s' : Core} (h2 : s.justifyBlock? b = some (qc2, b2))
      (h1 : s.justifyBlock? b2 = some (qc1, b1))
      (h0 : ∀ qc0 b0, s.justifyBlock? b1 = some (qc0, b0) →
        ¬ (b2.parentHash = qc1.blockHash ∧ b1.parentHash = qc0.blockHash))
      (q : Quiet ((s.highQC env b2 qc2 none).lockQC b1 qc1) s') : UpdateResult env s b (.ok ()) s'
  | noExec {qc2 qc1 qc0 : QuorumCert} {b2 b1 b0 : Block} {e : CoreError} {s' : Core}
      (h2 : s.justifyBlock? b = some (qc2, b2)) (h1 : s.justifyBlock? b2 = some (qc1, b1))
      (h0 : s.justifyBlock? b1 = some (qc0, b0)) (hp2 : b2.parentHash = qc1.blockHash)
      (hp1 : b1.parentHash = qc0.blockHash) (hx : s.load s.execQC.blockHash = none)
      (q : Quiet ((s.highQC env b2 qc2 none).lockQC b1 qc1) s') : UpdateResult env s b (.error e) s'
  | decide {qc2 qc1 qc0 : QuorumCert} {b2 b1 b0 xb : Block} {r : Except CoreError Unit} {s' : Core}
      (h2 : s.justifyBlock? b = some (qc2, b2)) (h1 : s.justifyBlock? b2 = some (qc1, b1))
      (h0 : s.justifyBlock? b1 = some (qc0, b0)) (hp2 : b2.parentHash = qc1.blockHash)
      (hp1 : b1.parentHash = qc0.blockHash) (hx : s.load s.execQC.blockHash = some xb)
      (hr : r = .ok () ↔ (s.ancestors (b0.height - xb.height).toNatClampNeg (getBlockHash b0)).length =
        (b0.height - xb.height).toNatClampNeg)
      (q : Quiet { (s.highQC env b2 qc2 none).lockQC b1 qc1 with
        execQC := qc0
        notified := (s.highQC env b2 qc2 none).notified ++
          (s.ancestors (b0.height - xb.height).toNatClampNeg (getBlockHash b0)).map .decide } s') :
      UpdateResult env s b r s'

theorem execQC_highQC (env : Env) (s : Core) (b : Block) (qc : QuorumCert) (obj : Option Nat) :
    (s.highQC env b qc obj).execQC = s.execQC := by
  unfold highQC
  split <;> rfl

theorem object?_highQC (env : Env) (s : Core) (b : Block) (qc : QuorumCert) (obj : Option Nat) (hash : Bytes) :
    (s.highQC env b qc obj).object? hash = s.object? hash := by
  unfold highQC
  split <;> rfl

theorem load_highQC (env : Env) (s : Core) (b : Block) (qc : QuorumCert) (obj : Option Nat) (hash : Bytes) :
    (s.highQC env b qc obj).load hash = s.load hash := by
  unfold highQC
  split <;> rfl

private theorem justifyBlock?_highQC (env : Env) (s : Core) (b : Block) (qc : QuorumCert) (obj : Option Nat)
    (b' : Block) :
    (s.highQC env b qc obj).justifyBlock? b' = s.justifyBlock? b' := by
  unfold highQC
  split <;> rfl

theorem execQC_lockQC (s : Core) (b : Block) (qc : QuorumCert) : (s.lockQC b qc).execQC = s.execQC := by
  unfold lockQC
  split <;> rfl

theorem notified_lockQC (s : Core) (b : Block) (qc : QuorumCert) : (s.lockQC b qc).notified = s.notified := by
  unfold lockQC
  split <;> rfl

private theorem load_lockQC (s : Core) (b : Block) (qc : QuorumCert) (hash : Bytes) :
    (s.lockQC b qc).load hash = s.load hash := by
  unfold lockQC
  split <;> rfl

private theorem justifyBlock?_lockQC (s : Core) (b : Block) (qc : QuorumCert) (b' : Block) :
    (s.lockQC b qc).justifyBlock? b' = s.justifyBlock? b' := by
  unfold lockQC
  split <;> rfl

/-- The decide phase in a state that is `t` up to recency. -/
private theorem decidePhase_spec {t s : Core} (hq : Quiet t s) (qc0 : QuorumCert) (b0 : Block) :
    (∃ e, t.load t.execQC.blockHash = none ∧ (s.decidePhase qc0 b0).1 = .error e ∧
      Quiet t (s.decidePhase qc0 b0).2) ∨
    (∃ xb, t.load t.execQC.blockHash = some xb ∧
      ((s.decidePhase qc0 b0).1 = .ok () ↔
        (t.ancestors (b0.height - xb.height).toNatClampNeg (getBlockHash b0)).length =
          (b0.height - xb.height).toNatClampNeg) ∧
      Quiet { t with
        execQC := qc0
        notified := t.notified ++
          (t.ancestors (b0.height - xb.height).toNatClampNeg (getBlockHash b0)).map .decide }
        (s.decidePhase qc0 b0).2) := by
  have hload := hq.load
  obtain ⟨c, w, k, x, hc, hp, rfl⟩ := hq
  unfold decidePhase loadBlock
  rw [hload]
  cases hx : t.load t.execQC.blockHash with
  | none =>
    left
    refine ⟨_, rfl, rfl, ?_⟩
    exact Quiet.trans ⟨c, w, k, x, hc, hp, rfl⟩ (quiet_touch _ _)
  | some xb =>
    right
    refine ⟨xb, rfl, ?_⟩
    generalize hs1 : ({ t with blockCache := c, waiting := w, woken := k, crashed := x } : Core).touch
      t.execQC.blockHash = s1
    have hq1 : Quiet t s1 := by
      rw [← hs1]
      exact Quiet.trans ⟨c, w, k, x, hc, hp, rfl⟩ (quiet_touch _ _)
    have hq2 : Quiet { t with execQC := qc0 } { s1 with execQC := qc0 } := by
      obtain ⟨c', w', k', x', hc', hp', rfl⟩ := hq1
      exact ⟨c', w', k', x', hc', hp', rfl⟩
    obtain ⟨hloop, hr⟩ := decideLoop_spec { s1 with execQC := qc0 } (b0.height - xb.height).toNatClampNeg
      (getBlockHash b0)
    rw [ancestors_congr (s := t) hq2.load] at hloop hr
    refine ⟨hr, Quiet.trans ?_ hloop⟩
    obtain ⟨c', w', k', x', hc', hp', rfl⟩ := hq1
    exact ⟨c', w', k', x', hc', hp', rfl⟩

theorem update_cases (env : Env) (s : Core) (b : Block) :
    UpdateResult env s b (s.update env b).1 (s.update env b).2 := by
  unfold update
  rcases getJustifyBlock_cases s b with ⟨e, s1, h2, heq, hq1⟩ | ⟨qc2, b2, s1, h2, heq, hq1⟩
  · rw [heq]
    exact .noJustify h2 hq1
  rw [heq]
  have hq2 : Quiet (s.highQC env b2 qc2 none) (s1.updateHighestQC env b2 qc2 none) :=
    (hq1.highQC env b2 qc2 none).trans (quiet_updateHighestQC env s1 b2 qc2 none)
  have hj2 := hq2.justifyBlock? b2
  rw [justifyBlock?_highQC] at hj2
  simp only
  rcases getJustifyBlock_cases (s1.updateHighestQC env b2 qc2 none) b2 with
    ⟨e, s3, h1, heq, hq3⟩ | ⟨qc1, b1, s3, h1, heq, hq3⟩
  · rw [heq]
    exact .preCommit h2 (hj2 ▸ h1) (hq2.trans hq3)
  rw [heq]
  have hq4 : Quiet ((s.highQC env b2 qc2 none).lockQC b1 qc1) (s3.updateLockedQC b1 qc1) :=
    ((hq2.trans hq3).lockQC b1 qc1).trans (quiet_updateLockedQC s3 b1 qc1)
  have hj1 := hq4.justifyBlock? b1
  rw [justifyBlock?_lockQC, justifyBlock?_highQC] at hj1
  simp only
  rcases getJustifyBlock_cases (s3.updateLockedQC b1 qc1) b1 with ⟨e, s5, h0, heq, hq5⟩ | ⟨qc0, b0, s5, h0, heq, hq5⟩
  · rw [heq]
    rw [hj1] at h0
    refine .commit h2 (hj2 ▸ h1) (fun qc0 b0 h => ?_) (hq4.trans hq5)
    rw [h0] at h
    cases h
  rw [heq]
  rw [hj1] at h0
  simp only
  by_cases hp : b2.parentHash = qc1.blockHash ∧ b1.parentHash = qc0.blockHash
  · rw [if_pos hp]
    have hx : ((s.highQC env b2 qc2 none).lockQC b1 qc1).load
        ((s.highQC env b2 qc2 none).lockQC b1 qc1).execQC.blockHash = s.load s.execQC.blockHash := by
      rw [load_lockQC, load_highQC, execQC_lockQC, execQC_highQC]
    have hanc : ∀ hash, ((s.highQC env b2 qc2 none).lockQC b1 qc1).load hash = s.load hash := by
      intro hash
      rw [load_lockQC, load_highQC]
    rcases decidePhase_spec (hq4.trans hq5) qc0 b0 with ⟨e, hn, he, hq⟩ | ⟨xb, hn, hr, hq⟩
    · rw [he]
      exact .noExec h2 (hj2 ▸ h1) h0 hp.1 hp.2 (hx ▸ hn) hq
    · rw [ancestors_congr hanc] at hr hq
      rw [notified_lockQC] at hq
      exact .decide h2 (hj2 ▸ h1) h0 hp.1 hp.2 (hx ▸ hn) hr hq
  · rw [if_neg hp]
    refine .commit h2 (hj2 ▸ h1) (fun qc0' b0' h => ?_) (hq4.trans hq5)
    rw [h0] at h
    obtain ⟨rfl, rfl⟩ := Prod.mk.inj (Option.some.inj h)
    exact hp

theorem update_result {env : Env} {s s' : Core} {b : Block} {r : Except CoreError Unit}
    (h : s.update env b = (r, s')) : UpdateResult env s b r s' := by
  have hres := update_cases env s b
  rw [h] at hres
  exact hres

/-! ### The vote guard -/

/-- The block `i` parent links away from `b`. -/
def parentWalk (s : Core) : Nat → Block → Option Block
  | 0, b => some b
  | i + 1, b => (s.load b.parentHash).bind (parentWalk s i)

theorem parentWalk_congr {s s' : Core} (h : ∀ hash, s'.load hash = s.load hash) (i : Nat) (b : Block) :
    s'.parentWalk i b = s.parentWalk i b := by
  induction i generalizing b with
  | zero => rfl
  | succ i ih =>
    unfold parentWalk
    rw [h]
    exact Option.bind_congr fun b' _ => ih b'

theorem walkParents_cases (s : Core) (i : Nat) (b : Block) :
    Quiet s (s.walkParents i b).2 ∧
      ((∃ e, s.parentWalk i b = none ∧ (s.walkParents i b).1 = .error e) ∨
        (∃ b', s.parentWalk i b = some b' ∧ (s.walkParents i b).1 = .ok b')) := by
  induction i generalizing s b with
  | zero => exact ⟨Quiet.refl s, Or.inr ⟨b, rfl, rfl⟩⟩
  | succ i ih =>
    unfold walkParents parentWalk loadBlock
    cases hl : s.load b.parentHash with
    | none => exact ⟨quiet_touch s _, Or.inl ⟨_, rfl, rfl⟩⟩
    | some b' =>
      obtain ⟨hq, hcases⟩ := ih (s.touch b.parentHash) b'
      rw [parentWalk_congr (quiet_touch s b.parentHash).load] at hcases
      exact ⟨(quiet_touch s _).trans hq, hcases⟩

/-- The safety condition: the walk from `b` down to the height of `lockedb` ends in it. -/
def Extends (s : Core) (b lockedb : Block) : Prop :=
  ∃ nblk ∈ s.parentWalk (b.height - lockedb.height).toNatClampNeg b,
    nblk.selfQc.blockHash = lockedb.selfQc.blockHash

instance (s : Core) (b lockedb : Block) : Decidable (s.Extends b lockedb) :=
  inferInstanceAs (Decidable (∃ nblk ∈ s.parentWalk (b.height - lockedb.height).toNatClampNeg b,
    nblk.selfQc.blockHash = lockedb.selfQc.blockHash))

/-- The guards under which `OnReceiveProposal` raises the vote height. -/
def MayVote (s : Core) (b : Block) : Prop :=
  s.voteHeight < b.height ∧ ∃ qc jb lockedb, s.justifyBlock? b = some (qc, jb) ∧
    s.load s.lockedQC.blockHash = some lockedb ∧ (lockedb.height < jb.height ∨ s.Extends b lockedb)

theorem checkVote_cases (s : Core) (b : Block) :
    (∃ e, (s.checkVote b).1 = .error e ∧ Quiet s (s.checkVote b).2 ∧ ¬ s.MayVote b) ∨
    ((s.checkVote b).1 = .ok () ∧ Quiet s (s.checkVote b).2 ∧ ¬ s.MayVote b) ∨
    ((s.checkVote b).1 = .ok () ∧ Quiet (s.setVoteHeight b.height) (s.checkVote b).2 ∧ s.MayVote b) := by
  have hset : ∀ {s1 : Core}, Quiet s s1 → Quiet (s.setVoteHeight b.height) (s1.setVoteHeight b.height) := by
    intro s1 h
    obtain ⟨c, w, k, x, hc, hp, rfl⟩ := h
    exact ⟨c, w, k, x, hc, hp, rfl⟩
  unfold checkVote
  by_cases hh : b.height > s.voteHeight
  swap
  · rw [if_neg hh]
    exact Or.inr (Or.inl ⟨rfl, Quiet.refl s, fun hv => hh hv.1⟩)
  rw [if_pos hh]
  rcases getJustifyBlock_cases s b with ⟨e, s1, hj, heq, hq1⟩ | ⟨qc, jb, s1, hj, heq, hq1⟩
  · rw [heq]
    refine Or.inl ⟨e, rfl, hq1, fun hv => ?_⟩
    obtain ⟨-, qc, jb, lb, hj', -⟩ := hv
    rw [hj] at hj'
    cases hj'
  rw [heq]
  have hlocked : s1.lockedQC = s.lockedQC := by
    obtain ⟨c, w, k, x, hc, hp, rfl⟩ := hq1
    rfl
  simp only [loadBlock, hlocked, hq1.load]
  cases hl : s.load s.lockedQC.blockHash with
  | none =>
    refine Or.inl ⟨_, rfl, hq1.trans (quiet_touch _ _), fun hv => ?_⟩
    obtain ⟨-, qc, jb, lb, -, hl', -⟩ := hv
    rw [hl] at hl'
    cases hl'
  | some lockedb =>
    have hq2 := hq1.trans (quiet_touch s1 s.lockedQC.blockHash)
    have hmay : s.MayVote b ↔ lockedb.height < jb.height ∨ s.Extends b lockedb := by
      constructor
      · rintro ⟨-, qc', jb', lb', hj', hl', hor⟩
        rw [hj] at hj'
        rw [hl] at hl'
        obtain ⟨rfl, rfl⟩ := Prod.mk.inj (Option.some.inj hj')
        obtain rfl := Option.some.inj hl'
        exact hor
      · intro hor
        exact ⟨hh, qc, jb, lockedb, hj, hl, hor⟩
    simp only
    by_cases hlive : jb.height > lockedb.height
    · rw [if_pos hlive]
      exact Or.inr (Or.inr ⟨rfl, hset hq2, hmay.2 (Or.inl hlive)⟩)
    rw [if_neg hlive]
    obtain ⟨hq3, hwalk⟩ := walkParents_cases (s1.touch s.lockedQC.blockHash)
      (b.height - lockedb.height).toNatClampNeg b
    rw [parentWalk_congr hq2.load] at hwalk
    generalize (s1.touch s.lockedQC.blockHash).walkParents (b.height - lockedb.height).toNatClampNeg b = r at hq3 hwalk
    obtain ⟨r, s3⟩ := r
    rcases hwalk with ⟨e, hw, rfl⟩ | ⟨nblk, hw, rfl⟩
    · refine Or.inl ⟨e, rfl, hq2.trans hq3, fun hv => ?_⟩
      rcases hmay.1 hv with hlt | ⟨nblk, hw', -⟩
      · exact hlive hlt
      · rw [hw] at hw'
        cases hw'
    · simp only
      by_cases heqh : nblk.selfQc.blockHash = lockedb.selfQc.blockHash
      · rw [if_pos heqh]
        exact Or.inr (Or.inr ⟨rfl, hset (hq2.trans hq3), hmay.2 (Or.inr ⟨nblk, hw, heqh⟩)⟩)
      · rw [if_neg heqh]
        refine Or.inr (Or.inl ⟨rfl, hq2.trans hq3, fun hv => ?_⟩)
        rcases hmay.1 hv with hlt | ⟨nblk', hw', heq'⟩
        · exact hlive hlt
        · rw [hw] at hw'
          obtain rfl := Option.some.inj hw'
          exact heqh heq'

/-! ### Votes -/

theorem voteProposal_cases (env : Env) (s : Core) (viewNumber height : Int64) (hash : Bytes) :
    (∃ e, s.voteProposal env viewNumber height hash =
      (.error (.signer e), { s with signLog := s.signLog ++ [(hash, none)] })) ∨
    (∃ sig, env.sign s.signLog.length hash = .ok sig ∧ s.voteProposal env viewNumber height hash =
      (.ok ⟨viewNumber, env.id, hash, ⟨env.id, sig⟩⟩,
        { s with
          signLog := s.signLog ++ [(hash, some sig)]
          votes := s.votes ++ [⟨height, ⟨viewNumber, env.id, hash, ⟨env.id, sig⟩⟩⟩] })) := by
  unfold voteProposal createPartCert
  cases hs : env.sign s.signLog.length hash with
  | error e => exact Or.inl ⟨e, rfl⟩
  | ok sig => exact Or.inr ⟨sig, rfl, rfl⟩

/-- The votes waiting for the block with the given hash. -/
def stashed (s : Core) (hash : Bytes) : List Vote := (s.voteSet.lookup (encodeToString hash)).getD []

theorem applyVotes_eq (s : Core) (hash : Bytes) (signs : Signs) :
    s.applyVotes hash signs =
      (mergeVotes signs (s.stashed hash), { s with voteSet := s.voteSet.erase (encodeToString hash) }) := by
  unfold applyVotes stashed
  cases hl : s.voteSet.lookup (encodeToString hash) with
  | none =>
    have herase : s.voteSet.erase (encodeToString hash) = s.voteSet := by
      apply AList.ext
      exact List.kerase_of_notMem_keys (AList.lookup_eq_none.1 hl)
    simp [hl, herase, mergeVotes]
  | some votes => simp [hl]

theorem addVoteMsg_eq (s : Core) (vote : Vote) :
    s.addVoteMsg vote = { s with
      voteSet := s.voteSet.insert (encodeToString vote.blockHash) (s.stashed vote.blockHash ++ [vote]) } := by
  unfold addVoteMsg stashed
  cases hl : s.voteSet.lookup (encodeToString vote.blockHash) with
  | none => simp [hl]
  | some votes => simp [hl]

/-- What `OnProposalVote` can do: it stashes the vote, ignores it, refuses it, counts it, or counts it and completes the
certificate. -/
inductive VoteResult (env : Env) (s : Core) (vote : Vote) : Except CoreError Unit → Core → Prop
  | stash {s' : Core} (h : s.object? vote.blockHash = none) (q : Quiet (s.addVoteMsg vote) s') :
      VoteResult env s vote (.ok ()) s'
  | full {o : Stored} {s' : Core} (h : s.object? vote.blockHash = some o)
      (hq : getQuorumSize env.replicas.metadata ≤ o.block.selfQc.signs.keys.length) (q : Quiet s s') :
      VoteResult env s vote (.ok ()) s'
  | duplicate {o : Stored} {e : CoreError} {s' : Core} (h : s.object? vote.blockHash = some o)
      (hv : vote.voter ∈ o.block.selfQc.signs) (q : Quiet s s') : VoteResult env s vote (.error e) s'
  | counted {o : Stored} {signs : Signs} {vs : AList (fun _ : List Char => List Vote)} {s' : Core}
      (h : s.object? vote.blockHash = some o)
      (hq : (o.block.selfQc.signs.keys.length : Int) < getQuorumSize env.replicas.metadata)
      (hsigns : signs = mergeVotes (o.block.selfQc.signs.insert vote.voter vote.cert)
        (s.stashed o.block.selfQc.blockHash))
      (hvs : vs = s.voteSet.erase (encodeToString o.block.selfQc.blockHash))
      (q : Quiet (setSigns { s with voteSet := vs } o.obj signs) s')
      (hlt : (signs.keys.length : Int) < getQuorumSize env.replicas.metadata)
      (hnew : vote.voter ∉ o.block.selfQc.signs) : VoteResult env s vote (.ok ()) s'
  | finished {o : Stored} {signs : Signs} {vs : AList (fun _ : List Char => List Vote)} {s' : Core}
      (h : s.object? vote.blockHash = some o)
      (hq : (o.block.selfQc.signs.keys.length : Int) < getQuorumSize env.replicas.metadata)
      (hsigns : signs = mergeVotes (o.block.selfQc.signs.insert vote.voter vote.cert)
        (s.stashed o.block.selfQc.blockHash))
      (hvs : vs = s.voteSet.erase (encodeToString o.block.selfQc.blockHash))
      (q : Quiet (((setSigns { s with voteSet := vs } o.obj signs).highQC env
        { o.block with selfQc := { o.block.selfQc with signs := signs } }
        { o.block.selfQc with signs := signs } (some o.obj)).notify
          (.qcFinish o.block.proposer { o.block.selfQc with signs := signs })) s')
      (hge : getQuorumSize env.replicas.metadata ≤ signs.keys.length)
      (hnew : vote.voter ∉ o.block.selfQc.signs) : VoteResult env s vote (.ok ()) s'

private theorem Quiet.notify {s s' : Core} (h : Quiet s s') (e : Event) : Quiet (s.notify e) (s'.notify e) := by
  obtain ⟨c, w, k, x, hc, hp, rfl⟩ := h
  exact ⟨c, w, k, x, hc, hp, rfl⟩

theorem onProposalVote_cases (env : Env) (s : Core) (vote : Vote) :
    VoteResult env s vote (s.onProposalVote env vote).1 (s.onProposalVote env vote).2 := by
  unfold onProposalVote
  cases ho : s.object? vote.blockHash with
  | none =>
    refine .stash ho ?_
    show Quiet (s.addVoteMsg vote) ((s.touch vote.blockHash).addVoteMsg vote)
    rw [addVoteMsg_eq, addVoteMsg_eq]
    obtain ⟨c, w, k, x, hc, hp, heq⟩ := quiet_touch s vote.blockHash
    rw [heq]
    exact ⟨c, w, k, x, hc, hp, rfl⟩
  | some o =>
    simp only
    by_cases hq : getQuorumSize env.replicas.metadata ≤ o.block.selfQc.signs.keys.length
    · rw [if_pos hq]
      exact .full ho hq (quiet_touch s _)
    rw [if_neg hq]
    by_cases hv : vote.voter ∈ o.block.selfQc.signs
    · rw [if_pos hv]
      exact .duplicate ho hv (quiet_touch s _)
    rw [if_neg hv]
    have hstash : (s.touch vote.blockHash).stashed o.block.selfQc.blockHash = s.stashed o.block.selfQc.blockHash := rfl
    rw [applyVotes_eq, hstash]
    generalize hsigns : mergeVotes (o.block.selfQc.signs.insert vote.voter vote.cert)
      (s.stashed o.block.selfQc.blockHash) = signs
    have hset : Quiet (setSigns { s with voteSet := s.voteSet.erase (encodeToString o.block.selfQc.blockHash) } o.obj signs)
        (setSigns { s.touch vote.blockHash with
          voteSet := s.voteSet.erase (encodeToString o.block.selfQc.blockHash) } o.obj signs) := by
      apply Quiet.setSigns
      obtain ⟨c, w, k, x, hc, hp, heq⟩ := quiet_touch s vote.blockHash
      rw [heq]
      exact ⟨c, w, k, x, hc, hp, rfl⟩
    simp only
    by_cases hlt : (signs.keys.length : Int) < getQuorumSize env.replicas.metadata
    · rw [if_pos hlt]
      exact .counted ho (by omega) hsigns.symm rfl hset hlt hv
    · rw [if_neg hlt]
      exact .finished ho (by omega) hsigns.symm rfl
        (((hset.highQC env _ _ _).trans (quiet_updateHighestQC env _ _ _ _)).notify _) (by omega) hv

end Core

end GoHotstuff
