import GoHotstuff.HighQC

/-!
# What locks and decisions rest on

`UpdateHighestQC` verifies the certificate it is given, but `update` does not see the outcome and goes on to lock and to
decide on blocks whose certificates have never been checked (`unverified_lock`).  If the `Justify` of every block that
arrives is the genesis certificate or verifies (`CertGuard`), every certificate `update` uses is of this kind
(`locks_and_decisions_verified`): the three of a decision come from three stored blocks, and a certificate that replaces
the lock names a block above the genesis block.
-/

namespace GoHotstuff

open Lib (Bytes run StepsMeet)

instance (qc : QuorumCert) : Decidable qc.IsGenesis :=
  inferInstanceAs (Decidable (qc.viewNumber = -1 ∧ qc.blockHash = genesisHash))

/-- The genesis certificate, or one that verifies. -/
def QuorumCert.Sound (rc : ReplicaConf) (qc : QuorumCert) : Prop :=
  qc.IsGenesis ∨ rc.verifyQuorumCert qc = true

instance (rc : ReplicaConf) (qc : QuorumCert) : Decidable (qc.Sound rc) :=
  inferInstanceAs (Decidable (qc.IsGenesis ∨ rc.verifyQuorumCert qc = true))

namespace Core

/-! ### Where `update` is called -/

/-- The call `op` runs `update` on the block `b` in the state `t`. -/
inductive Updates (env : Env) (s : Core) : CoreOp → Core → Block → Prop
  | receive {prop : Proposal} {t : Core} {x : QuorumCert × Block} (q : Quiet (s.storeBlock prop.block) t)
      (hj : t.justifyBlock? prop.block = some x) : Updates env s (.receive prop) t prop.block
  | resume {i : Nat} {prop : Proposal} {t : Core} {x : QuorumCert × Block} (hi : s.woken[i]? = some prop)
      (q : Quiet s t) (hj : t.justifyBlock? prop.block = some x) : Updates env s (.resume i) t prop.block
  | propose {curView now : Int64} {parentHash cmds : Bytes} {parent : Block} (hl : s.load parentHash = some parent)
      (hh : s.voteHeight < (s.newBlock env curView parentHash cmds parent now).height) :
      Updates env s (.propose curView parentHash cmds now)
        ((s.touch parentHash).storeBlock (s.newBlock env curView parentHash cmds parent now))
        (s.newBlock env curView parentHash cmds parent now)

theorem decided_notify (s : Core) {e : Event} (he : ∀ b, e ≠ .decide b) : (s.notify e).decided = s.decided := by
  unfold decided notify
  rw [List.filterMap_append]
  cases e with
  | decide b => exact absurd rfl (he b)
  | _ => simp

/-- Behind `update` the handler of a proposal changes neither the lock, the last executed block nor the decisions. -/
theorem ProcessResult.update {env : Env} {s s' : Core} {prop : Proposal} (p : ProcessResult env s prop s') :
    s'.lockedQC = (s.update env prop.block).2.lockedQC ∧ s'.execQC = (s.update env prop.block).2.execQC ∧
      s'.decided = (s.update env prop.block).2.decided := by
  cases p with
  | updateError hu =>
    rw [hu]
    exact ⟨rfl, rfl, rfl⟩
  | checkError hu hv q =>
    obtain ⟨c, w, k, x, hc, hp, rfl⟩ := q
    rw [hu]
    exact ⟨rfl, rfl, rfl⟩
  | signError hu hv q =>
    obtain ⟨c, w, k, x, hc, hp, rfl⟩ := q
    rw [hu]
    exact ⟨rfl, rfl, rfl⟩
  | voted hu hv q hvote =>
    obtain ⟨c, w, k, x, hc, hp, rfl⟩ := q
    rw [hu]
    exact ⟨rfl, rfl, decided_notify _ (fun b h => by cases h)⟩

theorem ProposeResult.update {env : Env} {s s' : Core} {curView : Int64} {b : Block}
    (p : ProposeResult env s curView b s') :
    s'.lockedQC = (s.update env b).2.lockedQC ∧ s'.execQC = (s.update env b).2.execQC ∧
      s'.decided = (s.update env b).2.decided := by
  cases p with
  | updateError hu =>
    rw [hu]
    exact ⟨rfl, rfl, rfl⟩
  | signError hu =>
    rw [hu]
    exact ⟨rfl, rfl, rfl⟩
  | voted hu hvote v hs' =>
    obtain ⟨hlock, hexec, -, -, -, -, -, hdec⟩ := v.frame
    rw [hu]
    rcases hs' with rfl | rfl
    · exact ⟨hlock, hexec, hdec⟩
    · exact ⟨hlock, hexec, (decided_notify _ (fun b h => by cases h)).trans hdec⟩

/-- A call leaves the lock and the decisions, or it runs `update` and leaves what `update` has made of them. -/
private theorem step_updates (env : Env) (s : Core) (op : CoreOp) :
    ((s.step env op).lockedQC = s.lockedQC ∧ (s.step env op).decided = s.decided) ∨
    ∃ t b, Updates env s op t b ∧ t.lockedQC = s.lockedQC ∧ t.decided = s.decided ∧
      (s.step env op).lockedQC = (t.update env b).2.lockedQC ∧
      (s.step env op).decided = (t.update env b).2.decided := by
  have hstep := step_cases env s op
  generalize s.step env op = s' at hstep
  cases hstep with
  | quiet hop q => exact Or.inl ⟨q.lockedQC, q.decided⟩
  | propose hl hh p => exact Or.inr ⟨_, _, .propose hl hh, rfl, rfl, p.update.1, p.update.2.2⟩
  | store hw q => exact Or.inl ⟨q.lockedQC, q.decided⟩
  | receive q hj p =>
    exact Or.inr ⟨_, _, .receive q hj, q.lockedQC, q.decided, p.update.1, p.update.2.2⟩
  | resume hi q hj p =>
    exact Or.inr ⟨_, _, .resume hi q hj, q.lockedQC, q.decided, p.update.1, p.update.2.2⟩
  | vote v =>
    obtain ⟨hlock, -, -, -, -, -, -, hdec⟩ := v.frame
    exact Or.inl ⟨hlock, hdec⟩
  | newView => exact Or.inl ⟨rfl, decided_notify _ (fun b h => by cases h)⟩
  | @adopt qc b _ hl q =>
    have hdec := q.decided.trans (decided_highQC env s b qc none)
    obtain ⟨g, o, n, heq⟩ := highQC_frame env s b qc none
    rw [heq] at q
    obtain ⟨c, w, k, x, hc, hp, rfl⟩ := q
    exact Or.inl ⟨rfl, hdec⟩
  | sign => exact Or.inl ⟨rfl, rfl⟩

/-! ### Certified blocks -/

/-- A block that is not stored in place of the genesis block and has a sound `Justify`, if any. -/
def Certified (env : Env) (b : Block) : Prop :=
  b.selfQc.blockHash ≠ genesisHash ∧ 0 ≤ b.height ∧ ∀ qc ∈ b.justify, qc.Sound env.replicas

instance (env : Env) (b : Block) : Decidable (Certified env b) :=
  inferInstanceAs
    (Decidable (b.selfQc.blockHash ≠ genesisHash ∧ 0 ≤ b.height ∧ ∀ qc ∈ b.justify, qc.Sound env.replicas))

/-- A proposal that arrives has a certified block.  Of an own block only the hash is to be compared with that of the
genesis block. -/
def CertGuard (env : Env) (s : Core) : CoreOp → Prop
  | .receive prop => Certified env prop.block
  | .propose curView parentHash cmds now => ∀ parent ∈ s.load parentHash,
      (s.newBlock env curView parentHash cmds parent now).selfQc.blockHash ≠ genesisHash
  | _ => True

instance (env : Env) (s : Core) : (op : CoreOp) → Decidable (s.CertGuard env op)
  | .receive prop => inferInstanceAs (Decidable (Certified env prop.block))
  | .propose curView parentHash cmds now => inferInstanceAs (Decidable (∀ parent ∈ s.load parentHash,
      (s.newBlock env curView parentHash cmds parent now).selfQc.blockHash ≠ genesisHash))
  | .resume _ | .vote _ | .newView .. | .look _ | .adopt _ | .sign _ | .crash => .isTrue trivial

/-- Every block that has been stored is the genesis block or certified. -/
structure CertStore (env : Env) (s : Core) : Prop extends StoreInv s where
  cert : ∀ b ∈ s.stored, b = genesis ∨ Certified env b

private theorem Quiet.certStore {env : Env} {s s' : Core} (q : Quiet s s') (h : CertStore env s) :
    CertStore env s' := by
  refine ⟨q.storeInv h.toStoreInv, ?_⟩
  obtain ⟨c, w, k, x, hc, hp, rfl⟩ := q
  exact h.cert

private theorem CertStore.storeBlock {env : Env} {s : Core} (h : CertStore env s) {b : Block} (hb : Certified env b) :
    CertStore env (s.storeBlock b) := by
  refine ⟨h.toStoreInv.storeBlock b, fun b' hb' => ?_⟩
  rcases List.mem_append.1 hb' with hb' | hb'
  · exact h.cert b' hb'
  · rw [List.mem_singleton.1 hb']
    exact Or.inr hb

private theorem CertStore.load {env : Env} {s : Core} (h : CertStore env s) {hash : Bytes} {b : Block}
    (hl : s.load hash = some b) :
    0 ≤ b.height ∧ (hash = genesisHash → b.height = 0) ∧ ∀ qc, b.justify = some qc → qc.Sound env.replicas := by
  obtain ⟨b₀, hb₀, hbody⟩ := h.exists_stored hl
  have hhash := body_selfQc_blockHash hbody
  rw [h.selfQc_blockHash hl] at hhash
  rw [← height_body hbody, ← justify_body hbody]
  rcases h.cert b₀ hb₀ with rfl | ⟨hne, hpos, hsound⟩
  · exact ⟨by decide, fun _ => rfl, fun qc hqc => by cases hqc⟩
  · exact ⟨hpos, fun heq => absurd (hhash.trans heq) hne, hsound⟩

structure CertInv (env : Env) (s : Core) : Prop extends HighInv env s where
  cert : ∀ b ∈ s.stored, b = genesis ∨ Certified env b
  pending : s.PendingStored
  height : 0 ≤ s.voteHeight

private theorem CertInv.newBlock {env : Env} {s : Core} (h : CertInv env s) {curView now : Int64}
    {parentHash cmds : Bytes}
    {parent : Block} (hh : s.voteHeight < (s.newBlock env curView parentHash cmds parent now).height)
    (hne : (s.newBlock env curView parentHash cmds parent now).selfQc.blockHash ≠ genesisHash) :
    Certified env (s.newBlock env curView parentHash cmds parent now) := by
  have hpos := h.height
  refine ⟨hne, by lia, fun qc hqc => ?_⟩
  obtain rfl : s.genericQC = qc := Option.some.inj hqc
  exact h.high

private theorem CertInv.stores {env : Env} {s : Core} {op : CoreOp} {b : Block} (h : CertInv env s)
    (hg : s.CertGuard env op) (hst : Stores env s op b) : Certified env b := by
  cases hst with
  | receive prop => exact hg
  | propose hl hh => exact h.newBlock hh (hg _ hl)

theorem CertInv.step {env : Env} {s : Core} {op : CoreOp} (h : CertInv env s) (hg : s.CertGuard env op) :
    CertInv env (s.step env op) := by
  refine ⟨(h.toHighInv.step op).1, ?_, h.pending.step env op, ?_⟩
  · rcases step_entries env s op with ⟨-, hs, -⟩ | ⟨b, s1, hst, q, -, hs, -⟩
    · rw [hs]
      exact h.cert
    · rw [hs]
      obtain ⟨c, w, k, x, hc, hp, rfl⟩ := q
      intro b' hb'
      rcases List.mem_append.1 hb' with hb' | hb'
      · exact h.cert b' hb'
      · rw [List.mem_singleton.1 hb']
        exact Or.inr (h.stores hg hst)
  · have hle := voteHeight_le_step env s op
    have hpos := h.height
    lia

private theorem certInv_newHotStuffCore (env : Env) : CertInv env newHotStuffCore := by
  refine ⟨highInv_newHotStuffCore env, fun b hb => ?_, fun p hp => ?_, by decide⟩
  · exact Or.inl (List.mem_singleton.1 hb)
  · cases hp

/-- The store and the block with which `update` is called. -/
private theorem Updates.certStore {env : Env} {s t : Core} {op : CoreOp} {b : Block} (hup : Updates env s op t b)
    (h : CertInv env s) (hg : s.CertGuard env op) : CertStore env t ∧ Certified env b := by
  have hs : CertStore env s := ⟨h.toStoreInv, h.cert⟩
  cases hup with
  | receive q hj => exact ⟨q.certStore (hs.storeBlock hg), hg⟩
  | @resume i prop _ x hi q hj =>
    refine ⟨q.certStore hs, ?_⟩
    have hmem := h.pending prop (List.mem_append_right _ (List.mem_of_getElem? hi))
    rcases h.cert prop.block hmem with hgen | hcert
    · -- the genesis block has no justify block
      rw [hgen] at hj
      cases hj
    · exact hcert
  | propose hl hh =>
    have hnew := h.newBlock hh (hg _ hl)
    exact ⟨((quiet_touch s _).certStore hs).storeBlock hnew, hnew⟩

/-- In a certified store the lock only moves to a certificate that verifies. -/
private theorem UpdateResult.lock_verified {env : Env} {s s' : Core} {b : Block} {r : Except CoreError Unit}
    (u : UpdateResult env s b r s') (h : CertStore env s) :
    s'.lockedQC = s.lockedQC ∨ env.replicas.verifyQuorumCert s'.lockedQC = true := by
  rcases u.locked with heq | ⟨qc2, b2, qc1, b1, lb, h2, h1, hl, hlt, heq⟩
  · exact Or.inl heq
  right
  obtain ⟨-, hb2⟩ := justifyBlock?_eq_some.1 h2
  obtain ⟨hqc1, hb1⟩ := justifyBlock?_eq_some.1 h1
  rw [heq]
  rcases (h.load hb2).2.2 qc1 hqc1 with ⟨-, hgen⟩ | hv
  · -- the genesis block is not higher than any other
    have hzero := (h.load hb1).2.1 hgen
    have hpos := (h.load hl).1
    lia
  · exact hv

/-- In a certified store the three certificates behind a decision are sound. -/
private theorem UpdateResult.decided_sound {env : Env} {s s' : Core} {b : Block} {r : Except CoreError Unit}
    (u : UpdateResult env s b r s') (h : CertStore env s) (hb : Certified env b) :
    s'.decided = s.decided ∨
    ∃ qc2 b2 qc1 b1 qc0 b0 i, s.justifyBlock? b = some (qc2, b2) ∧ s.justifyBlock? b2 = some (qc1, b1) ∧
      s.justifyBlock? b1 = some (qc0, b0) ∧
      qc2.Sound env.replicas ∧ qc1.Sound env.replicas ∧ qc0.Sound env.replicas ∧
      s'.decided = s.decided ++ s.ancestors i (getBlockHash b0) := by
  rcases u.exec with ⟨-, hd⟩ | ⟨qc2, b2, qc1, b1, qc0, b0, xb, h2, h1, h0, -, -, -, -, hd⟩
  · exact Or.inl hd
  obtain ⟨hqc2, hb2⟩ := justifyBlock?_eq_some.1 h2
  obtain ⟨hqc1, hb1⟩ := justifyBlock?_eq_some.1 h1
  obtain ⟨hqc0, -⟩ := justifyBlock?_eq_some.1 h0
  exact Or.inr ⟨qc2, b2, qc1, b1, qc0, b0, _, h2, h1, h0, hb.2.2 qc2 hqc2, (h.load hb2).2.2 qc1 hqc1,
    (h.load hb1).2.2 qc0 hqc0, hd⟩

end Core

/-- Locks and decisions rest on verified certificates, for runs in which the `Justify` of every block that arrives is the
genesis certificate or verifies and no block has the genesis block's hash or a negative height.  A call keeps the lock
and the decisions, or it runs `update`, which keeps the lock or replaces it by a certificate that verifies, and decides
nothing or decides the walk from the block that three sound certificates lead to. -/
theorem locks_and_decisions_verified (env : Env) (ops : List CoreOp) (op : CoreOp) (s s' : Core)
    (hs : s = run (Core.step env) newHotStuffCore ops) (hs' : s' = run (Core.step env) newHotStuffCore (ops ++ [op]))
    (hguard : StepsMeet (Core.step env) (Core.CertGuard env) newHotStuffCore (ops ++ [op])) :
    (s'.lockedQC = s.lockedQC ∧ s'.decided = s.decided) ∨
    ∃ t b, Core.Updates env s op t b ∧ s'.lockedQC = (t.update env b).2.lockedQC ∧
      s'.decided = (t.update env b).2.decided ∧
      (s'.lockedQC = s.lockedQC ∨ env.replicas.verifyQuorumCert s'.lockedQC = true) ∧
      (s'.decided = s.decided ∨
        ∃ qc2 b2 qc1 b1 qc0 b0 i, t.justifyBlock? b = some (qc2, b2) ∧ t.justifyBlock? b2 = some (qc1, b1) ∧
          t.justifyBlock? b1 = some (qc0, b0) ∧
          qc2.Sound env.replicas ∧ qc1.Sound env.replicas ∧ qc0.Sound env.replicas ∧
          s'.decided = s.decided ++ t.ancestors i (getBlockHash b0)) := by
  obtain ⟨hrun, hlast⟩ := Lib.stepsMeet_append.1 hguard
  have hinv : s.CertInv env := by
    rw [hs]
    exact hrun.invariant (fun _ _ h hg => h.step hg) (Core.certInv_newHotStuffCore env)
  rw [← hs] at hlast
  rw [Lib.run_append, ← hs] at hs'
  rw [show s' = s.step env op from hs']
  rcases Core.step_updates env s op with hsame | ⟨t, b, hup, hlock, hdec, hlock', hdec'⟩
  · exact Or.inl hsame
  obtain ⟨hstore, hcert⟩ := hup.certStore hinv hlast.1
  have u := Core.update_cases env t b
  refine Or.inr ⟨t, b, hup, hlock', hdec', ?_, ?_⟩
  · rw [hlock', ← hlock]
    exact u.lock_verified hstore
  · rw [hdec', ← hdec]
    exact u.decided_sound hstore hcert

/-- Four proposals of the four-replica deployment; the last one moves the lock. -/
theorem locks_and_decisions_verified_server :
    Server.replicas.verifyQuorumCert (run (Core.step (Server.env 0)) newHotStuffCore
      ([.receive ⟨0, Server.chain 1⟩, .receive ⟨1, Server.chain 2⟩, .receive ⟨2, Server.chain 3⟩] ++
        [.receive ⟨3, Server.chain 4⟩])).lockedQC = true := by
  have key : ∀ s s' : Core,
      s = run (Core.step (Server.env 0)) newHotStuffCore
        [.receive ⟨0, Server.chain 1⟩, .receive ⟨1, Server.chain 2⟩, .receive ⟨2, Server.chain 3⟩] →
      s' = run (Core.step (Server.env 0)) newHotStuffCore
        ([.receive ⟨0, Server.chain 1⟩, .receive ⟨1, Server.chain 2⟩, .receive ⟨2, Server.chain 3⟩] ++
          [.receive ⟨3, Server.chain 4⟩]) →
      s'.lockedQC.blockHash ≠ s.lockedQC.blockHash → Server.replicas.verifyQuorumCert s'.lockedQC = true := by
    intro s s' hs hs' hmoved
    rcases locks_and_decisions_verified (Server.env 0) _ _ s s' hs hs' (by decide +kernel) with
      ⟨hlock, -⟩ | ⟨t, b, -, -, -, hlock | hv, -⟩
    · exact absurd (congrArg QuorumCert.blockHash hlock) hmoved
    · exact absurd (congrArg QuorumCert.blockHash hlock) hmoved
    · exact hv
  exact key _ _ rfl rfl (by decide +kernel)

/-- Blocks with empty certificates are enough to move the lock to a certificate that does not verify and to decide. -/
theorem unverified_lock :
    Server.replicas.verifyQuorumCert (run (Core.step (Server.env 0)) newHotStuffCore
      ((List.range 4).map fun k => .receive ⟨0, Server.branch [] [1] (k + 1)⟩)).lockedQC = false ∧
    (run (Core.step (Server.env 0)) newHotStuffCore
      ((List.range 4).map fun k => .receive ⟨0, Server.branch [] [1] (k + 1)⟩)).lockedQC.blockHash =
        (Server.branch [] [1] 2).selfQc.blockHash ∧
    (run (Core.step (Server.env 0)) newHotStuffCore
      ((List.range 4).map fun k => .receive ⟨0, Server.branch [] [1] (k + 1)⟩)).decided.map (fun b => b.height) = [1] := by
  decide +kernel

end GoHotstuff
