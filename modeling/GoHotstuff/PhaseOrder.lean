import GoHotstuff.BlockTree

/-!
# The order of the phases

In a network of replicas that all run this program the blocks form a tree, because every proposal that is sent is one a
core has made (`Traced`) and a block is made on the block of the highest certificate.  So as long as no block is evicted,
the three certificates of a replica are in order: `update` decides on the parent of the block it locks, and locks the
parent of the block whose certificate it has just compared with the highest one (`phase_order`).
-/

namespace GoHotstuff

open Lib (Bytes run StepsMeet)

/-! ### Where proposals come from -/

namespace Node

/-- The own proposals, from the core's event over the goroutine that runs it to the message that is sent, are of stored
blocks. -/
structure Traced (n : Node) : Prop where
  proposed : ∀ prop, Event.propose prop ∈ n.core.notified → Known n.core.stored prop.block
  task : ∀ e, Task.event e ∈ n.tasks → e ∈ n.core.notified
  sent : ∀ m ∈ n.sent, ∀ viewNumber pb, m.msg = .proposal viewNumber (some pb) →
    ∃ b, Known n.core.stored b ∧ pb = b.toPb

private theorem proposed_run {env : Env} (ops : List CoreOp) {s : Core} (hst : s.StoreInv)
    (h : ∀ prop, Event.propose prop ∈ s.notified → Known s.stored prop.block) :
    ∀ prop, Event.propose prop ∈ (run (Core.step env) s ops).notified →
      Known (run (Core.step env) s ops).stored prop.block := by
  have hall := @Core.notified_run env (fun l e => ∀ prop, e = .propose prop → Known l prop.block)
    (fun hl h prop heq => (h prop heq).mono hl) ?_ ops s hst ?_
  · exact fun prop hprop => hall _ hprop prop rfl
  · intro s op hst
    obtain ⟨es, heq, hes⟩ := Core.step_notifies env s op
    refine ⟨es, heq, fun e he prop hprop => ?_⟩
    rcases hes e he prop hprop with hmem | ⟨hash, hl⟩
    · exact known_of_mem hmem
    · exact (hst.step env op).exists_stored hl
  · rintro e he prop rfl
    exact h prop he

theorem Traced.step {env : NodeEnv} {n : Node} (hbase : n.core.Base env.toEnv) (h : n.Traced) (a : Action) :
    (n.step env a).Traced := by
  have hstored := (stored_prefix_node env n a).subset
  obtain ⟨ops, hcore⟩ := core_step env n a
  have hprefix : n.core.notified <+: (n.step env a).core.notified := by
    rw [hcore]
    exact Core.notified_prefix_run env.toEnv n.core ops
  have htask : ∀ e, Task.event e ∈ n.tasks ∨ e ∈ (n.step env a).core.notified →
      e ∈ (n.step env a).core.notified := by
    intro e he
    rcases he with he | he
    · exact hprefix.subset (h.task e he)
    · exact he
  have hsent : ∀ m ∈ n.sent, ∀ viewNumber pb, m.msg = .proposal viewNumber (some pb) →
      ∃ b, Known (n.step env a).core.stored b ∧ pb = b.toPb := by
    intro m hm viewNumber pb hmsg
    obtain ⟨b, hb, hpb⟩ := h.sent m hm viewNumber pb hmsg
    exact ⟨b, hb.mono hstored, hpb⟩
  constructor
  · rw [hcore]
    exact proposed_run ops hbase.toStoreInv h.proposed
  · intro e he
    cases step_case env n a with
    | minor m => exact htask e (m.event e he)
    | main hop hcore m => exact htask e (m.event e he)
  · intro m hm viewNumber pb hmsg
    cases step_case env n a with
    | minor moves =>
      rcases moves.sent m hm with hm | hm
      · exact hsent m hm viewNumber pb hmsg
      · obtain ⟨prop, htask, hpb⟩ := hm viewNumber (some pb) hmsg
        refine ⟨prop.block, ?_, Option.some.inj hpb⟩
        exact (h.proposed prop (h.task _ htask)).mono hstored
    | main hop hcore moves =>
      rcases moves.sent m hm with hm | hm
      · exact hsent m hm viewNumber pb hmsg
      · exact hm.elim

private theorem traced_newNode : newNode.Traced where
  proposed prop h := by cases h
  task e h := by
    rcases List.mem_singleton.1 h with h
    cases h
  sent m h := by cases h

end Node

/-! ### The three certificates -/

namespace Core

/-- No block has been evicted. -/
def Kept (s : Core) : Prop := ∀ b ∈ s.stored, (s.load b.selfQc.blockHash).isSome

instance (s : Core) : Decidable s.Kept := inferInstanceAs (Decidable (∀ b ∈ s.stored, (s.load b.selfQc.blockHash).isSome))

private theorem SameEntries.kept {s s' : Core} (e : SameEntries s s') : s'.Kept ↔ s.Kept := by
  unfold Kept
  simp only [e.isSome_load, e.2.1]

/-- A block with this hash and this height has been stored. -/
def HasHeight (s : Core) (hash : Bytes) (x : Int64) : Prop := ∃ b ∈ s.stored, getBlockHash b = hash ∧ b.height = x

def Phases (s : Core) : Prop :=
  ∃ x l g, s.HasHeight s.execQC.blockHash x ∧ s.HasHeight s.lockedQC.blockHash l ∧
    s.HasHeight s.genericQC.blockHash g ∧ x ≤ l ∧ l ≤ g ∧
    (s.execQC.blockHash ≠ genesisHash → x < l) ∧ (s.lockedQC.blockHash ≠ genesisHash → l < g)

private theorem HasHeight.mono {s s' : Core} (hs : s.stored ⊆ s'.stored) {hash : Bytes} {x : Int64}
    (h : s.HasHeight hash x) :
    s'.HasHeight hash x := by
  obtain ⟨b, hb, hrest⟩ := h
  exact ⟨b, hs hb, hrest⟩

private theorem Phases.of_eq {s s' : Core} (h : s.Phases) (hs : s.stored ⊆ s'.stored) (hx : s'.execQC = s.execQC)
    (hl : s'.lockedQC = s.lockedQC) (hg : s'.genericQC = s.genericQC) : s'.Phases := by
  obtain ⟨x, l, g, h1, h2, h3, hrest⟩ := h
  unfold Phases
  rw [hx, hl, hg]
  exact ⟨x, l, g, h1.mono hs, h2.mono hs, h3.mono hs, hrest⟩

section

variable {rc : ReplicaConf} {l : List Block} (T : BlockTree rc l) (hcf : CollisionFree l)

include T

private theorem hasHeight_of_load {s : Core} (hst : s.StoreInv) (hs : s.stored ⊆ l) {hash : Bytes} {b : Block}
    (hl : s.load hash = some b) : s.HasHeight hash b.height := by
  obtain ⟨b₀, hmem, hbody⟩ := hst.exists_stored hl
  refine ⟨b₀, hmem, ?_, height_body hbody⟩
  rw [getBlockHash_body hbody]
  exact (T.load hst hs hl).2

include hcf

private theorem HasHeight.unique {s : Core} (hs : s.stored ⊆ l) {hash : Bytes} {x y : Int64} (h : s.HasHeight hash x)
    (h' : s.HasHeight hash y) : x = y := by
  obtain ⟨b, hb, hhash, rfl⟩ := h
  obtain ⟨b', hb', hhash', rfl⟩ := h'
  exact (T.eq_of_hash hcf (known_of_mem (hs hb)) (known_of_mem (hs hb')) (hhash.trans hhash'.symm)).2

/-- Without eviction the block is found. -/
private theorem HasHeight.load {s : Core} (hst : s.StoreInv) (hs : s.stored ⊆ l) (hkept : s.Kept) {hash : Bytes}
    {x : Int64} (h : s.HasHeight hash x) : ∃ b, s.load hash = some b ∧ b.height = x := by
  obtain ⟨b₀, hmem, hhash, hx⟩ := h
  have hsome := hkept b₀ hmem
  rw [(T b₀ (hs hmem)).selfHash, hhash] at hsome
  obtain ⟨b, hl⟩ := Option.isSome_iff_exists.1 hsome
  exact ⟨b, hl, (hasHeight_of_load T hst hs hl).unique T hcf hs ⟨b₀, hmem, hhash, hx⟩⟩

/-- A step that leaves lock and execution and may raise the highest certificate. -/
private theorem Phases.high {s s' : Core} (h : s.Phases) (hst : s'.StoreInv) (hs : s.stored ⊆ s'.stored)
    (hs' : s'.stored ⊆ l)
    (hx : s'.execQC = s.execQC) (hl : s'.lockedQC = s.lockedQC) (hhigh : HighStep s s') : s'.Phases := by
  obtain ⟨x, lk, g, h1, h2, h3, hxl, hlg, hxs, hls⟩ := h
  have hheight : ∀ {hash y}, s'.height? hash = some y → s'.HasHeight hash y := by
    intro hash y hy
    obtain ⟨b, hload, rfl⟩ := Option.map_eq_some_iff.1 hy
    exact hasHeight_of_load T hst hs' hload
  unfold Phases
  rw [hx, hl]
  rcases hhigh with hkeep | ⟨y, z, hy, hz, hlt⟩
  · refine ⟨x, lk, g, h1.mono hs, h2.mono hs, ?_, hxl, hlg, hxs, hls⟩
    rw [hkeep.blockHash]
    exact h3.mono hs
  · obtain rfl := (hheight hy).unique T hcf hs' (h3.mono hs)
    refine ⟨x, lk, z, h1.mono hs, h2.mono hs, hheight hz, hxl, by lia, hxs, fun hne => ?_⟩
    have := hls hne
    lia

end

section

variable {env : Env} {l : List Block} (T : BlockTree env.replicas l) (hcf : CollisionFree l)

include T hcf

/-- `update` leaves the highest certificate at least as high as before and as the justify block, unless that is the
genesis block. -/
private theorem UpdateResult.generic_height {s s' : Core} {b b2 : Block} {qc2 : QuorumCert} {r : Except CoreError Unit}
    (u : UpdateResult env s b r s') (hroot : genesis ∈ l) (hst : s.StoreInv) (hs : s.stored ⊆ l) (hkept : s.Kept)
    (hb : Known l b) (h2 : s.justifyBlock? b = some (qc2, b2)) {g : Int64} (hg : s.HasHeight s.genericQC.blockHash g) :
    ∃ g', s.HasHeight s'.genericQC.blockHash g' ∧ g ≤ g' ∧ (b2.body ≠ genesis.body → b2.height ≤ g') := by
  obtain ⟨-, hl2⟩ := justifyBlock?_eq_some.1 h2
  obtain ⟨hb2, hhash2, -, hsound, -⟩ := T.justify hcf hst hs hb h2
  obtain ⟨gb, hgl, rfl⟩ := hg.load T hcf hst hs hkept
  rw [(u.generic_eq h2).1]
  unfold highQC
  split
  · rename_i hcond
    obtain ⟨-, hb', hmem, hlt⟩ := hcond
    obtain rfl : gb = hb' := Option.some.inj (hgl.symm.trans hmem)
    exact ⟨b2.height, hasHeight_of_load T hst hs hl2, by lia, fun _ => Int64.le_refl _⟩
  · rename_i hcond
    refine ⟨gb.height, hasHeight_of_load T hst hs hgl, Int64.le_refl _, fun hne => ?_⟩
    have hver : env.replicas.verifyQuorumCert qc2 = true := by
      rcases hsound with ⟨-, hgen⟩ | hver
      · exact absurd (T.genesis_of_hash hcf hroot hb2 (hhash2.trans hgen)) hne
      · exact hver
    by_cases hlt : gb.height < b2.height
    · exact absurd ⟨hver, gb, hgl, hlt⟩ hcond
    · lia

theorem Phases.update {s s' : Core} {b : Block} {r : Except CoreError Unit} (h : s.Phases)
    (u : UpdateResult env s b r s') (hroot : genesis ∈ l) (hst : s.StoreInv) (hs : s.stored ⊆ l) (hkept : s.Kept)
    (hb : Known l b) : s'.Phases := by
  have hstored : s.stored ⊆ s'.stored := by rw [u.quiet_store.2.1]; exact List.Subset.refl _
  cases h2 : s.justifyBlock? b with
  | none =>
    have q := u.quiet_of_none h2
    obtain ⟨c, w, k, y, hc, hp, heq⟩ := q
    rw [heq] at hstored ⊢
    exact h.of_eq hstored rfl rfl rfl
  | some y =>
    obtain ⟨qc2, b2⟩ := y
    obtain ⟨x, lk, g, hx, hl, hg, hxl, hlg, hxs, hls⟩ := h
    obtain ⟨g', hg', hle, hle2⟩ := u.generic_height T hcf hroot hst hs hkept hb h2 hg
    obtain ⟨hb2, -, -, -, -⟩ := T.justify hcf hst hs hb h2
    have hlock := u.locked_eq h2
    have hexec := u.exec
    cases h1 : s.justifyBlock? b2 with
    | none =>
      rw [h1] at hlock
      have hx' : s'.execQC = s.execQC := by
        rcases hexec with ⟨hx', -⟩ | ⟨qc2', b2', qc1, b1, qc0, b0, xb, h2', h1', -⟩
        · exact hx'
        · rw [h2] at h2'
          cases h2'
          rw [h1] at h1'
          cases h1'
      unfold Phases
      rw [hlock, hx']
      refine ⟨x, lk, g', hx.mono hstored, hl.mono hstored, hg'.mono hstored, hxl, by lia, hxs, fun hne => ?_⟩
      have := hls hne
      lia
    | some y =>
      obtain ⟨qc1, b1⟩ := y
      rw [h1] at hlock
      simp only at hlock
      obtain ⟨hb1, -, -, -, hlt1⟩ := T.justify hcf hst hs hb2 h1
      obtain ⟨hqc1, hl1⟩ := justifyBlock?_eq_some.1 h1
      -- a block with a justify is not the genesis block
      have hg2 : b2.height ≤ g' := by
        apply hle2
        intro hgen
        rw [justify_body hgen] at hqc1
        cases hqc1
      -- the new lock is the higher one of the old lock and the block of the second phase
      obtain ⟨lk', hl', hlk, hb1lk, hlg'⟩ : ∃ lk', s.HasHeight s'.lockedQC.blockHash lk' ∧ lk ≤ lk' ∧ b1.height ≤ lk' ∧
          lk' ≤ g' ∧ (s'.lockedQC.blockHash ≠ genesisHash → lk' < g') := by
        obtain ⟨lb, hlb, rfl⟩ := hl.load T hcf hst hs hkept
        rw [hlock]
        unfold lockQC
        split
        · rename_i hcond
          obtain ⟨lb', hmem, hlt⟩ := hcond
          obtain rfl : lb = lb' := Option.some.inj (hlb.symm.trans hmem)
          refine ⟨b1.height, hasHeight_of_load T hst hs hl1, by lia, Int64.le_refl _, by lia, fun _ => by lia⟩
        · rename_i hcond
          have hge : b1.height ≤ lb.height := by
            by_cases hlt : lb.height < b1.height
            · exact absurd ⟨lb, hlb, hlt⟩ hcond
            · lia
          refine ⟨lb.height, hl, Int64.le_refl _, hge, by lia, fun hne => ?_⟩
          have := hls hne
          lia
      rcases hexec with ⟨hx', -⟩ | ⟨qc2', b2', qc1', b1', qc0, b0, xb, h2', h1', h0, -, -, -, hx', -⟩
      · unfold Phases
        rw [hx']
        refine ⟨x, lk', g', hx.mono hstored, hl'.mono hstored, hg'.mono hstored, by lia, hlg'.1, fun hne => ?_, hlg'.2⟩
        have := hxs hne
        lia
      · rw [h2] at h2'
        cases h2'
        rw [h1] at h1'
        cases h1'
        obtain ⟨-, -, -, -, hlt0⟩ := T.justify hcf hst hs hb1 h0
        obtain ⟨-, hl0⟩ := justifyBlock?_eq_some.1 h0
        unfold Phases
        rw [hx']
        exact ⟨b0.height, lk', g', (hasHeight_of_load T hst hs hl0).mono hstored, hl'.mono hstored, hg'.mono hstored,
          by lia, hlg'.1, fun _ => by lia, hlg'.2⟩

/-- Behind `update` the handlers leave lock and execution and may raise the highest certificate. -/
private theorem Phases.handled {s s' : Core} {b : Block} (h : s.Phases) (hroot : genesis ∈ l) (hst : s.StoreInv)
    (e : SameEntries s s') (hs' : s'.stored ⊆ l) (hkept : s'.Kept) (hb : Known l b)
    (hl : s'.lockedQC = (s.update env b).2.lockedQC) (hx : s'.execQC = (s.update env b).2.execQC)
    (hhigh : HighStep (s.update env b).2 s') : s'.Phases := by
  have hs : s.stored ⊆ l := by rwa [← e.2.1]
  have u := update_cases env s b
  have hu : (s.update env b).2.Phases := h.update T hcf u hroot hst hs (e.kept.1 hkept) hb
  refine hu.high T hcf (e.storeInv hst) ?_ hs' hx hl hhigh
  rw [u.quiet_store.2.1, e.2.1]
  exact List.Subset.refl _

end

private theorem ProcessResult.highStep_update {env : Env} {s s' : Core} {prop : Proposal}
    (p : ProcessResult env s prop s') :
    HighStep (s.update env prop.block).2 s' := by
  cases p with
  | updateError hu =>
    rw [hu]
    exact Or.inl (highKept_of_eq rfl rfl)
  | checkError hu hv q =>
    rw [hu]
    exact Or.inl q.highKept
  | signError hu hv q =>
    rw [hu]
    obtain ⟨c, w, k, x, hc, hp, rfl⟩ := q
    exact Or.inl (highKept_of_eq rfl rfl)
  | voted hu hv q hvote =>
    rw [hu]
    obtain ⟨c, w, k, x, hc, hp, rfl⟩ := q
    exact Or.inl (highKept_of_eq rfl rfl)

private theorem ProposeResult.highStep_update {env : Env} {s s' : Core} {curView : Int64} {b : Block} (h : s.StoreInv)
    (p : ProposeResult env s curView b s') : HighStep (s.update env b).2 s' := by
  cases p with
  | updateError hu =>
    rw [hu]
    exact Or.inl (highKept_of_eq rfl rfl)
  | signError hu =>
    rw [hu]
    exact Or.inl (highKept_of_eq rfl rfl)
  | @voted sig vote r s1 s3 _ hu hvote v hs' =>
    obtain ⟨ho, hs, hk⟩ := (update_result hu).quiet_store
    have hhigh := v.highStep (h.of_find? ho hs hk)
    rw [hu]
    rcases hs' with rfl | rfl
    · exact hhigh
    · exact hhigh.congr_right rfl rfl fun _ => rfl

theorem Phases.step {env : Env} {l : List Block} (T : BlockTree env.replicas l) (hcf : CollisionFree l)
    (hroot : genesis ∈ l) {s : Core} (h : s.Phases) (hbase : s.Base env) (op : CoreOp)
    (hs' : (s.step env op).stored ⊆ l) (hkept : (s.step env op).Kept) : (s.step env op).Phases := by
  have hsub := (stored_prefix_step env s op).subset
  obtain ⟨hinv, hhigh⟩ := hbase.toHighInv.step op
  have hres := step_cases env s op
  generalize s.step env op = s' at hres hs' hkept hsub hinv hhigh
  cases hres with
  | quiet hop q => exact h.high T hcf hinv.toStoreInv hsub hs' q.execQC q.lockedQC hhigh
  | @propose curView now parentHash cmds parent _ hl hh p =>
    have hst := ((quiet_touch s parentHash).storeInv hbase.toStoreInv).storeBlock
      (s.newBlock env curView parentHash cmds parent now)
    have ht : ((s.touch parentHash).storeBlock (s.newBlock env curView parentHash cmds parent now)).Phases :=
      h.of_eq (List.subset_append_left _ _) rfl rfl rfl
    refine ht.handled T hcf hroot hst p.sameEntries hs' hkept ?_ p.update.1 p.update.2.1 (p.highStep_update hst)
    refine known_of_mem (hs' ?_)
    rw [p.sameEntries.2.1]
    exact List.mem_append_right _ (List.mem_singleton_self _)
  | store hw q => exact h.high T hcf hinv.toStoreInv hsub hs' q.execQC q.lockedQC hhigh
  | @receive prop s1 _ x q hj p =>
    have hst := q.storeInv (hbase.toStoreInv.storeBlock prop.block)
    have hstored : s1.stored = s.stored ++ [prop.block] := q.stored
    have h1 : s1.Phases := by
      obtain ⟨c, w, k, y, hc, hp, rfl⟩ := q
      exact h.of_eq (List.subset_append_left _ _) rfl rfl rfl
    refine h1.handled T hcf hroot hst p.sameEntries hs' hkept ?_ p.update.1 p.update.2.1 p.highStep_update
    refine known_of_mem (hs' ?_)
    rw [p.sameEntries.2.1, hstored]
    exact List.mem_append_right _ (List.mem_singleton_self _)
  | @resume i prop s1 _ x hi q hj p =>
    have hst := q.storeInv hbase.toStoreInv
    have h1 : s1.Phases := by
      obtain ⟨c, w, k, y, hc, hp, rfl⟩ := q
      exact h.of_eq (List.Subset.refl _) rfl rfl rfl
    refine h1.handled T hcf hroot hst p.sameEntries hs' hkept ?_ p.update.1 p.update.2.1 p.highStep_update
    refine known_of_mem (hs' (hsub ?_))
    exact hbase.pending prop (List.mem_append_right _ (List.mem_of_getElem? hi))
  | vote v =>
    obtain ⟨hl, hx, -⟩ := v.frame
    exact h.high T hcf hinv.toStoreInv hsub hs' hx hl hhigh
  | newView => exact h.high T hcf hinv.toStoreInv hsub hs' rfl rfl hhigh
  | @adopt qc b _ hl q =>
    obtain ⟨g, o, n, heq⟩ := highQC_frame env s b qc none
    rw [heq] at q
    exact h.high T hcf hinv.toStoreInv hsub hs' q.execQC q.lockedQC hhigh
  | sign => exact h.high T hcf hinv.toStoreInv hsub hs' rfl rfl hhigh

end Core

namespace Node

/-- A list of minor calls evicts nothing. -/
private theorem MinorCall.isSome_load_run {env : NodeEnv} {n : Node} {a : Action} {ops : List CoreOp}
    (h : ∀ op ∈ ops, MinorCall env n a op) (s : Core) (hash : Bytes) :
    ((run (Core.step env.toEnv) s ops).load hash).isSome = (s.load hash).isSome := by
  induction ops generalizing s with
  | nil => rfl
  | cons op ops ih =>
    rw [Lib.run_cons, ih (fun op' hop' => h op' (List.mem_cons_of_mem _ hop'))]
    exact ((h op List.mem_cons_self).sameEntries s).isSome_load hash

private theorem phases_step {env : NodeEnv} {l : List Block} (T : BlockTree env.replicas l) (hcf : CollisionFree l)
    (hroot : genesis ∈ l) {n : Node} (h : n.core.Phases) (hbase : n.core.Base env.toEnv) (a : Action)
    (hs' : (n.step env a).core.stored ⊆ l) (hkept : (n.step env a).core.Kept) : (n.step env a).core.Phases := by
  cases step_case env n a with
  | minor m =>
    obtain ⟨ops, hcore, hops⟩ := m.core
    rw [hcore] at hs' hkept ⊢
    clear hcore
    generalize n.core = s at h hbase hs' hkept
    -- every state on the way has the store of the last one
    induction ops generalizing s with
    | nil => exact h
    | cons op ops ih =>
      have hrest : ∀ op' ∈ ops, MinorCall env n a op' := fun op' hop' => hops op' (List.mem_cons_of_mem _ hop')
      have hstored := MinorCall.stored_run hrest (s.step env.toEnv op)
      have hload := MinorCall.isSome_load_run hrest (s.step env.toEnv op)
      rw [Lib.run_cons] at hs' hkept
      refine ih hrest _ (h.step T hcf hroot hbase op ?_ ?_) (hbase.step op) hs' hkept
      · rw [← hstored]
        exact hs'
      · intro b hb
        rw [← hload]
        apply hkept
        rw [hstored]
        exact hb
  | @main op s hop hcore m =>
    rw [hcore] at hs' hkept ⊢
    have hq := hop.quiet
    refine Core.Phases.step T hcf hroot ?_ (hq.base hbase) op hs' hkept
    obtain ⟨c, w, k, x, hc, hp, rfl⟩ := hq
    exact h.of_eq (List.Subset.refl _) rfl rfl rfl

end Node

/-! ### The network -/

namespace Net

/-- What arrives has been sent by the replica it comes from. -/
def Delivers (E : NetEnv) (net : Net) : Action → Prop
  | .message src msg => src ∈ E.replicas.replicas.keys ∧ ∃ m ∈ (net src).sent, m.msg = msg
  | _ => True

instance (E : NetEnv) (net : Net) : (a : Action) → Decidable (net.Delivers E a)
  | .message src msg =>
    inferInstanceAs (Decidable (src ∈ E.replicas.replicas.keys ∧ ∃ m ∈ (net src).sent, m.msg = msg))
  | .submit _ | .task .. | .resumeProposal _ | .resumeNewView _ | .timeout => .isTrue trivial

/-- No block has been evicted anywhere and no two blocks show a collision of SHA-256. -/
def Intact (E : NetEnv) (net : Net) : Prop :=
  (∀ id ∈ E.replicas.replicas.keys, (net id).core.Kept) ∧ CollisionFree (net.blocks E.replicas.replicas.keys)

-- the bounded quantifier is decided along the list of ids: `Int64` is a finite type, but not one to search
instance (E : NetEnv) (net : Net) : Decidable (net.Intact E) :=
  @instDecidableAnd _ _ (List.decidableBAll (fun id => (net id).core.Kept) E.replicas.replicas.keys)
    (inferInstanceAs (Decidable (CollisionFree (net.blocks E.replicas.replicas.keys))))

/-- A replica acts on what the replicas have sent, and the action evicts nothing. -/
def HonestStep (E : NetEnv) (net : Net) (x : Int64 × Action) : Prop :=
  x.1 ∈ E.replicas.replicas.keys ∧ net.Delivers E x.2 ∧ (net.step E x).Intact E

instance (E : NetEnv) (net : Net) (x : Int64 × Action) : Decidable (net.HonestStep E x) :=
  inferInstanceAs (Decidable (x.1 ∈ E.replicas.replicas.keys ∧ net.Delivers E x.2 ∧ (net.step E x).Intact E))

/-- In a network of replicas that act on what they have sent, the blocks form a tree. -/
structure TreeInv (E : NetEnv) (net : Net) : Prop where
  base : ∀ id, (net id).core.Base (E.node id).toEnv
  traced : ∀ id, (net id).Traced
  tree : BlockTree E.replicas (net.blocks E.replicas.replicas.keys)
  root : ∀ id, genesis ∈ (net id).core.stored

/-- A block that is delivered is one of the blocks already there. -/
theorem TreeInv.delivered {E : NetEnv} {net : Net} (h : TreeInv E net) {src viewNumber : Int64} {pb : Pb.Block} {b : Block}
    (hdel : net.Delivers E (.message src (.proposal viewNumber (some pb)))) (hpb : pb.toBlock? = some b) :
    Known (net.blocks E.replicas.replicas.keys) b := by
  obtain ⟨hsrc, m, hm, hmsg⟩ := hdel
  obtain ⟨b', hknown, rfl⟩ := (h.traced src).sent m hm viewNumber pb hmsg
  obtain rfl : b' = b := Option.some.inj hpb
  exact hknown.mono (stored_subset_blocks hsrc net)

theorem TreeInv.step {E : NetEnv} {net : Net} {x : Int64 × Action} (h : TreeInv E net) (hdel : net.Delivers E x.2) :
    TreeInv E (net.step E x) := by
  -- the acting replica and the others
  have hcases : ∀ {P : Int64 → Node → Prop}, P x.1 ((net x.1).step (E.node x.1) x.2) → (∀ id, P id (net id)) →
      ∀ id, P id (net.step E x id) := by
    intro P hself hother id
    by_cases hid : id = x.1
    · subst hid
      rw [step_self]
      exact hself
    · rw [step_of_ne E net hid]
      exact hother id
  constructor
  · exact hcases (P := fun id n => n.core.Base (E.node id).toEnv) (Node.base_step (h.base x.1) x.2) h.base
  · exact hcases (P := fun _ n => n.Traced) ((h.traced x.1).step (h.base x.1) x.2) h.traced
  · refine tree_step h.tree h.base x fun _ src viewNumber pb b ha hpb => ?_
    rw [ha] at hdel
    exact h.tree.inTree (h.delivered hdel hpb)
  · exact hcases (P := fun _ n => genesis ∈ n.core.stored) ((Node.stored_prefix_node _ _ _).subset (h.root x.1)) h.root

theorem treeInv_start (E : NetEnv) : TreeInv E start where
  base _ := Core.base_newHotStuffCore _
  traced _ := Node.traced_newNode
  tree := tree_start _ _
  root _ := List.mem_singleton_self _

/-- The invariant of the network. -/
structure PhaseInv (E : NetEnv) (net : Net) : Prop where
  base : ∀ id, (net id).core.Base (E.node id).toEnv
  traced : ∀ id, (net id).Traced
  tree : BlockTree E.replicas (net.blocks E.replicas.replicas.keys)
  phases : ∀ id ∈ E.replicas.replicas.keys, (net id).core.Phases
  root : ∀ id, genesis ∈ (net id).core.stored
  intact : net.Intact E

theorem PhaseInv.step {E : NetEnv} {net : Net} {x : Int64 × Action} (h : PhaseInv E net) (hx : net.HonestStep E x) :
    PhaseInv E (net.step E x) := by
  obtain ⟨hmem, hdel, hintact⟩ := hx
  have ht := TreeInv.step ⟨h.base, h.traced, h.tree, h.root⟩ hdel
  refine ⟨ht.base, ht.traced, ht.tree, fun id hid => ?_, ht.root, hintact⟩
  by_cases hx : id = x.1
  · subst hx
    have hkept := hintact.1 x.1 hid
    have hsub := stored_subset_blocks hid (net.step E x)
    have hgen := hsub (ht.root x.1)
    rw [step_self] at hkept hsub ⊢
    exact Node.phases_step ht.tree hintact.2 hgen (h.phases x.1 hid) (h.base x.1) x.2 hsub hkept
  · rw [step_of_ne E net hx]
    exact h.phases id hid

private theorem phaseInv_start (E : NetEnv) : PhaseInv E start where
  base := (treeInv_start E).base
  traced := (treeInv_start E).traced
  tree := (treeInv_start E).tree
  phases id hid := by
    have hgen : newHotStuffCore.HasHeight genesisHash 0 := ⟨genesis, List.mem_singleton_self _, rfl, rfl⟩
    have hle : (0 : Int64) ≤ 0 := Int64.le_refl 0
    exact ⟨0, 0, 0, hgen, hgen, hgen, hle, hle, fun h => absurd rfl h, fun h => absurd rfl h⟩
  root := (treeInv_start E).root
  intact := by
    constructor
    · intro id hid b hb
      rw [List.mem_singleton.1 (show b ∈ [genesis] from hb)]
      exact congrArg Option.isSome (congrArg (Option.map fun o => o.block) (Core.object?_storeBlock_self _ genesis))
    · intro b hb b' hb' heq
      obtain ⟨id, -, hb⟩ := mem_blocks.1 hb
      obtain ⟨id', -, hb'⟩ := mem_blocks.1 hb'
      rw [List.mem_singleton.1 (show b ∈ [genesis] from hb), List.mem_singleton.1 (show b' ∈ [genesis] from hb')]

end Net

/-- Phase ordering, for every run of a network of replicas that act on what they have sent each other, in any order and
any number of times, while no block is evicted: the last executed block is not above the locked block, which is not above
the block of the highest certificate, and each is strictly below unless it is the genesis block. -/
theorem phase_order (E : NetEnv) (acts : List (Int64 × Action)) (net : Net)
    (hnet : net = run (Net.step E) Net.start acts)
    (hacts : StepsMeet (Net.step E) (Net.HonestStep E) Net.start acts) (id : Int64)
    (hid : id ∈ E.replicas.replicas.keys) :
    ∃ xb lb gb, (net id).core.load (net id).core.execQC.blockHash = some xb ∧
      (net id).core.load (net id).core.lockedQC.blockHash = some lb ∧
      (net id).core.load (net id).core.genericQC.blockHash = some gb ∧
      xb.height ≤ lb.height ∧ lb.height ≤ gb.height ∧
      ((net id).core.execQC.blockHash ≠ genesisHash → xb.height < lb.height) ∧
      ((net id).core.lockedQC.blockHash ≠ genesisHash → lb.height < gb.height) := by
  have hinv : Net.PhaseInv E net := by
    rw [hnet]
    exact hacts.invariant (fun _ _ h hx => h.step hx) (Net.phaseInv_start E)
  have hst : (net id).core.StoreInv := (hinv.base id).toStoreInv
  have hs := Net.stored_subset_blocks hid net
  have hkept := hinv.intact.1 id hid
  have hcf := hinv.intact.2
  obtain ⟨x, l, g, hx, hl, hg, hrest⟩ := hinv.phases id hid
  obtain ⟨xb, hxl, rfl⟩ := hx.load hinv.tree hcf hst hs hkept
  obtain ⟨lb, hll, rfl⟩ := hl.load hinv.tree hcf hst hs hkept
  obtain ⟨gb, hgl, rfl⟩ := hg.load hinv.tree hcf hst hs hkept
  exact ⟨xb, lb, gb, hxl, hll, hgl, hrest⟩

/-- Replica `2` has proposed on the second block: it is locked on the first one, and no block is executed. -/
def Server.lockedRun : List (Int64 × Action) := forwardedRound ++ secondRound ++ thirdRound

theorem phase_order_server :
    ∃ xb lb gb,
      (run (Net.step Server.netEnv) Net.start Server.lockedRun 2).core.load
        (run (Net.step Server.netEnv) Net.start Server.lockedRun 2).core.execQC.blockHash = some xb ∧
      (run (Net.step Server.netEnv) Net.start Server.lockedRun 2).core.load
        (run (Net.step Server.netEnv) Net.start Server.lockedRun 2).core.lockedQC.blockHash = some lb ∧
      (run (Net.step Server.netEnv) Net.start Server.lockedRun 2).core.load
        (run (Net.step Server.netEnv) Net.start Server.lockedRun 2).core.genericQC.blockHash = some gb ∧
      xb.height ≤ lb.height ∧ lb.height < gb.height := by
  have hlocked : (run (Net.step Server.netEnv) Net.start Server.lockedRun 2).core.lockedQC.blockHash ≠ genesisHash := by
    decide +kernel
  obtain ⟨xb, lb, gb, hx, hl, hg, hxl, -, -, hlg⟩ := phase_order Server.netEnv Server.lockedRun _ rfl (by decide +kernel)
    2 (by decide +kernel)
  exact ⟨xb, lb, gb, hx, hl, hg, hxl, hlg hlocked⟩

end GoHotstuff
