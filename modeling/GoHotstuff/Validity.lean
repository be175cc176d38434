import GoHotstuff.PhaseOrder
import GoHotstuff.Sending

/-!
# Executed commands come from clients

In a network of replicas that all run this program, whatever is lost, delayed, repeated or evicted, a command is executed
only if a client has submitted it.  A command goes from `Submit` into the channel of a replica, perhaps on to the leader by
a forward message, into the block the leader makes, with the proposal to the other replicas, and with a decide event to
`decideExec` (`Valid`).  The genesis block, whose command nobody has submitted, is never decided: the decide loop makes as
many steps as the heights allow above the last executed block, and in the tree of blocks each step goes down by one.
-/

namespace GoHotstuff

open Lib (Bytes run StepsMeet)

private theorem cmds_body {b b' : Block} (h : b.body = b'.body) : b.cmds = b'.cmds := by
  have hbody := congrArg (fun b : Block => b.cmds) h
  exact hbody

private theorem CollisionFree.subset {l l' : List Block} (h : CollisionFree l') (hl : l ⊆ l') : CollisionFree l :=
  fun b hb b' hb' => h b (hl hb) b' (hl hb')

/-! ### The decide loop stays above the genesis block -/

section

variable {rc : ReplicaConf} {l : List Block}

private theorem BlockTree.height_nonneg (T : BlockTree rc l) {b : Block} (hb : Known l b) : 0 ≤ b.height.toInt := by
  rcases T.inTree hb with hg | hlink
  · rw [height_body hg]
    decide
  · have hpos := Int64.lt_iff_toInt_lt.1 hlink.pos
    rw [Int64.toInt_zero] at hpos
    omega

/-- A walk that is not longer than the first block is high. -/
private theorem BlockTree.ancestors_pos (T : BlockTree rc l) (hcf : CollisionFree l) {s : Core} (hst : s.StoreInv)
    (hs : s.stored ⊆ l) (k : Nat) {hash : Bytes} (hk : ∀ b, s.load hash = some b → (k : Int) ≤ b.height.toInt) {b : Block}
    (hb : b ∈ s.ancestors k hash) : Known l b ∧ 0 < b.height := by
  induction k generalizing hash with
  | zero => cases hb
  | succ k ih =>
    unfold Core.ancestors at hb
    cases hl : s.load hash with
    | none =>
      rw [hl] at hb
      cases hb
    | some b1 =>
      rw [hl] at hb
      have hk1 := hk b1 hl
      have hknown := (T.load hst hs hl).1
      rcases List.mem_cons.1 hb with rfl | hb
      · refine ⟨hknown, Int64.lt_iff_toInt_lt.2 ?_⟩
        rw [Int64.toInt_zero]
        omega
      · refine ih (fun p hp => ?_) hb
        obtain ⟨hpknown, hphash⟩ := T.load hst hs hp
        have hheight := (T.height_parent hcf hknown hpknown hphash).2
        omega

end

private theorem toNatClampNeg_sub_le {x y : Int64} (hx : 0 ≤ x.toInt) (hy : 0 ≤ y.toInt) :
    ((x - y).toNatClampNeg : Int) ≤ x.toInt := by
  have hlt := x.toInt_lt
  have hlt' := y.toInt_lt
  have hsub : (x - y).toInt = x.toInt - y.toInt := by
    rw [Int64.toInt_sub, Int.bmod_eq_of_le] <;> omega
  rw [Int64.toNatClampNeg, hsub]
  omega

namespace Core

variable {l : List Block}

/-- What `update` decides is above the genesis block. -/
private theorem UpdateResult.decided_pos {env : Env} {s s' : Core} {b : Block} {r : Except CoreError Unit}
    (u : UpdateResult env s b r s') (T : BlockTree env.replicas l) (hcf : CollisionFree l) (hst : s.StoreInv)
    (hs : s.stored ⊆ l) {b' : Block} (hb' : b' ∈ s'.decided) : b' ∈ s.decided ∨ (Known l b' ∧ 0 < b'.height) := by
  rcases u.exec with ⟨-, hd⟩ | ⟨qc2, b2, qc1, b1, qc0, b0, xb, -, -, h0, -, -, hx, -, hd⟩
  · rw [hd] at hb'
    exact Or.inl hb'
  · rw [hd] at hb'
    rcases List.mem_append.1 hb' with hb' | hb'
    · exact Or.inl hb'
    · right
      obtain ⟨-, hl0⟩ := justifyBlock?_eq_some.1 h0
      obtain ⟨hknown0, hhash0⟩ := T.load hst hs hl0
      have hknownx := (T.load hst hs hx).1
      refine T.ancestors_pos hcf hst hs _ (fun b1' hl1 => ?_) hb'
      rw [hhash0, hl0] at hl1
      obtain rfl := Option.some.inj hl1
      exact toNatClampNeg_sub_le (T.height_nonneg hknown0) (T.height_nonneg hknownx)

private theorem decided_pos_step {env : Env} {s : Core} {op : CoreOp} (T : BlockTree env.replicas l)
    (hcf : CollisionFree l)
    (hst : s.StoreInv) (hs' : (s.step env op).stored ⊆ l) {b : Block} (hb : b ∈ (s.step env op).decided) :
    b ∈ s.decided ∨ (Known l b ∧ 0 < b.height) := by
  have hres := step_cases env s op
  generalize s.step env op = s' at hres hs' hb
  cases hres with
  | quiet hop q => exact Or.inl (q.decided ▸ hb)
  | @propose curView now parentHash cmds parent _ hl hh p =>
    rw [p.update.2.2] at hb
    rw [p.sameEntries.2.1] at hs'
    exact (update_cases env _ _).decided_pos T hcf (((quiet_touch s parentHash).storeInv hst).storeBlock _) hs' hb
  | store hw q => exact Or.inl (q.decided ▸ hb)
  | @receive prop s1 _ x q hj p =>
    rw [p.update.2.2] at hb
    rw [p.sameEntries.2.1] at hs'
    have hdec : s1.decided = s.decided := q.decided
    rw [← hdec]
    exact (update_cases env s1 prop.block).decided_pos T hcf (q.storeInv (hst.storeBlock _)) hs' hb
  | @resume i prop s1 _ x hi q hj p =>
    rw [p.update.2.2] at hb
    rw [p.sameEntries.2.1] at hs'
    rw [← q.decided]
    exact (update_cases env s1 prop.block).decided_pos T hcf (q.storeInv hst) hs' hb
  | vote v =>
    obtain ⟨-, -, -, -, -, -, -, hdec⟩ := v.frame
    exact Or.inl (hdec ▸ hb)
  | newView =>
    rw [decided_notify s (fun b h => by cases h)] at hb
    exact Or.inl hb
  | @adopt qc b _ hl q =>
    rw [q.decided, decided_highQC] at hb
    exact Or.inl hb
  | sign => exact Or.inl hb

private theorem decided_pos_run {env : Env} {s : Core} {ops : List CoreOp} (T : BlockTree env.replicas l)
    (hcf : CollisionFree l)
    (hst : s.StoreInv) (hs' : (run (step env) s ops).stored ⊆ l) {b : Block} (hb : b ∈ (run (step env) s ops).decided) :
    b ∈ s.decided ∨ (Known l b ∧ 0 < b.height) := by
  induction ops generalizing s with
  | nil => exact Or.inl hb
  | cons op ops ih =>
    rw [Lib.run_cons] at hs' hb
    rcases ih (hst.step env op) hs' hb with hb | hpos
    · exact decided_pos_step T hcf hst (fun b' h => hs' ((stored_prefix_run env _ ops).subset h)) hb
    · exact Or.inr hpos

end Core

/-! ### The way of a command -/

/-- All commands at the replica satisfy `C`: those it holds, those it has forwarded, those of the blocks it has stored or
decided, and those it has executed. -/
structure Node.Valid (C : Bytes → Prop) (n : Node) : Prop where
  holds : ∀ cmds, n.Holds cmds → C cmds
  sent : ∀ m ∈ n.sent, ∀ cmds, m.msg = .forward cmds → C cmds
  stored : ∀ b ∈ n.core.stored, b.body = genesis.body ∨ C b.cmds
  decided : ∀ b ∈ n.core.decided, C b.cmds
  executed : ∀ cmds ∈ n.executed, C cmds

private theorem Node.Valid.mono {C C' : Bytes → Prop} {n : Node} (h : n.Valid C) (hC : ∀ cmds, C cmds → C' cmds) :
    n.Valid C' where
  holds cmds hc := hC _ (h.holds cmds hc)
  sent m hm cmds hmsg := hC _ (h.sent m hm cmds hmsg)
  stored b hb := (h.stored b hb).imp id (hC _)
  decided b hb := hC _ (h.decided b hb)
  executed cmds hc := hC _ (h.executed cmds hc)

private theorem Node.valid_newNode (C : Bytes → Prop) : newNode.Valid C where
  holds cmds h := by
    rcases h with h | h
    · cases h
    · cases List.mem_singleton.1 h
  sent m h := by cases h
  stored b h := by
    rw [List.mem_singleton.1 (show b ∈ [genesis] from h)]
    exact Or.inl rfl
  decided b h := by cases h
  executed cmds h := by cases h

namespace Net

/-- The network takes a step in which replicas act on what replicas have sent. -/
def FaithfulStep (E : NetEnv) (net : Net) (x : Int64 × Action) : Prop :=
  x.1 ∈ E.replicas.replicas.keys ∧ net.Delivers E x.2

instance (E : NetEnv) (net : Net) (x : Int64 × Action) : Decidable (net.FaithfulStep E x) :=
  inferInstanceAs (Decidable (x.1 ∈ E.replicas.replicas.keys ∧ net.Delivers E x.2))

/-- A command that comes with an action from outside satisfies `C`. -/
def Admits (C : Bytes → Prop) : Action → Prop
  | .submit cmds => cmds ≠ [] → C cmds
  | _ => True

variable {E : NetEnv} {net : Net} {C : Bytes → Prop} {x : Int64 × Action}

/-- The commands the acting replica holds afterwards. -/
private theorem valid_holds (h : ∀ id, (net id).Valid C) (hdel : net.Delivers E x.2) (hC : Admits C x.2) {cmds : Bytes}
    (hc : ((net x.1).step (E.node x.1) x.2).Holds cmds) : C cmds := by
  rcases Node.step_holds hc with hc | ⟨ha, hne⟩ | ⟨src, ha⟩
  · exact (h x.1).holds cmds hc
  · rw [ha] at hC
    exact hC hne
  · rw [ha] at hdel
    obtain ⟨-, m, hm, hmsg⟩ := hdel
    exact (h src).sent m hm cmds hmsg

/-- The blocks the acting replica has stored afterwards. -/
private theorem valid_stored (h : ∀ id, (net id).Valid C) (ht : TreeInv E net) (hdel : net.Delivers E x.2) {b : Block}
    (hb : b ∈ ((net x.1).step (E.node x.1) x.2).core.stored) : b.body = genesis.body ∨ C b.cmds := by
  rcases Node.stored_beat hb with hb | ⟨src, viewNumber, pb, ha, hpb⟩ | ⟨i, conn, now, cmds, parent, -, hbeat, -, -, rfl⟩
  · exact (h x.1).stored b hb
  · rw [ha] at hdel
    obtain ⟨b₀, hmem, hbody⟩ := ht.delivered hdel hpb
    obtain ⟨id, -, hmem⟩ := mem_blocks.1 hmem
    rw [← hbody, ← cmds_body hbody]
    exact (h id).stored b₀ hmem
  · refine Or.inr ((h x.1).holds cmds (Or.inl ?_))
    unfold Node.beatCmds at hbeat
    split at hbeat
    · exact List.mem_of_mem_head? hbeat
    · cases hbeat

private theorem valid_step (h : ∀ id, (net id).Valid C) (ht : TreeInv E net) (hx : net.FaithfulStep E x)
    (hC : Admits C x.2) (hcf : CollisionFree ((net.step E x).blocks E.replicas.replicas.keys)) (id : Int64) :
    (net.step E x id).Valid C := by
  have T := (ht.step hx.2).tree
  have hkeep := stored_subset_blocks hx.1 (net.step E x)
  have hall : ∀ b ∈ (net.step E x).blocks E.replicas.replicas.keys, b.body = genesis.body ∨ C b.cmds := by
    intro b hb
    obtain ⟨id, -, hb⟩ := mem_blocks.1 hb
    by_cases hid : id = x.1
    · subst hid
      rw [step_self] at hb
      exact valid_stored h ht hx.2 hb
    · rw [step_of_ne E net hid] at hb
      exact (h id).stored b hb
  by_cases hid : id = x.1
  · subst hid
    rw [step_self] at hkeep ⊢
    constructor
    · exact fun cmds hc => valid_holds h hx.2 hC hc
    · intro m hm cmds hmsg
      rcases Node.step_sent hm with hm | hm
      · exact (h x.1).sent m hm cmds hmsg
      · rw [hmsg] at hm
        cases hm with
        | forward hc => exact (h x.1).holds cmds (Or.inl hc)
    · exact fun b hb => valid_stored h ht hx.2 hb
    · intro b hb
      obtain ⟨ops, hcore⟩ := Node.core_step (E.node x.1) (net x.1) x.2
      rw [hcore] at hb hkeep
      rcases Core.decided_pos_run T hcf (ht.base x.1).toStoreInv hkeep hb with hb | ⟨⟨b₀, hmem, hbody⟩, hpos⟩
      · exact (h x.1).decided b hb
      · rw [← cmds_body hbody]
        refine (hall b₀ hmem).resolve_left fun hg => ?_
        rw [← height_body hbody, height_body hg] at hpos
        exact absurd hpos (by decide)
    · intro cmds hc
      rcases Node.step_executed hc with hc | ⟨block, htask, rfl⟩
      · exact (h x.1).executed cmds hc
      · refine (h x.1).decided block ?_
        exact List.mem_filterMap.2 ⟨_, (ht.traced x.1).task _ htask, rfl⟩
  · rw [step_of_ne E net hid]
    exact h id

theorem valid_run {acts : List (Int64 × Action)} (hacts : StepsMeet (step E) (FaithfulStep E) start acts)
    (hcf : CollisionFree ((run (step E) start acts).blocks E.replicas.replicas.keys)) :
    TreeInv E (run (step E) start acts) ∧
      ∀ id, (run (step E) start acts id).Valid fun cmds => cmds ≠ [] ∧ ∃ id, (id, Action.submit cmds) ∈ acts := by
  induction acts using List.reverseRecOn with
  | nil => exact ⟨treeInv_start E, fun _ => Node.valid_newNode _⟩
  | append_singleton acts x ih =>
    rw [Lib.run_append] at hcf ⊢
    obtain ⟨hacts, hx, -⟩ := Lib.stepsMeet_append.1 hacts
    obtain ⟨ht, hvalid⟩ := ih hacts (hcf.subset (blocks_subset_step E _ _ x))
    refine ⟨ht.step hx.2, valid_step (fun id => (hvalid id).mono ?_) ht hx ?_ hcf⟩
    · rintro cmds ⟨hne, id, hmem⟩
      exact ⟨hne, id, List.mem_append_left _ hmem⟩
    · obtain ⟨id, a⟩ := x
      cases a with
      | submit cmds => exact fun hne => ⟨hne, id, List.mem_append_right _ (List.mem_singleton_self _)⟩
      | _ => exact trivial

end Net

/-- In every run of a network of replicas that act on what they have sent each other, in any order and any number of times,
and as long as no two blocks show a collision of SHA-256, every command that a replica executes is not empty and has been
submitted to one of the replicas by a client. -/
theorem executed_submitted (E : NetEnv) (acts : List (Int64 × Action))
    (hacts : StepsMeet (Net.step E) (Net.FaithfulStep E) Net.start acts)
    (hcf : CollisionFree ((run (Net.step E) Net.start acts).blocks E.replicas.replicas.keys)) (id : Int64) (cmds : Bytes)
    (hc : cmds ∈ (run (Net.step E) Net.start acts id).executed) :
    cmds ≠ [] ∧ ∃ src, (src, Action.submit cmds) ∈ acts :=
  ((Net.valid_run hacts hcf).2 id).executed cmds hc

theorem executed_submitted_server :
    [1] ∈ (run (Net.step Server.netEnv) Net.start Server.commandRun 3).executed ∧
      ∃ src, (src, Action.submit [1]) ∈ Server.commandRun := by
  obtain ⟨hacts, hcf, hc⟩ :
      StepsMeet (Net.step Server.netEnv) (Net.FaithfulStep Server.netEnv) Net.start Server.commandRun ∧
      CollisionFree ((run (Net.step Server.netEnv) Net.start Server.commandRun).blocks
        Server.netEnv.replicas.replicas.keys) ∧
      [1] ∈ (run (Net.step Server.netEnv) Net.start Server.commandRun 3).executed := by
    decide +kernel
  exact ⟨hc, (executed_submitted Server.netEnv Server.commandRun hacts hcf 3 [1] hc).2⟩

end GoHotstuff
