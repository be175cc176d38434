import GoHotstuff.VoteCount
import GoHotstuff.NodeStep
import GoHotstuff.Network

/-!
# A block that arrives again

The votes for a block are collected in the certificate of the cached block, and `StoreBlock` puts the block of a proposal in
its place, with the signatures that the proposal carries.  So the voters recorded under a hash are kept, as long as the
block is not evicted, if a block that is stored under a hash in the cache carries them (`voters_kept`).  A proposal that
is delivered twice does not: the votes that came in between are gone (`voters_lost`).
-/

namespace GoHotstuff

open Lib (Bytes run StepsMeet)

namespace Core

/-- The voters recorded in the cached block with the given hash. -/
def voters (s : Core) (hash : Bytes) : List Int64 :=
  ((s.object? hash).map fun o => o.block.selfQc.signs.keys).getD []

private theorem mem_voters {s : Core} {hash : Bytes} {voter : Int64} :
    voter ∈ s.voters hash ↔ ∃ o, s.object? hash = some o ∧ voter ∈ o.block.selfQc.signs := by
  unfold voters
  cases s.object? hash with
  | none => simp
  | some o => simp [AList.mem_keys]

/-- The block carries the voters recorded under its hash. -/
def Covers (s : Core) (b : Block) : Prop :=
  ∀ o ∈ s.object? b.selfQc.blockHash, ∀ e ∈ o.block.selfQc.signs.entries, e.1 ∈ b.selfQc.signs

instance (s : Core) (b : Block) : Decidable (s.Covers b) :=
  inferInstanceAs (Decidable (∀ o ∈ s.object? b.selfQc.blockHash, ∀ e ∈ o.block.selfQc.signs.entries,
    e.1 ∈ b.selfQc.signs))

private theorem Covers.subset {s : Core} {b : Block} (h : s.Covers b) {o : Stored}
    (ho : s.object? b.selfQc.blockHash = some o)
    {voter : Int64} (hv : voter ∈ o.block.selfQc.signs) : voter ∈ b.selfQc.signs := by
  obtain ⟨e, he, rfl⟩ := List.mem_map.1 hv
  exact h o ho e he

/-! ### Calls that do not store the block -/

/-- What is under `hash` after the change was there before, with no more voters than now. -/
def Grows (hash : Bytes) (s s' : Core) : Prop :=
  ∀ o', s'.object? hash = some o' → ∃ o, s.object? hash = some o ∧
    ∀ voter ∈ o.block.selfQc.signs, voter ∈ o'.block.selfQc.signs

section Grows

variable {hash : Bytes} {env : Env} {s s' s'' : Core}

private theorem Grows.trans (h : Grows hash s s') (h' : Grows hash s' s'') : Grows hash s s'' := by
  intro o'' ho''
  obtain ⟨o', ho', hsub'⟩ := h' o'' ho''
  obtain ⟨o, ho, hsub⟩ := h o' ho'
  exact ⟨o, ho, fun voter hv => hsub' voter (hsub voter hv)⟩

private theorem Aside.grows (h : Aside hash s s') : Grows hash s s' := fun o ho => ⟨o, h.1 o ho, fun _ hv => hv⟩

/-- Signatures are added to one object. -/
private theorem grows_setSigns (hst : StoreInv s) {hash' : Bytes} {o : Stored} (ho : s.object? hash' = some o)
    {signs : Signs}
    (hsub : ∀ voter ∈ o.block.selfQc.signs, voter ∈ signs) (vs : AList (fun _ : List Char => List Vote)) :
    Grows hash s (setSigns { s with voteSet := vs } o.obj signs) := by
  intro o' ho'
  rcases hst.object?_setSigns ho ho' with ⟨rfl, rfl⟩ | ⟨-, ho'⟩
  · exact ⟨o, ho, hsub⟩
  · exact ⟨o', ho', fun _ hv => hv⟩

private theorem VoteResult.grows {vote : Vote} {r : Except CoreError Unit} (v : VoteResult env s vote r s')
    (hst : StoreInv s) :
    Grows hash s s' := by
  have hmerge : ∀ (signs : Signs) (votes : List Vote), ∀ voter ∈ signs,
      voter ∈ mergeVotes (signs.insert vote.voter vote.cert) votes :=
    fun signs votes voter hv => mem_mergeVotes.2 (Or.inl ((AList.mem_insert signs).2 (Or.inr hv)))
  cases v with
  | stash h q =>
    have hadd : Grows hash s (s.addVoteMsg vote) := by
      rw [addVoteMsg_eq]
      exact fun o ho => ⟨o, ho, fun _ hv => hv⟩
    exact hadd.trans q.aside.grows
  | full h hq q => exact q.aside.grows
  | duplicate h hv q => exact q.aside.grows
  | counted h hq hsigns hvs q =>
    subst hsigns
    exact (grows_setSigns hst h (hmerge _ _) _).trans q.aside.grows
  | finished h hq hsigns hvs q =>
    subst hsigns
    exact ((grows_setSigns hst h (hmerge _ _) _).trans (aside_highQC _ _ _).grows).trans q.aside.grows

private theorem ProposeResult.grows {curView : Int64} {b : Block} (p : ProposeResult env s curView b s')
    (hst : StoreInv s) :
    Grows hash s s' := by
  cases p with
  | updateError hu => exact (update_result hu).aside.grows
  | signError hu => exact (update_result hu).aside.grows.trans (aside_of_eq (fun _ => rfl) rfl).grows
  | @voted sig vote r s1 s3 _ hu hvote v hs' =>
    have hs3 : Grows hash s s3 := by
      refine (update_result hu).aside.grows.trans (Grows.trans (aside_of_eq (fun _ => rfl) rfl).grows (v.grows ?_))
      obtain ⟨ho, hs, hk⟩ := (update_result hu).quiet_store
      exact hst.of_find? ho hs hk
    rcases hs' with rfl | rfl
    · exact hs3
    · exact hs3.trans (aside_of_eq (fun _ => rfl) rfl).grows

/-- A call adds to what is under `hash`, or it stores a block there and adds to that. -/
private theorem step_grows (env : Env) (hst : StoreInv s) (op : CoreOp) (hash : Bytes) : Grows hash s (s.step env op) ∨
    ∃ b, ∃ s1 : Core, Stores env s op b ∧ b.selfQc.blockHash = hash ∧
      Grows hash (s1.storeBlock b) (s.step env op) := by
  have hstore : ∀ {s1 : Core} {b : Block}, Stores env s op b → Aside hash s s1 →
      Grows hash (s1.storeBlock b) (s.step env op) → Grows hash s (s.step env op) ∨
      ∃ b, ∃ s1 : Core, Stores env s op b ∧ b.selfQc.blockHash = hash ∧
        Grows hash (s1.storeBlock b) (s.step env op) := by
    intro s1 b hsto h1 hgrows
    by_cases hb : b.selfQc.blockHash = hash
    · exact Or.inr ⟨b, s1, hsto, hb, hgrows⟩
    · exact Or.inl (h1.grows.trans ((aside_storeBlock hb).grows.trans hgrows))
  have hres := step_cases env s op
  generalize s.step env op = s' at hres hstore ⊢
  cases hres with
  | quiet hop q => exact Or.inl q.aside.grows
  | @propose curView now parentHash cmds parent _ hl hh p =>
    have q := quiet_touch s parentHash
    exact hstore (.propose hl hh) q.aside (p.grows ((q.storeInv hst).storeBlock _))
  | @store prop w _ hw q hj =>
    have hwait : Aside hash (s.storeBlock prop.block) { s.storeBlock prop.block with waiting := w } :=
      aside_of_eq (fun _ => rfl) rfl
    exact hstore (.receive _) (Quiet.refl s).aside (hwait.trans q.aside).grows
  | receive q hj p => exact hstore (.receive _) (Quiet.refl s).aside (q.aside.trans p.aside).grows
  | resume hi q hj p => exact Or.inl (q.aside.trans p.aside).grows
  | vote v => exact Or.inl (v.grows hst)
  | newView => exact Or.inl (aside_of_eq (fun _ => rfl) rfl).grows
  | adopt hl q => exact Or.inl ((aside_highQC _ _ _).trans q.aside).grows
  | sign => exact Or.inl (aside_of_eq (fun _ => rfl) rfl).grows

end Grows

/-- The voter is recorded under `hash`, if something is there. -/
def Records (hash : Bytes) (voter : Int64) (s : Core) : Prop :=
  ∀ o, s.object? hash = some o → voter ∈ o.block.selfQc.signs

theorem Records.step {hash : Bytes} {voter : Int64} {env : Env} {s : Core} {op : CoreOp} (h : s.Records hash voter)
    (hst : StoreInv s)
    (hcarry : ∀ b, Stores env s op b → b.selfQc.blockHash = hash → voter ∈ b.selfQc.signs) :
    (s.step env op).Records hash voter := by
  intro o' ho'
  rcases step_grows env hst op hash with hgrows | ⟨b, s1, hsto, rfl, hgrows⟩
  · obtain ⟨o, ho, hsub⟩ := hgrows o' ho'
    exact hsub voter (h o ho)
  · obtain ⟨o, ho, hsub⟩ := hgrows o' ho'
    rw [object?_storeBlock_self] at ho
    obtain rfl := Option.some.inj ho
    exact hsub voter (hcarry b hsto rfl)

end Core

namespace Node

/-! ### Runs of a replica -/

/-- A block that the action stores carries the voters recorded under its hash: the block of a proposal that arrives, or the
replica's own next block. -/
def CarriesVoters (env : NodeEnv) (n : Node) : Action → Prop
  | .message _ (.proposal _ (some pb)) => ∀ b ∈ pb.toBlock?, n.core.Covers b
  | .task i _ now => ∀ cmds ∈ n.beatCmds i, getCurLeader env n.curView = env.id →
      ∀ parent ∈ n.core.load n.core.genericQC.blockHash,
        n.core.voteHeight < parent.height + 1 →
          n.core.Covers (n.core.newBlock env.toEnv n.curView n.core.genericQC.blockHash cmds parent now)
  | _ => True

instance (env : NodeEnv) (n : Node) : (a : Action) → Decidable (n.CarriesVoters env a)
  | .message _ (.proposal _ (some pb)) => inferInstanceAs (Decidable (∀ b ∈ pb.toBlock?, n.core.Covers b))
  | .task i _ now => inferInstanceAs (Decidable (∀ cmds ∈ n.beatCmds i, getCurLeader env n.curView = env.id →
      ∀ parent ∈ n.core.load n.core.genericQC.blockHash,
        n.core.voteHeight < parent.height + 1 →
          n.core.Covers (n.core.newBlock env.toEnv n.curView n.core.genericQC.blockHash cmds parent now)))
  | .message _ (.proposal _ none) | .message _ (.vote ..) | .message _ (.viewChange ..) | .message _ (.forward _)
  | .message _ .unset | .submit _ | .resumeProposal _ | .resumeNewView _ | .timeout => .isTrue trivial

private theorem storeInv_run (env : NodeEnv) (as : List Action) : (run (step env) newNode as).core.StoreInv := by
  have hstep : ∀ (n : Node) (a : Action), n.core.StoreInv → (n.step env a).core.StoreInv := fun n a h =>
    step_keeps (fun q h => q.storeInv h) (fun _ h => h.step env.toEnv _) (fun _ h => h.step env.toEnv _) h
  induction as using List.reverseRecOn with
  | nil => exact Core.storeInv_newHotStuffCore
  | append_singleton as a ih =>
    rw [Lib.run_append]
    exact hstep _ a ih

/-- The minor calls store nothing. -/
private theorem MinorCall.not_stores {env : NodeEnv} {n : Node} {a : Action} {op : CoreOp} (h : MinorCall env n a op)
    {s : Core} {b : Block} : ¬ Core.Stores env.toEnv s op b := by
  intro hsto
  cases hsto <;> cases h

private theorem MainCall.carries {env : NodeEnv} {n : Node} {a : Action} {s : Core} {op : CoreOp}
    (hop : MainCall n a s op) (hlead : ∀ curView parentHash cmds now, op = .propose curView parentHash cmds now →
      getCurLeader env n.curView = env.id) (hg : n.CarriesVoters env a) {b : Block} (hsto : Core.Stores env.toEnv s op b) :
    n.core.Covers b := by
  cases hop with
  | receive ha hb =>
    subst ha
    cases hsto with
    | receive prop => exact hg _ hb
  | resume ha => cases hsto
  | propose ha hi hs =>
    subst ha
    cases hsto with
    | propose hl hh => exact hg _ (beatCmds_eq hi hs) (hlead _ _ _ _ rfl) _ hl hh

/-- A recorded voter stays recorded over an action, unless the block is evicted. -/
private theorem records_step {env : NodeEnv} {n : Node} {a : Action} (hst : n.core.StoreInv)
    (hg : n.CarriesVoters env a)
    {hash : Bytes} {voter : Int64} (hv : voter ∈ n.core.voters hash) : (n.step env a).core.Records hash voter := by
  obtain ⟨o, ho, hmem⟩ := Core.mem_voters.1 hv
  have hrec : n.core.Records hash voter := fun o' ho' => by
    obtain rfl := Option.some.inj (ho.symm.trans ho')
    exact hmem
  cases step_moves (permits_minorCall env n a) with
  | minor m =>
    obtain ⟨ops, hcore, hops⟩ := m.core
    rw [hcore]
    clear hcore hg ho hv
    generalize n.core = s at hst hrec ⊢
    induction ops generalizing s with
    | nil => exact hrec
    | cons op ops ih =>
      have hop := hops op List.mem_cons_self
      exact ih (fun op' hop' => hops op' (List.mem_cons_of_mem _ hop')) _ (hst.step env.toEnv op)
        (hrec.step hst fun b hsto => absurd hsto hop.not_stores)
  | @main op s hop hlead hcore m =>
    rw [hcore]
    have hs : s.Records hash voter := fun o' ho' => hrec o' ((hop.quiet.object? hash).symm.trans ho')
    refine hs.step (hop.quiet.storeInv hst) ?_
    rintro b hsto rfl
    exact (hop.carries hlead hg hsto).subset ho hmem

private theorem voters_step {env : NodeEnv} {n : Node} {a : Action} (hst : n.core.StoreInv) (hg : n.CarriesVoters env a)
    {hash : Bytes} (hkept : ((n.step env a).core.object? hash).isSome) {voter : Int64}
    (hv : voter ∈ n.core.voters hash) : voter ∈ (n.step env a).core.voters hash := by
  obtain ⟨o, ho⟩ := Option.isSome_iff_exists.1 hkept
  exact Core.mem_voters.2 ⟨o, ho, records_step hst hg hv o ho⟩

end Node

/-- The voters recorded under a hash are kept over every run in which the block stays in the cache, if a block that is
stored under a hash carries the voters recorded there. -/
theorem voters_kept (env : NodeEnv) (as later : List Action) (hash : Bytes)
    (hkept : StepsMeet (Node.step env) (fun n a => ((n.step env a).core.object? hash).isSome)
      (run (Node.step env) newNode as) later)
    (hguard : StepsMeet (Node.step env) (Node.CarriesVoters env) (run (Node.step env) newNode as) later)
    (voter : Int64) (hvoter : voter ∈ (run (Node.step env) newNode as).core.voters hash) :
    voter ∈ (run (Node.step env) newNode (as ++ later)).core.voters hash := by
  induction later generalizing as with
  | nil =>
    rw [List.append_nil]
    exact hvoter
  | cons a later ih =>
    have hrun : run (Node.step env) newNode (as ++ [a]) = (run (Node.step env) newNode as).step env a := by
      rw [Lib.run_append]
      rfl
    rw [← List.singleton_append, ← List.append_assoc]
    refine ih (as ++ [a]) (hrun ▸ hkept.2) (hrun ▸ hguard.2) ?_
    rw [hrun]
    exact Node.voters_step (Node.storeInv_run env as) hguard.1 hkept.1 hvoter

namespace Server

/-- Replica `1` has the first block and the vote of replica `2` for it. -/
def firstVoteRun : List Action := [.message 0 (.proposal 0 (some (chain 1).toPb)), .message 2 (voteFrom 2).toPb]

end Server

theorem voters_kept_server :
    2 ∈ (run (Node.step (Server.netEnv.node 1)) newNode (Server.firstVoteRun ++
      [.message 3 (.proposal 0 (some (Server.carrying [0, 2]).block.toPb))])).core.voters
        (Server.chain 1).selfQc.blockHash :=
  voters_kept (Server.netEnv.node 1) Server.firstVoteRun _ (Server.chain 1).selfQc.blockHash (by decide +kernel)
    (by decide +kernel) 2 (by decide +kernel)

/-- The proposal is delivered again: the block is in the cache, and the vote is gone. -/
theorem voters_lost :
    (run (Node.step (Server.netEnv.node 1)) newNode Server.firstVoteRun).core.voters (Server.chain 1).selfQc.blockHash = [2] ∧
    ((run (Node.step (Server.netEnv.node 1)) newNode (Server.firstVoteRun ++
      [.message 0 (.proposal 0 (some (Server.chain 1).toPb))])).core.object? (Server.chain 1).selfQc.blockHash).isSome ∧
    (run (Node.step (Server.netEnv.node 1)) newNode (Server.firstVoteRun ++
      [.message 0 (.proposal 0 (some (Server.chain 1).toPb))])).core.voters (Server.chain 1).selfQc.blockHash = [] := by
  decide +kernel

end GoHotstuff
