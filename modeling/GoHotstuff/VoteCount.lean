import GoHotstuff.BlockTree

/-!
# Counting the votes for a block

A vote that is there before its block waits in `voteSet`, and `applyVotes` adds it to the certificate when the next vote for
the block is counted.  The arrival of the block itself adds nothing: if no vote comes behind it, or only votes of replicas
whose signatures the proposal carries, the votes are never counted (`votes_wait`).  Apart from this, and from a proposal
that arrives with a complete certificate, the order does not matter (`votes_counted`).
-/

namespace GoHotstuff

open Lib (Bytes run encodeToString)

private theorem proposer_body {b b' : Block} (h : b.body = b'.body) : b.proposer = b'.proposer := by
  have hbody := congrArg Block.proposer h
  exact hbody

namespace Core

/-- The voters of the votes for `hash` among the calls. -/
def votersOf (hash : Bytes) (ops : List CoreOp) : List Int64 :=
  ops.filterMap fun op =>
    match op with
    | .vote v => if v.blockHash = hash then some v.voter else none
    | _ => none

/-- How often a block with the given hash has been stored. -/
def deliveries (hash : Bytes) (s : Core) : Nat := s.stored.countP fun b => b.selfQc.blockHash = hash

theorem mem_mergeVotes {signs : Signs} {votes : List Vote} {voter : Int64} :
    voter ∈ mergeVotes signs votes ↔ voter ∈ signs ∨ ∃ v ∈ votes, v.voter = voter := by
  unfold mergeVotes
  induction votes generalizing signs with
  | nil => simp
  | cons v votes ih =>
    rw [List.foldl_cons, ih]
    by_cases hv : v.voter ∈ signs
    · rw [if_pos hv]
      constructor
      · rintro (h | ⟨w, hw, rfl⟩)
        · exact Or.inl h
        · exact Or.inr ⟨w, List.mem_cons_of_mem _ hw, rfl⟩
      · rintro (h | ⟨w, hw, rfl⟩)
        · exact Or.inl h
        · rcases List.mem_cons.1 hw with rfl | hw
          · exact Or.inl hv
          · exact Or.inr ⟨w, hw, rfl⟩
    · rw [if_neg hv, AList.mem_insert]
      constructor
      · rintro ((rfl | h) | ⟨w, hw, rfl⟩)
        · exact Or.inr ⟨v, List.mem_cons_self, rfl⟩
        · exact Or.inl h
        · exact Or.inr ⟨w, List.mem_cons_of_mem _ hw, rfl⟩
      · rintro (h | ⟨w, hw, rfl⟩)
        · exact Or.inl (Or.inr h)
        · rcases List.mem_cons.1 hw with rfl | hw
          · exact Or.inl (Or.inl rfl)
          · exact Or.inr ⟨w, hw, rfl⟩

/-! ### Calls that are about other blocks -/

/-- What is kept for `hash` stays as it is, unless the block is evicted. -/
def Aside (hash : Bytes) (s s' : Core) : Prop :=
  (∀ o, s'.object? hash = some o → s.object? hash = some o) ∧ s'.stashed hash = s.stashed hash

section Aside

variable {hash : Bytes} {env : Env} {s s' s'' : Core}

theorem Aside.trans (h : Aside hash s s') (h' : Aside hash s' s'') : Aside hash s s'' :=
  ⟨fun o ho => h.1 o (h'.1 o ho), h'.2.trans h.2⟩

theorem aside_of_eq (hc : ∀ key, s'.blockCache.find? key = s.blockCache.find? key) (hv : s'.voteSet = s.voteSet) :
    Aside hash s s' := by
  refine ⟨fun o ho => ?_, ?_⟩
  · rw [← ho]
    exact (hc _).symm
  · unfold stashed
    rw [hv]

theorem Quiet.aside (q : Quiet s s') : Aside hash s s' := by
  obtain ⟨c, w, k, x, hc, hp, rfl⟩ := q
  exact aside_of_eq hc rfl

theorem UpdateResult.aside {b : Block} {r : Except CoreError Unit} (u : UpdateResult env s b r s') :
    Aside hash s s' := by
  obtain ⟨g, o, l, e, n, c, w, k, x, hc, hp, rfl⟩ := u.frame
  exact aside_of_eq hc rfl

theorem aside_highQC (b : Block) (qc : QuorumCert) (obj : Option Nat) : Aside hash s (s.highQC env b qc obj) := by
  obtain ⟨g, o, n, heq⟩ := highQC_frame env s b qc obj
  rw [heq]
  exact aside_of_eq (fun _ => rfl) rfl

theorem aside_storeBlock {b : Block} (hne : b.selfQc.blockHash ≠ hash) : Aside hash s (s.storeBlock b) := by
  refine ⟨fun o ho => ?_, rfl⟩
  rcases object?_storeBlock ho with ⟨hk, -⟩ | ⟨-, ho⟩
  · exact absurd hk.symm hne
  · exact ho

theorem ProcessResult.aside {prop : Proposal} (p : ProcessResult env s prop s') : Aside hash s s' := by
  cases p with
  | updateError hu => exact (update_result hu).aside
  | checkError hu hv q => exact (update_result hu).aside.trans q.aside
  | signError hu hv q =>
    refine (update_result hu).aside.trans ?_
    obtain ⟨c, w, k, x, hc, hp, rfl⟩ := q
    exact aside_of_eq hc rfl
  | voted hu hv q hvote =>
    refine (update_result hu).aside.trans ?_
    obtain ⟨c, w, k, x, hc, hp, rfl⟩ := q
    exact aside_of_eq hc rfl

/-- Counting a vote changes the certificate of one block and takes its votes from the stash. -/
private theorem aside_setSigns (hst : StoreInv s) {hash' : Bytes} {o : Stored} (ho : s.object? hash' = some o)
    (hne : hash' ≠ hash) (signs : Signs) :
    Aside hash s (setSigns { s with voteSet := s.voteSet.erase (encodeToString o.block.selfQc.blockHash) } o.obj signs) := by
  have hkey := hst.key _ o ho
  rw [Lib.encodeToString_inj] at hkey
  refine ⟨fun o' ho' => ?_, ?_⟩
  · rcases hst.object?_setSigns ho ho' with ⟨rfl, -⟩ | ⟨-, ho'⟩
    · exact absurd rfl hne
    · exact ho'
  · unfold stashed
    rw [← hkey]
    show ((s.voteSet.erase _).lookup _).getD [] = _
    rw [AList.lookup_erase_ne]
    rw [Ne, Lib.encodeToString_inj]
    exact hne.symm

private theorem VoteResult.aside {vote : Vote} {r : Except CoreError Unit} (v : VoteResult env s vote r s')
    (hst : StoreInv s) (hne : vote.blockHash ≠ hash) : Aside hash s s' := by
  cases v with
  | stash h q =>
    have hadd : Aside hash s (s.addVoteMsg vote) := by
      rw [addVoteMsg_eq]
      refine ⟨fun o ho => ho, ?_⟩
      show ((s.voteSet.insert _ _).lookup _).getD [] = _
      rw [AList.lookup_insert_ne]
      · rfl
      · rw [Ne, Lib.encodeToString_inj]
        exact hne.symm
    exact hadd.trans q.aside
  | full h hq q => exact q.aside
  | duplicate h hv q => exact q.aside
  | counted h hq hsigns hvs q =>
    subst hvs
    exact (aside_setSigns hst h hne _).trans q.aside
  | finished h hq hsigns hvs q =>
    subst hvs
    exact ((aside_setSigns hst h hne _).trans (aside_highQC _ _ _)).trans q.aside

private theorem ProposeResult.aside {curView : Int64} {b : Block} (p : ProposeResult env s curView b s')
    (hst : StoreInv s) (hne : b.selfQc.blockHash ≠ hash) : Aside hash s s' := by
  cases p with
  | updateError hu => exact (update_result hu).aside
  | signError hu => exact (update_result hu).aside.trans (aside_of_eq (fun _ => rfl) rfl)
  | @voted sig vote r s1 s3 _ hu hvote v hs' =>
    have hs3 : Aside hash s s3 := by
      refine (update_result hu).aside.trans (Aside.trans (aside_of_eq (fun _ => rfl) rfl) (v.aside ?_ ?_))
      · obtain ⟨ho, hs, hk⟩ := (update_result hu).quiet_store
        exact hst.of_find? ho hs hk
      · rw [hvote]
        exact hne
    rcases hs' with rfl | rfl
    · exact hs3
    · exact hs3.trans (aside_of_eq (fun _ => rfl) rfl)

end Aside

private theorem deliveries_of_append {hash : Bytes} {s s' : Core} {b : Block} (hs : s'.stored = s.stored ++ [b])
    (hsame : s'.deliveries hash = s.deliveries hash) : b.selfQc.blockHash ≠ hash := by
  intro heq
  unfold deliveries at hsame
  rw [hs, List.countP_append] at hsame
  simp [heq] at hsame

theorem step_aside {hash : Bytes} {env : Env} {s : Core} (hst : StoreInv s) {op : CoreOp}
    (hop : ∀ v, op = .vote v → v.blockHash ≠ hash) (hsame : (s.step env op).deliveries hash = s.deliveries hash) :
    Aside hash s (s.step env op) := by
  have hres := step_cases env s op
  generalize s.step env op = s' at hres hsame
  cases hres with
  | quiet hne q => exact q.aside
  | @propose curView now parentHash cmds parent _ hl hh p =>
    have hne := deliveries_of_append p.sameEntries.2.1 hsame
    have hst' := (Quiet.storeInv (quiet_touch s parentHash) hst).storeBlock
      (s.newBlock env curView parentHash cmds parent now)
    exact ((quiet_touch s parentHash).aside.trans (aside_storeBlock hne)).trans (p.aside hst' hne)
  | @store prop w _ hw q hj =>
    have hs : s'.stored = s.stored ++ [prop.block] := by
      obtain ⟨c, w', k, x, hc, hp, rfl⟩ := q
      rfl
    refine (aside_storeBlock (deliveries_of_append hs hsame)).trans ?_
    obtain ⟨c, w', k, x, hc, hp, rfl⟩ := q
    exact aside_of_eq hc rfl
  | @receive prop s1 _ x q hj p =>
    have hs : s'.stored = s.stored ++ [prop.block] := by
      rw [p.sameEntries.2.1]
      exact q.stored
    exact ((aside_storeBlock (deliveries_of_append hs hsame)).trans q.aside).trans p.aside
  | resume hi q hj p => exact q.aside.trans p.aside
  | vote v => exact v.aside hst (hop _ rfl)
  | newView => exact aside_of_eq (fun _ => rfl) rfl
  | adopt hl q => exact (aside_highQC _ _ _).trans q.aside
  | sign => exact aside_of_eq (fun _ => rfl) rfl

/-- The block of a proposal is stored as it comes, and the stash stays as it is. -/
private theorem receive_aside (env : Env) (s : Core) (prop : Proposal) :
    Aside prop.block.selfQc.blockHash (s.storeBlock prop.block) (s.step env (.receive prop)) := by
  have hres := step_cases env s (.receive prop)
  generalize s.step env (.receive prop) = s' at hres
  cases hres with
  | quiet hop q => exact absurd rfl (hop prop)
  | store hw q hj =>
    obtain ⟨c, w', k, x, hc, hp, rfl⟩ := q
    exact aside_of_eq hc rfl
  | receive q hj p => exact q.aside.trans p.aside

/-! ### Before the proposal -/

private theorem deliveries_le_run (hash : Bytes) (env : Env) (s : Core) (ops : List CoreOp) :
    s.deliveries hash ≤ (run (step env) s ops).deliveries hash :=
  (stored_prefix_run env s ops).sublist.countP_le

private theorem StoreInv.object?_eq_none {s : Core} (hst : StoreInv s) {hash : Bytes} (h : s.deliveries hash = 0) :
    s.object? hash = none := by
  rw [Option.eq_none_iff_forall_ne_some]
  intro o ho
  obtain ⟨b, hb, hbody⟩ := hst.mem _ o ho
  have hkey := hst.key _ o ho
  rw [Lib.encodeToString_inj, ← body_selfQc_blockHash hbody] at hkey
  exact absurd (by simpa using hkey.symm) (List.countP_eq_zero.1 h b hb)

/-- The votes for `hash` are those in the stash. -/
def Waiting (hash : Bytes) (voters : List Int64) (s : Core) : Prop :=
  ∀ voter, voter ∈ voters ↔ ∃ v ∈ s.stashed hash, v.voter = voter

private theorem stashed_vote {env : Env} {s : Core} {vote : Vote} (h : s.object? vote.blockHash = none) :
    (s.step env (.vote vote)).stashed vote.blockHash = s.stashed vote.blockHash ++ [vote] := by
  have hres := onProposalVote_cases env s vote
  show ((s.onProposalVote env vote).2).stashed _ = _
  generalize (s.onProposalVote env vote).2 = s' at hres
  generalize (s.onProposalVote env vote).1 = r at hres
  cases hres with
  | stash _ q =>
    rw [q.aside.2, addVoteMsg_eq]
    show ((s.voteSet.insert _ _).lookup _).getD [] = _
    rw [AList.lookup_insert]
    rfl
  | full ho | duplicate ho | counted ho | finished ho =>
    rw [h] at ho
    cases ho

private theorem votersOf_append (hash : Bytes) (ops ops' : List CoreOp) :
    votersOf hash (ops ++ ops') = votersOf hash ops ++ votersOf hash ops' := List.filterMap_append

/-- A call is a vote for the block or names no voter. -/
private theorem votersOf_singleton (hash : Bytes) (op : CoreOp) :
    (∃ v, op = .vote v ∧ v.blockHash = hash ∧ votersOf hash [op] = [v.voter]) ∨
    ((∀ v, op = .vote v → v.blockHash ≠ hash) ∧ votersOf hash [op] = []) := by
  by_cases h : ∃ v, op = .vote v ∧ v.blockHash = hash
  · obtain ⟨v, rfl, hv⟩ := h
    exact Or.inl ⟨v, rfl, hv, by simp [votersOf, hv]⟩
  · have hne : ∀ v, op = .vote v → v.blockHash ≠ hash := fun v hop hv => h ⟨v, hop, hv⟩
    refine Or.inr ⟨hne, ?_⟩
    cases op with
    | vote v => simp [votersOf, hne v rfl]
    | _ => rfl

private theorem storeInv_run (env : Env) (ops : List CoreOp) {s : Core} (hst : StoreInv s) :
    StoreInv (run (step env) s ops) := by
  induction ops generalizing s with
  | nil => exact hst
  | cons op ops ih => exact ih (hst.step env op)

/-- What every call keeps that does not store the block, a run keeps that does not store it. -/
private theorem run_of_deliveries {env : Env} {hash : Bytes} {P : List Int64 → Core → Prop}
    (hstep : ∀ {voters s op}, StoreInv s → (s.step env op).deliveries hash = s.deliveries hash → P voters s →
      P (voters ++ votersOf hash [op]) (s.step env op)) {s : Core} (hst : StoreInv s) (h : P [] s) {ops : List CoreOp}
    (hsame : (run (step env) s ops).deliveries hash = s.deliveries hash) :
    P (votersOf hash ops) (run (step env) s ops) := by
  induction ops using List.reverseRecOn with
  | nil => exact h
  | append_singleton ops op ih =>
    have hst' := storeInv_run env ops hst
    have hle := deliveries_le_run hash env s ops
    rw [Lib.run_append] at hsame ⊢
    generalize run (step env) s ops = s' at hsame ih hst' hle ⊢
    have hle' := deliveries_le_run hash env s' [op]
    rw [votersOf_append]
    exact hstep hst' (hsame.trans (by omega)) (ih (by omega))

private theorem run_of_no_delivery {env : Env} {hash : Bytes} {P : List Int64 → Core → Prop}
    (hstep : ∀ {voters s op}, StoreInv s → s.deliveries hash = 0 → (s.step env op).deliveries hash = 0 → P voters s →
      P (voters ++ votersOf hash [op]) (s.step env op)) (h : P [] newHotStuffCore) {ops : List CoreOp}
    (hzero : (run (step env) newHotStuffCore ops).deliveries hash = 0) :
    P (votersOf hash ops) (run (step env) newHotStuffCore ops) := by
  have hstart : newHotStuffCore.deliveries hash = 0 :=
    Nat.le_zero.1 (hzero ▸ deliveries_le_run hash env newHotStuffCore ops)
  refine (run_of_deliveries (P := fun voters s => s.deliveries hash = 0 ∧ P voters s) ?_ storeInv_newHotStuffCore
    ⟨hstart, h⟩ (hzero.trans hstart.symm)).2
  rintro voters s op hst hsame ⟨hs, hp⟩
  exact ⟨hsame.trans hs, hstep hst hs (hsame.trans hs) hp⟩

private theorem waiting_run {hash : Bytes} {env : Env} {ops : List CoreOp}
    (h : (run (step env) newHotStuffCore ops).deliveries hash = 0) :
    Waiting hash (votersOf hash ops) (run (step env) newHotStuffCore ops) := by
  refine run_of_no_delivery ?_ ?_ h
  · intro voters s op hst hs hzero hwait voter
    rcases votersOf_singleton hash op with ⟨vote, rfl, rfl, hone⟩ | ⟨hne, hnone⟩
    · rw [stashed_vote (hst.object?_eq_none hs), hone, List.mem_append, hwait voter]
      simp [or_and_right, exists_or, eq_comm]
    · rw [(step_aside hst hne (hzero.trans hs.symm)).2, hnone, List.append_nil]
      exact hwait voter
  · intro voter
    have hempty : newHotStuffCore.stashed hash = [] := rfl
    simp [hempty]

/-! ### Announcements -/

/-- The certificate that a call announces is that of a block in the store, the one whose votes the call completes. -/
private theorem announced_step {env : Env} {s : Core} (hst : StoreInv s) {op : CoreOp} {p : Int64} {qc : QuorumCert}
    (h : .qcFinish p qc ∈ (s.step env op).notified) :
    .qcFinish p qc ∈ s.notified ∨ (Completes env s (s.step env op) op qc.blockHash ∧
      ((s.step env op).object? qc.blockHash).isSome) := by
  have hnew : Notifies (fun e => ∀ p qc, e = .qcFinish p qc →
      Completes env s (s.step env op) op qc.blockHash ∧ ((s.step env op).object? qc.blockHash).isSome) s
      (s.step env op) := by
    refine step_notifies_of ⟨nofun, nofun⟩ ?_ nofun nofun nofun
    intro hash o hc ho _ _ p qc heq
    obtain ⟨-, rfl⟩ := Event.qcFinish.inj heq
    have hkey := (hst.step env op).key _ o ho
    rw [Lib.encodeToString_inj] at hkey
    exact hkey ▸ ⟨hc, Option.isSome_iff_exists.2 ⟨o, ho⟩⟩
  obtain ⟨es, hes, hall⟩ := hnew
  rw [hes, List.mem_append] at h
  exact h.imp_right fun he => hall _ he p qc rfl

private theorem mem_notified_of_highQC {env : Env} {s : Core} {b : Block} {qc qc' : QuorumCert} {obj : Option Nat}
    {p : Int64} (h : .qcFinish p qc' ∈ (s.highQC env b qc obj).notified) : .qcFinish p qc' ∈ s.notified := by
  obtain ⟨es, hes, hne⟩ := highQC_notifies (Q := fun e => e ≠ .qcFinish p qc') ⟨nofun, nofun⟩ env s b qc obj
  rw [hes, List.mem_append] at h
  exact h.resolve_right fun hmem => hne _ hmem rfl

/-- What is completed is voted for or stored. -/
private theorem Completes.vote_of_deliveries {env : Env} {s s' : Core} {op : CoreOp} {hash : Bytes}
    (h : Completes env s s' op hash) (hsame : s'.deliveries hash = s.deliveries hash) :
    ∃ v, op = .vote v ∧ v.blockHash = hash := by
  cases h with
  | vote v => exact ⟨v, rfl, rfl⟩
  | @propose _ _ _ _ b s1 _ q e =>
    have hs : s'.stored = s.stored ++ [b] := by
      rw [e.2.1]
      exact congrArg (· ++ [b]) q.stored
    exact absurd rfl (deliveries_of_append hs hsame)

/-- No certificate is announced for a block that has not come. -/
private theorem unannounced_run {hash : Bytes} {env : Env} {ops : List CoreOp}
    (h : (run (step env) newHotStuffCore ops).deliveries hash = 0) :
    ∀ p qc, .qcFinish p qc ∈ (run (step env) newHotStuffCore ops).notified → qc.blockHash ≠ hash := by
  refine run_of_no_delivery (P := fun _ s => ∀ p qc, .qcFinish p qc ∈ s.notified → qc.blockHash ≠ hash) ?_ nofun h
  rintro voters s op hst - hzero hsilent p qc hqc rfl
  rcases announced_step hst hqc with hold | ⟨-, ho⟩
  · exact hsilent p qc hold rfl
  · rw [(hst.step env op).object?_eq_none hzero] at ho
    cases ho

/-! ### Behind the proposal -/

/-- The core has announced a certificate for the block. -/
def Announced (b : Block) (s : Core) : Prop :=
  ∃ qc, .qcFinish b.proposer qc ∈ s.notified ∧ qc.blockHash = b.selfQc.blockHash

/-- Where the votes for `b` are while its certificate, held by `o`, is incomplete: the late ones are counted, and the early
ones with the first late one that is new. -/
structure Collecting (env : Env) (b : Block) (early late : List Int64) (s : Core) (o : Stored) : Prop where
  body : o.block.body = b.body
  short : (o.block.selfQc.signs.keys.length : Int) < getQuorumSize env.replicas.metadata
  carried : ∀ voter ∈ b.selfQc.signs, voter ∈ o.block.selfQc.signs
  late : ∀ voter ∈ late, voter ∈ o.block.selfQc.signs
  early : (∀ voter ∈ early, voter ∈ o.block.selfQc.signs) ∨
    (o.block.selfQc.signs = b.selfQc.signs ∧ Waiting b.selfQc.blockHash early s)

/-- Once a late vote is new, the certificate has the votes of all voters. -/
private theorem Collecting.length_le {env : Env} {b : Block} {early late : List Int64} {s : Core} {o : Stored}
    (h : Collecting env b early late s o) (hlate : ∃ voter ∈ late, voter ∉ b.selfQc.signs) :
    ((b.selfQc.signs.keys ++ (early ++ late)).dedup.length : Int) ≤ o.block.selfQc.signs.keys.length := by
  have hearly : ∀ voter ∈ early, voter ∈ o.block.selfQc.signs := by
    rcases h.early with hearly | ⟨hsame, -⟩
    · exact hearly
    · obtain ⟨voter, hvoter, hnew⟩ := hlate
      exact absurd (hsame ▸ h.late voter hvoter) hnew
  have hsub : (b.selfQc.signs.keys ++ (early ++ late)).dedup ⊆ o.block.selfQc.signs.keys := by
    intro voter hvoter
    rw [List.mem_dedup, List.mem_append, List.mem_append] at hvoter
    rcases hvoter with hvoter | hvoter | hvoter
    · exact h.carried voter hvoter
    · exact hearly voter hvoter
    · exact h.late voter hvoter
  exact Int.ofNat_le.2 (List.subperm_of_subset (List.nodup_dedup _) hsub).length_le

def Tracked (env : Env) (b : Block) (early late : List Int64) (s : Core) : Prop :=
  Announced b s ∨ ∀ o, s.object? b.selfQc.blockHash = some o → Collecting env b early late s o

/-- The certificate of the block voted for has the new signatures. -/
private theorem object?_count {s : Core} {hash : Bytes} {o : Stored} (ho : s.object? hash = some o)
    {vs : AList (fun _ : List Char => List Vote)} {signs : Signs} :
    (setSigns { s with voteSet := vs } o.obj signs).object? hash =
      some { o with block := { o.block with selfQc := { o.block.selfQc with signs := signs } } } := by
  rw [object?_setSigns, show object? { s with voteSet := vs } hash = some o from ho]
  simp [writeSigns]

private theorem Announced.mono {b : Block} {s s' : Core} (h : Announced b s) (hn : s.notified <+: s'.notified) :
    Announced b s' := by
  obtain ⟨qc, hmem, hhash⟩ := h
  exact ⟨qc, hn.subset hmem, hhash⟩

/-- A vote for the block itself. -/
private theorem Tracked.vote {env : Env} {b : Block} {early late : List Int64} {s : Core}
    (h : Tracked env b early late s) {vote : Vote} (hvote : vote.blockHash = b.selfQc.blockHash) :
    Tracked env b early (late ++ [vote.voter]) (s.step env (.vote vote)) := by
  rcases h with h | h
  · exact Or.inl (h.mono (notified_prefix_run env s [.vote vote]))
  have hres := onProposalVote_cases env s vote
  show Tracked env b early (late ++ [vote.voter]) (s.onProposalVote env vote).2
  generalize (s.onProposalVote env vote).2 = s' at hres
  generalize (s.onProposalVote env vote).1 = r at hres
  rw [← hvote] at h
  cases hres with
  | stash hnone q =>
    right
    intro o ho
    rw [← hvote, q.object?, addVoteMsg_eq] at ho
    cases hnone.symm.trans ho
  | full ho hq q => exact absurd (h _ ho).short (by omega)
  | @duplicate o _ _ ho hv q =>
    right
    intro o' ho'
    rw [← hvote, q.object?, ho] at ho'
    obtain rfl := Option.some.inj ho'
    have hc := h o ho
    refine ⟨hc.body, hc.short, hc.carried, ?_, ?_⟩
    · intro voter hvoter
      rw [List.mem_append, List.mem_singleton] at hvoter
      rcases hvoter with hvoter | rfl
      · exact hc.late voter hvoter
      · exact hv
    · refine hc.early.imp_right fun hearly => ⟨hearly.1, ?_⟩
      unfold Waiting
      rw [q.aside.2]
      exact hearly.2
  | @counted o signs vs _ ho hq hsigns hvs q hlt =>
    right
    intro o' ho'
    rw [← hvote, q.object?, object?_count ho] at ho'
    have hc := h o ho
    have hold : ∀ voter ∈ o.block.selfQc.signs, voter ∈ signs := by
      intro voter hvoter
      rw [hsigns]
      exact mem_mergeVotes.2 (Or.inl ((AList.mem_insert _).2 (Or.inr hvoter)))
    have hnew : o'.block = { o.block with selfQc := { o.block.selfQc with signs := signs } } := by
      rw [← Option.some.inj ho']
    have hs : o'.block.selfQc.signs = signs := by rw [hnew]
    refine ⟨?_, hs ▸ hlt, fun voter hvoter => hs ▸ hold voter (hc.carried voter hvoter), ?_, Or.inl ?_⟩
    · rw [hnew]
      exact hc.body
    · intro voter hvoter
      rw [hs]
      rw [List.mem_append, List.mem_singleton] at hvoter
      rcases hvoter with hvoter | rfl
      · exact hold voter (hc.late voter hvoter)
      · rw [hsigns]
        exact mem_mergeVotes.2 (Or.inl ((AList.mem_insert _).2 (Or.inl rfl)))
    · -- the stash is merged into the certificate
      intro voter hvoter
      rw [hs]
      rcases hc.early with hearly | ⟨-, hearly⟩
      · exact hold voter (hearly voter hvoter)
      · rw [hsigns, body_selfQc_blockHash hc.body]
        exact mem_mergeVotes.2 (Or.inr ((hearly voter).1 hvoter))
  | @finished o signs vs _ ho hq hsigns hvs q =>
    left
    have hc := h o ho
    refine ⟨{ o.block.selfQc with signs := signs }, ?_, body_selfQc_blockHash hc.body⟩
    rw [q.notified, ← proposer_body hc.body]
    exact List.mem_append_right _ (List.mem_singleton_self _)

theorem Tracked.step {env : Env} {b : Block} {early late : List Int64} {s : Core} (h : Tracked env b early late s)
    (hst : StoreInv s) {op : CoreOp}
    (hsame : (s.step env op).deliveries b.selfQc.blockHash = s.deliveries b.selfQc.blockHash) :
    Tracked env b early (late ++ votersOf b.selfQc.blockHash [op]) (s.step env op) := by
  rcases votersOf_singleton b.selfQc.blockHash op with ⟨vote, rfl, hvote, hone⟩ | ⟨hne, hnone⟩
  · rw [hone]
    exact h.vote hvote
  · rw [hnone, List.append_nil]
    have haside := step_aside hst hne hsame
    rcases h with h | h
    · exact Or.inl (h.mono (notified_prefix_run env s [op]))
    · right
      intro o ho
      have hc := h o (haside.1 o ho)
      refine ⟨hc.body, hc.short, hc.carried, hc.late, hc.early.imp_right fun hearly => ⟨hearly.1, ?_⟩⟩
      unfold Waiting
      rw [haside.2]
      exact hearly.2

/-- The proposal comes in. -/
private theorem tracked_receive {env : Env} {s : Core} {prop : Proposal} {early : List Int64}
    (hwait : Waiting prop.block.selfQc.blockHash early s)
    (hshort : (prop.block.selfQc.signs.keys.length : Int) < getQuorumSize env.replicas.metadata) :
    Tracked env prop.block early [] (s.step env (.receive prop)) := by
  right
  intro o ho
  have haside := receive_aside env s prop
  have hstored := haside.1 o ho
  rw [object?_storeBlock_self] at hstored
  obtain rfl := Option.some.inj hstored
  refine ⟨rfl, hshort, fun _ h => h, nofun, Or.inr ⟨rfl, ?_⟩⟩
  unfold Waiting
  rw [haside.2]
  exact hwait

/-! ### Where the signatures come from -/

/-- The certificate of `b` is incomplete when it comes, and a replica that has not signed it votes behind it. -/
def Opened (env : Env) (b : Block) (late : List Int64) : Prop :=
  (b.selfQc.signs.keys.length : Int) < getQuorumSize env.replicas.metadata ∧ ∃ voter ∈ late, voter ∉ b.selfQc.signs

def Allowed (b : Block) (voters : List Int64) (signs : Signs) : Prop :=
  ∀ voter ∈ signs, voter ∈ b.selfQc.signs ∨ voter ∈ voters

/-- Nobody signs but those whose signatures `b` carries and the voters, and no vote is counted before the certificate is
opened. -/
structure Sourced (env : Env) (b : Block) (early late : List Int64) (s : Core) : Prop where
  stash : ∀ v ∈ s.stashed b.selfQc.blockHash, v.voter ∈ early ++ late
  signs : ∀ o, s.object? b.selfQc.blockHash = some o → Allowed b (early ++ late) o.block.selfQc.signs
  opened : ∀ o, s.object? b.selfQc.blockHash = some o → o.block.selfQc.signs = b.selfQc.signs ∨ Opened env b late
  announced : ∀ p qc, .qcFinish p qc ∈ s.notified → qc.blockHash = b.selfQc.blockHash →
    Opened env b late ∧ Allowed b (early ++ late) qc.signs ∧
      getQuorumSize env.replicas.metadata ≤ qc.signs.keys.length

section Sourced

variable {env : Env} {b : Block} {early late : List Int64} {s s' : Core}

private theorem Opened.append (h : Opened env b late) (l : List Int64) : Opened env b (late ++ l) :=
  ⟨h.1, h.2.imp fun _ hv => ⟨List.mem_append_left _ hv.1, hv.2⟩⟩

private theorem Allowed.append {signs : Signs} (h : Allowed b (early ++ late) signs) (l : List Int64) :
    Allowed b (early ++ (late ++ l)) signs := by
  intro voter hvoter
  rw [← List.append_assoc]
  exact (h voter hvoter).imp_right (List.mem_append_left _)

/-- The signatures are at most as many as those allowed. -/
private theorem Allowed.quorum_le {voters : List Int64} {signs : Signs} {k : Int} (h : Allowed b voters signs)
    (hge : k ≤ signs.keys.length) : k ≤ ((b.selfQc.signs.keys ++ voters).dedup.length : Int) := by
  have hsub : signs.keys ⊆ (b.selfQc.signs.keys ++ voters).dedup := by
    intro voter hvoter
    rw [List.mem_dedup, List.mem_append]
    exact h voter hvoter
  exact hge.trans (Int.ofNat_le.2 (List.subperm_of_subset signs.keys_nodup hsub).length_le)

private theorem Sourced.append (h : Sourced env b early late s) (l : List Int64) :
    Sourced env b early (late ++ l) s where
  stash v hv := by
    rw [← List.append_assoc]
    exact List.mem_append_left _ (h.stash v hv)
  signs o ho := (h.signs o ho).append l
  opened o ho := (h.opened o ho).imp_right fun hopen => hopen.append l
  announced p qc hqc hhash :=
    have ⟨hopen, hall, hge⟩ := h.announced p qc hqc hhash
    ⟨hopen.append l, hall.append l, hge⟩

private theorem Sourced.aside (h : Sourced env b early late s) (ha : Aside b.selfQc.blockHash s s')
    (hn : ∀ p qc, .qcFinish p qc ∈ s'.notified → qc.blockHash = b.selfQc.blockHash →
      .qcFinish p qc ∈ s.notified ∨ (Opened env b late ∧ Allowed b (early ++ late) qc.signs ∧
        getQuorumSize env.replicas.metadata ≤ qc.signs.keys.length)) : Sourced env b early late s' where
  stash v hv := h.stash v (ha.2 ▸ hv)
  signs o ho := h.signs o (ha.1 o ho)
  opened o ho := h.opened o (ha.1 o ho)
  announced p qc hqc hhash := (hn p qc hqc hhash).elim (fun hold => h.announced p qc hold hhash) id

private theorem Sourced.quiet (h : Sourced env b early late s) (q : Quiet s s') : Sourced env b early late s' :=
  h.aside q.aside fun _ _ hqc _ => Or.inl (q.notified ▸ hqc)

/-- A vote is counted: the certificate is open, and the signatures are still those of voters. -/
theorem Sourced.count (h : Sourced env b early late s) {vote : Vote} {o : Stored}
    (ho : s.object? b.selfQc.blockHash = some o) (hkey : o.block.selfQc.blockHash = b.selfQc.blockHash)
    (hq : (o.block.selfQc.signs.keys.length : Int) < getQuorumSize env.replicas.metadata)
    (hnew : vote.voter ∉ o.block.selfQc.signs) :
    Opened env b (late ++ [vote.voter]) ∧ Allowed b (early ++ (late ++ [vote.voter]))
      (mergeVotes (o.block.selfQc.signs.insert vote.voter vote.cert) (s.stashed o.block.selfQc.blockHash)) := by
  have hlast : vote.voter ∈ late ++ [vote.voter] := List.mem_append_right _ (List.mem_singleton_self _)
  constructor
  · rcases h.opened o ho with hsame | hopen
    · exact ⟨hsame ▸ hq, vote.voter, hlast, hsame ▸ hnew⟩
    · exact hopen.append _
  · intro voter hvoter
    rw [mem_mergeVotes, AList.mem_insert, hkey] at hvoter
    rcases hvoter with (rfl | hvoter) | ⟨v, hv, rfl⟩
    · exact Or.inr (List.mem_append_right _ hlast)
    · exact (h.signs o ho).append _ voter hvoter
    · exact Or.inr ((h.append [vote.voter]).stash v hv)

private theorem Sourced.counted (h : Sourced env b early late s) {o : Stored}
    (ho : s.object? b.selfQc.blockHash = some o)
    (hkey : o.block.selfQc.blockHash = b.selfQc.blockHash) (hopen : Opened env b late) {signs : Signs}
    (hall : Allowed b (early ++ late) signs) : Sourced env b early late
      (setSigns { s with voteSet := s.voteSet.erase (encodeToString o.block.selfQc.blockHash) } o.obj signs) where
  stash v hv := by
    have hnil : (setSigns { s with voteSet := s.voteSet.erase (encodeToString o.block.selfQc.blockHash) } o.obj
        signs).stashed b.selfQc.blockHash = [] := by
      show ((s.voteSet.erase _).lookup _).getD [] = []
      rw [hkey, AList.lookup_erase]
      rfl
    rw [hnil] at hv
    cases hv
  signs o' ho' := by
    rw [object?_count ho] at ho'
    rw [← Option.some.inj ho']
    exact hall
  opened _ _ := Or.inr hopen
  announced := h.announced

private theorem Sourced.vote (h : Sourced env b early late s) (hst : StoreInv s) {vote : Vote}
    (hvote : vote.blockHash = b.selfQc.blockHash) :
    Sourced env b early (late ++ [vote.voter]) (s.step env (.vote vote)) := by
  have hres := onProposalVote_cases env s vote
  have hstash : s.object? vote.blockHash = none →
      ((s.onProposalVote env vote).2).stashed vote.blockHash = s.stashed vote.blockHash ++ [vote] := stashed_vote
  show Sourced env b early (late ++ [vote.voter]) (s.onProposalVote env vote).2
  generalize (s.onProposalVote env vote).2 = s' at hres hstash
  generalize (s.onProposalVote env vote).1 = r at hres
  have happ := h.append [vote.voter]
  have hkey : ∀ o, s.object? vote.blockHash = some o → o.block.selfQc.blockHash = b.selfQc.blockHash := by
    intro o ho
    have hkey := hst.key _ o ho
    rw [Lib.encodeToString_inj] at hkey
    exact hkey.symm.trans hvote
  cases hres with
  | stash hnone q =>
    have hobj : ∀ o, s'.object? b.selfQc.blockHash ≠ some o := by
      intro o ho
      rw [← hvote, q.object?, addVoteMsg_eq] at ho
      cases hnone.symm.trans ho
    refine ⟨?_, fun o ho => absurd ho (hobj o), fun o ho => absurd ho (hobj o), ?_⟩
    · intro v hv
      rw [← hvote, hstash hnone, List.mem_append, List.mem_singleton, hvote] at hv
      rcases hv with hv | rfl
      · exact happ.stash v hv
      · simp
    · intro p qc hqc
      rw [q.notified, addVoteMsg_eq] at hqc
      exact happ.announced p qc hqc
  | full ho hq q => exact happ.quiet q
  | duplicate ho hv q => exact happ.quiet q
  | counted ho hq hsigns hvs q hlt hnew =>
    have hk := hkey _ ho
    rw [hvote] at ho
    obtain ⟨hopen, hall⟩ := h.count ho hk hq hnew
    subst hsigns hvs
    exact (happ.counted ho hk hopen hall).quiet q
  | @finished o signs vs _ ho hq hsigns hvs q hge hnew =>
    have hk := hkey _ ho
    rw [hvote] at ho
    obtain ⟨hopen, hall⟩ := h.count ho hk hq hnew
    rw [← hsigns] at hall
    subst hvs
    refine (happ.counted ho hk hopen hall).aside ((aside_highQC _ _ _).trans q.aside) ?_
    intro p qc hqc _
    rw [q.notified] at hqc
    rcases List.mem_append.1 hqc with hqc | hqc
    · exact Or.inl (mem_notified_of_highQC hqc)
    · obtain ⟨-, rfl⟩ := Event.qcFinish.inj (List.mem_singleton.1 hqc)
      exact Or.inr ⟨hopen, hall, hge⟩

theorem Sourced.step (h : Sourced env b early late s) (hst : StoreInv s) {op : CoreOp}
    (hsame : (s.step env op).deliveries b.selfQc.blockHash = s.deliveries b.selfQc.blockHash) :
    Sourced env b early (late ++ votersOf b.selfQc.blockHash [op]) (s.step env op) := by
  rcases votersOf_singleton b.selfQc.blockHash op with ⟨vote, rfl, hvote, hone⟩ | ⟨hne, hnone⟩
  · rw [hone]
    exact h.vote hst hvote
  · rw [hnone, List.append_nil]
    refine h.aside (step_aside hst hne hsame) fun p qc hqc hhash => ?_
    refine Or.inl ((announced_step hst hqc).resolve_right fun ⟨hc, _⟩ => ?_)
    rw [hhash] at hc
    obtain ⟨v, hop, hv⟩ := hc.vote_of_deliveries hsame
    exact hne v hop hv

private theorem sourced_receive (hst : StoreInv s) {prop : Proposal}
    (hwait : Waiting prop.block.selfQc.blockHash early s)
    (hsilent : ∀ p qc, .qcFinish p qc ∈ s.notified → qc.blockHash ≠ prop.block.selfQc.blockHash) :
    Sourced env prop.block early [] (s.step env (.receive prop)) := by
  have haside := receive_aside env s prop
  have hstored : ∀ o, (s.step env (.receive prop)).object? prop.block.selfQc.blockHash = some o →
      o.block = prop.block := by
    intro o ho
    have ho' := haside.1 o ho
    rw [object?_storeBlock_self] at ho'
    rw [← Option.some.inj ho']
  refine ⟨?_, fun o ho => ?_, fun o ho => Or.inl (by rw [hstored o ho]), fun p qc hqc hhash => ?_⟩
  · intro v hv
    rw [haside.2] at hv
    rw [List.append_nil]
    exact (hwait _).2 ⟨v, hv, rfl⟩
  · rw [hstored o ho]
    exact fun _ => Or.inl
  · rcases announced_step hst hqc with hold | ⟨hc, -⟩
    · exact absurd hhash (hsilent p qc hold)
    · cases hc

end Sourced

end Core

/-- The announcements about a block that is stored once and not evicted: in every sequence of calls, the core announces its
certificate exactly if the certificate is incomplete when the block comes, a replica that has not signed it votes behind
the proposal, and the votes before and behind the proposal and the signatures it carries are those of a quorum.  The order
of the votes matters in no other way. -/
theorem votes_counted (env : Env) (prop : Proposal) (before after : List CoreOp) (s : Core)
    (hs : s = run (Core.step env) newHotStuffCore (before ++ .receive prop :: after))
    (honce : s.deliveries prop.block.selfQc.blockHash = 1) (hkept : (s.object? prop.block.selfQc.blockHash).isSome) :
    (∃ qc, .qcFinish prop.block.proposer qc ∈ s.notified ∧ qc.blockHash = prop.block.selfQc.blockHash) ↔
      (prop.block.selfQc.signs.keys.length : Int) < getQuorumSize env.replicas.metadata ∧
      (∃ voter ∈ Core.votersOf prop.block.selfQc.blockHash after, voter ∉ prop.block.selfQc.signs) ∧
      getQuorumSize env.replicas.metadata ≤ ((prop.block.selfQc.signs.keys ++
        Core.votersOf prop.block.selfQc.blockHash (before ++ after)).dedup.length : Int) := by
  rw [Lib.run_append, Lib.run_cons] at hs
  have hst := Core.storeInv_run env before Core.storeInv_newHotStuffCore
  have hwait := @Core.waiting_run prop.block.selfQc.blockHash env before
  have hsilent := @Core.unannounced_run prop.block.selfQc.blockHash env before
  generalize run (Core.step env) newHotStuffCore before = s0 at hs hst hwait hsilent
  -- the only delivery is the one of the proposal
  have hreceive : (s0.step env (.receive prop)).deliveries prop.block.selfQc.blockHash =
      s0.deliveries prop.block.selfQc.blockHash + 1 := by
    unfold Core.deliveries
    rw [Core.stored_receive, List.countP_append]
    simp
  have hle := Core.deliveries_le_run prop.block.selfQc.blockHash env (s0.step env (.receive prop)) after
  rw [← hs, honce] at hle
  have hsame : (run (Core.step env) (s0.step env (.receive prop)) after).deliveries prop.block.selfQc.blockHash =
      (s0.step env (.receive prop)).deliveries prop.block.selfQc.blockHash := by
    rw [← hs]
    omega
  rw [Core.votersOf_append]
  constructor
  · rintro ⟨qc, hqc, hhash⟩
    have hsourced := Core.run_of_deliveries (fun hst hsame h => h.step hst hsame) (hst.step env _)
      (Core.sourced_receive hst (hwait (by omega)) (hsilent (by omega))) hsame
    rw [← hs] at hsourced
    obtain ⟨⟨hshort, hlate⟩, hall, hge⟩ := hsourced.announced _ qc hqc hhash
    exact ⟨hshort, hlate, hall.quorum_le hge⟩
  · rintro ⟨hshort, hlate, hquorum⟩
    have htracked := Core.run_of_deliveries (fun hst hsame h => h.step hst hsame) (hst.step env _)
      (Core.tracked_receive (hwait (by omega)) hshort) hsame
    rw [← hs] at htracked
    obtain ⟨o, ho⟩ := Option.isSome_iff_exists.1 hkept
    rcases htracked with h | h
    · exact h
    · exact absurd (hquorum.trans ((h o ho).length_le hlate)) (h o ho).short.not_ge

namespace Server

/-- The first block of the chain with the signatures of `ids`, as a proposal. -/
def carrying (ids : List Int64) : Proposal :=
  ⟨0, { chain 1 with selfQc := quorumCert 0 (chain 1).selfQc.blockHash ids }⟩

def voteFrom (id : Int64) : Vote := ⟨0, id, (chain 1).selfQc.blockHash, ⟨id, sign id (chain 1).selfQc.blockHash⟩⟩

end Server

/-- One vote before the proposal and one behind it. -/
theorem votes_counted_server :
    ∃ qc, .qcFinish (Server.carrying [0]).block.proposer qc ∈
        (run (Core.step (Server.env 1)) newHotStuffCore
          ([.vote (Server.voteFrom 2)] ++ .receive (Server.carrying [0]) :: [.vote (Server.voteFrom 3)])).notified ∧
      qc.blockHash = (Server.carrying [0]).block.selfQc.blockHash :=
  (votes_counted (Server.env 1) (Server.carrying [0]) [.vote (Server.voteFrom 2)] [.vote (Server.voteFrom 3)] _ rfl
    (by decide +kernel) (by decide +kernel)).2
    ⟨by decide +kernel, ⟨3, by decide +kernel, by decide +kernel⟩, by decide +kernel⟩

/-- The votes of replicas `2` and `3` verify and make a quorum with the signature in the proposal.  They come before it,
and all that happens is that the replica votes itself.  It is the same if the proposal carries a quorum and the vote of
replica `3` comes behind it. -/
theorem votes_wait :
    Server.replicas.accepts 2 (Server.voteFrom 2).cert.signature (Server.voteFrom 2).blockHash = true ∧
    Server.replicas.accepts 3 (Server.voteFrom 3).cert.signature (Server.voteFrom 3).blockHash = true ∧
    getQuorumSize Server.replicas.metadata ≤
      (((Server.carrying [0]).block.selfQc.signs.keys ++ [2, 3]).dedup.length : Int) ∧
    (run (Core.step (Server.env 1)) newHotStuffCore
      [.vote (Server.voteFrom 2), .vote (Server.voteFrom 3), .receive (Server.carrying [0])]).notified =
      [.receiveProposal (Server.carrying [0]) (Server.voteFrom 1)] ∧
    (run (Core.step (Server.env 1)) newHotStuffCore
      [.receive (Server.carrying [0, 1, 2]), .vote (Server.voteFrom 3)]).notified =
      [.receiveProposal (Server.carrying [0, 1, 2]) (Server.voteFrom 1)] := by
  decide +kernel

end GoHotstuff
