import GoHotstuff.VoteCount
import GoHotstuff.NodeStep
import GoHotstuff.Network

/-!
# Finished certificates

`OnProposalVote` calls a certificate finished when its `Signs` has `N - F` entries.  Entries come from votes, which
`handleVote` has verified or the replica has signed itself, from stashed votes, which were such votes, and from the
proposal in which the block arrived, which nobody has looked at.  If the signatures in received proposals are accepted,
so are all that the replica ever holds (`Valid`), and every finished certificate verifies (`finished_verifies`).
Otherwise two made-up signatures and one vote finish a certificate (`forged_finish`).
-/

namespace GoHotstuff

open Lib (Bytes run encodeToString StepsMeet)

namespace ReplicaConf

/-! ### Certificates all of whose signatures are accepted -/

/-- All signatures are accepted for `hash`. -/
def SignsAccepted (rc : ReplicaConf) (hash : Bytes) (signs : Signs) : Prop :=
  ∀ e ∈ signs.entries, rc.accepts e.1 e.2.signature hash = true

instance (rc : ReplicaConf) (hash : Bytes) (signs : Signs) : Decidable (rc.SignsAccepted hash signs) :=
  inferInstanceAs (Decidable (∀ e ∈ signs.entries, rc.accepts e.1 e.2.signature hash = true))

/-- The vote's signature is accepted for the block hash it names. -/
def VoteAccepted (rc : ReplicaConf) (vote : Vote) : Prop :=
  rc.accepts vote.voter vote.cert.signature vote.blockHash = true

/-- Enough signatures, all accepted, make a certificate that verifies. -/
private theorem verify_of_accepted {rc : ReplicaConf} {qc : QuorumCert} (h : rc.SignsAccepted qc.blockHash qc.signs)
    (hpos : 0 < getQuorumSize rc.metadata) (hlen : getQuorumSize rc.metadata ≤ qc.signs.keys.length) :
    rc.verifyQuorumCert qc = true := by
  have hids : (rc.verifiedIds qc).length = qc.signs.keys.length := by
    unfold verifiedIds
    rw [List.filter_eq_self.2 h, List.length_map]
    exact (List.length_map _).symm
  unfold verifyQuorumCert
  rw [if_neg (by omega), hids]
  apply decide_eq_true
  unfold getQuorumSize at hpos hlen
  have h0 : (0 : Int64) ≤ rc.metadata.n - rc.metadata.f :=
    Int64.le_iff_toInt_le.2 (by rw [Int64.toInt_zero]; omega)
  rw [Int64.toNat_toUInt64_of_le h0]
  have := Int64.toNat_toInt (rc.metadata.n - rc.metadata.f)
  omega

private theorem SignsAccepted.insert {rc : ReplicaConf} {hash : Bytes} {signs : Signs} (h : rc.SignsAccepted hash signs)
    {vote : Vote} (hv : rc.VoteAccepted vote) (hhash : vote.blockHash = hash) :
    rc.SignsAccepted hash (signs.insert vote.voter vote.cert) := by
  intro e he
  rw [AList.entries_insert, List.mem_cons] at he
  rcases he with rfl | he
  · exact hhash ▸ hv
  · exact h e ((List.kerase_sublist vote.voter signs.entries).subset he)

private theorem SignsAccepted.mergeVotes {rc : ReplicaConf} {hash : Bytes} {votes : List Vote}
    (hvotes : ∀ v ∈ votes, v.blockHash = hash ∧ rc.VoteAccepted v) {signs : Signs} (h : rc.SignsAccepted hash signs) :
    rc.SignsAccepted hash (Core.mergeVotes signs votes) := by
  unfold Core.mergeVotes
  induction votes generalizing signs with
  | nil => exact h
  | cons v votes ih =>
    rw [List.foldl_cons]
    apply ih fun w hw => hvotes w (List.mem_cons_of_mem _ hw)
    split
    · exact h
    · obtain ⟨hhash, hv⟩ := hvotes v List.mem_cons_self
      exact h.insert hv hhash

end ReplicaConf

namespace Core

/-! ### All signatures in the store -/

/-- The signatures of the blocks in the store are accepted for the blocks' hashes, and those of the stashed votes for the
hash under which they are stashed. -/
structure Valid (env : Env) (s : Core) : Prop extends StoreInv s where
  certs : ∀ hash o, s.object? hash = some o → env.replicas.SignsAccepted hash o.block.selfQc.signs
  stash : ∀ hash, ∀ v ∈ s.stashed hash, v.blockHash = hash ∧ env.replicas.VoteAccepted v

section Valid

variable {env : Env} {s s' : Core}

private theorem Valid.of_eq (h : s.Valid env) (ho : s'.objects = s.objects) (hs : s'.stored = s.stored)
    (hk : ∀ key, s'.blockCache.find? key = s.blockCache.find? key) (hv : s'.voteSet = s.voteSet) : s'.Valid env := by
  refine ⟨h.toStoreInv.of_find? ho hs hk, fun hash o h' => ?_, fun hash v hv' => ?_⟩
  · exact h.certs hash o ((hk _).symm.trans h')
  · unfold stashed at hv'
    rw [hv] at hv'
    exact h.stash hash v hv'

private theorem Quiet.valid (q : Quiet s s') (h : s.Valid env) : s'.Valid env := by
  obtain ⟨c, w, k, x, hc, hp, rfl⟩ := q
  exact h.of_eq rfl rfl hc rfl

private theorem UpdateResult.valid {b : Block} {r : Except CoreError Unit} (u : UpdateResult env s b r s')
    (h : s.Valid env) :
    s'.Valid env := by
  obtain ⟨g, o, l, e, n, q⟩ := u.frame
  exact q.valid (h.of_eq rfl rfl (fun _ => rfl) rfl)

theorem Valid.highQC (h : s.Valid env) (b : Block) (qc : QuorumCert) (obj : Option Nat) :
    (s.highQC env b qc obj).Valid env := by
  obtain ⟨g, o, n, heq⟩ := highQC_frame env s b qc obj
  rw [heq]
  exact h.of_eq rfl rfl (fun _ => rfl) rfl

private theorem Valid.notify (h : s.Valid env) (e : Event) : (s.notify e).Valid env :=
  h.of_eq rfl rfl (fun _ => rfl) rfl

private theorem Valid.storeBlock (h : s.Valid env) {b : Block}
    (hb : env.replicas.SignsAccepted b.selfQc.blockHash b.selfQc.signs) : (s.storeBlock b).Valid env := by
  refine ⟨h.toStoreInv.storeBlock b, fun hash o ho => ?_, h.stash⟩
  rcases object?_storeBlock ho with ⟨rfl, rfl⟩ | ⟨-, ho⟩
  · exact hb
  · exact h.certs hash o ho

/-- The signatures of one object are replaced, and the votes for it taken from the stash. -/
theorem Valid.setSigns (h : s.Valid env) {hash : Bytes} {o : Stored} (ho : s.object? hash = some o) {signs : Signs}
    (hsigns : env.replicas.SignsAccepted hash signs) (key : List Char) :
    (Core.setSigns { s with voteSet := s.voteSet.erase key } o.obj signs).Valid env := by
  refine ⟨?_, fun hash' o' ho' => ?_, fun hash' v hv => ?_⟩
  · have e : SameEntries s (Core.setSigns { s with voteSet := s.voteSet.erase key } o.obj signs) :=
      ⟨rfl, rfl, Or.inr ⟨o.obj, signs, fun k => Cache.find?_mapValue _ _ _⟩⟩
    exact e.storeInv h.toStoreInv
  · rcases h.toStoreInv.object?_setSigns ho ho' with ⟨rfl, rfl⟩ | ⟨-, ho'⟩
    · exact hsigns
    · exact h.certs hash' o' ho'
  · refine h.stash hash' v ?_
    change v ∈ ((s.voteSet.erase key).lookup (encodeToString hash')).getD [] at hv
    by_cases hk : encodeToString hash' = key
    · rw [hk, AList.lookup_erase] at hv
      cases hv
    · rwa [AList.lookup_erase_ne hk] at hv

private theorem Valid.addVoteMsg (h : s.Valid env) {vote : Vote} (hv : env.replicas.VoteAccepted vote) :
    (s.addVoteMsg vote).Valid env := by
  rw [addVoteMsg_eq]
  refine ⟨h.toStoreInv.of_find? rfl rfl fun _ => rfl, h.certs, fun hash v hmem => ?_⟩
  change v ∈ ((s.voteSet.insert (encodeToString vote.blockHash) (s.stashed vote.blockHash ++ [vote])).lookup
    (encodeToString hash)).getD [] at hmem
  by_cases hk : hash = vote.blockHash
  · subst hk
    rw [AList.lookup_insert, Option.getD_some, List.mem_append, List.mem_singleton] at hmem
    rcases hmem with hmem | rfl
    · exact h.stash _ v hmem
    · exact ⟨rfl, hv⟩
  · have hne : encodeToString hash ≠ encodeToString vote.blockHash := by
      rw [Ne, Lib.encodeToString_inj]
      exact hk
    rw [AList.lookup_insert_ne hne] at hmem
    exact h.stash hash v hmem

/-- A vote is counted together with the stashed ones. -/
private theorem Valid.collect (h : s.Valid env) {vote : Vote} (hv : env.replicas.VoteAccepted vote) {o : Stored}
    (ho : s.object? vote.blockHash = some o) :
    env.replicas.SignsAccepted vote.blockHash
      (mergeVotes (o.block.selfQc.signs.insert vote.voter vote.cert) (s.stashed o.block.selfQc.blockHash)) := by
  have hkey : o.block.selfQc.blockHash = vote.blockHash :=
    h.toStoreInv.selfQc_blockHash (load_eq_some.2 ⟨o.obj, ho⟩)
  rw [hkey]
  exact ((h.certs _ o ho).insert hv rfl).mergeVotes (h.stash vote.blockHash)

private theorem VoteResult.valid {vote : Vote} {r : Except CoreError Unit} (v : VoteResult env s vote r s')
    (h : s.Valid env) (hv : env.replicas.VoteAccepted vote) : s'.Valid env := by
  cases v with
  | stash ho q => exact q.valid (h.addVoteMsg hv)
  | full ho hq q => exact q.valid h
  | duplicate ho hdup q => exact q.valid h
  | counted ho hq hsigns hvs q hlt =>
    subst hsigns hvs
    exact q.valid (h.setSigns ho (h.collect hv ho) _)
  | finished ho hq hsigns hvs q hge =>
    subst hsigns hvs
    exact q.valid (((h.setSigns ho (h.collect hv ho) _).highQC _ _ _).notify _)

private theorem ProcessResult.valid {prop : Proposal} (p : ProcessResult env s prop s') (h : s.Valid env) :
    s'.Valid env := by
  have hset : ∀ {t : Core} (vh : Int64), t.Valid env → (t.setVoteHeight vh).Valid env :=
    fun _ ht => ht.of_eq rfl rfl (fun _ => rfl) rfl
  cases p with
  | updateError hu => exact (update_result hu).valid h
  | checkError hu hv q => exact q.valid ((update_result hu).valid h)
  | signError hu hv q =>
    exact (q.valid (hset _ ((update_result hu).valid h))).of_eq rfl rfl (fun _ => rfl) rfl
  | voted hu hv q hvote hsig =>
    exact (q.valid (hset _ ((update_result hu).valid h))).of_eq rfl rfl (fun _ => rfl) rfl

/-- The replica's verifier accepts what the replica's signer signs. -/
def SignsOwn (env : Env) : Prop :=
  ∀ k digest sig, env.sign k digest = .ok sig → env.replicas.accepts env.id sig digest = true

private theorem ProposeResult.valid {curView : Int64} {b : Block} (p : ProposeResult env s curView b s')
    (hown : SignsOwn env) (h : s.Valid env) : s'.Valid env := by
  cases p with
  | updateError hu => exact (update_result hu).valid h
  | signError hu =>
    exact ((update_result hu).valid h).of_eq rfl rfl (fun _ => rfl) rfl
  | @voted sig vote r s1 s3 _ hu hvote v hs' hsig =>
    have h3 : s3.Valid env := by
      refine v.valid (((update_result hu).valid h).of_eq rfl rfl (fun _ => rfl) rfl) ?_
      rw [hvote]
      exact hown _ _ _ hsig
    rcases hs' with rfl | rfl
    · exact h3
    · exact h3.notify _

/-- The call brings no signature that is not accepted. -/
def ValidOp (env : Env) : CoreOp → Prop
  | .receive prop => env.replicas.SignsAccepted prop.block.selfQc.blockHash prop.block.selfQc.signs
  | .vote vote => env.replicas.VoteAccepted vote
  | _ => True

theorem Valid.step (hown : SignsOwn env) (h : s.Valid env) {op : CoreOp} (hop : ValidOp env op) :
    (s.step env op).Valid env := by
  have hres := step_cases env s op
  generalize s.step env op = s' at hres ⊢
  cases hres with
  | quiet _ q => exact q.valid h
  | propose hl hh p =>
    refine p.valid hown (((quiet_touch s _).valid h).storeBlock ?_)
    exact nofun
  | store hw q => exact q.valid ((h.storeBlock hop).of_eq rfl rfl (fun _ => rfl) rfl)
  | receive q hj p => exact p.valid (q.valid (h.storeBlock hop))
  | resume hi q hj p => exact p.valid (q.valid h)
  | vote v => exact v.valid h hop
  | newView => exact h.notify _
  | adopt hl q => exact q.valid (h.highQC _ _ _)
  | sign => exact h.of_eq rfl rfl (fun _ => rfl) rfl

/-! ### The events -/

/-- A finished certificate verifies, and the own vote for a proposal is accepted. -/
def ValidEvent (env : Env) : Event → Prop
  | .qcFinish _ qc => env.replicas.verifyQuorumCert qc = true
  | .receiveProposal _ vote => env.replicas.VoteAccepted vote
  | _ => True

private theorem Valid.notifies (hown : SignsOwn env) (h : s.Valid env) {op : CoreOp} (hop : ValidOp env op) :
    Notifies (ValidEvent env) s (s.step env op) := by
  have h' := h.step hown hop
  refine step_notifies_of ⟨fun _ => trivial, fun _ => trivial⟩ ?_ (fun _ _ _ _ _ _ _ _ _ => trivial) ?_
    fun _ _ => trivial
  · intro hash o _ ho hpos hge
    have hkey : o.block.selfQc.blockHash = hash := h'.toStoreInv.selfQc_blockHash (load_eq_some.2 ⟨o.obj, ho⟩)
    refine ReplicaConf.verify_of_accepted ?_ hpos hge
    rw [hkey]
    exact h'.certs hash o ho
  · intro prop k sig hsig
    exact hown k _ sig hsig

private theorem valid_run (hown : SignsOwn env) (h : s.Valid env) {ops : List CoreOp}
    (hops : ∀ op ∈ ops, ValidOp env op) :
    (run (step env) s ops).Valid env ∧ Notifies (ValidEvent env) s (run (step env) s ops) := by
  induction ops generalizing s with
  | nil => exact ⟨h, notifies_of_eq rfl⟩
  | cons op ops ih =>
    have hop := hops op List.mem_cons_self
    have hrest := ih (h.step hown hop) fun op' hop' => hops op' (List.mem_cons_of_mem _ hop')
    exact ⟨hrest.1, (h.notifies hown hop).trans hrest.2⟩

private theorem valid_newHotStuffCore (env : Env) : newHotStuffCore.Valid env := by
  refine ⟨storeInv_newHotStuffCore, fun hash o ho => ?_, fun hash v hv => by cases hv⟩
  rcases object?_storeBlock ho with ⟨-, rfl⟩ | ⟨-, ho⟩
  · exact nofun
  · cases (Cache.find?_new _).symm.trans ho

end Valid

end Core

namespace Node

/-! ### Runs of a replica -/

/-- The signatures in a replica's store, its finished certificates and its own votes that are about to be counted. -/
structure ValidState (env : NodeEnv) (n : Node) : Prop where
  core : n.core.Valid env.toEnv
  notified : ∀ e ∈ n.core.notified, Core.ValidEvent env.toEnv e
  task : ∀ e, Task.event e ∈ n.tasks → Core.ValidEvent env.toEnv e

private theorem validState_newNode (env : NodeEnv) : ValidState env newNode where
  core := Core.valid_newHotStuffCore _
  notified e h := by cases h
  task e h := by
    rcases List.mem_singleton.1 h with h
    cases h

/-- The signatures in the certificate of a received block are accepted for the certificate's hash. -/
def SignsVerified (env : NodeEnv) (_ : Node) : Action → Prop
  | .message _ (.proposal _ (some pb)) => ∀ qc ∈ pb.selfQc, env.replicas.SignsAccepted qc.blockHash qc.signs
  | _ => True

instance (env : NodeEnv) (n : Node) : (a : Action) → Decidable (n.SignsVerified env a)
  | .message _ (.proposal _ (some pb)) =>
    inferInstanceAs (Decidable (∀ qc ∈ pb.selfQc, env.replicas.SignsAccepted qc.blockHash qc.signs))
  | .message _ (.proposal _ none) | .message _ (.vote ..) | .message _ (.viewChange ..) | .message _ (.forward _)
  | .message _ .unset | .task .. | .submit _ | .resumeProposal _ | .resumeNewView _ | .timeout => .isTrue trivial

private theorem permits_valid {env : NodeEnv} {n : Node} (h : ValidState env n) (a : Action) :
    Permits env n a (Core.ValidOp env.toEnv) (fun _ => True) (fun _ => True) where
  basic := ⟨fun _ => trivial, trivial, fun _ _ _ => trivial, fun _ _ => trivial⟩
  newView _ _ _ _ _ _ := trivial
  adopt _ _ := trivial
  wait _ _ := trivial
  vote _ _ hacc := hacc
  ownVote _ _ hmem := h.task _ hmem
  proposal _ _ _ _ _ _ _ _ := trivial

private theorem MainCall.validOp {env : NodeEnv} {n : Node} {a : Action} {s : Core} {op : CoreOp}
    (hop : MainCall n a s op) (hg : n.SignsVerified env a) : Core.ValidOp env.toEnv op := by
  cases hop with
  | receive ha hb =>
    subst ha
    obtain ⟨qc, hqc, rfl⟩ := Option.map_eq_some_iff.1 hb
    exact hg qc hqc
  | resume ha => trivial
  | propose ha hi hs => trivial

theorem ValidState.step {env : NodeEnv} (hown : Core.SignsOwn env.toEnv) {n : Node} (h : ValidState env n) {a : Action}
    (hg : n.SignsVerified env a) : ValidState env (n.step env a) := by
  cases step_moves (permits_valid h a) with
  | minor m =>
    obtain ⟨ops, hcore, hops⟩ := m.core
    have hrun := Core.valid_run hown h.core hops
    rw [← hcore] at hrun
    obtain ⟨hnot, htask⟩ := m.events hrun.2 h.notified h.task
    exact ⟨hrun.1, hnot, htask⟩
  | main hop hlead hcore m =>
    have hs := hop.quiet.valid h.core
    have hnew : Core.Notifies (Core.ValidEvent env.toEnv) n.core (n.step env a).core := by
      rw [hcore]
      exact (Core.notifies_of_eq hop.quiet.notified).trans (hs.notifies hown (hop.validOp hg))
    obtain ⟨hnot, htask⟩ := m.events hnew h.notified h.task
    refine ⟨?_, hnot, htask⟩
    rw [hcore]
    exact hs.step hown (hop.validOp hg)

end Node

/-- Every certificate a replica finishes verifies, in every run in which the signatures inside the received blocks are
accepted. -/
theorem finished_verifies (env : NodeEnv) (hown : Core.SignsOwn env.toEnv) (as : List Action)
    (hguard : StepsMeet (Node.step env) (Node.SignsVerified env) newNode as) (proposer : Int64) (qc : QuorumCert)
    (hfin : Event.qcFinish proposer qc ∈ (run (Node.step env) newNode as).core.notified) :
    env.replicas.verifyQuorumCert qc = true := by
  have h : Node.ValidState env (run (Node.step env) newNode as) :=
    hguard.invariant (fun _ _ h hg => h.step hown hg) (Node.validState_newNode env)
  exact h.notified _ hfin

namespace Server

private theorem signsOwn_node1 : Core.SignsOwn (netEnv.node 1).toEnv := by
  intro k digest sig hsig
  obtain rfl := Except.ok.inj hsig
  exact beq_self_eq_true (sign 1 digest)

/-- The first block in a proposal with signatures of `0` and `3` that they did not make. -/
def forged : Block :=
  { chain 1 with selfQc := ⟨0, (chain 1).selfQc.blockHash, [⟨0, ⟨0, []⟩⟩, ⟨3, ⟨3, []⟩⟩].toAList⟩ }

/-- Its certificate with the vote of replica `2`. -/
def forgedQC : QuorumCert := { forged.selfQc with signs := forged.selfQc.signs.insert 2 (voteFrom 2).cert }

end Server

theorem finished_verifies_server :
    Server.replicas.verifyQuorumCert (Server.quorumCert 0 (Server.chain 1).selfQc.blockHash [3, 2, 0]) = true :=
  finished_verifies (Server.netEnv.node 1) Server.signsOwn_node1
    (.message 0 (.proposal 0 (some (Server.chain 1).toPb)) ::
      [0, 2, 3].map fun id => .message id (Server.voteFrom id).toPb)
    (by decide +kernel) 0 _ (by decide +kernel)

/-- Replica `1` receives the block with two made-up signatures and then one vote, which is accepted: the certificate is
finished, and does not verify. -/
theorem forged_finish :
    Event.qcFinish 0 Server.forgedQC ∈ (run (Node.step (Server.netEnv.node 1)) newNode
      [.message 0 (.proposal 0 (some Server.forged.toPb)), .message 2 (Server.voteFrom 2).toPb]).core.notified ∧
    Server.replicas.verifyIdentity 2 (Server.voteFrom 2).cert.signature (Server.chain 1).selfQc.blockHash = true ∧
    Server.replicas.verifyQuorumCert Server.forgedQC = false := by
  decide +kernel

end GoHotstuff
