import GoHotstuff.NodeStep
import GoHotstuff.Network

/-!
# What a signature says

A replica signs in two places: `voteProposal` signs the hash of a block and `createSignedViewChange` the encoding of a
new-view message, with the same key and without a mark of the purpose.  Each signature of a replica belongs to one of its
votes or is on an encoded new-view message (`SignsFor`), and `VerifyQuorumCert` cannot tell the two apart: a certificate
that has the encoding in the place of the block hash counts the signatures of replicas that have only asked for a new view
(`view_changes_certify`).
-/

namespace GoHotstuff

open Lib (Bytes run)

namespace Core

/-! ### The sign log -/

/-- What a call that is not a signature on a new-view message does to the sign log and the votes. -/
inductive SignStep (s s' : Core) : Prop
  | same (hlog : s'.signLog = s.signLog) (hvotes : s'.votes = s.votes) : SignStep s s'
  | failed {digest : Bytes} (hlog : s'.signLog = s.signLog ++ [(digest, none)]) (hvotes : s'.votes = s.votes) :
      SignStep s s'
  | vote {c : CastVote} (hlog : s'.signLog = s.signLog ++ [(c.vote.blockHash, some c.vote.cert.signature)])
      (hvotes : s'.votes = s.votes ++ [c]) : SignStep s s'

private theorem SignStep.of_eq {s t s' : Core} (h : SignStep t s') (hlog : t.signLog = s.signLog)
    (hvotes : t.votes = s.votes) : SignStep s s' := by
  cases h with
  | same hl hv => exact .same (hl.trans hlog) (hv.trans hvotes)
  | failed hl hv => exact .failed (hlog ▸ hl) (hv.trans hvotes)
  | vote hl hv => exact .vote (hlog ▸ hl) (hvotes ▸ hv)

private theorem Quiet.signStep {s s' : Core} (q : Quiet s s') : SignStep s s' := by
  obtain ⟨c, w, k, x, hc, hp, rfl⟩ := q
  exact .same rfl rfl

theorem UpdateResult.signs {env : Env} {s s' : Core} {b : Block} {r : Except CoreError Unit}
    (u : UpdateResult env s b r s') : s'.signLog = s.signLog ∧ s'.votes = s.votes := by
  obtain ⟨g, o, l, e, n, c, w, k, x, hc, hp, rfl⟩ := u.frame
  exact ⟨rfl, rfl⟩

private theorem ProcessResult.signStep {env : Env} {s s' : Core} {prop : Proposal} (p : ProcessResult env s prop s') :
    SignStep s s' := by
  cases p with
  | updateError hu =>
    obtain ⟨hlog, hvotes⟩ := (update_result hu).signs
    exact .same hlog hvotes
  | checkError hu hv q =>
    obtain ⟨hlog, hvotes⟩ := (update_result hu).signs
    obtain ⟨c, w, k, x, hc, hp, rfl⟩ := q
    exact .same hlog hvotes
  | signError hu hv q =>
    obtain ⟨hlog, hvotes⟩ := (update_result hu).signs
    obtain ⟨c, w, k, x, hc, hp, rfl⟩ := q
    exact .failed (congrArg (· ++ _) hlog) hvotes
  | @voted vh sig vote s1 s2 hu hv q hvote =>
    obtain ⟨hlog, hvotes⟩ := (update_result hu).signs
    obtain ⟨c, w, k, x, hc, hp, rfl⟩ := q
    refine .vote (c := ⟨prop.block.height, vote⟩) ?_ (congrArg (· ++ _) hvotes)
    rw [hvote]
    exact congrArg (· ++ _) hlog

private theorem ProposeResult.signStep {env : Env} {s s' : Core} {curView : Int64} {b : Block}
    (p : ProposeResult env s curView b s') : SignStep s s' := by
  cases p with
  | updateError hu =>
    obtain ⟨hlog, hvotes⟩ := (update_result hu).signs
    exact .same hlog hvotes
  | signError hu =>
    obtain ⟨hlog, hvotes⟩ := (update_result hu).signs
    exact .failed (congrArg (· ++ _) hlog) hvotes
  | @voted sig vote r s1 s3 _ hu hvote v hs' =>
    obtain ⟨hlog, hvotes⟩ := (update_result hu).signs
    obtain ⟨-, -, -, -, hlog3, hvotes3, -, -⟩ := v.frame
    have h3 : s3.signLog = s.signLog ++ [(vote.blockHash, some vote.cert.signature)] ∧
        s3.votes = s.votes ++ [⟨b.height, vote⟩] := by
      rw [hlog3, hvotes3, hvote]
      exact ⟨congrArg (· ++ _) hlog, congrArg (· ++ _) hvotes⟩
    rcases hs' with rfl | rfl
    · exact .vote (c := ⟨b.height, vote⟩) h3.1 h3.2
    · exact .vote (c := ⟨b.height, vote⟩) h3.1 h3.2

private theorem step_signs (env : Env) (s : Core) (op : CoreOp) :
    SignStep s (s.step env op) ∨
    ∃ data sig, op = .sign data ∧ (s.step env op).signLog = s.signLog ++ [(data, sig)] ∧
      (s.step env op).votes = s.votes := by
  have hres := step_cases env s op
  generalize s.step env op = s' at hres
  cases hres with
  | quiet hop q => exact Or.inl q.signStep
  | propose hl hh p => exact Or.inl (p.signStep.of_eq rfl rfl)
  | store hw q =>
    obtain ⟨c, w, k, x, hc, hp, rfl⟩ := q
    exact Or.inl (.same rfl rfl)
  | receive q hj p =>
    obtain ⟨c, w, k, x, hc, hp, rfl⟩ := q
    exact Or.inl (p.signStep.of_eq rfl rfl)
  | resume hi q hj p =>
    obtain ⟨c, w, k, x, hc, hp, rfl⟩ := q
    exact Or.inl (p.signStep.of_eq rfl rfl)
  | vote v =>
    obtain ⟨-, -, -, -, hlog, hvotes, -, -⟩ := v.frame
    exact Or.inl (.same hlog hvotes)
  | newView => exact Or.inl (.same rfl rfl)
  | @adopt qc b _ hl q =>
    obtain ⟨g, o, n, heq⟩ := highQC_frame env s b qc none
    rw [heq] at q
    obtain ⟨c, w, k, x, hc, hp, rfl⟩ := q
    exact Or.inl (.same rfl rfl)
  | @sign data sig => exact Or.inr ⟨data, sig, rfl, rfl, rfl⟩

/-- The digest is the encoding of a new-view message whose certificate satisfies `P`. -/
def Encodes (env : NodeEnv) (P : QuorumCert → Prop) (digest : Bytes) : Prop :=
  ∃ view qc, P qc ∧ env.marshal ⟨view, qc⟩ = .ok digest

/-- Each signature made is that of a vote or on an encoded new-view message whose certificate satisfies `P`. -/
def SignsFor (env : NodeEnv) (P : QuorumCert → Prop) (s : Core) : Prop :=
  ∀ digest sig, (digest, some sig) ∈ s.signLog →
    (∃ c ∈ s.votes, c.vote.blockHash = digest ∧ c.vote.cert.signature = sig) ∨ Encodes env P digest

theorem SignsFor.step {env : NodeEnv} {P : QuorumCert → Prop} {s : Core} (h : SignsFor env P s) {op : CoreOp}
    (hop : ∀ data, op = .sign data → Encodes env P data) : SignsFor env P (s.step env.toEnv op) := by
  intro digest sig hmem
  rcases step_signs env.toEnv s op with hstep | ⟨data, sig', rfl, hlog, hvotes⟩
  · cases hstep with
    | same hlog hvotes =>
      rw [hlog] at hmem
      rw [hvotes]
      exact h digest sig hmem
    | failed hlog hvotes =>
      rw [hlog, List.mem_append, List.mem_singleton] at hmem
      rw [hvotes]
      rcases hmem with hmem | heq
      · exact h digest sig hmem
      · cases heq
    | @vote c hlog hvotes =>
      rw [hlog, List.mem_append, List.mem_singleton] at hmem
      rw [hvotes]
      rcases hmem with hmem | heq
      · rcases h digest sig hmem with ⟨c', hc', hvote⟩ | henc
        · exact Or.inl ⟨c', List.mem_append_left _ hc', hvote⟩
        · exact Or.inr henc
      · obtain ⟨hdigest, hsig⟩ := Prod.mk.inj heq
        exact Or.inl ⟨c, by simp, hdigest.symm, (Option.some.inj hsig).symm⟩
  · rw [hlog, List.mem_append, List.mem_singleton] at hmem
    rw [hvotes]
    rcases hmem with hmem | heq
    · exact h digest sig hmem
    · right
      rw [(Prod.mk.inj heq).1]
      exact hop data rfl

end Core

namespace Node

open GoHotstuff.Core (SignsFor Encodes)

theorem signsFor_step {env : NodeEnv} {P : QuorumCert → Prop} {n : Node} (h : SignsFor env P n.core)
    (hP : P n.core.genericQC) (a : Action) : SignsFor env P (n.step env a).core := by
  refine step_keeps (I := SignsFor env P) (fun q h => ?_) (fun hop h => h.step ?_) (fun hop h => h.step ?_) h
  · obtain ⟨c, w, k, x, hc, hp, rfl⟩ := q
    exact h
  · rintro data rfl
    cases hop with
    | @sign view _ hm => exact ⟨view, _, hP, hm⟩
  · rintro data rfl
    cases hop

private theorem signsFor_run (env : NodeEnv) (as : List Action) :
    SignsFor env (fun _ => True) (run (step env) newNode as).core := by
  induction as using List.reverseRecOn with
  | nil =>
    intro digest sig hmem
    cases hmem
  | append_singleton as a ih =>
    rw [Lib.run_append]
    exact signsFor_step ih trivial a

end Node

/-! ### Certificates -/

/-- Signatures of replicas that are not Byzantine are not forged in the certificate: those that verify for its hash have
been made on this hash. -/
def Net.Unforged (E : NetEnv) (byzantine : Finset Int64) (net : Net) (qc : QuorumCert) : Prop :=
  ∀ e ∈ qc.signs.entries, e.1 ∉ byzantine → E.replicas.accepts e.1 e.2.signature qc.blockHash = true →
    (qc.blockHash, some e.2.signature) ∈ (net e.1).core.signLog

instance (E : NetEnv) (byzantine : Finset Int64) (net : Net) (qc : QuorumCert) :
    Decidable (net.Unforged E byzantine qc) :=
  inferInstanceAs (Decidable (∀ e ∈ qc.signs.entries, e.1 ∉ byzantine →
    E.replicas.accepts e.1 e.2.signature qc.blockHash = true →
      (qc.blockHash, some e.2.signature) ∈ (net e.1).core.signLog))

theorem Net.Unforged.signed {E : NetEnv} {byzantine : Finset Int64} {net : Net} {qc : QuorumCert}
    (h : net.Unforged E byzantine qc) {id : Int64} (hid : id ∈ E.replicas.verifiedIds qc) (hhonest : id ∉ byzantine) :
    ∃ pc, qc.signs.lookup id = some pc ∧ (qc.blockHash, some pc.signature) ∈ (net id).core.signLog := by
  obtain ⟨pc, hl, hacc⟩ := ReplicaConf.mem_verifiedIds.1 hid
  exact ⟨pc, hl, h ⟨id, pc⟩ (AList.mem_lookup_iff.1 hl) hhonest hacc⟩

/-- Certificate soundness.  In every run and for every certificate in which no signature is forged, a replica that is not
Byzantine and whose signature is counted has made this signature in a vote for the certificate's hash, or the hash is the
encoding of a new-view message that it has signed. -/
theorem certificate_soundness (E : NetEnv) (byzantine : Finset Int64) (acts : List (Int64 × Action)) (net : Net)
    (hnet : net = run (Net.step E) Net.start acts) (qc : QuorumCert) (hunf : net.Unforged E byzantine qc) (id : Int64)
    (hid : id ∈ E.replicas.verifiedIds qc) (hhonest : id ∉ byzantine) :
    ∃ pc, qc.signs.lookup id = some pc ∧
      ((∃ c ∈ (net id).core.votes, c.vote.blockHash = qc.blockHash ∧ c.vote.cert.signature = pc.signature) ∨
        ∃ newView, E.marshal newView = .ok qc.blockHash ∧
          (qc.blockHash, some pc.signature) ∈ (net id).core.signLog) := by
  obtain ⟨pc, hl, hsigned⟩ := hunf.signed hid hhonest
  have hsigns : Core.SignsFor (E.node id) (fun _ => True) (net id).core := by
    rw [hnet, Net.run_apply]
    exact Node.signsFor_run (E.node id) _
  refine ⟨pc, hl, ?_⟩
  rcases hsigns _ _ hsigned with hvote | ⟨view, qc', -, hm⟩
  · exact Or.inl hvote
  · exact Or.inr ⟨⟨view, qc'⟩, hm, hsigned⟩

namespace Server

/-- Replicas `0`, `1` and `2` receive the first block of the chain. -/
def voteRun : List (Int64 × Action) :=
  [0, 1, 2].map fun id => (id, .message 0 (.proposal 0 (some (chain 1).toPb)))

/-- A replica is given a command, proposes or forwards it, runs `events`, and asks for a new view when its timer runs
out. -/
def askNewView (events : List Action) : List Action :=
  let run : Nat → Action := fun i => .task i (fun _ _ => true) 0
  [.submit [1], run 1, run 0] ++ events ++ [.timeout, run 0]

/-- Replica `0`, the leader, runs the event of its proposal before its timer runs out; replica `2` has forwarded the
command. -/
def viewChangeRun : List (Int64 × Action) :=
  ((askNewView [.task 0 (fun _ _ => true) 0]).map fun a => (0, a)) ++ (askNewView []).map fun a => (2, a)

end Server

/-- The certificate for the first block after replicas `0`, `1` and `2` have voted. -/
theorem certificate_soundness_server :
    Server.replicas.verifyQuorumCert (Server.quorumCert 0 (Server.chain 1).selfQc.blockHash [0, 1, 2]) = true ∧
    ∃ pc, (Server.quorumCert 0 (Server.chain 1).selfQc.blockHash [0, 1, 2]).signs.lookup 2 = some pc ∧
      ((∃ c ∈ (run (Net.step Server.netEnv) Net.start Server.voteRun 2).core.votes,
          c.vote.blockHash = (Server.chain 1).selfQc.blockHash ∧ c.vote.cert.signature = pc.signature) ∨
        ∃ newView, Server.netEnv.marshal newView = .ok (Server.chain 1).selfQc.blockHash ∧
          ((Server.chain 1).selfQc.blockHash, some pc.signature) ∈
            (run (Net.step Server.netEnv) Net.start Server.voteRun 2).core.signLog) :=
  ⟨by decide +kernel, certificate_soundness Server.netEnv {3} Server.voteRun _ rfl
    (Server.quorumCert 0 (Server.chain 1).selfQc.blockHash [0, 1, 2]) (by decide +kernel) 2 (by decide +kernel)
    (by decide)⟩

/-- Replicas `0` and `2` ask for view `1` and sign the same message.  With a signature of replica `3`, which is Byzantine,
their signatures make a certificate that verifies and has the encoding of the message for its hash; replica `2` has never
voted, and no vote of replica `0` is for this hash. -/
theorem view_changes_certify :
    Server.replicas.verifyQuorumCert (Server.quorumCert 0 (Server.marshalNewView ⟨1, genesisQC⟩) [0, 2, 3]) = true ∧
    2 ∈ Server.replicas.verifiedIds (Server.quorumCert 0 (Server.marshalNewView ⟨1, genesisQC⟩) [0, 2, 3]) ∧
    (run (Net.step Server.netEnv) Net.start Server.viewChangeRun).Unforged Server.netEnv {3}
      (Server.quorumCert 0 (Server.marshalNewView ⟨1, genesisQC⟩) [0, 2, 3]) ∧
    (run (Net.step Server.netEnv) Net.start Server.viewChangeRun 2).core.votes = [] ∧
    ∀ c ∈ (run (Net.step Server.netEnv) Net.start Server.viewChangeRun 0).core.votes,
      c.vote.blockHash ≠ Server.marshalNewView ⟨1, genesisQC⟩ := by
  decide +kernel

end GoHotstuff
