import GoHotstuff.BlockTree

/-!
# The blocks the certificates name

The block store is a cache of 30 entries, and every handler starts from a block that one of the three certificates
names: `OnPropose` from the block of `genericQC`, the vote rule from that of `lockedQC`, the decide phase and the
write-ahead log from that of `execQC`.  A certificate is adopted only when its block has just been found, so the three
blocks are there until a later store evicts one of them (`Anchored.step`).

`OnReceiveProposal` stores whatever it is sent before it looks at it.  The block of `execQC` has been looked up just
before, but nothing protects the other two: some thirty proposals with made-up hashes push them out (`anchor_evicted`),
and `UpdateHighestQC` then returns early for ever.
-/

namespace GoHotstuff

open Lib (Bytes encodeToString run StepsMeet)

namespace Core

/-- The hashes that `genericQC`, `lockedQC` and `execQC` name. -/
def anchors (s : Core) : List Bytes := [s.genericQC.blockHash, s.lockedQC.blockHash, s.execQC.blockHash]

/-- `LoadBlock` finds the blocks of all three certificates. -/
def Anchored (s : Core) : Prop := ∀ hash ∈ s.anchors, (s.load hash).isSome

instance (s : Core) : Decidable s.Anchored := inferInstanceAs (Decidable (∀ hash ∈ s.anchors, (s.load hash).isSome))

/-- A block stored under `hash` pushes none of the three blocks out of the cache. -/
def Spares (s : Core) (hash : Bytes) : Prop :=
  ∀ anchor ∈ s.anchors, ¬ s.blockCache.Evicts (encodeToString hash) (encodeToString anchor)

instance (s : Core) (hash : Bytes) : Decidable (s.Spares hash) :=
  inferInstanceAs (Decidable (∀ anchor ∈ s.anchors,
    ¬ s.blockCache.Evicts (encodeToString hash) (encodeToString anchor)))

private theorem anchored_iff {s : Core} : s.Anchored ↔ (s.load s.genericQC.blockHash).isSome ∧
    (s.load s.lockedQC.blockHash).isSome ∧ (s.load s.execQC.blockHash).isSome := by
  simp [Anchored, anchors]

private theorem Quiet.anchored {s s' : Core} (q : Quiet s s') (h : s.Anchored) : s'.Anchored := by
  intro hash hm
  rw [q.load hash]
  obtain ⟨c, w, k, x, hc, hp, rfl⟩ := q
  exact h hash hm

/-- A store that evicts none of the three blocks leaves them all in place. -/
private theorem Anchored.storeBlock {s : Core} (h : s.Anchored) {b : Block} (hs : s.Spares b.selfQc.blockHash) :
    (s.storeBlock b).Anchored := by
  intro hash hm
  by_cases hkey : encodeToString hash = encodeToString b.selfQc.blockHash
  · have : (s.storeBlock b).load hash = some b := by
      unfold load object?
      rw [hkey]
      exact load_storeBlock_self s b
    rw [this]
    rfl
  · have hold : (s.storeBlock b).object? hash = s.object? hash :=
      Cache.find?_put_of_not_evicts hkey (hs hash hm)
    have := h hash hm
    unfold load at this ⊢
    rwa [hold]

/-! ### Certificates are adopted with their block at hand -/

theorem HighStep.generic {s s' : Core} (h : HighStep s s') :
    s'.genericQC.blockHash = s.genericQC.blockHash ∨ (s'.load s'.genericQC.blockHash).isSome := by
  rcases h with hkept | ⟨x, y, -, hy, -⟩
  · exact Or.inl hkept.blockHash
  · obtain ⟨b, hb, -⟩ := Option.map_eq_some_iff.1 hy
    exact Or.inr (by rw [hb]; rfl)

private theorem UpdateResult.locked_found {env : Env} {s s' : Core} {b : Block} {r : Except CoreError Unit}
    (u : UpdateResult env s b r s') : s'.lockedQC = s.lockedQC ∨ (s.load s'.lockedQC.blockHash).isSome := by
  rcases u.locked with hl | ⟨qc2, b2, qc1, b1, lb, -, h1, -, -, hl⟩
  · exact Or.inl hl
  · right
    rw [hl, (justifyBlock?_eq_some.1 h1).2]
    rfl

private theorem UpdateResult.exec_found {env : Env} {s s' : Core} {b : Block} {r : Except CoreError Unit}
    (u : UpdateResult env s b r s') : s'.execQC = s.execQC ∨ (s.load s'.execQC.blockHash).isSome := by
  rcases u.exec with ⟨hx, -⟩ | ⟨qc2, b2, qc1, b1, qc0, b0, xb, -, -, h0, -, -, -, hx, -⟩
  · exact Or.inl hx
  · right
    rw [hx, (justifyBlock?_eq_some.1 h0).2]
    rfl

/-- The part of a handler behind its store: entries stay, and each certificate is the old one or one whose block is
found. -/
private theorem Anchored.of_sameEntries {s s' : Core} (h : s.Anchored) (e : SameEntries s s') (hhigh : HighStep s s')
    (hlock : s'.lockedQC = s.lockedQC ∨ (s.load s'.lockedQC.blockHash).isSome)
    (hexec : s'.execQC = s.execQC ∨ (s.load s'.execQC.blockHash).isSome) : s'.Anchored := by
  obtain ⟨hg, hl, hx⟩ := anchored_iff.1 h
  refine anchored_iff.2 ⟨?_, ?_, ?_⟩
  · rcases hhigh.generic with hkept | hfound
    · rw [hkept, e.isSome_load]
      exact hg
    · exact hfound
  · rw [e.isSome_load]
    rcases hlock with hlock | hlock
    · rw [hlock]
      exact hl
    · exact hlock
  · rw [e.isSome_load]
    rcases hexec with hexec | hexec
    · rw [hexec]
      exact hx
    · exact hexec

private theorem Anchored.process {env : Env} {s s' : Core} {prop : Proposal} (h : s.Anchored) (hinv : HighInv env s)
    (p : ProcessResult env s prop s') : s'.Anchored := by
  have u := update_cases env s prop.block
  obtain ⟨hlock, hexec, -⟩ := p.update
  refine h.of_sameEntries p.sameEntries (p.high hinv).2 ?_ ?_
  · rw [hlock]
    exact u.locked_found
  · rw [hexec]
    exact u.exec_found

private theorem Anchored.propose {env : Env} {s s' : Core} {curView : Int64} {b : Block} (h : s.Anchored)
    (hinv : HighInv env s) (p : ProposeResult env s curView b s') : s'.Anchored := by
  have u := update_cases env s b
  obtain ⟨hlock, hexec, -⟩ := p.update
  refine h.of_sameEntries p.sameEntries (p.high hinv).2 ?_ ?_
  · rw [hlock]
    exact u.locked_found
  · rw [hexec]
    exact u.exec_found

/-- What a call must not do: push one of the three blocks out when it stores its own. -/
def RetainGuard (env : Env) (s : Core) : CoreOp → Prop
  | .receive prop => s.Spares prop.block.selfQc.blockHash
  | .propose curView parentHash cmds now => ∀ parent ∈ s.load parentHash,
      (s.touch parentHash).Spares (s.newBlock env curView parentHash cmds parent now).selfQc.blockHash
  | _ => True

instance (env : Env) (s : Core) : (op : CoreOp) → Decidable (s.RetainGuard env op)
  | .receive prop => inferInstanceAs (Decidable (s.Spares prop.block.selfQc.blockHash))
  | .propose curView parentHash cmds now => inferInstanceAs (Decidable (∀ parent ∈ s.load parentHash,
      (s.touch parentHash).Spares (s.newBlock env curView parentHash cmds parent now).selfQc.blockHash))
  | .resume _ | .vote _ | .newView .. | .look _ | .adopt _ | .sign _ | .crash => .isTrue trivial

theorem Anchored.step {env : Env} {s : Core} {op : CoreOp} (h : s.Anchored) (hinv : HighInv env s)
    (hg : s.RetainGuard env op) : (s.step env op).Anchored := by
  have hr := step_cases env s op
  have hhigh := (hinv.step op).2
  generalize s.step env op = s' at hr hhigh ⊢
  cases hr with
  | quiet hop q => exact q.anchored h
  | propose hl hh p =>
    have hstore := ((quiet_touch s _).anchored h).storeBlock (hg _ hl)
    exact hstore.propose (((quiet_touch s _).highInv hinv).storeBlock _) p
  | store hw q hj => exact q.anchored (h.storeBlock hg)
  | receive q hj p => exact (q.anchored (h.storeBlock hg)).process (q.highInv (hinv.storeBlock _)) p
  | resume hi q hj p => exact (q.anchored h).process (q.highInv hinv) p
  | vote v =>
    obtain ⟨hl, hx, -⟩ := v.frame
    exact h.of_sameEntries v.sameEntries hhigh (Or.inl hl) (Or.inl hx)
  | newView => exact h
  | @adopt qc b _ hl q =>
    obtain ⟨g, o, l, hq⟩ := highQC_frame env s b qc none
    rw [hq] at q
    have e : SameEntries s s' := q.sameEntries
    obtain ⟨c, w, k, x, hc, hp, rfl⟩ := q
    exact h.of_sameEntries e hhigh (Or.inl rfl) (Or.inl rfl)
  | sign => exact h

private theorem anchored_newHotStuffCore : newHotStuffCore.Anchored := by
  intro hash hm
  have hgen : hash = genesisHash := by simpa [anchors, newHotStuffCore, storeBlock, genesisQC] using hm
  rw [hgen, newHotStuffCore]
  exact Option.isSome_iff_exists.2 ⟨_, load_storeBlock_self _ genesis⟩

end Core

namespace Node

/-- The condition on a step: the block it stores pushes none of the three blocks out.  The store of a received proposal
comes behind the look-up of the last executed block. -/
def RetainGuard (env : NodeEnv) (n : Node) : Action → Prop
  | .message _ (.proposal _ (some pb)) => ∀ b ∈ pb.toBlock?,
      (n.core.touch n.core.execQC.blockHash).Spares b.selfQc.blockHash
  | .task i _ now => ∀ cmds ∈ n.beatCmds i,
      n.core.RetainGuard env.toEnv (.propose n.curView n.core.genericQC.blockHash cmds now)
  | _ => True

instance (env : NodeEnv) (n : Node) : (a : Action) → Decidable (n.RetainGuard env a)
  | .message _ (.proposal _ (some pb)) => inferInstanceAs (Decidable (∀ b ∈ pb.toBlock?,
      (n.core.touch n.core.execQC.blockHash).Spares b.selfQc.blockHash))
  | .task i _ now => inferInstanceAs (Decidable (∀ cmds ∈ n.beatCmds i,
      n.core.RetainGuard env.toEnv (.propose n.curView n.core.genericQC.blockHash cmds now)))
  | .message _ (.proposal _ none) | .message _ (.viewChange ..) | .message _ (.vote ..) | .message _ (.forward _)
  | .message _ .unset | .submit _ | .resumeProposal _ | .resumeNewView _ | .timeout => .isTrue trivial

private theorem MainCall.retainGuard {env : NodeEnv} {n : Node} {a : Action} {s : Core} {op : CoreOp}
    (h : MainCall n a s op) (hg : n.RetainGuard env a) : s.RetainGuard env.toEnv op := by
  cases h with
  | receive ha hb =>
    subst ha
    exact hg _ hb
  | resume ha => exact trivial
  | propose ha hi hs =>
    subst ha
    exact hg _ (beatCmds_eq hi hs)

private theorem anchored_step {env : NodeEnv} {n : Node} {a : Action} (h : n.core.Anchored)
    (hinv : Core.HighInv env.toEnv n.core) (hg : n.RetainGuard env a) : (n.step env a).core.Anchored := by
  have hminor : ∀ {s : Core} {op : CoreOp}, MinorCall env n a op → s.RetainGuard env.toEnv op := by
    intro s op hop
    cases hop <;> exact trivial
  exact (step_keeps (I := fun s => s.Anchored ∧ Core.HighInv env.toEnv s) (fun q h => ⟨q.anchored h.1, q.highInv h.2⟩)
    (fun hop h => ⟨h.1.step h.2 (hminor hop), (h.2.step _).1⟩)
    (fun hop h => ⟨h.1.step h.2 (hop.retainGuard hg), (h.2.step _).1⟩) ⟨h, hinv⟩).1

end Node

/-- Along every run in which no store evicts a block that a certificate names, the blocks of `genericQC`, `lockedQC` and
`execQC` are in the cache in every state. -/
theorem anchors_retained (env : NodeEnv) (as : List Action)
    (hguard : StepsMeet (Node.step env) (Node.RetainGuard env) newNode as) :
    ((run (Node.step env) newNode as).core.load (run (Node.step env) newNode as).core.genericQC.blockHash).isSome ∧
    ((run (Node.step env) newNode as).core.load (run (Node.step env) newNode as).core.lockedQC.blockHash).isSome ∧
    ((run (Node.step env) newNode as).core.load (run (Node.step env) newNode as).core.execQC.blockHash).isSome := by
  have hinv := hguard.invariant (I := fun n => n.core.Anchored ∧ Core.HighInv env.toEnv n.core)
    (fun n a h hg => ⟨Node.anchored_step h.1 h.2 hg, (Node.highInv_step h.2 a).1⟩)
    ⟨Core.anchored_newHotStuffCore, Core.highInv_newHotStuffCore env.toEnv⟩
  exact Core.anchored_iff.1 hinv.1

/-- Two proposals of the chain, then as many as `count` that fit nothing but carry distinct hashes. -/
def Server.floodRun (count : Nat) : List Action :=
  let junk : Nat → Block := fun i => ⟨[], [], 3, 0, 0, some ⟨0, [], ∅⟩, ⟨0, [.ofNat i], ∅⟩⟩
  [.message 0 (.proposal 0 (some (chain 1).toPb)), .message 1 (.proposal 1 (some (chain 2).toPb))] ++
    (List.range count).map fun i => .message 3 (.proposal 0 (some (junk i).toPb))

theorem anchors_retained_server :
    ((run (Node.step (Server.netEnv.node 0)) newNode (Server.floodRun 27)).core.load
      (run (Node.step (Server.netEnv.node 0)) newNode (Server.floodRun 27)).core.genericQC.blockHash).isSome :=
  (anchors_retained (Server.netEnv.node 0) (Server.floodRun 27) (by decide +kernel)).1

/-- After 29 such proposals the block of the high QC is gone, and with it every later update of the high QC. -/
theorem anchor_evicted :
    (run (Node.step (Server.netEnv.node 0)) newNode (Server.floodRun 29)).core.genericQC.blockHash =
      (Server.chain 1).selfQc.blockHash ∧
    (run (Node.step (Server.netEnv.node 0)) newNode (Server.floodRun 29)).core.load
      (Server.chain 1).selfQc.blockHash = none := by
  decide +kernel

end GoHotstuff
