import GoHotstuff.Views

/-!
# Which new-view messages a quorum is made of

`addNewViewMsg` keeps, of two messages of a sender, the one whose certificate has the lower view number, and when the
quorum is complete it compares the messages' own view numbers, which are all the same, so that it returns whichever message
the iteration over the map meets first.  The result carries the highest certificate only if the senders agree about its
view number (`new_view_highest`); else it may carry any of those that were sent (`lower_certificate_returned`).  The order
of the iteration is arbitrary: `MayReturn` is what some order returns.

`OnReceiveNewView` records a message only if the replica is in that view already.  A replica which is behind spends the
first message on catching up, and the quorum it would have completed is one message short (`first_message_dropped`); in the
view itself each message counts (`messages_complete_quorum`).
-/

namespace GoHotstuff

open Lib (Bytes run)

namespace Node

/-! ### `addNewViewMsg` -/

/-- The messages collected for view `v`. -/
def collected (n : Node) (v : Int64) : AList (fun _ : Int64 => NewView) := (n.views.lookup v).getD ∅

/-- `addNewViewMsg` returns `m` if the loop meets the messages in a suitable order. -/
def MayReturn (env : NodeEnv) (n : Node) (id : Int64) (newView m : NewView) : Prop :=
  (n.addNewViewMsg env id newView).1.isSome ∧ ∃ order,
    order.Perm (((n.addNewViewMsg env id newView).2.collected newView.viewNumber).entries.map fun e => e.2) ∧
      pickHigh order = some m

/-- The node after a sequence of calls, each of a sender and a message. -/
def addAll (env : NodeEnv) (n : Node) (calls : List (Int64 × NewView)) : Node :=
  run (fun n x => (n.addNewViewMsg env x.1 x.2).2) n calls

private theorem collected_insert {n : Node} {v : Int64} {m : AList (fun _ : Int64 => NewView)} :
    collected { n with views := n.views.insert v m } v = m := by
  unfold collected
  rw [AList.lookup_insert]
  rfl

private theorem AddResult.collected {env : NodeEnv} {n n' : Node} {id : Int64} {newView : NewView}
    {high : Option NewView} (r : AddResult env n id newView high n') {e : Sigma fun _ : Int64 => NewView}
    (he : e ∈ (n'.collected newView.viewNumber).entries) :
    e ∈ (n.collected newView.viewNumber).entries ∨ e = ⟨id, newView⟩ := by
  have hinsert : ∀ m : AList (fun _ : Int64 => NewView), m = n.collected newView.viewNumber →
      e ∈ (m.insert id newView).entries → e ∈ (n.collected newView.viewNumber).entries ∨ e = ⟨id, newView⟩ := by
    intro m hm hmem
    rw [AList.entries_insert, List.mem_cons] at hmem
    rcases hmem with rfl | hmem
    · exact .inr rfl
    · rw [← hm]
      exact .inl ((List.kerase_sublist _ _).subset hmem)
  cases r with
  | dropped h => exact .inl he
  | @replaced m hm hid =>
    rw [collected_insert] at he
    refine hinsert m ?_ he
    rw [Node.collected, hm]
    rfl
  | added hm hid hq hhigh =>
    rw [collected_insert] at he
    exact hinsert _ hm.symm he

/-! ### Which messages the table takes -/

/-- The quorum for view `v` is not complete, so that `addNewViewMsg` looks at the senders. -/
def Takes (env : NodeEnv) (n : Node) (v : Int64) : Prop :=
  n.views.lookup v = none ∨ ((n.collected v).keys.length : Int) < getQuorumSize env.replicas.metadata

instance (env : NodeEnv) (n : Node) (v : Int64) : Decidable (n.Takes env v) :=
  inferInstanceAs (Decidable (_ ∨ _))

/-- The calls that find the quorum incomplete. -/
def taken (env : NodeEnv) : Node → List (Int64 × NewView) → List (Int64 × NewView)
  | _, [] => []
  | n, x :: xs =>
    let rest := taken env (n.addNewViewMsg env x.1 x.2).2 xs
    if n.Takes env x.2.viewNumber then x :: rest else rest

section Taken

variable {env : NodeEnv} {n : Node} {id v : Int64} {newView : NewView}

private theorem addNewViewMsg_of_not_takes (h : ¬ n.Takes env newView.viewNumber) :
    n.addNewViewMsg env id newView = (none, n) := by
  cases hl : n.views.lookup newView.viewNumber with
  | none => exact absurd (Or.inl hl) h
  | some views =>
    have hfull : getQuorumSize env.replicas.metadata ≤ views.keys.length := by
      by_contra hlt
      refine h (Or.inr ?_)
      rw [collected, hl]
      exact Int.not_le.1 hlt
    unfold addNewViewMsg
    rw [hl]
    exact if_pos hfull

private theorem taken_cons (n : Node) (x : Int64 × NewView) (xs : List (Int64 × NewView)) :
    n.taken env (x :: xs) = if n.Takes env x.2.viewNumber then x :: (n.addNewViewMsg env x.1 x.2).2.taken env xs
      else (n.addNewViewMsg env x.1 x.2).2.taken env xs := rfl

private theorem taken_sublist (n : Node) (calls : List (Int64 × NewView)) : (n.taken env calls).Sublist calls := by
  induction calls generalizing n with
  | nil => exact List.Sublist.refl _
  | cons x calls ih =>
    rw [taken_cons]
    split
    · exact (ih _).cons_cons x
    · exact (ih _).cons x

private theorem taken_eq {calls : List (Int64 × NewView)} (hv : ∀ x ∈ calls, x.2.viewNumber = v)
    (h : (n.addAll env calls).Takes env v) : n.Takes env v ∧ n.taken env calls = calls := by
  induction calls generalizing n with
  | nil => exact ⟨h, rfl⟩
  | cons x calls ih =>
    obtain ⟨htakes, heq⟩ := ih (fun y hy => hv y (List.mem_cons_of_mem _ hy)) h
    have hx := hv x List.mem_cons_self
    have hfirst : n.Takes env x.2.viewNumber := by
      by_contra hnot
      have hsame : (n.addNewViewMsg env x.1 x.2).2 = n := by rw [addNewViewMsg_of_not_takes hnot]
      have htakes' : (n.addNewViewMsg env x.1 x.2).2.Takes env v := htakes
      rw [hsame, ← hx] at htakes'
      exact hnot htakes'
    refine ⟨hx ▸ hfirst, ?_⟩
    rw [taken_cons, if_pos hfirst]
    exact congrArg (x :: ·) heq

private theorem taken_append (n : Node) (cs ds : List (Int64 × NewView)) :
    n.taken env (cs ++ ds) = n.taken env cs ++ (n.addAll env cs).taken env ds := by
  induction cs generalizing n with
  | nil => rfl
  | cons x cs ih =>
    have hrest := ih (n.addNewViewMsg env x.1 x.2).2
    rw [List.cons_append, taken_cons, taken_cons, hrest]
    split
    · rfl
    · rfl

/-- The run lemma: what is collected for a view has been passed to `addNewViewMsg` by the sender it is filed under, in a call
that was taken. -/
private theorem mem_of_collected {calls : List (Int64 × NewView)} (hv : ∀ x ∈ calls, x.2.viewNumber = v) (n : Node)
    {e : Sigma fun _ : Int64 => NewView} (he : e ∈ ((n.addAll env calls).collected v).entries) :
    e ∈ (n.collected v).entries ∨ (e.1, e.2) ∈ n.taken env calls := by
  induction calls generalizing n with
  | nil => exact .inl he
  | cons x calls ih =>
    have hx := hv x List.mem_cons_self
    have hrest := ih (fun y hy => hv y (List.mem_cons_of_mem _ hy)) (n.addNewViewMsg env x.1 x.2).2 he
    rw [taken_cons]
    by_cases htakes : n.Takes env x.2.viewNumber
    · rw [if_pos htakes]
      rcases hrest with h | h
      · rw [← hx] at h ⊢
        obtain h | rfl := (addNewViewMsg_result env n x.1 x.2).collected h
        · exact .inl h
        · exact .inr List.mem_cons_self
      · exact .inr (List.mem_cons_of_mem _ h)
    · rw [if_neg htakes]
      rw [addNewViewMsg_of_not_takes htakes] at hrest ⊢
      exact hrest

private theorem MayReturn.mem {env : NodeEnv} {n : Node} {cs : List (Int64 × NewView)} {x : Int64 × NewView}
    {m : NewView} {v : Int64} (h : (n.addAll env cs).MayReturn env x.1 x.2 m) (hempty : n.views.lookup v = none)
    (hv : ∀ y ∈ cs ++ [x], y.2.viewNumber = v) : ∃ id, (id, m) ∈ cs ++ [x] := by
  obtain ⟨-, order, hperm, hpick⟩ := h
  have hx : x.2.viewNumber = v := hv x (by simp)
  have hmem : m ∈ order := by
    cases order with
    | nil => cases hpick
    | cons a l =>
      obtain ⟨y, hy, heq⟩ := pickHigh_mem (List.cons_ne_nil a l)
      obtain rfl : m = y := Option.some.inj (hpick.symm.trans heq)
      exact hy
  rw [hperm.mem_iff, hx] at hmem
  obtain ⟨e, he, rfl⟩ := List.mem_map.1 hmem
  have hrun : ((n.addAll env cs).addNewViewMsg env x.1 x.2).2 = n.addAll env (cs ++ [x]) := by
    unfold addAll
    rw [Lib.run_append]
    rfl
  rw [hrun] at he
  obtain h | h := mem_of_collected hv n he
  · unfold collected at h
    rw [hempty] at h
    cases h
  · exact ⟨e.1, (taken_sublist n _).subset h⟩

private theorem mayReturn_of_eq {env : NodeEnv} {n : Node} {id : Int64} {newView m : NewView}
    (h : (n.addNewViewMsg env id newView).1 = some m) : n.MayReturn env id newView m := by
  refine ⟨by rw [h]; rfl, _, List.Perm.refl _, ?_⟩
  unfold addNewViewMsg at h ⊢
  cases hl : n.views.lookup newView.viewNumber with
  | some views =>
    rw [hl] at h
    dsimp only at h ⊢
    split at h
    · cases h
    · rename_i hfull
      rw [if_neg hfull]
      cases hid : views.lookup id with
      | some view =>
        rw [hid] at h
        dsimp only at h
        split at h <;> cases h
      | none =>
        rw [hid] at h
        dsimp only at h ⊢
        split at h
        · rename_i hlast
          rw [if_pos hlast, collected_insert, ← highView_eq_pickHigh]
          exact h
        · cases h
  | none =>
    rw [hl] at h
    dsimp only at h ⊢
    split at h
    · rename_i hone
      rw [if_pos hone, collected_insert]
      exact h
    · cases h

private theorem pickHigh_cons {m : NewView} {l : List NewView} (h : ∀ m' ∈ l, m'.viewNumber = m.viewNumber) :
    pickHigh (m :: l) = some m := by
  unfold pickHigh
  rw [List.foldl_cons]
  dsimp only
  induction l with
  | nil => rfl
  | cons m' l ih =>
    have hm' : ¬ m'.viewNumber > m.viewNumber := by
      rw [h m' List.mem_cons_self]
      exact Int64.lt_irrefl
    rw [List.foldl_cons]
    dsimp only
    rw [if_neg hm']
    exact ih fun x hx => h x (List.mem_cons_of_mem _ hx)

private theorem mayReturn_of_mem {env : NodeEnv} {n : Node} {id : Int64} {newView : NewView}
    (hsome : (n.addNewViewMsg env id newView).1.isSome)
    (hview : ∀ e ∈ ((n.addNewViewMsg env id newView).2.collected newView.viewNumber).entries,
      e.2.viewNumber = newView.viewNumber) {e : Sigma fun _ : Int64 => NewView}
    (he : e ∈ ((n.addNewViewMsg env id newView).2.collected newView.viewNumber).entries) :
    n.MayReturn env id newView e.2 := by
  have hmem := List.mem_map_of_mem (f := fun e => e.2) he
  refine ⟨hsome, e.2 :: _, (List.perm_cons_erase hmem).symm, pickHigh_cons fun m' hm' => ?_⟩
  obtain ⟨e', he', rfl⟩ := List.mem_map.1 (List.mem_of_mem_erase hm')
  rw [hview e he]
  exact hview e' he'

/-- Each sender of `calls` has an entry, with a certificate that is not above that of any of its messages. -/
private def Lowest (calls : List (Int64 × NewView)) (views : AList (fun _ : Int64 => NewView)) : Prop :=
  ∀ x ∈ calls, ∃ m, views.lookup x.1 = some m ∧ m.genericQc.viewNumber ≤ x.2.genericQc.viewNumber

private theorem lowest_add (id : Int64) {calls : List (Int64 × NewView)}
    (h : Lowest calls (n.collected newView.viewNumber)) (htakes : n.Takes env newView.viewNumber) :
    Lowest (calls ++ [(id, newView)]) ((n.addNewViewMsg env id newView).2.collected newView.viewNumber) := by
  have hinsert : ∀ {views : AList (fun _ : Int64 => NewView)}, Lowest calls views →
      (∀ m, views.lookup id = some m → newView.genericQc.viewNumber ≤ m.genericQc.viewNumber) →
      Lowest (calls ++ [(id, newView)]) (views.insert id newView) := by
    intro views hviews hlow x hx
    by_cases hid : x.1 = id
    · rw [hid, AList.lookup_insert]
      refine ⟨newView, rfl, ?_⟩
      rcases List.mem_append.1 hx with hx | hx
      · obtain ⟨m, hm, hle⟩ := hviews x hx
        exact Int64.le_trans (hlow m (hid ▸ hm)) hle
      · rw [List.mem_singleton.1 hx]
        exact Int64.le_refl _
    · rw [AList.lookup_insert_ne hid]
      rcases List.mem_append.1 hx with hx | hx
      · exact hviews x hx
      · exact absurd (congrArg Prod.fst (List.mem_singleton.1 hx)) hid
  unfold collected at h
  unfold addNewViewMsg
  cases hl : n.views.lookup newView.viewNumber with
  | none =>
    rw [hl] at h
    have hempty : Lowest (calls ++ [(id, newView)]) ((∅ : AList fun _ : Int64 => NewView).insert id newView) :=
      hinsert h (by simp)
    dsimp only
    split
    · rw [collected_insert]
      exact hempty
    · rw [collected_insert]
      exact hempty
  | some views =>
    have hnot : ¬ getQuorumSize env.replicas.metadata ≤ views.keys.length := by
      rcases htakes with hnone | hlt
      · rw [hl] at hnone
        cases hnone
      · rw [collected, hl] at hlt
        exact Int.not_le.2 hlt
    rw [hl] at h
    have hviews : Lowest calls views := h
    dsimp only
    rw [if_neg hnot]
    cases hid : views.lookup id with
    | none =>
      have hnew := hinsert hviews (by simp [hid])
      dsimp only
      split
      · rw [collected_insert]
        exact hnew
      · rw [collected_insert]
        exact hnew
    | some m =>
      dsimp only
      split
      · rename_i hgt
        rw [collected_insert]
        refine hinsert hviews fun m' hm' => ?_
        obtain rfl := Option.some.inj (hid.symm.trans hm')
        exact Int64.le_of_lt hgt
      · rename_i hle
        have hkept : n.collected newView.viewNumber = views := by
          rw [collected, hl]
          rfl
        rw [hkept]
        intro x hx
        rcases List.mem_append.1 hx with hx | hx
        · exact hviews x hx
        · rw [List.mem_singleton.1 hx]
          exact ⟨m, hid, Int64.not_lt.1 hle⟩

/-- The run lemma: the entry of a sender has the lowest certificate of its messages that were taken. -/
private theorem lowest_taken (env : NodeEnv) {before calls : List (Int64 × NewView)}
    (hv : ∀ x ∈ calls, x.2.viewNumber = v)
    (h : Lowest before (n.collected v)) : Lowest (before ++ n.taken env calls) ((n.addAll env calls).collected v) := by
  induction calls generalizing n before with
  | nil =>
    rw [taken, List.append_nil]
    exact h
  | cons x calls ih =>
    have hx := hv x List.mem_cons_self
    have hrest := fun y hy => hv y (List.mem_cons_of_mem x hy)
    rw [taken_cons]
    split
    · rename_i htakes
      subst hx
      have hnext := ih hrest (lowest_add x.1 h htakes)
      rw [List.append_assoc] at hnext
      exact hnext
    · rename_i hnot
      have hsame : (n.addNewViewMsg env x.1 x.2).2 = n := by rw [addNewViewMsg_of_not_takes hnot]
      have hnext := ih (n := (n.addNewViewMsg env x.1 x.2).2) hrest (by rwa [hsame])
      exact hnext

private theorem takes_of_isSome (h : (n.addNewViewMsg env id newView).1.isSome) : n.Takes env newView.viewNumber := by
  by_contra hnot
  rw [addNewViewMsg_of_not_takes hnot] at h
  cases h

end Taken

end Node

/-- When the new-view quorum yields the highest certificate.  Take a view for which nothing is recorded and any calls of
`addNewViewMsg` for it.  If the last one returns a message, it is one of those passed so far, and whatever the order in which
the loop meets them it has the highest certificate exactly if all messages passed so far carry certificates of one view
number.  The entry of a sender is one of its messages, and it is one with the highest certificate exactly if none of the
sender's messages that were taken before the quorum was complete has a lower certificate than another of its messages. -/
theorem new_view_highest (env : NodeEnv) (n : Node) (v : Int64) (hempty : n.views.lookup v = none)
    (calls : List (Int64 × NewView)) (hv : ∀ x ∈ calls, x.2.viewNumber = v) :
    (∀ x, x.2.viewNumber = v → ((n.addAll env calls).addNewViewMsg env x.1 x.2).1.isSome →
      (∀ m, (n.addAll env calls).MayReturn env x.1 x.2 m → ∃ id, (id, m) ∈ calls ++ [x]) ∧
      ((∀ m, (n.addAll env calls).MayReturn env x.1 x.2 m →
          ∀ y ∈ calls ++ [x], y.2.genericQc.viewNumber ≤ m.genericQc.viewNumber) ↔
        ∀ y ∈ calls ++ [x], ∀ z ∈ calls ++ [x], y.2.genericQc.viewNumber = z.2.genericQc.viewNumber)) ∧
    (∀ id m, ((n.addAll env calls).collected v).lookup id = some m →
      (id, m) ∈ calls ∧
      ((∀ y ∈ calls, y.1 = id → y.2.genericQc.viewNumber ≤ m.genericQc.viewNumber) ↔
        ∀ z ∈ n.taken env calls, z.1 = id →
          ∀ y ∈ calls, y.1 = id → y.2.genericQc.viewNumber ≤ z.2.genericQc.viewNumber)) := by
  have hnone : n.collected v = ∅ := by
    rw [Node.collected, hempty]
    rfl
  have hlowest : ∀ cs : List (Int64 × NewView), (∀ x ∈ cs, x.2.viewNumber = v) →
      Node.Lowest (n.taken env cs) ((n.addAll env cs).collected v) := by
    intro cs hcs
    have hstart : Node.Lowest [] (n.collected v) := fun x hx => by cases hx
    exact Node.lowest_taken env hcs hstart
  have hmem : ∀ {cs : List (Int64 × NewView)}, (∀ x ∈ cs, x.2.viewNumber = v) →
      ∀ {e : Sigma fun _ : Int64 => NewView}, e ∈ ((n.addAll env cs).collected v).entries →
        (e.1, e.2) ∈ n.taken env cs := by
    intro cs hcs e he
    refine (Node.mem_of_collected hcs n he).resolve_left fun h => ?_
    rw [hnone] at h
    cases h
  constructor
  · intro x hx hsome
    have hv' : ∀ y ∈ calls ++ [x], y.2.viewNumber = v := by
      intro y hy
      rcases List.mem_append.1 hy with hy | hy
      · exact hv y hy
      · rw [List.mem_singleton.1 hy]
        exact hx
    have hrun : ((n.addAll env calls).addNewViewMsg env x.1 x.2).2 = n.addAll env (calls ++ [x]) := by
      unfold Node.addAll
      rw [Lib.run_append]
      rfl
    have hentry : ∀ {e : Sigma fun _ : Int64 => NewView},
        e ∈ ((n.addAll env (calls ++ [x])).collected v).entries → (e.1, e.2) ∈ calls ++ [x] :=
      fun he => (Node.taken_sublist n _).subset (hmem hv' he)
    refine ⟨fun m hm => hm.mem hempty hv', fun h => ?_, fun hsame m hm y hy => ?_⟩
    · -- all calls have been taken, so each sender has an entry, which may be returned
      have htakes := Node.takes_of_isSome hsome
      have hall : n.taken env (calls ++ [x]) = calls ++ [x] := by
        have hlast : (n.addAll env calls).taken env [x] = [x] := if_pos htakes
        rw [hx] at htakes
        rw [Node.taken_append, hlast, (Node.taken_eq hv htakes).2]
      have hlow := hlowest (calls ++ [x]) hv'
      rw [hall, ← hrun, ← hx] at hlow
      rw [← hrun, ← hx] at hentry
      have hle : ∀ y ∈ calls ++ [x], ∀ z ∈ calls ++ [x], z.2.genericQc.viewNumber ≤ y.2.genericQc.viewNumber := by
        intro y hy z hz
        obtain ⟨m, hm, hmy⟩ := hlow y hy
        have hmay := Node.mayReturn_of_mem hsome (fun e he => by rw [hx]; exact hv' _ (hentry he)) (AList.mem_lookup_iff.1 hm)
        exact Int64.le_trans (h m hmay z hz) hmy
      exact fun y hy z hz => Int64.le_antisymm (hle z hz y hy) (hle y hy z hz)
    · obtain ⟨id, hid⟩ := hm.mem hempty hv'
      exact Int64.le_of_eq (hsame y hy (id, m) hid)
  · intro id m hm
    have htaken : (id, m) ∈ n.taken env calls := hmem hv (AList.mem_lookup_iff.1 hm)
    refine ⟨(Node.taken_sublist n calls).subset htaken, fun h z hz hzid y hy hyid => ?_,
      fun h y hy hyid => h (id, m) htaken rfl y hy hyid⟩
    obtain ⟨m', hm', hle⟩ := hlowest calls hv z hz
    rw [hzid, hm] at hm'
    obtain rfl := Option.some.inj hm'
    exact Int64.le_trans (h y hy hyid) hle

namespace Server

/-- A new-view message for view `v` with a certificate of view `q` for the genesis block. -/
def newViewMsg (v q : Int64) : NewView := ⟨v, { genesisQC with viewNumber := q }⟩

end Server

/-- Replica `1` sends twice, and all certificates are of view `5`. -/
theorem new_view_highest_server :
    (newNode.addAll (Server.netEnv.node 0) [(1, Server.newViewMsg 0 5), (1, Server.newViewMsg 0 5),
      (2, Server.newViewMsg 0 5)]).MayReturn (Server.netEnv.node 0) 3 (Server.newViewMsg 0 5) (Server.newViewMsg 0 5) ∧
    ∀ m, (newNode.addAll (Server.netEnv.node 0) [(1, Server.newViewMsg 0 5), (1, Server.newViewMsg 0 5),
        (2, Server.newViewMsg 0 5)]).MayReturn (Server.netEnv.node 0) 3 (Server.newViewMsg 0 5) m →
      (5 : Int64) ≤ m.genericQc.viewNumber := by
  refine ⟨Node.mayReturn_of_eq ?_, ?_⟩
  · decide +kernel
  · intro m hm
    have h := new_view_highest (Server.netEnv.node 0) newNode 0 rfl [(1, Server.newViewMsg 0 5),
      (1, Server.newViewMsg 0 5), (2, Server.newViewMsg 0 5)] (by decide +kernel)
    exact (h.1 (3, Server.newViewMsg 0 5) rfl hm.1).2.2 (by decide +kernel) m hm (3, Server.newViewMsg 0 5) (by simp)

/-- Three replicas send certificates of the views `5`, `3` and `4`: the message returned may be the one of view `3`.  And of
the two messages of replica `1`, with certificates of the views `5` and `3`, the second is kept. -/
theorem lower_certificate_returned :
    (newNode.addAll (Server.netEnv.node 0) [(1, Server.newViewMsg 0 5), (2, Server.newViewMsg 0 4)]).MayReturn
      (Server.netEnv.node 0) 3 (Server.newViewMsg 0 3) (Server.newViewMsg 0 3) ∧
    ((newNode.addAll (Server.netEnv.node 0) [(1, Server.newViewMsg 0 5), (1, Server.newViewMsg 0 3)]).collected 0).lookup
      1 = some (Server.newViewMsg 0 3) := by
  refine ⟨Node.mayReturn_of_eq ?_, ?_⟩
  · decide +kernel
  · decide +kernel

/-! ### `OnReceiveNewView` -/

namespace Node

/-- What the calls of `addNewViewMsg` return while the messages are delivered one after the other; `none` also stands for
a delivery without such a call. -/
def newViewResults (env : NodeEnv) : Node → List (Int64 × NewView) → List (Option NewView)
  | _, [] => []
  | n, x :: xs =>
    ((n.receiveCall x.1 x.2).bind fun c => (c.result env).1) :: newViewResults env (n.onReceiveNewView env x.1 x.2) xs

/-- The node behind the look-up of the certificate's block. -/
def looked (n : Node) (newView : NewView) : Node := { n with core := n.core.touch newView.genericQc.blockHash }

/-- A message for view `v` of which the replica needs nothing: it has the block and a certificate as high. -/
def Plain (n : Node) (v : Int64) (newView : NewView) : Prop :=
  newView.viewNumber = v ∧ newView.genericQc.viewNumber ≤ n.core.genericQC.viewNumber ∧
    (n.core.load newView.genericQc.blockHash).isSome

instance (n : Node) (v : Int64) (newView : NewView) : Decidable (n.Plain v newView) :=
  inferInstanceAs (Decidable (_ ∧ _ ∧ _))

private theorem Plain.receiveCall {n : Node} {newView : NewView} (h : n.Plain n.curView newView) (id : Int64) :
    n.receiveCall id newView = some ⟨n.looked newView, id, newView⟩ := by
  obtain ⟨hview, hqc, hblock⟩ := h
  have hnot : ¬ (newView.viewNumber < n.curView ∨ n.core.load newView.genericQc.blockHash = none) := by
    rintro (h | h)
    · rw [hview] at h
      exact Int64.lt_irrefl h
    · rw [h] at hblock
      cases hblock
  have hcall : ¬ (newView.genericQc.viewNumber > n.core.genericQC.viewNumber ∨ newView.viewNumber > n.curView) := by
    rintro (h | h)
    · exact Int64.not_le.2 h hqc
    · rw [hview] at h
      exact Int64.lt_irrefl h
  unfold Node.receiveCall processCall
  rw [if_neg hnot]
  exact if_neg hcall

private theorem processNewView_of_none {env : NodeEnv} {n : Node} {id : Int64} {newView : NewView}
    (hview : newView.viewNumber = n.curView) (hqc : newView.genericQc.viewNumber ≤ n.core.genericQC.viewNumber)
    (hres : (n.addNewViewMsg env id newView).1 = none) (block : Block) :
    n.processNewView env id newView block = (n.addNewViewMsg env id newView).2 := by
  have hnotNewer : ¬ newView.viewNumber > n.curView := by
    rw [hview]
    exact Int64.lt_irrefl
  unfold processNewView
  rw [if_neg (Int64.not_lt.2 hqc), if_neg hnotNewer]
  generalize n.addNewViewMsg env id newView = r at hres
  obtain ⟨high, n'⟩ := r
  cases hres
  rfl

private theorem Plain.onReceiveNewView {env : NodeEnv} {n : Node} {id : Int64} {newView : NewView}
    (h : n.Plain n.curView newView) (hres : ((n.looked newView).addNewViewMsg env id newView).1 = none) :
    n.onReceiveNewView env id newView = ((n.looked newView).addNewViewMsg env id newView).2 := by
  obtain ⟨hview, hqc, hblock⟩ := h
  obtain ⟨block, hblock⟩ := Option.isSome_iff_exists.1 hblock
  have hnotOlder : ¬ newView.viewNumber < n.curView := by
    rw [hview]
    exact Int64.lt_irrefl
  unfold Node.onReceiveNewView Core.loadBlock
  rw [if_neg hnotOlder, hblock]
  exact processNewView_of_none (n := n.looked newView) hview hqc hres block

/-- The step lemma: a plain message of a new sender is recorded, and returns a message exactly if it completes the quorum;
else nothing changes but the table. -/
private theorem Plain.recorded {env : NodeEnv} (hq : 1 ≤ getQuorumSize env.replicas.metadata) {n : Node} {id : Int64}
    {newView : NewView} (h : n.Plain n.curView newView) (hid : id ∉ n.senders n.curView)
    (hlt : ((n.senders n.curView).length : Int) < getQuorumSize env.replicas.metadata) :
    (((n.receiveCall id newView).bind fun c => (c.result env).1).isSome ↔
      (n.senders n.curView).length + 1 = getQuorumSize env.replicas.metadata) ∧
    ((n.senders n.curView).length + 1 ≠ getQuorumSize env.replicas.metadata →
      (n.onReceiveNewView env id newView).curView = n.curView ∧
      (n.onReceiveNewView env id newView).core = n.core.touch newView.genericQc.blockHash ∧
      (n.onReceiveNewView env id newView).senders n.curView = id :: n.senders n.curView) := by
  have r := addNewViewMsg_result env (n.looked newView) id newView
  obtain ⟨w, hframe⟩ := r.frame
  have hsenders := r.senders hq
  rw [h.1] at hsenders
  obtain ⟨-, -, -, hno⟩ | ⟨-, -, hadded, hsome⟩ := hsenders
  · rcases hno with hno | hno
    · exact absurd hno (Int.not_le.2 hlt)
    · exact absurd hno hid
  · rw [h.receiveCall id]
    refine ⟨hsome, fun hlast => ?_⟩
    have hnone : ((n.looked newView).addNewViewMsg env id newView).1 = none := by
      rw [← Option.not_isSome_iff_eq_none]
      exact fun hs => hlast (hsome.1 hs)
    rw [h.onReceiveNewView hnone]
    refine ⟨?_, ?_, hadded⟩
    · rw [hframe]
      rfl
    · rw [hframe]
      rfl

private theorem Plain.of_core {n n' : Node} {v : Int64} {newView : NewView} (h : n.Plain v newView) {hash : Bytes}
    (log : List (Bytes × Option Bytes)) (hcore : n'.core = { n.core.touch hash with signLog := log }) :
    n'.Plain v newView := by
  obtain ⟨hview, hqc, hblock⟩ := h
  rw [← (Core.quiet_touch n.core hash).load] at hblock
  unfold Plain
  rw [hcore]
  exact ⟨hview, hqc, hblock⟩

private theorem newViewResults_cons (env : NodeEnv) (n : Node) (x : Int64 × NewView) (msgs : List (Int64 × NewView)) :
    n.newViewResults env (x :: msgs) = ((n.receiveCall x.1 x.2).bind fun c => (c.result env).1) ::
      (n.onReceiveNewView env x.1 x.2).newViewResults env msgs := rfl

private theorem exists_newViewResult_iff {env : NodeEnv} (hq : 1 ≤ getQuorumSize env.replicas.metadata) {n : Node}
    {msgs : List (Int64 × NewView)} (hplain : ∀ x ∈ msgs, n.Plain n.curView x.2)
    (hnodup : (msgs.map fun x => x.1).Nodup) (hnew : ∀ x ∈ msgs, x.1 ∉ n.senders n.curView)
    (hlt : ((n.senders n.curView).length : Int) < getQuorumSize env.replicas.metadata)
    (hlen : ((n.senders n.curView).length + msgs.length : Int) ≤ getQuorumSize env.replicas.metadata) :
    (∃ m, some m ∈ n.newViewResults env msgs) ↔
      ((n.senders n.curView).length + msgs.length : Int) = getQuorumSize env.replicas.metadata := by
  induction msgs generalizing n with
  | nil =>
    constructor
    · rintro ⟨m, hm⟩
      cases hm
    · intro h
      rw [List.length_nil] at h
      omega
  | cons x msgs ih =>
    rw [List.length_cons] at hlen ⊢
    rw [List.map_cons, List.nodup_cons] at hnodup
    obtain ⟨hsome, hrest⟩ := (hplain x List.mem_cons_self).recorded hq (hnew x List.mem_cons_self) hlt
    rw [newViewResults_cons]
    by_cases hlast : ((n.senders n.curView).length : Int) + 1 = getQuorumSize env.replicas.metadata
    · -- the message is the last one
      obtain ⟨m, hm⟩ := Option.isSome_iff_exists.1 (hsome.2 hlast)
      rw [hm]
      push_cast at hlen ⊢
      exact ⟨fun _ => by omega, fun _ => ⟨m, List.mem_cons_self⟩⟩
    · have hnone : ((n.receiveCall x.1 x.2).bind fun c => (c.result env).1) = none := by
        rw [← Option.not_isSome_iff_eq_none]
        exact fun hs => hlast (hsome.1 hs)
      obtain ⟨hcur, hcore, hsenders⟩ := hrest hlast
      have hih := ih (n := n.onReceiveNewView env x.1 x.2) (fun y hy => by
          rw [hcur]
          exact (hplain y (List.mem_cons_of_mem _ hy)).of_core n.core.signLog hcore) hnodup.2 (by
          intro y hy hmem
          rw [hcur, hsenders, List.mem_cons] at hmem
          rcases hmem with hmem | hmem
          · exact hnodup.1 (List.mem_map.2 ⟨y, hy, hmem⟩)
          · exact hnew y (List.mem_cons_of_mem _ hy) hmem)
      rw [hcur, hsenders, List.length_cons] at hih
      push_cast at hih hlen ⊢
      rw [hnone]
      have hcons : (∃ m, some m ∈ none :: newViewResults env (n.onReceiveNewView env x.1 x.2) msgs) ↔
          ∃ m, some m ∈ newViewResults env (n.onReceiveNewView env x.1 x.2) msgs := by simp
      rw [hcons, hih (by omega) (by omega)]
      omega

private theorem exists_signLog_createSignedViewChange (env : NodeEnv) (n : Node) :
    ∃ log, (n.createSignedViewChange env).2 = { n with core := { n.core with signLog := log } } := by
  unfold createSignedViewChange
  split
  · exact ⟨_, rfl⟩
  · split <;> exact ⟨_, rfl⟩

private theorem processNewView_of_lt {env : NodeEnv} {n : Node} {id : Int64} {newView : NewView}
    (hqc : newView.genericQc.viewNumber ≤ n.core.genericQC.viewNumber) (hlt : n.curView < newView.viewNumber)
    (block : Block) :
    (n.processNewView env id newView block).curView = newView.viewNumber ∧
      (n.processNewView env id newView block).views = n.views ∧
      ∃ log, (n.processNewView env id newView block).core = { n.core with signLog := log } := by
  unfold processNewView
  rw [if_neg (Int64.not_lt.2 hqc), if_pos hlt]
  obtain ⟨log, hlog⟩ := exists_signLog_createSignedViewChange env { n.stopNewViewTimer with curView := newView.viewNumber }
  generalize createSignedViewChange env { n.stopNewViewTimer with curView := newView.viewNumber } = r at hlog
  obtain ⟨res, n'⟩ := r
  obtain rfl : n' = _ := hlog
  cases res with
  | error e => exact ⟨rfl, rfl, log, rfl⟩
  | ok msg => exact ⟨rfl, rfl, log, rfl⟩

/-- It spends the message on catching up: it is in the new view afterwards, and the message is not recorded. -/
private theorem Plain.behind (env : NodeEnv) {n : Node} {v : Int64} (id : Int64) {newView : NewView}
    (h : n.Plain v newView) (hlt : n.curView < v) :
    n.receiveCall id newView = none ∧ (n.onReceiveNewView env id newView).curView = v ∧
      (n.onReceiveNewView env id newView).views = n.views ∧
      ∃ log, (n.onReceiveNewView env id newView).core =
        { n.core.touch newView.genericQc.blockHash with signLog := log } := by
  obtain ⟨rfl, hqc, hblock⟩ := h
  obtain ⟨block, hblock⟩ := Option.isSome_iff_exists.1 hblock
  have hnotOlder : ¬ newView.viewNumber < n.curView := Int64.not_lt.2 (Int64.le_of_lt hlt)
  constructor
  · unfold Node.receiveCall processCall
    rw [if_neg (not_or.2 ⟨hnotOlder, by simp [hblock]⟩)]
    exact if_pos (Or.inr hlt)
  · unfold Node.onReceiveNewView Core.loadBlock
    rw [if_neg hnotOlder, hblock]
    exact processNewView_of_lt (n := n.looked newView) hqc hlt block

private theorem exists_newViewResult_iff_curView {env : NodeEnv} (hq : 1 ≤ getQuorumSize env.replicas.metadata)
    {n : Node}
    {v : Int64} (hempty : n.views.lookup v = none) {msgs : List (Int64 × NewView)} (hplain : ∀ x ∈ msgs, n.Plain v x.2)
    (hnodup : (msgs.map fun x => x.1).Nodup) (hlen : (msgs.length : Int) = getQuorumSize env.replicas.metadata)
    (hle : n.curView ≤ v) : (∃ m, some m ∈ n.newViewResults env msgs) ↔ n.curView = v := by
  have hnoSenders : ∀ {n' : Node}, n'.views = n.views → n'.senders v = [] := by
    intro n' h
    rw [Node.senders, h, hempty]
    rfl
  by_cases hcur : n.curView = v
  · subst hcur
    have hiff := exists_newViewResult_iff hq hplain hnodup (by simp [hnoSenders rfl]) (by simpa [hnoSenders rfl])
      (by simp [hnoSenders rfl, hlen])
    rw [hiff, hnoSenders rfl]
    simpa using hlen
  · have hlt : n.curView < v := Int64.lt_of_le_of_ne hle hcur
    cases msgs with
    | nil =>
      rw [← hlen] at hq
      exact absurd hq (by decide)
    | cons x msgs =>
      have hx := hplain x List.mem_cons_self
      obtain ⟨hcall, hview, hviews, log, hcore⟩ := hx.behind env x.1 hlt
      rw [List.length_cons] at hlen
      rw [List.map_cons, List.nodup_cons] at hnodup
      have hrest : ∀ y ∈ msgs, (n.onReceiveNewView env x.1 x.2).Plain (n.onReceiveNewView env x.1 x.2).curView y.2 := by
        intro y hy
        rw [hview]
        exact (hplain y (List.mem_cons_of_mem _ hy)).of_core log hcore
      have hiff := exists_newViewResult_iff hq hrest hnodup.2
        (by rw [hview, hnoSenders hviews]; simp) (by rw [hview, hnoSenders hviews]; simpa)
        (by rw [hview, hnoSenders hviews]; simp; omega)
      rw [hview, hnoSenders hviews] at hiff
      have hcons : (∃ m, some m ∈ n.newViewResults env (x :: msgs)) ↔
          ∃ m, some m ∈ newViewResults env (n.onReceiveNewView env x.1 x.2) msgs := by
        rw [newViewResults_cons, hcall]
        simp
      rw [hcons, hiff]
      simp only [List.length_nil, hcur, iff_false]
      push_cast at hlen ⊢
      omega

end Node

/-- When no new-view message is dropped.  `N - F` replicas send plain messages for a view of which none is recorded, and they
are delivered in any order, with nothing in between, to a replica that is in this view or in a lower one.  In one of the
deliveries `addNewViewMsg` returns a message exactly if the replica is in the view already when the first of them arrives;
and exactly then the outcome is that of a replica which is in the view from the start. -/
theorem messages_complete_quorum (env : NodeEnv) (hq : 1 ≤ getQuorumSize env.replicas.metadata) (n : Node) (v : Int64)
    (hempty : n.views.lookup v = none) (msgs : List (Int64 × NewView)) (hplain : ∀ x ∈ msgs, n.Plain v x.2)
    (hnodup : (msgs.map fun x => x.1).Nodup) (hlen : (msgs.length : Int) = getQuorumSize env.replicas.metadata)
    (hle : n.curView ≤ v) :
    ((∃ m, some m ∈ n.newViewResults env msgs) ↔ n.curView = v) ∧
    (((∃ m, some m ∈ n.newViewResults env msgs) ↔
      ∃ m, some m ∈ Node.newViewResults env { n with curView := v } msgs) ↔ n.curView = v) := by
  have hiff := Node.exists_newViewResult_iff_curView hq hempty hplain hnodup hlen hle
  have hthere : ∃ m, some m ∈ Node.newViewResults env { n with curView := v } msgs :=
    (Node.exists_newViewResult_iff_curView (n := { n with curView := v }) hq hempty hplain hnodup hlen
      (Int64.le_refl v)).2 rfl
  refine ⟨hiff, ?_⟩
  rw [hiff]
  exact iff_true_right hthere

/-- Replica `1` starts in view `0` and gets the messages of three replicas: for view `0` they complete the quorum, for view
`1` they do not. -/
theorem messages_complete_quorum_server :
    (∃ m, some m ∈ newNode.newViewResults (Server.netEnv.node 1) [(3, ⟨0, genesisQC⟩), (0, ⟨0, genesisQC⟩),
      (2, ⟨0, genesisQC⟩)]) ∧
    ¬ ∃ m, some m ∈ newNode.newViewResults (Server.netEnv.node 1) [(3, ⟨1, genesisQC⟩), (0, ⟨1, genesisQC⟩),
      (2, ⟨1, genesisQC⟩)] := by
  constructor
  · exact (messages_complete_quorum (Server.netEnv.node 1) (by decide) newNode 0 rfl _ (by decide +kernel) (by decide)
      (by decide) (by decide)).1.2 rfl
  · intro h
    have hview := (messages_complete_quorum (Server.netEnv.node 1) (by decide) newNode 1 rfl _ (by decide +kernel)
      (by decide) (by decide) (by decide)).1.1 h
    exact absurd hview (by decide)

/-- The same three replicas send for view `1`, while replica `1` is still in view `0`: the first message only takes it to
view `1`, the other two are recorded, and no quorum is reached; a replica in view `1` reaches it with the third. -/
theorem first_message_dropped :
    newNode.curView = 0 ∧
    (newNode.newViewResults (Server.netEnv.node 1) [(3, ⟨1, genesisQC⟩), (0, ⟨1, genesisQC⟩), (2, ⟨1, genesisQC⟩)]).map
      Option.isSome = [false, false, false] ∧
    (Node.newViewResults (Server.netEnv.node 1) { newNode with curView := 1 }
      [(3, ⟨1, genesisQC⟩), (0, ⟨1, genesisQC⟩), (2, ⟨1, genesisQC⟩)]).map Option.isSome = [false, false, true] := by
  decide +kernel

end GoHotstuff
