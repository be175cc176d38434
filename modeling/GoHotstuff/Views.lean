import Mathlib.Data.Finset.Card
import GoHotstuff.NodeStep
import GoHotstuff.Network

/-!
# View numbers and new-view messages

`curView` is stored in eight places: guarded by a comparison with the number of a message, or incremented.  One action
takes it to the larger of `curView` and the view number at hand, plus at most `N` increments (`step_turn`); so it
never decreases, and the leaders computed from it are replicas, as long as the increments do not overflow
(`view_monotone`).  After one message with the largest number the next timeout makes them overflow (`view_wraps`).

`addNewViewMsg` files a new-view message under its view number, which at that moment is `curView` itself.  What
`clearViews` discards is behind `curView` for good, so a view collects its messages only once (`new_view_quorum`).
-/

namespace GoHotstuff

open Lib (Bytes run StepsMeet)

namespace Node

/-! ### What leaves the view and the collected messages alone -/

@[simp]
theorem curView_withCore (n : Node) (core : Core) : (n.withCore core).curView = n.curView := rfl

private theorem createSignedViewChange_frame (env : NodeEnv) (n : Node) :
    (n.createSignedViewChange env).2.curView = n.curView ∧ (n.createSignedViewChange env).2.views = n.views := by
  unfold createSignedViewChange
  split
  · exact ⟨rfl, rfl⟩
  · split <;> exact ⟨rfl, rfl⟩

private theorem handOver_frame (env : NodeEnv) (n : Node) (viewNumber : Int64) (vote : Vote) :
    (n.handOver env viewNumber vote).curView = n.curView ∧ (n.handOver env viewNumber vote).views = n.views := by
  unfold handOver
  dsimp only
  split <;> exact ⟨rfl, rfl⟩

private theorem views_updateQcHigh (n : Node) (viewNumber : Int64) : (n.updateQcHigh viewNumber).views = n.views := by
  unfold updateQcHigh
  split <;> rfl

/-! ### The table of new-view messages -/

/-- A message is kept under the view number it carries. -/
def Filed (n : Node) : Prop := ∀ v m, n.views.lookup v = some m → ∀ e ∈ m.entries, e.2.viewNumber = v

/-- The replicas whose messages for view `v` are kept. -/
def senders (n : Node) (v : Int64) : List Int64 := ((n.views.lookup v).map fun m => m.keys).getD []

private theorem senders_nodup (n : Node) (v : Int64) : (n.senders v).Nodup := by
  unfold senders
  cases n.views.lookup v with
  | none => exact List.nodup_nil
  | some m => exact m.keys_nodup

/-- The loop that picks `highView`, on the messages in the order in which the map hands them out. -/
def pickHigh (vs : List NewView) : Option NewView :=
  vs.foldl (fun high v =>
    match high with
    | none => some v
    | some h => if v.viewNumber > h.viewNumber then some v else some h) none

theorem highView_eq_pickHigh (m : AList (fun _ : Int64 => NewView)) :
    highView m = pickHigh (m.entries.map fun e => e.2) := by
  unfold highView pickHigh
  refine Eq.trans ?_ List.foldl_map.symm
  rfl

/-- The loop picks one of the messages, whatever their order. -/
theorem pickHigh_mem {vs : List NewView} (hvs : vs ≠ []) : ∃ v ∈ vs, pickHigh vs = some v := by
  -- started with a message `h`, the loop picks `h` or a later one
  have hloop : ∀ (l : List NewView) (h : NewView), ∃ v ∈ h :: l, l.foldl (fun high v =>
      match high with
      | none => some v
      | some h => if v.viewNumber > h.viewNumber then some v else some h) (some h) = some v := by
    intro l
    induction l with
    | nil =>
      intro h
      exact ⟨h, by simp, rfl⟩
    | cons a l ih =>
      intro h
      rw [List.foldl_cons]
      dsimp only
      split
      · obtain ⟨v, hv, heq⟩ := ih a
        exact ⟨v, List.mem_cons_of_mem _ hv, heq⟩
      · obtain ⟨v, hv, heq⟩ := ih h
        refine ⟨v, ?_, heq⟩
        simp only [List.mem_cons] at hv ⊢
        rcases hv with rfl | hv
        · exact .inl rfl
        · exact .inr (.inr hv)
  cases vs with
  | nil => exact absurd rfl hvs
  | cons a l => exact hloop l a

private theorem highView_mem {m : AList (fun _ : Int64 => NewView)} (hm : m.entries ≠ []) :
    ∃ e ∈ m.entries, highView m = some e.2 := by
  obtain ⟨v, hv, heq⟩ := pickHigh_mem fun h => hm (List.map_eq_nil_iff.1 h)
  obtain ⟨e, he, rfl⟩ := List.mem_map.1 hv
  exact ⟨e, he, (highView_eq_pickHigh m).trans heq⟩

/-- What `addNewViewMsg` does to the table: the message is dropped or replaces one of the same sender, or its sender is
new and the quorum not yet complete. -/
inductive AddResult (env : NodeEnv) (n : Node) (id : Int64) (newView : NewView) : Option NewView → Node → Prop
  | dropped (h : getQuorumSize env.replicas.metadata ≤ (n.senders newView.viewNumber).length ∨
      id ∈ n.senders newView.viewNumber) : AddResult env n id newView none n
  | replaced {m : AList (fun _ : Int64 => NewView)} (hm : n.views.lookup newView.viewNumber = some m) (hid : id ∈ m) :
      AddResult env n id newView none { n with views := n.views.insert newView.viewNumber (m.insert id newView) }
  | added {m : AList (fun _ : Int64 => NewView)} {high : Option NewView}
      (hm : (n.views.lookup newView.viewNumber).getD ∅ = m) (hid : id ∉ m)
      (hq : (m.keys.length : Int) < getQuorumSize env.replicas.metadata ∨ m = ∅)
      (hhigh : (m.keys.length + 1 = getQuorumSize env.replicas.metadata ∧
          ∃ e ∈ (m.insert id newView).entries, high = some e.2) ∨
        (m.keys.length + 1 ≠ getQuorumSize env.replicas.metadata ∧ high = none)) :
      AddResult env n id newView high { n with views := n.views.insert newView.viewNumber (m.insert id newView) }

/-- `addNewViewMsg` writes the table only. -/
theorem AddResult.frame {env : NodeEnv} {n n' : Node} {id : Int64} {newView : NewView} {high : Option NewView}
    (r : AddResult env n id newView high n') : ∃ w, n' = { n with views := w } := by
  cases r with
  | dropped h => exact ⟨n.views, rfl⟩
  | replaced hm hid => exact ⟨_, rfl⟩
  | added hm hid hq hhigh => exact ⟨_, rfl⟩

private theorem length_keys_insert {m : AList (fun _ : Int64 => NewView)} {id : Int64} (hid : id ∉ m)
    (newView : NewView) :
    (m.insert id newView).keys.length = m.keys.length + 1 := by
  rw [AList.keys_insert, List.length_cons, List.erase_of_not_mem (fun h => hid (AList.mem_keys.2 h))]

theorem addNewViewMsg_result (env : NodeEnv) (n : Node) (id : Int64) (newView : NewView) :
    AddResult env n id newView (n.addNewViewMsg env id newView).1 (n.addNewViewMsg env id newView).2 := by
  unfold addNewViewMsg
  cases hv : n.views.lookup newView.viewNumber with
  | some m =>
    have hsenders : n.senders newView.viewNumber = m.keys := by rw [senders, hv]; rfl
    dsimp only
    by_cases hfull : getQuorumSize env.replicas.metadata ≤ m.keys.length
    · rw [if_pos hfull]
      exact .dropped (Or.inl (by rwa [hsenders]))
    rw [if_neg hfull]
    cases hid : m.lookup id with
    | some view =>
      have hmem : id ∈ m := by rw [← AList.lookup_isSome, hid]; rfl
      dsimp only
      split
      · exact .replaced hv hmem
      · exact .dropped (Or.inr (by rw [hsenders]; exact AList.mem_keys.1 hmem))
    | none =>
      have hmem : id ∉ m := AList.lookup_eq_none.1 hid
      have hlen := length_keys_insert hmem newView
      have hres : ∀ high, ((m.keys.length + 1 = getQuorumSize env.replicas.metadata ∧
          ∃ e ∈ (m.insert id newView).entries, high = some e.2) ∨
          (m.keys.length + 1 ≠ getQuorumSize env.replicas.metadata ∧ high = none)) →
          AddResult env n id newView high
            { n with views := n.views.insert newView.viewNumber (m.insert id newView) } :=
        fun high h => .added (by rw [hv]; rfl) hmem (Or.inl (by omega)) h
      dsimp only
      by_cases hlast : ((m.insert id newView).keys.length : Int) = getQuorumSize env.replicas.metadata
      · rw [if_pos hlast]
        refine hres _ (Or.inl ⟨by omega, highView_mem fun hnil => ?_⟩)
        have : (m.insert id newView).keys.length = 0 := by rw [AList.keys, hnil]; rfl
        omega
      · rw [if_neg hlast]
        exact hres _ (Or.inr ⟨by omega, rfl⟩)
  | none =>
    have hres : ∀ high, (((∅ : AList fun _ : Int64 => NewView).keys.length + 1 =
        getQuorumSize env.replicas.metadata ∧
          ∃ e ∈ ((∅ : AList fun _ : Int64 => NewView).insert id newView).entries, high = some e.2) ∨
        ((∅ : AList fun _ : Int64 => NewView).keys.length + 1 ≠ getQuorumSize env.replicas.metadata ∧ high = none)) →
        AddResult env n id newView high
          { n with views := n.views.insert newView.viewNumber ((∅ : AList fun _ : Int64 => NewView).insert id newView) } :=
      fun high h => .added (by rw [hv]; rfl) (AList.notMem_empty id) (Or.inr rfl) h
    rw [AList.insert_empty] at hres
    dsimp only
    by_cases hlast : 1 = getQuorumSize env.replicas.metadata
    · rw [if_pos hlast]
      exact hres _ (Or.inl ⟨by simpa using hlast, ⟨id, newView⟩, by simp, rfl⟩)
    · rw [if_neg hlast]
      exact hres _ (Or.inr ⟨by simpa using hlast, rfl⟩)

/-- The messages under a view number, after one of that number has been put there, still carry it. -/
private theorem Filed.insert {n : Node} (h : n.Filed) {id : Int64} {newView : NewView}
    {m : AList (fun _ : Int64 => NewView)} (hm : (n.views.lookup newView.viewNumber).getD ∅ = m) :
    ∀ e ∈ (m.insert id newView).entries, e.2.viewNumber = newView.viewNumber := by
  intro e he
  rw [AList.entries_insert, List.mem_cons] at he
  rcases he with rfl | he
  · rfl
  · have he' : e ∈ m.entries := (List.kerase_sublist _ _).subset he
    cases hv : n.views.lookup newView.viewNumber with
    | none =>
      rw [hv] at hm
      subst hm
      cases he'
    | some m' =>
      rw [hv] at hm
      subst hm
      exact h _ _ hv e he'

theorem AddResult.filed {env : NodeEnv} {n n' : Node} {id : Int64} {newView : NewView} {high : Option NewView}
    (r : AddResult env n id newView high n') (h : n.Filed) :
    n'.Filed ∧ ∀ nv ∈ high, nv.viewNumber = newView.viewNumber := by
  have hins : ∀ m, (n.views.lookup newView.viewNumber).getD ∅ = m →
      Filed { n with views := n.views.insert newView.viewNumber (m.insert id newView) } := by
    intro m hm v m' hl
    dsimp only at hl
    by_cases hv : v = newView.viewNumber
    · subst hv
      rw [AList.lookup_insert] at hl
      obtain rfl := Option.some.inj hl
      exact h.insert hm
    · rw [AList.lookup_insert_ne hv] at hl
      exact h v m' hl
  cases r with
  | dropped hd => exact ⟨h, nofun⟩
  | @replaced m hm hid => exact ⟨hins m (by rw [hm]; rfl), nofun⟩
  | @added m _ hm hid hq hhigh =>
    refine ⟨hins m hm, fun nv hnv => ?_⟩
    rcases hhigh with ⟨-, e, he, rfl⟩ | ⟨-, rfl⟩
    · obtain rfl := Option.some.inj hnv
      exact h.insert hm e he
    · cases hnv

/-- `clearViews` discards the views behind the current one. -/
private theorem lookup_clearViews (n : Node) (v : Int64) :
    n.clearViews.views.lookup v = if v < n.curView then none else n.views.lookup v := by
  have hfold : ∀ (l : List Int64) (w : AList fun _ : Int64 => AList fun _ : Int64 => NewView),
      (l.foldl (fun vs k => if k < n.curView then vs.erase k else vs) w).lookup v =
        if v ∈ l ∧ v < n.curView then none else w.lookup v := by
    intro l
    induction l with
    | nil => intro w; simp
    | cons k l ih =>
      intro w
      rw [List.foldl_cons, ih]
      by_cases hk : v = k
      · subst hk
        by_cases hlt : v < n.curView
        · simp [hlt]
        · simp [hlt]
      · by_cases hlt : k < n.curView
        · simp [hlt, hk, AList.lookup_erase_ne hk]
        · simp [hlt, hk]
  show (n.views.keys.foldl _ n.views).lookup v = _
  rw [hfold]
  by_cases hlt : v < n.curView
  · by_cases hmem : v ∈ n.views.keys
    · simp [hlt, hmem]
    · have hnone : n.views.lookup v = none := AList.lookup_eq_none.2 fun h => hmem (AList.mem_keys.1 h)
      simp [hmem, hnone]
  · simp [hlt]

/-! ### The calls of `addNewViewMsg` -/

/-- A call of `addNewViewMsg`: the state in which it is made and its arguments. -/
structure NewViewCall where
  node : Node
  id : Int64
  newView : NewView

/-- What the call returns, and the state after it. -/
def NewViewCall.result (env : NodeEnv) (c : NewViewCall) : Option NewView × Node :=
  c.node.addNewViewMsg env c.id c.newView

/-- The call made by `OnReceiveNewView` behind the look-up of the block. -/
def processCall (n : Node) (id : Int64) (newView : NewView) : Option NewViewCall :=
  if newView.genericQc.viewNumber > n.core.genericQC.viewNumber ∨ newView.viewNumber > n.curView then none
  else some ⟨n, id, newView⟩

/-- The call made by `OnReceiveNewView`. -/
def receiveCall (n : Node) (id : Int64) (newView : NewView) : Option NewViewCall :=
  if newView.viewNumber < n.curView ∨ n.core.load newView.genericQc.blockHash = none then none
  else processCall { n with core := n.core.touch newView.genericQc.blockHash } id newView

/-- The call made by `OnNextSyncView`. -/
def syncCall (env : NodeEnv) (conn : Nat → Int64 → Bool) : Nat → Node → Option NewViewCall
  | 0, _ => none
  | k + 1, n =>
    let leader := getLeader env n.curView
    let n := { n with curView := n.curView + 1 }
    if leader ≠ env.id then if ¬ conn k leader then syncCall env conn k n else none
    else if n.submitC.length > 0 then n.receiveCall env.id ⟨n.curView, n.core.genericQC⟩ else none

/-- The call made by a goroutine. -/
def taskCall (env : NodeEnv) (conn : Nat → Int64 → Bool) (n : Node) : Task → Option NewViewCall
  | .event (.receiveNewView id newView) => n.receiveCall id newView
  | .nextSync => syncCall env conn (depth env) n
  | _ => none

/-- The call made by an action. -/
def newViewCall (env : NodeEnv) (n : Node) (a : Action) : Option NewViewCall :=
  if n.core.crashed then none
  else
    match a with
    | .task i conn _ =>
      match n.tasks[i]? with
      | some t => taskCall env conn { n with tasks := n.tasks.eraseIdx i } t
      | none => none
    | .resumeNewView i =>
      match n.nvWoken[i]? with
      | some (id, newView) =>
        if n.core.load newView.genericQc.blockHash = none then none
        else processCall { n with nvWoken := n.nvWoken.eraseIdx i, core := n.core.touch newView.genericQc.blockHash }
          id newView
      | none => none
    | _ => none

/-! ### One action -/

/-- From view `v` to view `v'`: to a larger number that is at hand, or not, and at most `k` views on. -/
def Climb (V : Int64 → Prop) (k : Nat) (v v' : Int64) : Prop :=
  ∃ c j, (c = v ∨ (V c ∧ v < c)) ∧ j ≤ k ∧ v' = c + Int64.ofNat j

/-- From table `w` to table `w'`: only views behind `cur` have been discarded. -/
def Keeps (cur : Int64) (w w' : AList fun _ : Int64 => AList fun _ : Int64 => NewView) : Prop :=
  ∀ v, w'.lookup v = w.lookup v ∨ (w'.lookup v = none ∧ v < cur)

/-- The table `w'` in view `cur'` comes from `w` by the given call, if any. -/
inductive Recorded (env : NodeEnv) (w : AList fun _ : Int64 => AList fun _ : Int64 => NewView) (cur' : Int64)
    (w' : AList fun _ : Int64 => AList fun _ : Int64 => NewView) : Option NewViewCall → Prop
  | idle (h : Keeps cur' w w') : Recorded env w cur' w' none
  | call {c : NewViewCall} (hviews : c.node.views = w) (hcur : cur' = c.node.curView)
      (h : Keeps cur' (c.result env).2.views w') : Recorded env w cur' w' (some c)

/-- What a method does to the view and the table. -/
def Turn (env : NodeEnv) (V : Int64 → Prop) (k : Nat) (n n' : Node) (call : Option NewViewCall) : Prop :=
  Climb V k n.curView n'.curView ∧ Recorded env n.views n'.curView n'.views call

private theorem Climb.refl (V : Int64 → Prop) (k : Nat) (v : Int64) : Climb V k v v :=
  ⟨v, 0, Or.inl rfl, Nat.zero_le k, (Int64.add_zero v).symm⟩

private theorem Climb.raise {V : Int64 → Prop} (k : Nat) {v v' : Int64} (hV : V v') (h : v < v') : Climb V k v v' :=
  ⟨v', 0, Or.inr ⟨hV, h⟩, Nat.zero_le k, (Int64.add_zero v').symm⟩

private theorem curView_updateQcHigh_cases (n : Node) (viewNumber : Int64) :
    (n.updateQcHigh viewNumber).curView = n.curView ∨
      ((n.updateQcHigh viewNumber).curView = viewNumber ∧ n.curView < (n.updateQcHigh viewNumber).curView) := by
  unfold updateQcHigh
  split
  · rename_i hlt
    exact Or.inr ⟨rfl, hlt⟩
  · exact Or.inl rfl

private theorem climb_updateQcHigh {V : Int64 → Prop} {k : Nat} (n : Node) {viewNumber : Int64} (h : V viewNumber) :
    Climb V k n.curView (n.updateQcHigh viewNumber).curView := by
  rcases curView_updateQcHigh_cases n viewNumber with hcur | ⟨hcur, hlt⟩
  · rw [hcur]
    exact .refl V k _
  · rw [hcur] at hlt ⊢
    exact .raise k h hlt

private theorem Climb.mono {V W : Int64 → Prop} {k k' : Nat} {v v' : Int64} (h : Climb V k v v') (hV : ∀ v, V v → W v)
    (hk : k ≤ k') : Climb W k' v v' := by
  obtain ⟨c, j, hc, hj, hcur⟩ := h
  exact ⟨c, j, hc.imp_right fun hc => ⟨hV c hc.1, hc.2⟩, by omega, hcur⟩

/-- A climb on top of an increment. -/
private theorem Climb.of_succ {V : Int64 → Prop} {k : Nat} {v c v' : Int64} (hc : c = v ∨ (V c ∧ v < c))
    (h : Climb (fun x => x = c + 1) k (c + 1) v') : Climb V (k + 1) v v' := by
  obtain ⟨c', j, hc', hj, hcur⟩ := h
  have hc' : c' = c + 1 := by
    rcases hc' with rfl | ⟨rfl, -⟩ <;> rfl
  refine ⟨c, j + 1, hc, by omega, ?_⟩
  rw [hcur, hc', Int64.ofNat_add, Int64.add_assoc, Int64.add_comm (Int64.ofNat j)]
  rfl

private theorem Climb.succ (V : Int64 → Prop) (k : Nat) (v : Int64) : Climb V (k + 1) v (v + 1) :=
  .of_succ (Or.inl rfl) (.refl _ k _)

private theorem Keeps.refl (cur : Int64) (w : AList fun _ : Int64 => AList fun _ : Int64 => NewView) : Keeps cur w w :=
  fun _ => Or.inl rfl

theorem Keeps.clearViews {w : AList fun _ : Int64 => AList fun _ : Int64 => NewView} {n : Node}
    (h : Keeps n.curView w n.views) : Keeps n.curView w n.clearViews.views := by
  intro v
  rw [lookup_clearViews]
  by_cases hlt : v < n.curView
  · exact Or.inr ⟨if_pos hlt, hlt⟩
  · rw [if_neg hlt]
    exact Or.inl ((h v).resolve_right fun h => hlt h.2)

section Methods

variable {env : NodeEnv} {V : Int64 → Prop} {k : Nat}

private theorem Turn.refl (env : NodeEnv) (V : Int64 → Prop) (k : Nat) (n : Node) : Turn env V k n n none :=
  ⟨.refl V k _, .idle (.refl _ _)⟩

/-- A method without a call. -/
private theorem turn_of_climb {n n' : Node} (h : Climb V k n.curView n'.curView) (hviews : n'.views = n.views) :
    Turn env V k n n' none := by
  refine ⟨h, .idle ?_⟩
  rw [hviews]
  exact .refl _ _

theorem Turn.clearViews {n n' : Node} {call : Option NewViewCall} (h : Turn env V k n n' call) :
    Turn env V k n n'.clearViews call := by
  obtain ⟨hclimb, hrec⟩ := h
  refine ⟨hclimb, ?_⟩
  cases hrec with
  | idle h => exact .idle h.clearViews
  | call hviews hcur h => exact .call hviews hcur h.clearViews

private theorem processNewView_turn {n : Node} (hfiled : n.Filed) {id : Int64} {newView : NewView}
    (hV : V newView.viewNumber)
    (block : Block) : Turn env V k n (n.processNewView env id newView block) (n.processCall id newView) := by
  unfold processNewView processCall
  by_cases hhigh : newView.genericQc.viewNumber > n.core.genericQC.viewNumber
  · rw [if_pos hhigh, if_pos (Or.inl hhigh)]
    have hturn : Turn env V k n
        ((n.withCore (n.core.updateHighestQC env.toEnv block newView.genericQc none)).updateQcHigh newView.viewNumber)
        none := turn_of_climb (climb_updateQcHigh (n.withCore _) hV) (views_updateQcHigh _ _)
    dsimp only
    split <;> exact hturn
  rw [if_neg hhigh]
  by_cases hview : newView.viewNumber > n.curView
  · rw [if_pos hview, if_pos (Or.inr hview)]
    obtain ⟨hcur, hviews⟩ :=
      createSignedViewChange_frame env { n.stopNewViewTimer with curView := newView.viewNumber }
    have hturn : Turn env V k n
        (createSignedViewChange env { n.stopNewViewTimer with curView := newView.viewNumber }).2 none := by
      refine turn_of_climb ?_ hviews
      rw [hcur]
      exact .raise k hV hview
    split
    · rename_i heq
      rw [heq] at hturn
      exact hturn
    · rename_i heq
      rw [heq] at hturn
      exact hturn
  · rw [if_neg hview, if_neg (not_or.2 ⟨hhigh, hview⟩)]
    -- the message that comes back has the number of the one that was added, so the view stays
    have hres := addNewViewMsg_result env n id newView
    obtain ⟨-, hhighView⟩ := hres.filed hfiled
    obtain ⟨views, hn⟩ := addNewViewMsg_snd env n id newView
    have hcall : Turn env V k n (n.addNewViewMsg env id newView).2 (some ⟨n, id, newView⟩) := by
      have hcur : (n.addNewViewMsg env id newView).2.curView = n.curView := by rw [hn]
      refine ⟨?_, .call rfl hcur (.refl _ _)⟩
      rw [hcur]
      exact .refl V k _
    split
    · rename_i heq
      rw [heq] at hcall
      exact hcall
    · rename_i high n' heq
      rw [heq] at hcall hhighView hn
      have hhigh' : high.viewNumber = newView.viewNumber := hhighView high rfl
      have hsame : (n'.withCore (n'.core.updateHighestQC env.toEnv block newView.genericQc none)).updateQcHigh
          high.viewNumber = n'.withCore (n'.core.updateHighestQC env.toEnv block newView.genericQc none) := by
        have hcur : n'.curView = n.curView := by rw [show n' = _ from hn]
        unfold updateQcHigh
        rw [if_neg]
        rw [hhigh', curView_withCore, hcur]
        exact hview
      dsimp only
      rw [hsame]
      split <;> exact hcall

private theorem onReceiveNewView_turn {n : Node} (hfiled : n.Filed) (id : Int64) {newView : NewView}
    (hV : V newView.viewNumber) : Turn env V k n (n.onReceiveNewView env id newView) (n.receiveCall id newView) := by
  unfold onReceiveNewView receiveCall
  by_cases hstale : newView.viewNumber < n.curView
  · rw [if_pos hstale, if_pos (Or.inl hstale)]
    exact .refl env V k n
  rw [if_neg hstale]
  simp only [Core.loadBlock]
  cases hl : n.core.load newView.genericQc.blockHash with
  | none =>
    rw [if_pos (Or.inr rfl)]
    exact .refl env V k n
  | some block =>
    rw [if_neg (not_or.2 ⟨hstale, Option.some_ne_none block⟩)]
    exact processNewView_turn (n := { n with core := n.core.touch newView.genericQc.blockHash }) hfiled hV block

/-- At the end of the recursion the replica is in the view it sends its own message for. -/
private theorem onNextSyncView_turn {n : Node} (hfiled : n.Filed) (conn : Nat → Int64 → Bool) (k : Nat) :
    Turn env (fun _ => False) k n (onNextSyncView env conn k n) (syncCall env conn k n) := by
  induction k generalizing n with
  | zero => exact .refl env _ 0 n
  | succ k ih =>
    unfold onNextSyncView syncCall
    dsimp only
    have hsucc : ∀ {n' : Node} {call : Option NewViewCall},
        Turn env (fun x => x = n.curView + 1) k { n with curView := n.curView + 1 } n' call →
          Turn env (fun _ => False) (k + 1) n n' call :=
      fun h => ⟨.of_succ (Or.inl rfl) h.1, h.2⟩
    by_cases hleader : getLeader env n.curView = env.id
    · rw [if_neg (not_not.2 hleader), if_neg (not_not.2 hleader)]
      by_cases hcmd : n.submitC.length > 0
      · rw [if_pos hcmd, if_pos hcmd]
        have hturn : Turn env (fun x => x = n.curView + 1) k { n with curView := n.curView + 1 }
            (onReceiveNewView env { n with curView := n.curView + 1 } env.id ⟨n.curView + 1, n.core.genericQC⟩)
            (receiveCall { n with curView := n.curView + 1 } env.id ⟨n.curView + 1, n.core.genericQC⟩) :=
          onReceiveNewView_turn (n := { n with curView := n.curView + 1 }) (V := fun x => x = n.curView + 1) hfiled
            env.id rfl
        exact hsucc hturn.clearViews
      · rw [if_neg hcmd, if_neg hcmd]
        exact hsucc (Turn.refl env _ k { n with curView := n.curView + 1 }).clearViews
    · rw [if_pos hleader, if_pos hleader]
      by_cases hconn : conn k (getLeader env n.curView) = true
      · rw [if_neg (not_not.2 hconn), if_neg (not_not.2 hconn)]
        obtain ⟨hcur, hviews⟩ :=
          createSignedViewChange_frame env (startNewViewTimer { n with curView := n.curView + 1 })
        have hturn : Turn env (fun x => x = n.curView + 1) k { n with curView := n.curView + 1 }
            (createSignedViewChange env (startNewViewTimer { n with curView := n.curView + 1 })).2 none := by
          refine turn_of_climb ?_ hviews
          rw [hcur]
          exact .refl _ k _
        split
        · rename_i heq
          rw [heq] at hturn
          exact hsucc hturn
        · rename_i viewMsg n' heq
          rw [heq] at hturn
          have hturn : Turn env (fun x => x = n.curView + 1) k { n with curView := n.curView + 1 }
              (n'.unicast viewMsg (getLeader env n.curView)) none := hturn
          exact hsucc hturn.clearViews
      · rw [if_pos hconn, if_pos hconn]
        obtain ⟨hclimb, hrec⟩ := ih (n := { n with curView := n.curView + 1 }) hfiled
        exact hsucc ⟨hclimb.mono (fun _ h => h.elim) (Nat.le_refl k), hrec⟩

private theorem onReceiveProposal_turn (conn : Nat → Int64 → Bool) (k : Nat) (n : Node) (viewNumber : Int64)
    (vote : Vote) :
    Turn env (fun x => x = viewNumber) k n (onReceiveProposal env conn k n viewNumber vote).2 none := by
  induction k generalizing n viewNumber with
  | zero => exact .refl env _ 0 n
  | succ k ih =>
    have hup := curView_updateQcHigh_cases n viewNumber
    have hend : ∀ r : Int64 × Node, Turn env (fun x => x = viewNumber) (k + 1) n r.2 none →
        Turn env (fun x => x = viewNumber) (k + 1) n
          (if r.2.core.crashed then (r.1, r.2) else (r.1, r.2.handOver env r.1 vote)).2 none := by
      intro r hr
      split
      · exact hr
      · obtain ⟨hcur, hviews⟩ := handOver_frame env r.2 r.1 vote
        unfold Turn at hr ⊢
        dsimp only
        rw [hcur, hviews]
        exact hr
    have hstay : Turn env (fun x => x = viewNumber) (k + 1) n (n.updateQcHigh viewNumber) none :=
      turn_of_climb (climb_updateQcHigh n rfl) (views_updateQcHigh n viewNumber)
    unfold onReceiveProposal
    simp only
    split
    · split
      · refine hend _ ?_
        obtain ⟨hclimb, hrec⟩ := ih { n.updateQcHigh viewNumber with curView := (n.updateQcHigh viewNumber).curView + 1 }
          ((n.updateQcHigh viewNumber).curView + 1)
        refine ⟨.of_succ hup hclimb, ?_⟩
        rw [views_updateQcHigh] at hrec
        exact hrec
      · exact hend (viewNumber, _) hstay
    · exact hend (viewNumber, _) hstay

private theorem onProposeEvent_turn (conn : Nat → Int64 → Bool) (n : Node) (proposal : Proposal) :
    Turn env V (k + 1) n (n.onProposeEvent env conn proposal) none := by
  unfold onProposeEvent
  split
  · dsimp only
    split
    · exact turn_of_climb (.succ V k _) rfl
    · exact .refl env V _ n
  · exact .refl env V _ n

private theorem onQcFinishEvent_turn (n : Node) (qc : QuorumCert) :
    Turn env (fun x => x = qc.viewNumber) (k + 1) n (n.onQcFinishEvent env qc) none := by
  have hup := curView_updateQcHigh_cases n qc.viewNumber
  have hviews := views_updateQcHigh n qc.viewNumber
  have hstay : Climb (fun x => x = qc.viewNumber) (k + 1) n.curView (n.updateQcHigh qc.viewNumber).curView :=
    climb_updateQcHigh n rfl
  unfold onQcFinishEvent
  dsimp only
  split
  · have hturn : Turn env (fun x => x = qc.viewNumber) (k + 1) n
        { n.updateQcHigh qc.viewNumber with curView := (n.updateQcHigh qc.viewNumber).curView + 1 } none :=
      turn_of_climb (.of_succ hup (.refl _ k _)) hviews
    split <;> exact hturn
  · exact turn_of_climb hstay hviews

end Methods

/-- The view number that an event carries. -/
def eventView : Event → Option Int64
  | .receiveProposal proposal _ => some proposal.viewNumber
  | .receiveNewView _ view => some view.viewNumber
  | .qcFinish _ qc | .hqcUpdate qc => some qc.viewNumber
  | .propose _ | .decide _ => none

/-- The view number that an action brings to the pacemaker. -/
def viewAt (n : Node) : Action → Option Int64
  | .task i _ _ =>
    match n.tasks[i]? with
    | some (.event e) => eventView e
    | _ => none
  | .resumeNewView i => n.nvWoken[i]?.map fun x => x.2.viewNumber
  | _ => none

/-- The increments of one action. -/
def maxClimb (env : NodeEnv) : Nat := max 1 (depth env)

private theorem Turn.mono {env : NodeEnv} {V W : Int64 → Prop} {k k' : Nat} {n n' : Node} {call : Option NewViewCall}
    (h : Turn env V k n n' call) (hV : ∀ v, V v → W v) (hk : k ≤ k') : Turn env W k' n n' call :=
  ⟨h.1.mono hV hk, h.2⟩

private theorem event_turn {env : NodeEnv} {n : Node} (hfiled : n.Filed) (conn : Nat → Int64 → Bool) (e : Event) :
    Turn env (fun v => eventView e = some v) (maxClimb env) n (n.executeEvent env conn e)
      (taskCall env conn n (.event e)) := by
  have h1 : 0 + 1 ≤ maxClimb env := Nat.le_max_left _ _
  cases e with
  | propose proposal => exact (onProposeEvent_turn (k := 0) conn n proposal).mono (fun _ h => h) h1
  | receiveProposal proposal vote =>
    exact (onReceiveProposal_turn conn (depth env) n proposal.viewNumber vote).mono (fun _ h => h ▸ rfl)
      (Nat.le_max_right _ _)
  | receiveNewView id newView => exact onReceiveNewView_turn hfiled id rfl
  | qcFinish proposer qc => exact (onQcFinishEvent_turn (k := 0) n qc).mono (fun _ h => h ▸ rfl) h1
  | hqcUpdate qc => exact turn_of_climb (climb_updateQcHigh n rfl) (views_updateQcHigh n qc.viewNumber)
  | decide block => exact .refl env _ _ n

private theorem handleMessage_frame (env : NodeEnv) (n : Node) (src : Int64) (msg : Pb.Message) :
    (n.handleMessage env src msg).curView = n.curView ∧ (n.handleMessage env src msg).views = n.views := by
  cases msg with
  | proposal viewNumber block =>
    show (n.handleProposal env viewNumber block).curView = _ ∧ _
    cases block with
    | none => exact ⟨rfl, rfl⟩
    | some pb =>
      simp only [handleMessage, handleProposal, Core.loadBlock]
      cases n.core.load n.core.execQC.blockHash with
      | none => exact ⟨rfl, rfl⟩
      | some execBlock => cases pb.toBlock? <;> exact ⟨rfl, rfl⟩
  | viewChange data signature =>
    simp only [handleMessage, handleViewChange]
    split
    · split
      · exact ⟨rfl, rfl⟩
      · split <;> exact ⟨rfl, rfl⟩
    · exact ⟨rfl, rfl⟩
  | vote viewNumber voter blockHash cert =>
    simp only [handleMessage, handleVote]
    split
    · exact ⟨rfl, rfl⟩
    split
    · exact ⟨rfl, rfl⟩
    split
    · split
      · exact ⟨rfl, rfl⟩
      · split <;> exact ⟨rfl, rfl⟩
    · exact ⟨rfl, rfl⟩
  | forward data => exact ⟨rfl, rfl⟩
  | unset => exact ⟨rfl, rfl⟩

private theorem onBeat_frame (env : NodeEnv) (n : Node) (s : Bytes) (now : Int64) :
    (n.onBeat env s now).curView = n.curView ∧ (n.onBeat env s now).views = n.views := by
  unfold onBeat
  dsimp only
  split <;> exact ⟨rfl, rfl⟩

private theorem task_turn {env : NodeEnv} {n : Node} (hfiled : n.Filed) (conn : Nat → Int64 → Bool) (now : Int64)
    (t : Task) :
    Turn env (fun v => ∃ e, t = .event e ∧ eventView e = some v) (maxClimb env) n (n.runTask env conn now t)
      (taskCall env conn n t) := by
  cases t with
  | event e => exact (event_turn hfiled conn e).mono (fun _ h => ⟨e, rfl, h⟩) (Nat.le_refl _)
  | beat =>
    show Turn env _ _ n (n.runTask env conn now .beat) none
    unfold runTask
    dsimp only
    split
    · exact .refl env _ _ n
    · rename_i s rest _
      obtain ⟨hcur, hviews⟩ := onBeat_frame env { n with submitC := rest } s now
      refine turn_of_climb ?_ hviews
      rw [hcur]
      exact .refl _ _ _
  | nextSync => exact (onNextSyncView_turn hfiled conn (depth env)).mono (fun _ h => h.elim) (Nat.le_max_right _ _)
  | submit cmds =>
    unfold runTask
    dsimp only
    split <;> exact .refl env _ _ n

/-- The one inversion lemma for the view and the table: what an action does to them. -/
theorem step_turn (env : NodeEnv) {n : Node} (hfiled : n.Filed) (a : Action) :
    Turn env (fun v => n.viewAt a = some v) (maxClimb env) n (n.step env a) (n.newViewCall env a) := by
  unfold step newViewCall
  split
  · exact .refl env _ _ n
  cases a with
  | message src msg =>
    obtain ⟨hcur, hviews⟩ := handleMessage_frame env n src msg
    refine turn_of_climb ?_ hviews
    show Climb _ _ _ (n.handleMessage env src msg).curView
    rw [hcur]
    exact .refl _ _ _
  | submit cmds =>
    show Turn env _ _ n (n.submit cmds) none
    unfold submit
    split <;> exact .refl env _ _ n
  | task i conn now =>
    rw [act]
    dsimp only
    cases hi : n.tasks[i]? with
    | none => exact .refl env _ _ n
    | some t =>
      obtain ⟨hclimb, hrec⟩ := @task_turn env { n with tasks := n.tasks.eraseIdx i } hfiled conn now t
      refine ⟨hclimb.mono ?_ (Nat.le_refl _), hrec⟩
      rintro v ⟨e, rfl, he⟩
      simp only [viewAt, hi, he]
  | resumeProposal i => exact .refl env _ _ n
  | resumeNewView i =>
    show Turn env _ _ n (n.resumeNewView env i) _
    unfold resumeNewView
    simp only
    cases hi : n.nvWoken[i]? with
    | none => exact .refl env _ _ n
    | some x =>
      simp only [Core.loadBlock]
      cases hl : n.core.load x.2.genericQc.blockHash with
      | none =>
        rw [if_pos rfl]
        exact .refl env _ _ n
      | some block =>
        rw [if_neg (Option.some_ne_none block)]
        exact processNewView_turn (n := { n with
          nvWoken := n.nvWoken.eraseIdx i
          core := n.core.touch x.2.genericQc.blockHash }) hfiled (by simp [viewAt, hi]) block
  | timeout =>
    show Turn env _ _ n (if n.timer then spawn { n with timer := false } .nextSync else n) none
    split <;> exact .refl env _ _ n

theorem Filed.step {env : NodeEnv} {n : Node} (h : n.Filed) (a : Action) : (n.step env a).Filed := by
  have hkeeps : ∀ {m : Node}, m.Filed → Keeps (n.step env a).curView m.views (n.step env a).views →
      (n.step env a).Filed := by
    intro m hm hk v w hl
    rcases hk v with heq | ⟨hnone, -⟩
    · exact hm v w (by rw [← heq, hl])
    · rw [hnone] at hl
      cases hl
  have hrec := (step_turn env h a).2
  generalize n.newViewCall env a = call at hrec
  cases hrec with
  | idle hk => exact hkeeps h hk
  | @call c hviews hcur hk =>
    have hc : c.node.Filed := by
      unfold Filed
      rw [hviews]
      exact h
    exact hkeeps ((addNewViewMsg_result env c.node c.id c.newView).filed hc).1 hk

theorem filed_newNode : newNode.Filed := fun v m hl => by cases hl

/-! ### Views as integers -/

/-- Without overflow a climb ends above its start and below the bound. -/
private theorem Climb.toInt_le {V : Int64 → Prop} {k : Nat} {v v' : Int64} (h : Climb V k v v') (h0 : 0 ≤ v.toInt)
    (hv : v.toInt + k < 2 ^ 63 - 1) (hV : ∀ c, V c → c.toInt + k < 2 ^ 63 - 1) :
    v.toInt ≤ v'.toInt ∧ v'.toInt < 2 ^ 63 - 1 := by
  obtain ⟨c, j, hc, hj, rfl⟩ := h
  have hcv : v.toInt ≤ c.toInt ∧ c.toInt + k < 2 ^ 63 - 1 := by
    rcases hc with rfl | ⟨hc, hlt⟩
    · exact ⟨Int.le_refl _, hv⟩
    · exact ⟨Int.le_of_lt (Int64.lt_iff_toInt_lt.1 hlt), hV c hc⟩
  rw [Int64.toInt_add, Int64.toInt_ofNat_of_lt (by omega), Int.bmod_eq_of_le (by omega) (by omega)]
  omega

/-- A climb that overflows ends in a negative number. -/
private theorem Climb.le_of_nonneg {V : Int64 → Prop} {k : Nat} {v v' : Int64} (h : Climb V k v v') (hk : k < 2 ^ 63)
    (h0 : 0 ≤ v.toInt) (h0' : 0 ≤ v'.toInt) : v ≤ v' := by
  obtain ⟨c, j, hc, hj, rfl⟩ := h
  have hcv : v.toInt ≤ c.toInt := by
    rcases hc with rfl | ⟨hc, hlt⟩
    · exact Int.le_refl _
    · exact Int.le_of_lt (Int64.lt_iff_toInt_lt.1 hlt)
  have hlt := c.toInt_lt
  rw [Int64.le_iff_toInt_le]
  rw [Int64.toInt_add, Int64.toInt_ofNat_of_lt (by omega)] at h0' ⊢
  by_cases hover : c.toInt + j < 2 ^ 63
  · rw [Int.bmod_eq_of_le (by omega) (by omega)]
    omega
  · have : (c.toInt + j).bmod (2 ^ 64) = c.toInt + j - 2 ^ 64 := by
      rw [← Int.sub_bmod_right, Int.bmod_eq_of_le (by omega) (by omega)]
      rfl
    omega

private theorem depth_lt (env : NodeEnv) : depth env < 2 ^ 63 := by
  have h := env.replicas.metadata.n.toInt_lt
  have h' : env.replicas.metadata.n.toInt.toNat = depth env := rfl
  omega

/-- The leaders of a view that is not the last one. -/
private theorem leaders_mem {env : NodeEnv} (hN : 0 < env.replicas.metadata.n) {v : Int64} (h0 : 0 ≤ v.toInt)
    (h1 : v.toInt < 2 ^ 63 - 1) :
    (0 ≤ getLeader env v ∧ getLeader env v < env.replicas.metadata.n) ∧
      (0 ≤ getCurLeader env v ∧ getCurLeader env v < env.replicas.metadata.n) := by
  have hN' : 0 < env.replicas.metadata.n.toInt := Int64.lt_iff_toInt_lt.1 hN
  have hmod : ∀ x : Int64, 0 ≤ x.toInt →
      0 ≤ x % env.replicas.metadata.n ∧ x % env.replicas.metadata.n < env.replicas.metadata.n := by
    intro x hx
    rw [Int64.le_iff_toInt_le, Int64.lt_iff_toInt_lt, Int64.toInt_mod, Int64.toInt_zero]
    exact ⟨Int.tmod_nonneg _ hx, Int.tmod_lt_of_pos _ hN'⟩
  refine ⟨hmod _ ?_, hmod _ h0⟩
  rw [Int64.toInt_add, Int64.toInt_one, Int.bmod_eq_of_le (by omega) (by omega)]
  omega

/-- The view numbers of a step leave room for the increments. -/
def ViewGuard (env : NodeEnv) (n : Node) (a : Action) : Prop :=
  ∀ v ∈ n.curView :: (n.viewAt a).toList, v.toInt + env.replicas.metadata.n.toInt < 2 ^ 63 - 1

instance (env : NodeEnv) (n : Node) (a : Action) : Decidable (n.ViewGuard env a) :=
  List.decidableBAll (fun v : Int64 => v.toInt + env.replicas.metadata.n.toInt < 2 ^ 63 - 1) _

/-- The invariant: the table is in order and the view can be incremented. -/
structure ViewInv (n : Node) : Prop where
  filed : n.Filed
  nonneg : 0 ≤ n.curView.toInt
  lt : n.curView.toInt < 2 ^ 63 - 1

theorem ViewInv.step {env : NodeEnv} (hN : 0 < env.replicas.metadata.n) {n : Node} {a : Action} (h : n.ViewInv)
    (hg : n.ViewGuard env a) : (n.step env a).ViewInv ∧ n.curView ≤ (n.step env a).curView := by
  have hN' : 0 < env.replicas.metadata.n.toInt := Int64.lt_iff_toInt_lt.1 hN
  have hk : (maxClimb env : Int) = env.replicas.metadata.n.toInt := by
    have h' : env.replicas.metadata.n.toInt.toNat = depth env := rfl
    unfold maxClimb
    omega
  have hV : ∀ v, n.viewAt a = some v → v.toInt + maxClimb env < 2 ^ 63 - 1 := by
    intro v hv
    rw [hk]
    exact hg v (by simp [hv])
  obtain ⟨hle, hlt⟩ := (step_turn env h.filed a).1.toInt_le h.nonneg
    (by rw [hk]; exact hg n.curView (by simp)) hV
  exact ⟨⟨h.filed.step a, by have := h.nonneg; omega, hlt⟩, Int64.le_iff_toInt_le.2 hle⟩

private theorem viewInv_newNode : newNode.ViewInv := ⟨filed_newNode, by decide, by decide⟩

end Node

/-- Along every run whose steps leave room for the increments, the view never decreases and both leaders computed from it
are replica numbers. -/
theorem view_monotone (env : NodeEnv) (hN : 0 < env.replicas.metadata.n) (as : List Action) (a : Action) (n n' : Node)
    (hn : n = run (Node.step env) newNode as) (hn' : n' = run (Node.step env) newNode (as ++ [a]))
    (hguard : StepsMeet (Node.step env) (Node.ViewGuard env) newNode (as ++ [a])) :
    n.curView ≤ n'.curView ∧
    ∀ m, m = n ∨ m = n' →
      (0 ≤ Node.getLeader env m.curView ∧ Node.getLeader env m.curView < env.replicas.metadata.n) ∧
      (0 ≤ Node.getCurLeader env m.curView ∧ Node.getCurLeader env m.curView < env.replicas.metadata.n) := by
  obtain ⟨has, hlast⟩ := Lib.stepsMeet_append.1 hguard
  have hinv : n.ViewInv := by
    rw [hn]
    exact has.invariant (I := Node.ViewInv) (fun n a h hg => (h.step hN hg).1) Node.viewInv_newNode
  rw [Lib.run_append, ← hn] at hn'
  rw [← hn] at hlast
  obtain ⟨hinv', hle⟩ := hinv.step hN hlast.1
  have hn' : n' = n.step env a := hn'
  rw [hn']
  refine ⟨hle, ?_⟩
  rintro m (rfl | rfl)
  · exact Node.leaders_mem hN hinv.nonneg hinv.lt
  · exact Node.leaders_mem hN hinv'.nonneg hinv'.lt

/-- The first proposal of the chain, in view 7, and the pacemaker's handling of it with leader 0 disconnected. -/
def Server.viewRun : List Action :=
  [.message 0 (.proposal 7 (some (chain 1).toPb)), .task 1 (fun _ id => 0 < id ∧ id < 4) 0]

theorem view_monotone_server :
    (run (Node.step (Server.netEnv.node 3)) newNode (Server.viewRun.take 1)).curView ≤
        (run (Node.step (Server.netEnv.node 3)) newNode Server.viewRun).curView ∧
      Node.getLeader (Server.netEnv.node 3)
        (run (Node.step (Server.netEnv.node 3)) newNode Server.viewRun).curView < 4 := by
  obtain ⟨hle, hleader⟩ := view_monotone (Server.netEnv.node 3) (by decide) (Server.viewRun.take 1)
    (.task 1 (fun _ id => 0 < id ∧ id < 4) 0) _ _ rfl rfl (by decide +kernel)
  exact ⟨hle, (hleader _ (Or.inr rfl)).1.2⟩

/-- Replica 3, with all peers connected, forwards a command, which sets its timer, and receives the first proposal of the
chain in the largest view; then the timer expires. -/
def Server.wrapRun : List Action :=
  [.submit [7], .task 1 (fun _ id => 0 ≤ id ∧ id < 4) 0, .task 0 (fun _ id => 0 ≤ id ∧ id < 4) 0,
    .message 0 (.proposal Int64.maxValue (some (chain 1).toPb)), .task 0 (fun _ id => 0 ≤ id ∧ id < 4) 0,
    .timeout, .task 0 (fun _ id => 0 ≤ id ∧ id < 4) 0]

/-- The largest view number is followed by the smallest one, for which no replica is the leader. -/
theorem view_wraps :
    (run (Node.step (Server.netEnv.node 3)) newNode (Server.wrapRun.take 6)).curView = Int64.maxValue ∧
    (run (Node.step (Server.netEnv.node 3)) newNode Server.wrapRun).curView = Int64.minValue ∧
    Node.getLeader (Server.netEnv.node 3) Int64.minValue = -3 := by
  decide +kernel

/-! ### One quorum for each view -/

namespace Node

/-- The calls of `addNewViewMsg` along a run. -/
def newViewCalls (env : NodeEnv) : Node → List Action → List NewViewCall
  | _, [] => []
  | n, a :: as => (n.newViewCall env a).toList ++ newViewCalls env (n.step env a) as

private theorem newViewCalls_append (env : NodeEnv) (n : Node) (as : List Action) (a : Action) :
    newViewCalls env n (as ++ [a]) = newViewCalls env n as ++ ((run (step env) n as).newViewCall env a).toList := by
  induction as generalizing n with
  | nil => simp [newViewCalls, Lib.run_nil]
  | cons b as ih => rw [List.cons_append, newViewCalls, newViewCalls, ih, List.append_assoc, Lib.run_cons]

/-- The replicas in whose name calls for view `v` have been made. -/
def asked (cs : List NewViewCall) (v : Int64) : List Int64 :=
  (cs.filter fun c => c.newView.viewNumber = v).map fun c => c.id

/-- How many calls for view `v` have returned a message. -/
def quorums (env : NodeEnv) (cs : List NewViewCall) (v : Int64) : Nat :=
  (cs.filter fun c => c.newView.viewNumber = v ∧ (c.result env).1.isSome).length

private theorem quorums_append (env : NodeEnv) (cs ds : List NewViewCall) (v : Int64) :
    quorums env (cs ++ ds) v = quorums env cs v + quorums env ds v := by
  simp [quorums]

/-- A handler runs without interruption.  One that had to wait for a block is as good as one that starts when it goes on,
unless the test for stale messages at its head would by then stop it. -/
def Atomic (n : Node) : Action → Prop
  | .resumeNewView i => ∀ x ∈ n.nvWoken[i]?, n.curView ≤ x.2.viewNumber
  | _ => True

private theorem processCall_view {n : Node} {id : Int64} {newView : NewView} {c : NewViewCall}
    (h : n.processCall id newView = some c) (hle : n.curView ≤ newView.viewNumber) :
    c.newView.viewNumber = c.node.curView := by
  unfold processCall at h
  split at h
  · cases h
  · rename_i hno
    obtain rfl := Option.some.inj h
    exact Int64.le_antisymm (Int64.not_lt.1 fun hlt => hno (Or.inr hlt)) hle

private theorem receiveCall_view {n : Node} {id : Int64} {newView : NewView} {c : NewViewCall}
    (h : n.receiveCall id newView = some c) : c.newView.viewNumber = c.node.curView := by
  unfold receiveCall at h
  split at h
  · cases h
  · rename_i hno
    exact processCall_view h (Int64.not_lt.1 fun hlt => hno (Or.inl hlt))

private theorem syncCall_view {env : NodeEnv} {conn : Nat → Int64 → Bool} {k : Nat} {n : Node} {c : NewViewCall}
    (h : syncCall env conn k n = some c) : c.newView.viewNumber = c.node.curView := by
  induction k generalizing n with
  | zero => cases h
  | succ k ih =>
    unfold syncCall at h
    dsimp only at h
    split at h
    · split at h
      · exact ih h
      · cases h
    · split at h
      · exact receiveCall_view h
      · cases h

/-- A call is made for the view the replica is in. -/
private theorem newViewCall_view {env : NodeEnv} {n : Node} {a : Action} {c : NewViewCall}
    (h : n.newViewCall env a = some c) (hatomic : n.Atomic a) : c.newView.viewNumber = c.node.curView := by
  unfold newViewCall at h
  split at h
  · cases h
  cases a with
  | task i conn now =>
    dsimp only at h
    split at h
    · rename_i t _
      unfold taskCall at h
      split at h
      · exact receiveCall_view h
      · exact syncCall_view h
      · cases h
    · cases h
  | resumeNewView i =>
    dsimp only at h
    split at h
    · rename_i id newView hi
      split at h
      · cases h
      · exact processCall_view h (hatomic _ hi)
    · cases h
  | message src msg => cases h
  | submit cmds => cases h
  | resumeProposal i => cases h
  | timeout => cases h

/-- What a call does to the senders it knows of, for a quorum of at least one. -/
theorem AddResult.senders {env : NodeEnv} (hq : 1 ≤ getQuorumSize env.replicas.metadata) {n n' : Node} {id : Int64}
    {newView : NewView} {high : Option NewView} (r : AddResult env n id newView high n') :
    (high = none ∧ (∀ x, x ∈ n'.senders newView.viewNumber ↔ x ∈ n.senders newView.viewNumber) ∧
      (n'.senders newView.viewNumber).length = (n.senders newView.viewNumber).length ∧
      (getQuorumSize env.replicas.metadata ≤ (n.senders newView.viewNumber).length ∨
        id ∈ n.senders newView.viewNumber)) ∨
    (id ∉ n.senders newView.viewNumber ∧
      ((n.senders newView.viewNumber).length : Int) < getQuorumSize env.replicas.metadata ∧
      n'.senders newView.viewNumber = id :: n.senders newView.viewNumber ∧
      (high.isSome ↔ (n.senders newView.viewNumber).length + 1 = getQuorumSize env.replicas.metadata)) := by
  cases r with
  | dropped h => exact Or.inl ⟨rfl, fun x => Iff.rfl, rfl, h⟩
  | @replaced m hm hid =>
    have hold : n.senders newView.viewNumber = m.keys := by rw [Node.senders, hm]; rfl
    have hnew : Node.senders { n with views := n.views.insert newView.viewNumber (m.insert id newView) }
        newView.viewNumber = id :: m.keys.erase id := by
      rw [Node.senders, AList.lookup_insert, ← AList.keys_insert]
      rfl
    have hmem : id ∈ m.keys := AList.mem_keys.1 hid
    rw [hnew, hold]
    refine Or.inl ⟨rfl, fun x => ?_, ?_, Or.inr hmem⟩
    · exact (List.perm_cons_erase hmem).symm.mem_iff
    · exact (List.perm_cons_erase hmem).symm.length_eq
  | @added m _ hm hid hlt hhigh =>
    have hold : n.senders newView.viewNumber = m.keys := by
      rw [← hm, Node.senders]
      cases n.views.lookup newView.viewNumber <;> rfl
    have hnot : id ∉ m.keys := fun h => hid (AList.mem_keys.2 h)
    have hnew : Node.senders { n with views := n.views.insert newView.viewNumber (m.insert id newView) }
        newView.viewNumber = id :: m.keys := by
      rw [Node.senders, AList.lookup_insert]
      show (m.insert id newView).keys = _
      rw [AList.keys_insert, List.erase_of_not_mem hnot]
    rw [hnew, hold]
    refine Or.inr ⟨hnot, ?_, rfl, ?_⟩
    · rcases hlt with hlt | rfl
      · exact hlt
      · exact hq
    · rcases hhigh with ⟨hlen, e, -, rfl⟩ | ⟨hlen, rfl⟩
      · exact ⟨fun _ => hlen, fun _ => rfl⟩
      · exact ⟨nofun, fun h => absurd h hlen⟩

private theorem AddResult.senders_ne {env : NodeEnv} {n n' : Node} {id : Int64} {newView : NewView}
    {high : Option NewView}
    (r : AddResult env n id newView high n') {v : Int64} (hv : v ≠ newView.viewNumber) : n'.senders v = n.senders v := by
  cases r with
  | dropped h => rfl
  | replaced hm hid => simp only [Node.senders, AList.lookup_insert_ne hv]
  | added hm hid hlt hhigh => simp only [Node.senders, AList.lookup_insert_ne hv]

/-- The table and the calls `cs` agree about view `v`. -/
structure Level (env : NodeEnv) (cs : List NewViewCall) (n : Node) (v : Int64) : Prop where
  asked_of_mem : ∀ x ∈ n.senders v, x ∈ asked cs v
  mem_of_asked : ((n.senders v).length : Int) < getQuorumSize env.replicas.metadata → ∀ x ∈ asked cs v, x ∈ n.senders v
  quorums_eq : quorums env cs v =
    if ((n.senders v).length : Int) < getQuorumSize env.replicas.metadata then 0 else 1

/-- The call `c` after the calls `cs` stores the sender that completes the quorum. -/
def Completes (env : NodeEnv) (cs : List NewViewCall) (c : NewViewCall) : Prop :=
  c.id ∉ asked cs c.newView.viewNumber ∧ c.id ∈ (c.result env).2.senders c.newView.viewNumber ∧
    ((asked (cs ++ [c]) c.newView.viewNumber).toFinset.card : Int) = getQuorumSize env.replicas.metadata

/-- A call keeps the table and the calls in agreement about its view, and returns a message only with the last sender. -/
private theorem Level.concat {env : NodeEnv} (hq : 1 ≤ getQuorumSize env.replicas.metadata) {cs : List NewViewCall}
    {c : NewViewCall} (h : Level env cs c.node c.newView.viewNumber) :
    Level env (cs ++ [c]) (c.result env).2 c.newView.viewNumber ∧
      ((c.result env).1.isSome → Completes env cs c) := by
  have hasked : asked (cs ++ [c]) c.newView.viewNumber = asked cs c.newView.viewNumber ++ [c.id] := by simp [asked]
  have hquorums : quorums env (cs ++ [c]) c.newView.viewNumber =
      quorums env cs c.newView.viewNumber + if (c.result env).1.isSome then 1 else 0 := by
    rw [quorums_append]
    congr 1
    cases hs : (c.result env).1.isSome <;> simp [quorums, hs]
  have hnodup := (c.result env).2.senders_nodup c.newView.viewNumber
  rcases (addNewViewMsg_result env c.node c.id c.newView).senders hq with
    ⟨hnone, hmem, hlen, hfull⟩ | ⟨hnew, hlt, hcons, hsome⟩
  · have hnone : (c.result env).1 = none := hnone
    refine ⟨⟨?_, ?_, ?_⟩, fun hs => by rw [hnone] at hs; cases hs⟩
    · intro x hx
      rw [hasked, List.mem_append]
      exact Or.inl (h.asked_of_mem x ((hmem x).1 hx))
    · intro hlt x hx
      have hlt : ((c.node.senders c.newView.viewNumber).length : Int) < getQuorumSize env.replicas.metadata := by
        rwa [← hlen]
      rw [hasked, List.mem_append, List.mem_singleton] at hx
      refine (hmem x).2 ?_
      rcases hx with hx | rfl
      · exact h.mem_of_asked hlt x hx
      · exact hfull.resolve_left (by omega)
    · rw [hquorums, hnone, h.quorums_eq]
      show _ = if (((c.node.addNewViewMsg env c.id c.newView).2.senders c.newView.viewNumber).length : Int) < _
        then 0 else 1
      rw [hlen]
      rfl
  · have hcons : (c.result env).2.senders c.newView.viewNumber = c.id :: c.node.senders c.newView.viewNumber := hcons
    have hsome : (c.result env).1.isSome ↔
      (c.node.senders c.newView.viewNumber).length + 1 = getQuorumSize env.replicas.metadata := hsome
    have hsub : ∀ x, x ∈ (c.result env).2.senders c.newView.viewNumber ↔
        x ∈ asked (cs ++ [c]) c.newView.viewNumber := by
      intro x
      rw [hcons, hasked, List.mem_cons, List.mem_append, List.mem_singleton]
      have := h.asked_of_mem x
      have := h.mem_of_asked hlt x
      tauto
    refine ⟨⟨fun x hx => (hsub x).1 hx, fun _ x hx => (hsub x).2 hx, ?_⟩, fun hs => ⟨?_, ?_, ?_⟩⟩
    · rw [hquorums, h.quorums_eq, if_pos hlt, hcons, List.length_cons]
      by_cases hs : (c.result env).1.isSome
      · have := hsome.1 hs
        rw [if_pos hs, if_neg (by push_cast; omega)]
      · have := mt hsome.2 hs
        rw [if_neg hs, if_pos (by push_cast; omega)]
    · exact fun hx => hnew (h.mem_of_asked hlt _ hx)
    · rw [hcons]
      exact List.mem_cons_self
    · have hset : (asked (cs ++ [c]) c.newView.viewNumber).toFinset =
          ((c.result env).2.senders c.newView.viewNumber).toFinset := by
        ext x
        rw [List.mem_toFinset, List.mem_toFinset, hsub]
      rw [hset, List.toFinset_card_of_nodup hnodup, hcons, List.length_cons, ← hsome.1 hs]
      push_cast
      rfl

/-- The calls `cs` of a run account for the table of its last state. -/
structure Tally (env : NodeEnv) (cs : List NewViewCall) (n : Node) : Prop where
  filed : n.Filed
  level : ∀ v, n.curView ≤ v → Level env cs n v
  once : ∀ v, quorums env cs v ≤ 1
  last : ∀ ds c es, cs = ds ++ c :: es → (c.result env).1.isSome → Completes env ds c

private theorem Level.of_eq {env : NodeEnv} {cs cs' : List NewViewCall} {n n' : Node} {v : Int64} (h : Level env cs n v)
    (hs : n'.senders v = n.senders v) (ha : asked cs' v = asked cs v) (hq : quorums env cs' v = quorums env cs v) :
    Level env cs' n' v := by
  constructor
  · rw [hs, ha]
    exact h.asked_of_mem
  · rw [hs, ha]
    exact h.mem_of_asked
  · rw [hs, hq]
    exact h.quorums_eq

/-- Views not behind the current one lose none of their messages. -/
private theorem Keeps.senders_eq {cur : Int64} {n n' : Node} (h : Keeps cur n.views n'.views) {v : Int64}
    (hv : cur ≤ v) :
    n'.senders v = n.senders v := by
  rcases h v with heq | ⟨-, hlt⟩
  · simp only [Node.senders, heq]
  · exact absurd hlt (Int64.not_lt.2 hv)

theorem Tally.step {env : NodeEnv} (hq : 1 ≤ getQuorumSize env.replicas.metadata) {cs : List NewViewCall} {n : Node}
    (h : Tally env cs n) {a : Action} (hatomic : n.Atomic a) (hle : n.curView ≤ (n.step env a).curView) :
    Tally env (cs ++ (n.newViewCall env a).toList) (n.step env a) := by
  have hrec := (step_turn env h.filed a).2
  have hfiled : (n.step env a).Filed := h.filed.step a
  have hview : ∀ c, n.newViewCall env a = some c → c.newView.viewNumber = c.node.curView :=
    fun c hc => newViewCall_view hc hatomic
  generalize n.newViewCall env a = call at hrec hview
  cases hrec with
  | idle hk =>
    rw [Option.toList_none, List.append_nil]
    exact ⟨hfiled, fun v hv => (h.level v (Int64.le_trans hle hv)).of_eq (hk.senders_eq hv) rfl rfl, h.once, h.last⟩
  | @call c hviews hcur hk =>
    have hv : c.newView.viewNumber = (n.step env a).curView := (hview c rfl).trans hcur.symm
    have hsenders : ∀ v, c.node.senders v = n.senders v := fun v => by rw [Node.senders, hviews, ← Node.senders]
    have hlevel : Level env cs c.node c.newView.viewNumber :=
      (h.level _ (by rw [hv]; exact hle)).of_eq (hsenders _) rfl rfl
    obtain ⟨hlevel', hcompletes⟩ := hlevel.concat hq
    have hother : ∀ v, v ≠ c.newView.viewNumber →
        asked (cs ++ [c]) v = asked cs v ∧ quorums env (cs ++ [c]) v = quorums env cs v := by
      intro v hne
      have hne : c.newView.viewNumber ≠ v := Ne.symm hne
      simp [asked, quorums, hne]
    refine ⟨hfiled, fun v hle' => ?_, fun v => ?_, fun ds d es heq hs => ?_⟩
    · by_cases hvv : v = c.newView.viewNumber
      · subst hvv
        exact hlevel'.of_eq (hk.senders_eq hle') rfl rfl
      · refine (h.level v (Int64.le_trans hle hle')).of_eq ?_ (hother v hvv).1 (hother v hvv).2
        rw [hk.senders_eq hle', ← hsenders v]
        exact (addNewViewMsg_result env c.node c.id c.newView).senders_ne hvv
    · by_cases hvv : v = c.newView.viewNumber
      · rw [hvv]
        exact (le_of_eq hlevel'.quorums_eq).trans (by split <;> omega)
      · exact (le_of_eq (hother v hvv).2).trans (h.once v)
    · rcases List.eq_nil_or_concat es with rfl | ⟨es, d', rfl⟩
      · obtain ⟨rfl, hc⟩ := List.append_inj' (heq : cs ++ [c] = ds ++ [d]) rfl
        obtain rfl := List.head_eq_of_cons_eq hc
        exact hcompletes hs
      · obtain ⟨rfl, -⟩ := List.append_inj' (show cs ++ [c] = (ds ++ d :: es) ++ [d'] by simpa using heq) rfl
        exact h.last ds d es rfl hs

private theorem tally_newNode (env : NodeEnv) (hq : 1 ≤ getQuorumSize env.replicas.metadata) : Tally env [] newNode :=
  ⟨filed_newNode, fun _ _ => ⟨nofun, nofun, (if_pos (by show ((0 : Nat) : Int) < _; omega)).symm⟩, fun _ => Nat.zero_le 1,
    fun ds _ _ h => by cases ds <;> cases h⟩

private theorem tally_run {env : NodeEnv} (hq : 1 ≤ getQuorumSize env.replicas.metadata) {as : List Action}
    (hatomic : StepsMeet (step env) Atomic newNode as)
    (hviews : ∀ bs, bs <+: as → 0 ≤ (run (step env) newNode bs).curView) :
    Tally env (newViewCalls env newNode as) (run (step env) newNode as) := by
  induction as using List.reverseRecOn with
  | nil => exact tally_newNode env hq
  | append_singleton as a ih =>
    obtain ⟨has, hlast⟩ := Lib.stepsMeet_append.1 hatomic
    have htally := ih has fun bs hbs => hviews bs (hbs.trans (List.prefix_append as [a]))
    have h0 := Int64.le_iff_toInt_le.1 (hviews as (List.prefix_append as [a]))
    have h0' := Int64.le_iff_toInt_le.1 (hviews _ (List.prefix_refl _))
    rw [newViewCalls_append]
    rw [Lib.run_append] at h0' ⊢
    have hk : maxClimb env < 2 ^ 63 := max_lt (by decide) (depth_lt env)
    exact htally.step hq hlast.1 ((step_turn env htally.filed a).1.le_of_nonneg hk h0 h0')

end Node

/-- Along every run of atomic handlers in which no increment takes the view below zero, `addNewViewMsg` returns a message
at most once for each view, on the call that stores the last sender of the quorum. -/
theorem new_view_quorum (env : NodeEnv) (hq : 1 ≤ getQuorumSize env.replicas.metadata) (as : List Action)
    (hatomic : StepsMeet (Node.step env) Node.Atomic newNode as)
    (hviews : ∀ bs, bs <+: as → 0 ≤ (run (Node.step env) newNode bs).curView) :
    (∀ v, Node.quorums env (Node.newViewCalls env newNode as) v ≤ 1) ∧
    ∀ cs c ds, Node.newViewCalls env newNode as = cs ++ c :: ds → (c.result env).1.isSome →
      Node.Completes env cs c := by
  have htally := Node.tally_run hq hatomic hviews
  exact ⟨htally.once, htally.last⟩

def Server.syncEnv : NodeEnv := { netEnv.node 0 with unmarshal := unmarshalNewView [firstNewView] }

/-- Replica 0 receives the first new-view messages of the others, two of them twice. -/
def Server.syncRun : List Action :=
  [1, 2, 1, 3, 2].flatMap fun id =>
    [.message id (.viewChange (marshalNewView firstNewView) (sign id (marshalNewView firstNewView))),
      .task 1 (fun _ id => 0 ≤ id ∧ id < 4) 0]

theorem new_view_quorum_server :
    Node.quorums Server.syncEnv (Node.newViewCalls Server.syncEnv newNode Server.syncRun) 0 = 1 := by
  have hviews : ∀ bs ∈ Server.syncRun.inits, 0 ≤ (run (Node.step Server.syncEnv) newNode bs).curView := by
    decide +kernel
  obtain ⟨honce, -⟩ := new_view_quorum Server.syncEnv (by decide +kernel) Server.syncRun
    ⟨trivial, trivial, trivial, trivial, trivial, trivial, trivial, trivial, trivial, trivial, trivial⟩
    (fun bs hbs => hviews bs ((List.mem_inits _ _).2 hbs))
  exact le_antisymm (honce 0) (by decide +kernel)

end GoHotstuff
