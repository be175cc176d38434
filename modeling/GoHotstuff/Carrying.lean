import Mathlib.Data.List.ProdSigma
import GoHotstuff.Cluster

/-!
# What the transport can carry

The converse of `transport_refines`: the workers connect all replicas, and then every message goes from the call through the
handler and the stream to a goroutine that waits for the loop of `Start`, where it can be taken at any later time and in any
order.  So whatever the plain network can do, as long as no message arrives more often than it has been sent, the replicas
can do on their transport (`transport_complete`).
-/

namespace GoHotstuff

open Lib (run StepsMeet tally)

namespace Cluster

/-- The call that hands a message to the server, at its beginning. -/
def begun (m : Sent) : ABServer.Call := ⟨m.dest, .locking m.msg⟩

/-! ### Moves of one server -/

/-- Some moves lead from one state to the other. -/
def Leads (E : NetEnv) (c c' : Cluster) : Prop := ∃ moves, run (step E) c moves = c'

section Leads

variable {E : NetEnv} {c c' c'' : Cluster}

private theorem Leads.refl (c : Cluster) : Leads E c c := ⟨[], rfl⟩

private theorem Leads.trans (h : Leads E c c') (h' : Leads E c' c'') : Leads E c c'' := by
  obtain ⟨moves, rfl⟩ := h
  obtain ⟨moves', rfl⟩ := h'
  exact ⟨moves ++ moves', Lib.run_append _ _ _ _⟩

private theorem leads_single (x : Int64 × Move) : Leads E c (c.step E x) := ⟨[x], rfl⟩

end Leads

/-- The state with another state of the server of `src` and of what comes behind it. -/
def withServer (c : Cluster) (src : Int64) (a : ABServer) (streams : List Stream)
    (pending : Int64 → List (Int64 × Pb.Message)) : Cluster :=
  { c with
    server := Function.update c.server src a
    streams := Function.update c.streams src streams
    pending := pending }

/-- A channel of the server of `src` that works: the handler waits for a message, the stream is empty, and the worker of `id`
reads it. -/
structure Served (c : Cluster) (src : Int64) (a : ABServer) (streams : List Stream) (id : Int64) (ch : Nat) : Prop where
  handler : a.handlers[ch]? = some ⟨id, .receiving, none, false⟩
  opened : ch ∉ a.closes
  stream : streams[ch]? = some ⟨id, []⟩
  worker : c.worker id src = some ch

private theorem set_of_getElem? {α : Type} {l : List α} {i : Nat} {x : α} (h : l[i]? = some x) : l.set i x = l := by
  obtain ⟨hi, rfl⟩ := List.getElem?_eq_some_iff.1 h
  exact List.set_getElem_self hi

section Server

variable {E : NetEnv} {c : Cluster} {src id : Int64} {a : ABServer} {ss : List Stream}
  {p : Int64 → List (Int64 × Pb.Message)} {j ch : Nat} {d : Option Int64} {msg : Pb.Message} {rest : List Nat}

private theorem leads_serve (E : NetEnv) (c : Cluster) (src : Int64) (a : ABServer) (ss : List Stream)
    (p : Int64 → List (Int64 × Pb.Message)) (mv : ABServer.Move) (hown : mv.IsOwn) :
    Leads E (c.withServer src a ss p) (c.withServer src (a.step mv) (putOn ss (a.output mv)) p) := by
  have hstep : (c.withServer src a ss p).step E (src, .serve mv) =
      c.withServer src (a.step mv) (putOn ss (a.output mv)) p := by
    simp [step, serve, withServer, hown]
  rw [← hstep]
  exact leads_single _

private theorem leads_recv (E : NetEnv) (a : ABServer) (p : Int64 → List (Int64 × Pb.Message)) {i : Nat}
    {line : List Pb.Message}
    (hw : c.worker id src = some i) (hs : ss[i]? = some ⟨id, msg :: line⟩) : Leads E (c.withServer src a ss p)
      (c.withServer src a (ss.set i ⟨id, line⟩) (Function.update p id (p id ++ [(src, msg)]))) := by
  have hstep : (c.withServer src a ss p).step E (id, .recv src) =
      c.withServer src a (ss.set i ⟨id, line⟩) (Function.update p id (p id ++ [(src, msg)])) := by
    simp [step, recv, withServer, hw, hs]
  rw [← hstep]
  exact leads_single _

private theorem setCall_setCall (a : ABServer) (j : Nat) (x y : ABServer.Call) :
    (a.setCall j x).setCall j y = a.setCall j y := by
  simp [ABServer.setCall]

private theorem getElem?_setCall {x : ABServer.Call} (hj : a.calls[j]? = some x) (y : ABServer.Call) :
    (a.setCall j y).calls[j]? = some y := List.getElem?_set_self (List.getElem?_eq_some_iff.1 hj).1

/-- A message goes from the call to the worker. -/
private theorem leads_send (hrun : a.panicked = false) (hj : a.calls[j]? = some ⟨d, .sending msg ch rest⟩)
    (hs : Served c src a ss id ch) : Leads E (c.withServer src a ss p)
      (c.withServer src (a.setCall j ⟨d, .ranging msg rest⟩) ss (Function.update p id (p id ++ [(src, msg)]))) := by
  have hlt := (List.getElem?_eq_some_iff.1 hs.handler).1
  have hslt := (List.getElem?_eq_some_iff.1 hs.stream).1
  have hdeliver : a.step (.deliver j) =
      (a.setHandler ch ⟨id, .sending msg, none, false⟩).setCall j ⟨d, .ranging msg rest⟩ := by
    simp [ABServer.step, hrun, ABServer.act, ABServer.deliver, hj, hs.opened, hs.handler]
  have hhandler : ((a.setHandler ch ⟨id, .sending msg, none, false⟩).setCall j ⟨d, .ranging msg rest⟩).handlers[ch]? =
      some ⟨id, .sending msg, none, false⟩ := List.getElem?_set_self hlt
  have hsend : ((a.setHandler ch ⟨id, .sending msg, none, false⟩).setCall j ⟨d, .ranging msg rest⟩).step
      (.sendReturns ch none) = a.setCall j ⟨d, .ranging msg rest⟩ := by
    have hback : (a.handlers.set ch ⟨id, .sending msg, none, false⟩).set ch ⟨id, .receiving, none, false⟩ = a.handlers := by
      rw [List.set_set, set_of_getElem? hs.handler]
    have hpanic : ((a.setHandler ch ⟨id, .sending msg, none, false⟩).setCall j ⟨d, .ranging msg rest⟩).panicked = false :=
      hrun
    simp only [ABServer.step, hpanic, ABServer.act, ABServer.sendReturns, hhandler]
    simp [ABServer.setHandler, ABServer.setCall, hback]
  have hout : ((a.setHandler ch ⟨id, .sending msg, none, false⟩).setCall j ⟨d, .ranging msg rest⟩).output
      (.sendReturns ch none) = some (ch, msg) := by
    simp only [ABServer.output, hhandler]
  have h1 := leads_serve E c src a ss p (.deliver j) trivial
  rw [hdeliver] at h1
  have h2 := leads_serve E c src ((a.setHandler ch ⟨id, .sending msg, none, false⟩).setCall j ⟨d, .ranging msg rest⟩) ss p
    (.sendReturns ch none) trivial
  rw [hsend, hout] at h2
  have hput : putOn ss (some (ch, msg)) = ss.set ch ⟨id, [msg]⟩ := by simp [putOn, hs.stream]
  rw [hput] at h2
  have hline : (ss.set ch ⟨id, [msg]⟩)[ch]? = some ⟨id, [msg]⟩ := List.getElem?_set_self hslt
  have h3 := leads_recv E (a.setCall j ⟨d, .ranging msg rest⟩) p hs.worker hline
  rw [List.set_set, set_of_getElem? hs.stream] at h3
  exact h1.trans (h2.trans h3)

private theorem Served.withCalls (h : Served c src a ss id ch) {c' : Cluster} (hw : c'.worker = c.worker)
    (calls : List ABServer.Call) : Served c' src { a with calls := calls } ss id ch :=
  ⟨h.handler, h.opened, h.stream, hw ▸ h.worker⟩

private theorem Served.setCall (h : Served c src a ss id ch) (j : Nat) (x : ABServer.Call) :
    Served c src (a.setCall j x) ss id ch := h.withCalls rfl _

private theorem exists_leads_range (E : NetEnv) (c : Cluster) (src : Int64) (ss : List Stream)
    (p : Int64 → List (Int64 × Pb.Message)) (hrun : a.panicked = false) (hj : a.calls[j]? = some ⟨d, .ranging msg rest⟩)
    (hs : ∀ ch ∈ rest, ∃ id, Served c src a ss id ch) :
    ∃ p', Leads E (c.withServer src a ss p) (c.withServer src (a.setCall j ⟨d, .returned none⟩) ss p') ∧
      ∀ id e, (p' id).count e = (p id).count e + if e = (src, msg) then tally (a.leadsTo id) rest else 0 := by
  induction rest generalizing a p with
  | nil =>
    have hstep : a.step (.rUnlock j) = a.setCall j ⟨d, .returned none⟩ := by
      simp [ABServer.step, hrun, ABServer.act, ABServer.rUnlock, hj]
    have h := leads_serve E c src a ss p (.rUnlock j) trivial
    rw [hstep] at h
    exact ⟨p, h, by simp⟩
  | cons ch rest ih =>
    obtain ⟨id, hid⟩ := hs ch List.mem_cons_self
    have hpick : a.step (.pick j 0) = a.setCall j ⟨d, .sending msg ch rest⟩ := by
      simp [ABServer.step, hrun, ABServer.act, ABServer.pick, hj]
    have h1 := leads_serve E c src a ss p (.pick j 0) trivial
    rw [hpick] at h1
    have hcall := getElem?_setCall hj ⟨d, .sending msg ch rest⟩
    have hpanic : (a.setCall j ⟨d, .sending msg ch rest⟩).panicked = false := hrun
    have h2 := leads_send (E := E) (p := p) hpanic hcall (hid.setCall j _)
    rw [setCall_setCall] at h2
    have hnext := getElem?_setCall hj ⟨d, .ranging msg rest⟩
    have hserved : ∀ ch' ∈ rest, ∃ id, Served c src (a.setCall j ⟨d, .ranging msg rest⟩) ss id ch' := by
      intro ch' hch'
      obtain ⟨id', hid'⟩ := hs ch' (List.mem_cons_of_mem ch hch')
      exact ⟨id', hid'.setCall j _⟩
    have hpanic' : (a.setCall j ⟨d, .ranging msg rest⟩).panicked = false := hrun
    obtain ⟨p', h3, hcount⟩ := ih (Function.update p id (p id ++ [(src, msg)])) hpanic' hnext hserved
    rw [setCall_setCall] at h3
    refine ⟨p', h1.trans (h2.trans h3), fun id' e => ?_⟩
    have hrest := hcount id' e
    have hleads : (a.setCall j ⟨d, .ranging msg rest⟩).leadsTo id' = a.leadsTo id' := rfl
    have hch : a.leadsTo id' ch = if id = id' then 1 else 0 := by simp [ABServer.leadsTo, hid.handler]
    rw [hleads] at hrest
    rw [hrest, Lib.tally_cons, hch]
    by_cases heq : id' = id
    · subst heq
      by_cases he : e = (src, msg)
      · simp [he]
        omega
      · simp [he, Ne.symm he]
    · simp [heq, Ne.symm heq]

/-- The goroutines `p'` are those of `p`, and each replica that the server of `src` knows has new ones for the messages `ms`
that are for it. -/
structure Brings (a : ABServer) (src : Int64) (ms : List Sent) (p p' : Int64 → List (Int64 × Pb.Message)) : Prop where
  known : ∀ id ∈ a.sendChan, ∀ msg, (p' id).count (src, msg) = (p id).count (src, msg) + tally (Sent.addressed id msg) ms
  other : ∀ id s msg, s ≠ src → (p' id).count (s, msg) = (p id).count (s, msg)

/-- Every channel of the map works. -/
def AllServed (c : Cluster) (src : Int64) (a : ABServer) (streams : List Stream) : Prop :=
  ∀ id ch, a.sendChan.lookup id = some ch → Served c src a streams id ch

private theorem exists_leads_broadcast (E : NetEnv) (p : Int64 → List (Int64 × Pb.Message)) (hopen : a.Open)
    (hs : AllServed c src a ss) (hj : a.calls[j]? = some ⟨none, .locking msg⟩) :
    ∃ p', Leads E (c.withServer src a ss p) (c.withServer src (a.setCall j ⟨none, .returned none⟩) ss p') ∧
      Brings a src [⟨none, msg⟩] p p' := by
  have hrun := hopen.running
  have hcall := leads_serve E c src a ss p (.rLock j) trivial
  have hstep : a.step (.rLock j) = a.setCall j ⟨none, .ranging msg (a.sendChan.entries.map fun e => e.2)⟩ := by
    simp [ABServer.step, hrun, ABServer.act, ABServer.rLock, hj]
  rw [hstep] at hcall
  have hnext := getElem?_setCall hj ⟨none, .ranging msg (a.sendChan.entries.map fun e => e.2)⟩
  have hserved : ∀ ch ∈ a.sendChan.entries.map (fun e => e.2),
      ∃ id, Served c src (a.setCall j ⟨none, .ranging msg (a.sendChan.entries.map fun e => e.2)⟩) ss id ch := by
    intro ch hch
    obtain ⟨e, he, rfl⟩ := List.mem_map.1 hch
    exact ⟨e.1, (hs e.1 e.2 (AList.mem_lookup_iff.2 he)).setCall j _⟩
  have hpanic : (a.setCall j ⟨none, .ranging msg (a.sendChan.entries.map fun e => e.2)⟩).panicked = false := hrun
  obtain ⟨p', h, hcount⟩ := exists_leads_range E c src ss p hpanic hnext hserved
  rw [setCall_setCall] at h
  refine ⟨p', hcall.trans h, fun id hid msg' => ?_, fun id s msg' hs => by simp [hcount, hs]⟩
  have htally : tally ((a.setCall j ⟨none, .ranging msg (a.sendChan.entries.map fun e => e.2)⟩).leadsTo id)
      (a.sendChan.entries.map fun e => e.2) = 1 := by
    have hone : a.sendChan.keys.count id = 1 := List.count_eq_one_of_mem a.sendChan.keys_nodup hid
    rw [← hone, ← hopen.tally_entries id]
    rfl
  rw [hcount, htally]
  by_cases hm : msg' = msg
  · simp [Sent.addressed, hm]
  · simp [Sent.addressed, hm, Ne.symm hm]

private theorem exists_leads_unicast (E : NetEnv) (p : Int64 → List (Int64 × Pb.Message)) (hrun : a.panicked = false)
    (hs : AllServed c src a ss) {dest : Int64} (hj : a.calls[j]? = some ⟨some dest, .locking msg⟩) :
    ∃ err p', Leads E (c.withServer src a ss p) (c.withServer src (a.setCall j ⟨some dest, .returned err⟩) ss p') ∧
      Brings a src [⟨some dest, msg⟩] p p' := by
  have hcall := leads_serve E c src a ss p (.rLock j) trivial
  cases hl : a.sendChan.lookup dest with
  | none =>
    have hstep : a.step (.rLock j) = a.setCall j ⟨some dest, .returned (some (.invalidNode dest))⟩ := by
      simp [ABServer.step, hrun, ABServer.act, ABServer.rLock, hj, hl]
    rw [hstep] at hcall
    refine ⟨_, p, hcall, fun id hid msg' => ?_, fun _ _ _ _ => rfl⟩
    have hne : dest ≠ id := by
      rintro rfl
      rw [← AList.lookup_isSome, hl] at hid
      cases hid
    simp [Sent.addressed, hne]
  | some ch =>
    have hstep : a.step (.rLock j) = a.setCall j ⟨some dest, .sending msg ch []⟩ := by
      simp [ABServer.step, hrun, ABServer.act, ABServer.rLock, hj, hl]
    rw [hstep] at hcall
    have hnext := getElem?_setCall hj ⟨some dest, .sending msg ch []⟩
    have hpanic : (a.setCall j ⟨some dest, .sending msg ch []⟩).panicked = false := hrun
    have hsend := leads_send (E := E) (p := p) hpanic hnext ((hs dest ch hl).setCall j _)
    rw [setCall_setCall] at hsend
    have hlast := getElem?_setCall hj ⟨some dest, .ranging msg []⟩
    have hpanic' : (a.setCall j ⟨some dest, .ranging msg []⟩).panicked = false := hrun
    obtain ⟨p', h, hcount⟩ := exists_leads_range E c src ss (Function.update p dest (p dest ++ [(src, msg)])) hpanic' hlast
      (by simp)
    rw [setCall_setCall] at h
    refine ⟨none, p', hcall.trans (hsend.trans h), fun id _ msg' => ?_, fun id s msg' hs => ?_⟩
    · rw [hcount]
      by_cases hid : id = dest
      · subst hid
        by_cases hm : msg' = msg
        · simp [Sent.addressed, hm]
        · simp [Sent.addressed, hm, Ne.symm hm]
      · simp [Sent.addressed, hid, Ne.symm hid]
    · rw [hcount]
      by_cases hid : id = dest
      · subst hid
        simp [hs, Ne.symm hs]
      · simp [hs, hid]

/-- A call runs from its beginning to its end: each replica that the server knows and the message is for has it. -/
private theorem exists_leads_call (E : NetEnv) (p : Int64 → List (Int64 × Pb.Message)) (hopen : a.Open)
    (hs : AllServed c src a ss) {m : Sent} (hj : a.calls[j]? = some (begun m)) :
    ∃ err p', Leads E (c.withServer src a ss p) (c.withServer src (a.setCall j ⟨m.dest, .returned err⟩) ss p') ∧
      Brings a src [m] p p' := by
  obtain ⟨dest, msg⟩ := m
  cases dest with
  | none => exact ⟨none, exists_leads_broadcast E p hopen hs hj⟩
  | some dest => exact exists_leads_unicast E p hopen.running hs hj

private theorem exists_leads_calls (E : NetEnv) (p : Int64 → List (Int64 × Pb.Message)) {done : List ABServer.Call}
    {todo : List Sent} (hopen : a.Open) (hs : AllServed c src a ss) (hcalls : a.calls = done ++ todo.map begun) :
    ∃ calls p', Leads E (c.withServer src a ss p) (c.withServer src { a with calls := calls } ss p') ∧
      (∀ x ∈ calls, x ∈ done ∨ ∃ err, x.place = .returned err) ∧ Brings a src todo p p' := by
  induction todo generalizing a p done with
  | nil =>
    refine ⟨a.calls, p, Leads.refl _, fun x hx => Or.inl ?_, ⟨by simp, fun _ _ _ _ => rfl⟩⟩
    simpa [hcalls] using hx
  | cons m todo ih =>
    have hj : a.calls[done.length]? = some (begun m) := by
      rw [hcalls, List.getElem?_append_right (Nat.le_refl _)]
      simp
    obtain ⟨err, p1, h1, hbrings1⟩ := exists_leads_call E p hopen hs hj
    have hopen1 : (a.setCall done.length ⟨m.dest, .returned err⟩).Open := hopen.setCall (by simp [ABServer.Call.targets])
    have hs1 : AllServed c src (a.setCall done.length ⟨m.dest, .returned err⟩) ss :=
      fun id ch hl => (hs id ch hl).setCall done.length _
    have hcalls1 : (a.setCall done.length ⟨m.dest, .returned err⟩).calls =
        (done ++ [⟨m.dest, .returned err⟩]) ++ todo.map begun := by
      simp [ABServer.setCall, hcalls]
    obtain ⟨calls, p2, h2, hplaces, hbrings2⟩ := ih p1 hopen1 hs1 hcalls1
    refine ⟨calls, p2, h1.trans h2, fun x hx => ?_, fun id hid msg => ?_, fun id s msg hsrc => ?_⟩
    · rcases hplaces x hx with hx | hx
      · rcases List.mem_append.1 hx with hx | hx
        · exact Or.inl hx
        · rw [List.mem_singleton.1 hx]
          exact Or.inr ⟨err, rfl⟩
      · exact Or.inr hx
    · have hfirst := hbrings1.known id hid msg
      have hrest := hbrings2.known id hid msg
      simp only [Lib.tally_cons, Lib.tally_nil] at hfirst ⊢
      omega
    · rw [hbrings2.other id s msg hsrc, hbrings1.other id s msg hsrc]

end Server

/-! ### Between two actions -/

private theorem posts_eq {a : ABServer} (hrun : a.panicked = false) (ms : List Sent) :
    ms.foldl post a = { a with calls := a.calls ++ ms.map begun } := by
  induction ms generalizing a with
  | nil => simp
  | cons m ms ih =>
    have hpost : post a m = { a with calls := a.calls ++ [begun m] } := by
      unfold post
      split
      · rename_i hd
        simp [ABServer.step, hrun, ABServer.act, ABServer.broadcast, begun, hd]
      · rename_i dest hd
        simp [ABServer.step, hrun, ABServer.act, ABServer.unicast, begun, hd]
    have hrest := ih (a := { a with calls := a.calls ++ [begun m] }) hrun
    rw [List.foldl_cons, hpost, hrest]
    simp

private theorem open_withCalls {a : ABServer} (h : a.Open) {calls : List ABServer.Call}
    (ht : ∀ x ∈ calls, x.targets = []) :
    ({ a with calls := calls }).Open where
  opened := h.opened
  entry := h.entry
  fresh := h.fresh
  made := h.made
  target x hx ch hch := by
    rw [ht x hx] at hch
    cases hch
  once := h.once
  running := h.running

private theorem targets_of_returned {x : ABServer.Call} (h : ∃ err, x.place = .returned err) : x.targets = [] := by
  obtain ⟨err, hp⟩ := h
  simp [ABServer.Call.targets, hp]

/-- Nothing is on its way but what waits for the loops, and all channels work. -/
structure Quiet (c : Cluster) : Prop where
  opened : ∀ src, (c.server src).Open
  calls : ∀ src, ∀ x ∈ (c.server src).calls, ∃ err, x.place = .returned err
  served : ∀ src, AllServed c src (c.server src) (c.streams src)
  worker : ∀ {id src ch}, c.worker id src = some ch → (c.server src).sendChan.lookup id = some ch
  lengths : ∀ src, (c.streams src).length = (c.server src).handlers.length

/-- The server of `src` has a channel for `id`. -/
def Linked (c : Cluster) (id src : Int64) : Prop := id ∈ (c.server src).sendChan

private theorem quiet_start (ids : List Int64) : Quiet (start ids) where
  opened _ := ABServer.open_newABServer
  calls _ x hx := by cases hx
  served src id ch hl := by
    have hnone : (ABServer.newABServer).sendChan.lookup id = none := AList.lookup_empty id
    have hl' : (ABServer.newABServer).sendChan.lookup id = some ch := hl
    rw [hnone] at hl'
    cases hl'
  worker h := by cases h
  lengths _ := rfl

/-- The server has other calls, all of which have returned. -/
def Settled (a a' : ABServer) : Prop :=
  ∃ calls, a' = { a with calls := calls } ∧ ∀ x ∈ calls, ∃ err, x.place = .returned err

private theorem Quiet.of_settled {c c' : Cluster} (h : Quiet c)
    (hserver : ∀ src, Settled (c.server src) (c'.server src))
    (hstreams : c'.streams = c.streams) (hworker : c'.worker = c.worker) : Quiet c' where
  opened src := by
    obtain ⟨calls, heq, hreturned⟩ := hserver src
    rw [heq]
    exact open_withCalls (h.opened src) fun x hx => targets_of_returned (hreturned x hx)
  calls src x hx := by
    obtain ⟨calls, heq, hreturned⟩ := hserver src
    rw [heq] at hx
    exact hreturned x hx
  served src id ch hl := by
    obtain ⟨calls, heq, -⟩ := hserver src
    rw [heq] at hl ⊢
    rw [hstreams]
    exact (h.served src id ch hl).withCalls hworker calls
  worker {id src ch} hw := by
    obtain ⟨calls, heq, -⟩ := hserver src
    rw [heq]
    rw [hworker] at hw
    exact h.worker hw
  lengths src := by
    obtain ⟨calls, heq, -⟩ := hserver src
    rw [heq, hstreams]
    exact h.lengths src

private theorem Linked.of_settled {c c' : Cluster} {id src : Int64} (h : c.Linked id src)
    (hserver : Settled (c.server src) (c'.server src)) : c'.Linked id src := by
  obtain ⟨calls, heq, -⟩ := hserver
  unfold Linked
  rw [heq]
  exact h

/-- A replica acts, and what it sends comes to the goroutines of those it is for. -/
private theorem Quiet.exists_actNode {c : Cluster} (h : Quiet c) (E : NetEnv) (id : Int64) (a : Action) :
    ∃ c', Leads E (c.actNode E id a) c' ∧ Quiet c' ∧ c'.net = c.net.step E (id, a) ∧
      (∀ i s, c.Linked i s → c'.Linked i s) ∧
      ∀ i s msg, c.Linked i s → (c'.pending i).count (s, msg) + (c.net s).sentTo i msg =
        (c.pending i).count (s, msg) + (c'.net s).sentTo i msg := by
  obtain ⟨ms, hms, -⟩ := Node.exists_step_sent (E.node id) (c.net id) a
  have hself : c.net.step E (id, a) id = (c.net id).step (E.node id) a := Net.step_self E c.net (id, a)
  have hdrop : ((c.net.step E (id, a) id).sent.drop (c.net id).sent.length) = ms := by
    rw [hself, hms, List.drop_left]
  have hopen := (posts_spec (h.opened id) ms).1
  have hposts := posts_eq (h.opened id).running ms
  rw [hposts] at hopen
  -- the calls begin, and then run one after the other
  have hact : c.actNode E id a = { c with net := c.net.step E (id, a) }.withServer id
      { c.server id with calls := (c.server id).calls ++ ms.map begun } (c.streams id) c.pending := by
    simp [actNode, withServer, hdrop, hposts]
  have hserved : AllServed { c with net := c.net.step E (id, a) } id
      { c.server id with calls := (c.server id).calls ++ ms.map begun } (c.streams id) := by
    intro i ch hl
    refine (h.served id i ch hl).withCalls ?_ _
    rfl
  obtain ⟨calls, p, hleads, hplaces, hbrings⟩ := exists_leads_calls E c.pending hopen hserved rfl
  rw [← hact] at hleads
  have hsettled : ∀ src, Settled (c.server src)
      (Function.update c.server id { c.server id with calls := calls } src) := by
    intro src
    by_cases hsrc : src = id
    · subst hsrc
      rw [Function.update_self]
      exact ⟨calls, rfl, fun x hx => (hplaces x hx).elim (h.calls src x) fun hx => hx⟩
    · rw [Function.update_of_ne hsrc]
      exact ⟨(c.server src).calls, rfl, h.calls src⟩
  refine ⟨_, hleads, ?_, rfl, fun i s hl => hl.of_settled (hsettled s), fun i s msg hl => ?_⟩
  · exact h.of_settled hsettled (Function.update_eq_self id c.streams) rfl
  · by_cases hsrc : s = id
    · subst hsrc
      have hone := hbrings.known i hl msg
      have hsent : (c.net.step E (s, a) s).sentTo i msg = (c.net s).sentTo i msg + tally (Sent.addressed i msg) ms := by
        simp only [Node.sentTo, hself, hms, Lib.tally_append]
      simp only [withServer]
      omega
    · have hone := hbrings.other i s msg hsrc
      have hsent : c.net.step E (id, a) s = c.net s := Net.step_of_ne E c.net hsrc
      simp only [withServer, hone, hsent]

/-! ### The workers connect -/

/-- A server that has one more client: its handler has registered the channel and waits for messages. -/
def linkedServer (a : ABServer) (id : Int64) : ABServer :=
  { a with
    sendChan := a.sendChan.insert id a.handlers.length
    latest := a.latest.insert id a.handlers.length
    handlers := a.handlers ++ [⟨id, .receiving, none, false⟩] }

private theorem register_handshake {a : ABServer} (hrun : a.panicked = false) (hfree : a.Free) {id : Int64}
    (hl : a.sendChan.lookup id = none) :
    (a.step (.handshake id)).step (.register a.handlers.length) = linkedServer a id := by
  have hhandshake : a.step (.handshake id) = { a with handlers := a.handlers ++ [⟨id, .registering, none, false⟩] } := by
    simp [ABServer.step, hrun, ABServer.act]
  have hfree' : ({ a with handlers := a.handlers ++ [⟨id, .registering, none, false⟩], panicked := false } : ABServer).Free :=
    hfree
  rw [hhandshake]
  simp [ABServer.step, hrun, ABServer.act, ABServer.register, hfree', hl, ABServer.enter, ABServer.setHandler, linkedServer]

/-- The worker of `id` reads a new stream of `peer`. -/
def link (c : Cluster) (id peer : Int64) : Cluster :=
  { c with
    server := Function.update c.server peer (linkedServer (c.server peer) id)
    streams := Function.update c.streams peer (c.streams peer ++ [⟨id, []⟩])
    worker := Function.update c.worker id (Function.update (c.worker id) peer (some (c.streams peer).length))
    manager := Function.update c.manager id ((c.manager id).setConnected peer true) }

section Link

variable {c : Cluster} {id peer : Int64}

private theorem Quiet.free (h : Quiet c) (src : Int64) : (c.server src).Free := by
  intro x hx
  obtain ⟨err, hp⟩ := h.calls src x hx
  simp [ABServer.Call.holdsLock, hp]

private theorem Quiet.leads_link (h : Quiet c) (E : NetEnv) (hw : (c.manager id).HasWorker peer)
    (hl : (c.server peer).sendChan.lookup id = none) : Leads E c (c.link id peer) := by
  have hnone : c.worker id peer = none := by
    cases hworker : c.worker id peer with
    | none => rfl
    | some ch =>
      rw [h.worker hworker] at hl
      cases hl
  have hdial : c.step E (id, .dial peer) =
      (c.openStream peer (dialContext id)).setWorker id peer (some (c.streams peer).length) := by
    simp [step, dial, hw, hnone]
  have hregister : ((c.openStream peer (dialContext id)).setWorker id peer (some (c.streams peer).length)).step E
      (peer, .serve (.register (c.server peer).handlers.length)) = c.link id peer := by
    have hserver := register_handshake (h.opened peer).running (h.free peer) hl
    simp [step, serve, ABServer.Move.IsOwn, openStream, setWorker, extractRemoteAddress_dial, hserver, link, putOn,
      ABServer.output]
  rw [← hregister, ← hdial]
  exact (leads_single _).trans (leads_single _)

private theorem Quiet.link (h : Quiet c) (hl : (c.server peer).sendChan.lookup id = none) : Quiet (c.link id peer) := by
  have hserver := register_handshake (h.opened peer).running (h.free peer) hl
  have hlen := h.lengths peer
  refine ⟨fun src => ?_, fun src x hx => ?_, fun src i ch hch => ?_, fun {i src ch} hw => ?_, fun src => ?_⟩
  · by_cases hsrc : src = peer
    · subst hsrc
      simp only [Cluster.link, Function.update_self, ← hserver]
      exact ((h.opened src).step _).step _
    · simp only [Cluster.link, Function.update_of_ne hsrc]
      exact h.opened src
  · by_cases hsrc : src = peer
    · subst hsrc
      simp only [Cluster.link, Function.update_self] at hx
      exact h.calls src x hx
    · simp only [Cluster.link, Function.update_of_ne hsrc] at hx
      exact h.calls src x hx
  · by_cases hsrc : src = peer
    · subst hsrc
      simp only [Cluster.link, Function.update_self, linkedServer] at hch ⊢
      by_cases hi : i = id
      · subst hi
        rw [AList.lookup_insert] at hch
        obtain rfl := Option.some.inj hch
        refine ⟨by simp, fun hclosed => ?_, by simp [← hlen], by simp [hlen]⟩
        exact Nat.lt_irrefl _ ((h.opened src).made _ hclosed)
      · rw [AList.lookup_insert_ne hi] at hch
        have hold := h.served src i ch hch
        refine ⟨?_, hold.opened, ?_, ?_⟩
        · exact (List.getElem?_append_left (List.getElem?_eq_some_iff.1 hold.handler).1).trans hold.handler
        · exact (List.getElem?_append_left (List.getElem?_eq_some_iff.1 hold.stream).1).trans hold.stream
        · simp only [Function.update_of_ne hi]
          exact hold.worker
    · simp only [Cluster.link, Function.update_of_ne hsrc] at hch ⊢
      have hold := h.served src i ch hch
      refine ⟨hold.handler, hold.opened, hold.stream, ?_⟩
      by_cases hi : i = id
      · subst hi
        simp only [Function.update_self, Function.update_of_ne hsrc]
        exact hold.worker
      · simp only [Function.update_of_ne hi]
        exact hold.worker
  · by_cases hi : i = id
    · subst hi
      simp only [Cluster.link, Function.update_self] at hw ⊢
      by_cases hsrc : src = peer
      · subst hsrc
        rw [Function.update_self] at hw ⊢
        rw [← hw, hlen]
        exact AList.lookup_insert _
      · rw [Function.update_of_ne hsrc] at hw ⊢
        exact h.worker hw
    · simp only [Cluster.link, Function.update_of_ne hi] at hw ⊢
      by_cases hsrc : src = peer
      · subst hsrc
        rw [Function.update_self]
        exact (AList.lookup_insert_ne hi).trans (h.worker hw)
      · rw [Function.update_of_ne hsrc]
        exact h.worker hw
  · by_cases hsrc : src = peer
    · subst hsrc
      simp [Cluster.link, linkedServer, hlen]
    · simp only [Cluster.link, Function.update_of_ne hsrc]
      exact h.lengths src

private theorem linked_link (i src : Int64) :
    (c.link id peer).Linked i src ↔ (i = id ∧ src = peer) ∨ c.Linked i src := by
  by_cases hsrc : src = peer
  · subst hsrc
    simp [Linked, link, linkedServer]
  · simp [Linked, link, hsrc]

private theorem hasWorker_link (i p : Int64) :
    ((c.link id peer).manager i).HasWorker p ↔ (c.manager i).HasWorker p := by
  by_cases hi : i = id
  · subst hi
    simp [link, NodeManager.HasWorker]
  · simp [link, hi]

end Link

private theorem exists_linked (E : NetEnv) (ids : List Int64) (pairs : List (Int64 × Int64))
    (hw : ∀ q ∈ pairs, ((start ids).manager q.1).HasWorker q.2) :
    ∃ c, Leads E (start ids) c ∧ Quiet c ∧ c.net = Net.start ∧ (∀ id, c.pending id = []) ∧
      (∀ i p, (c.manager i).HasWorker p ↔ ((start ids).manager i).HasWorker p) ∧ ∀ q ∈ pairs, c.Linked q.1 q.2 := by
  induction pairs with
  | nil => exact ⟨_, Leads.refl _, quiet_start ids, rfl, fun _ => rfl, fun _ _ => Iff.rfl, by simp⟩
  | cons q pairs ih =>
    obtain ⟨c, hleads, hquiet, hnet, hpending, hworker, hlinked⟩ := ih fun q' hq' => hw q' (List.mem_cons_of_mem q hq')
    cases hl : (c.server q.2).sendChan.lookup q.1 with
    | some ch =>
      refine ⟨c, hleads, hquiet, hnet, hpending, hworker, fun q' hq' => ?_⟩
      rcases List.mem_cons.1 hq' with rfl | hq'
      · exact AList.lookup_isSome.1 (by simp [hl])
      · exact hlinked q' hq'
    | none =>
      have hdials : (c.manager q.1).HasWorker q.2 := (hworker q.1 q.2).2 (hw q List.mem_cons_self)
      refine ⟨c.link q.1 q.2, hleads.trans (hquiet.leads_link E hdials hl), hquiet.link hl, hnet, hpending,
        fun i p => (hasWorker_link i p).trans (hworker i p), fun q' hq' => (linked_link q'.1 q'.2).2 ?_⟩
      rcases List.mem_cons.1 hq' with rfl | hq'
      · exact Or.inl ⟨rfl, rfl⟩
      · exact Or.inr (hlinked q' hq')

/-! ### Runs -/

/-- The replicas are where the actions lead and all are connected; each message that has been sent to a replica has arrived
or waits for its loop. -/
structure Ready (E : NetEnv) (ids : List Int64) (acts : List (Int64 × Action)) (c : Cluster) : Prop where
  quiet : Quiet c
  net : c.net = run (Net.step E) Net.start acts
  linked : ∀ id ∈ ids, ∀ src ∈ ids, src ≠ id → c.Linked id src
  count : ∀ id ∈ ids, ∀ src ∈ ids, src ≠ id → ∀ msg,
    Net.deliveries id src msg acts + (c.pending id).count (src, msg) = (c.net src).sentTo id msg

private theorem exists_ready (E : NetEnv) (ids : List Int64) : ∃ c, Leads E (start ids) c ∧ Ready E ids [] c := by
  have hw : ∀ q ∈ (ids ×ˢ ids).filter (fun q => q.2 ≠ q.1), ((start ids).manager q.1).HasWorker q.2 := by
    intro q hq
    obtain ⟨hmem, hne⟩ := List.mem_filter.1 hq
    obtain ⟨hid, hsrc⟩ := List.mem_product.1 hmem
    obtain ⟨hself, hnodes, -⟩ := newNodeManager_spec q.1 ids
    rw [if_pos hid] at hself
    refine ⟨by simp [start, hself], (hnodes q.2).2 hsrc, fun heq => ?_⟩
    have heq' := hself.symm.trans heq
    exact of_decide_eq_true hne (Option.some.inj heq').symm
  obtain ⟨c, hleads, hquiet, hnet, hpending, -, hlinked⟩ := exists_linked E ids _ hw
  refine ⟨c, hleads, hquiet, hnet, fun id hid src hsrc hne => ?_, fun id _ src _ _ msg => ?_⟩
  · exact hlinked (id, src) (List.mem_filter.2 ⟨List.mem_product.2 ⟨hid, hsrc⟩, decide_eq_true hne⟩)
  · rw [hnet, hpending]
    rfl

section Runs

variable {E : NetEnv} {ids : List Int64} {acts : List (Int64 × Action)} {c : Cluster}

private theorem exists_ready_actNode (hquiet : Quiet c) (hnet : c.net = run (Net.step E) Net.start acts)
    (hlinked : ∀ id ∈ ids, ∀ src ∈ ids, src ≠ id → c.Linked id src) (x : Int64 × Action)
    (hcount : ∀ id ∈ ids, ∀ src ∈ ids, src ≠ id → ∀ msg,
      Net.deliveries id src msg (acts ++ [x]) + (c.pending id).count (src, msg) = (c.net src).sentTo id msg) :
    ∃ c', Leads E (c.actNode E x.1 x.2) c' ∧ Ready E ids (acts ++ [x]) c' := by
  obtain ⟨c', hleads, hquiet', hnet', hkept, hsent⟩ := hquiet.exists_actNode E x.1 x.2
  refine ⟨c', hleads, hquiet', ?_, fun id hid src hsrc hne => hkept id src (hlinked id hid src hsrc hne),
    fun id hid src hsrc hne msg => ?_⟩
  · rw [hnet', hnet, Lib.run_append]
    rfl
  · have hold := hcount id hid src hsrc hne msg
    have hnew := hsent id src msg (hlinked id hid src hsrc hne)
    omega

theorem Ready.step (h : Ready E ids acts c) {x : Int64 × Action} (hx : Net.Deliverable E ids acts x) :
    ∃ c', Leads E c c' ∧ Ready E ids (acts ++ [x]) c' := by
  obtain ⟨id, a⟩ := x
  cases ha : a.arrival with
  | none =>
    obtain ⟨c', hleads, hready⟩ := exists_ready_actNode h.quiet h.net h.linked (id, a) (by
      intro i hi src hsrc hne msg
      rw [Net.deliveries_of_arrival_none ha]
      exact h.count i hi src hsrc hne msg)
    have hstep : c.step E (id, .act a) = c.actNode E id a := by simp [Cluster.step, ha]
    rw [← hstep] at hleads
    exact ⟨c', (leads_single _).trans hleads, hready⟩
  | some e =>
    obtain ⟨src, msg⟩ := e
    obtain rfl : a = .message src msg := by
      cases a <;> simp_all [Action.arrival]
    obtain ⟨hsrc, hid, hne, hlt⟩ : src ∈ ids ∧ id ∈ ids ∧ src ≠ id ∧
        Net.deliveries id src msg acts < (run (Net.step E) Net.start acts src).sentTo id msg := hx
    -- the message has been sent more often than it has arrived, so a goroutine waits with it
    have hmem : (src, msg) ∈ c.pending id := by
      have hcount := h.count id hid src hsrc hne msg
      rw [h.net] at hcount
      exact List.count_pos_iff.1 (by omega)
    obtain ⟨k, hk⟩ := List.getElem?_of_mem hmem
    have hquiet : Quiet (c.dropPending id k) :=
      h.quiet.of_settled (fun src => ⟨(c.server src).calls, rfl, h.quiet.calls src⟩) rfl rfl
    obtain ⟨c', hleads, hready⟩ := exists_ready_actNode hquiet h.net h.linked (id, .message src msg) (by
      intro i hi src' hsrc' hne' msg'
      have hcount := h.count i hi src' hsrc' hne' msg'
      have hpending := count_dropPending hk i src' msg'
      rw [Net.deliveries_message]
      have hnet : (c.dropPending id k).net = c.net := rfl
      rw [hnet]
      omega)
    have hstep : c.step E (id, .take k) = (c.dropPending id k).actNode E id (.message src msg) := by
      simp [Cluster.step, take, hk]
    rw [← hstep] at hleads
    exact ⟨c', (leads_single _).trans hleads, hready⟩

/-- Whatever the plain network does can be done on the transport. -/
private theorem exists_ready_run (E : NetEnv) (ids : List Int64) {acts : List (Int64 × Action)}
    (h : StepsMeet Net.record (Net.Deliverable E ids) [] acts) : ∃ c, Leads E (start ids) c ∧ Ready E ids acts c := by
  induction acts using List.reverseRecOn with
  | nil => exact exists_ready E ids
  | append_singleton acts x ih =>
    obtain ⟨hacts, hx⟩ := Net.stepsMeet_snoc.1 h
    obtain ⟨c, hleads, hready⟩ := ih hacts
    obtain ⟨c', hleads', hready'⟩ := hready.step hx
    exact ⟨c', hleads.trans hleads', hready'⟩

end Runs

end Cluster

/-- Any run of the plain network in which a message arrives at most as often as it has been sent can be had on the transport,
and no message is lost there: there are moves of replicas, servers and workers that lead to the same states, and that leave
each message that a replica has sent to another and that has not arrived in a goroutine of the receiver. -/
theorem transport_complete (E : NetEnv) (ids : List Int64) (acts : List (Int64 × Action))
    (h : StepsMeet Net.record (Net.Deliverable E ids) [] acts) :
    ∃ moves : List (Int64 × Cluster.Move),
      (run (Cluster.step E) (Cluster.start ids) moves).net = run (Net.step E) Net.start acts ∧
      ∀ id ∈ ids, ∀ src ∈ ids, src ≠ id → ∀ msg,
        Net.deliveries id src msg acts + ((run (Cluster.step E) (Cluster.start ids) moves).pending id).count (src, msg) =
          (run (Net.step E) Net.start acts src).sentTo id msg := by
  obtain ⟨c, ⟨moves, rfl⟩, hready⟩ := Cluster.exists_ready_run E ids h
  refine ⟨moves, hready.net, fun id hid src hsrc hne msg => ?_⟩
  rw [← hready.net]
  exact hready.count id hid src hsrc hne msg

/-- Replicas `1` and `2` are given a command and forward it to the leader; what replica `1` has sent arrives. -/
def Server.forwardRun : List (Int64 × Action) :=
  proposingRun.map (fun a => (1, a)) ++ proposingRun.map (fun a => (2, a)) ++ [(0, .message 1 (.forward [1]))]

/-- What replica `2` has sent waits at the leader. -/
theorem transport_complete_server :
    ∃ moves : List (Int64 × Cluster.Move),
      (run (Cluster.step Server.netEnv) (Cluster.start [0, 1, 2, 3]) moves).net =
        run (Net.step Server.netEnv) Net.start Server.forwardRun ∧
      ((run (Cluster.step Server.netEnv) (Cluster.start [0, 1, 2, 3]) moves).pending 0).count (2, .forward [1]) = 1 := by
  obtain ⟨moves, hnet, hcount⟩ := transport_complete Server.netEnv [0, 1, 2, 3] Server.forwardRun (by decide +kernel)
  refine ⟨moves, hnet, ?_⟩
  have hwaits := hcount 0 (by decide) 2 (by decide) (by decide) (.forward [1])
  have hsent : (run (Net.step Server.netEnv) Net.start Server.forwardRun 2).sentTo 0 (.forward [1]) = 1 := by decide +kernel
  have harrived : Net.deliveries 0 2 (.forward [1]) Server.forwardRun = 0 := by decide
  omega

end GoHotstuff
