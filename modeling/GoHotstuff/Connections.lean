import Mathlib.Data.List.Count
import GoHotstuff.Transport
import GoHotstuff.Lib.Decimal
import GoHotstuff.Lib.Tally

/-!
# Connections between replicas (`consensus/connection.go`, `transport/abclient.go`)

Each replica has a worker for each other one, which connects to the other's broadcast server under its own id and hands on
what it receives.  The id travels as text in the metadata of the stream (`extractRemoteAddress_dial`).

The second part follows a message through the broadcast server: `owes` counts the copies of a message for a replica that
the server's calls and handlers have taken over and not yet put on a stream.  A call adds at most one copy for each replica
(`owes_broadcast`, `owes_unicast`), and nothing the server does by itself makes another one (`owes_step`).
-/

namespace GoHotstuff

open Lib (tally)

/-! ### The handshake -/

/-- What `extractRemoteAddress` looks for in the context of a stream: the text under `replicaid` in the metadata, and whether
the peer is known. -/
structure StreamContext where
  replicaid : Option (List Char)
  peer : Bool
deriving DecidableEq

/-- The id of the remote replica; an error of `strconv.Atoi` is ignored.  The address is used for the log only. -/
def extractRemoteAddress (ctx : StreamContext) : Int64 :=
  if ctx.peer then
    match ctx.replicaid with
    | none => 0
    | some value => Lib.atoi value
  else 0

/-- The context of a stream that `NewBroadcastClient` opens. -/
def dialContext (replicaId : Int64) : StreamContext := ⟨some (Lib.itoa replicaId), true⟩

/-- The server knows a replica by the id it has dialled with. -/
theorem extractRemoteAddress_dial (replicaId : Int64) : extractRemoteAddress (dialContext replicaId) = replicaId :=
  Lib.atoi_itoa replicaId

/-! ### The node manager -/

structure NodeInfo where
  id : Int64
  connected : Bool
deriving DecidableEq

structure NodeManager where
  self : Option Int64
  nodes : AList (fun _ : Int64 => NodeInfo)

namespace NodeManager

/-- One turn of the loop of `NewNodeManager`. -/
def addNode (id : Int64) (mgr : NodeManager) (node : NodeInfo) : NodeManager :=
  if node.id = id then { self := some id, nodes := mgr.nodes.insert node.id { node with connected := true } }
  else { mgr with nodes := mgr.nodes.insert node.id node }

def newNodeManager (id : Int64) (replicas : List NodeInfo) : NodeManager := replicas.foldl (addNode id) ⟨none, ∅⟩

/-- A worker sets the flag of its node. -/
def setConnected (mgr : NodeManager) (id : Int64) (connected : Bool) : NodeManager :=
  match mgr.nodes.lookup id with
  | none => mgr
  | some node => { mgr with nodes := mgr.nodes.insert id { node with connected := connected } }

def getConnectStatus (mgr : NodeManager) (id : Int64) : Bool :=
  match mgr.nodes.lookup id with
  | none => false
  | some node => node.connected

/-- `ConnectWorkers` starts a worker for every node but the replica itself. -/
def HasWorker (mgr : NodeManager) (id : Int64) : Prop := mgr.self.isSome ∧ id ∈ mgr.nodes ∧ mgr.self ≠ some id

instance (mgr : NodeManager) (id : Int64) : Decidable (mgr.HasWorker id) :=
  inferInstanceAs (Decidable (mgr.self.isSome ∧ id ∈ mgr.nodes ∧ mgr.self ≠ some id))

section Status

variable {mgr : NodeManager} {id id' : Int64} {connected : Bool}

theorem getConnectStatus_setConnected (h : id ∈ mgr.nodes) :
    (mgr.setConnected id connected).getConnectStatus id = connected := by
  obtain ⟨node, hnode⟩ := Option.isSome_iff_exists.1 (AList.lookup_isSome.2 h)
  simp [setConnected, getConnectStatus, hnode]

theorem getConnectStatus_setConnected_of_ne (h : id' ≠ id) :
    (mgr.setConnected id connected).getConnectStatus id' = mgr.getConnectStatus id' := by
  unfold setConnected
  split
  · rfl
  · simp [getConnectStatus, AList.lookup_insert_ne h]

@[simp]
theorem setConnected_self : (mgr.setConnected id connected).self = mgr.self := by
  unfold setConnected
  split <;> rfl

@[simp]
theorem mem_setConnected : id' ∈ (mgr.setConnected id connected).nodes ↔ id' ∈ mgr.nodes := by
  unfold setConnected
  split
  · rfl
  · rename_i node hnode
    have hmem : id ∈ mgr.nodes := AList.lookup_isSome.1 (by simp [hnode])
    simp only [AList.mem_insert]
    constructor
    · rintro (rfl | h)
      · exact hmem
      · exact h
    · exact Or.inr

end Status

end NodeManager

/-! ### Messages that the server has taken over -/

namespace ABServer

/-- `1` if the channel leads to replica `id`. -/
def leadsTo (a : ABServer) (id : Int64) (ch : Nat) : Nat :=
  if (a.handlers[ch]?).map (fun h => h.src) = some id then 1 else 0

/-- The handler is sending `msg` to replica `id`. -/
def Handler.owes (id : Int64) (msg : Pb.Message) (h : Handler) : Nat :=
  if h.src = id ∧ h.place = .sending msg then 1 else 0

/-- The copies of `msg` that the call will still hand over for replica `id`. -/
def Call.owes (leadsTo : Nat → Nat) (id : Int64) (msg : Pb.Message) (c : Call) : Nat :=
  match c.place with
  | .locking m => if m = msg ∧ (c.dest = none ∨ c.dest = some id) then 1 else 0
  | .ranging m rest => if m = msg then tally leadsTo rest else 0
  | .sending m ch rest => if m = msg then leadsTo ch + tally leadsTo rest else 0
  | .returned _ => 0

def owes (a : ABServer) (id : Int64) (msg : Pb.Message) : Nat :=
  tally (Handler.owes id msg) a.handlers + tally (Call.owes (a.leadsTo id) id msg) a.calls

/-- The message that a move puts on the stream of a handler. -/
def output (a : ABServer) : Move → Option (Nat × Pb.Message)
  | .sendReturns i none =>
    match a.handlers[i]? with
    | none => none
    | some h =>
      match h.place with
      | .sending msg => some (i, msg)
      | _ => none
  | _ => none

/-- `1` if the move puts `msg` on a stream of replica `id`. -/
def passes (a : ABServer) (id : Int64) (msg : Pb.Message) (mv : Move) : Nat :=
  tally (fun o => if o.2 = msg then a.leadsTo id o.1 else 0) (a.output mv).toList

/-- The moves that calls and handlers make by themselves. -/
def Move.IsOwn : Move → Prop
  | .handshake _ => False
  | .broadcast _ => False
  | .unicast .. => False
  | _ => True

instance : (mv : Move) → Decidable mv.IsOwn
  | .handshake _ | .broadcast _ | .unicast .. => .isFalse id
  | .register _ | .sendReturns .. | .remove _ | .finish _ | .rLock _ | .pick .. | .deliver _ | .rUnlock _ => .isTrue trivial

section Owes

variable {a : ABServer} (id : Int64) (msg : Pb.Message)

private theorem leadsTo_setHandler {i : Nat} {h : Handler} (h' : Handler) (hi : a.handlers[i]? = some h)
    (hsrc : h'.src = h.src) :
    (a.setHandler i h').leadsTo id = a.leadsTo id := by
  funext ch
  have hclient : ((a.setHandler i h').handlers[ch]?).map (fun h => h.src) = (a.handlers[ch]?).map fun h => h.src := by
    rw [← List.getElem?_map, ← List.getElem?_map]
    exact congrArg (fun l : List Int64 => l[ch]?) (Lib.map_set_of_eq hi hsrc)
  unfold leadsTo
  rw [hclient]

private theorem owes_setHandler {i : Nat} {h : Handler} (h' : Handler) (hi : a.handlers[i]? = some h)
    (hsrc : h'.src = h.src) :
    (a.setHandler i h').owes id msg + h.owes id msg = a.owes id msg + h'.owes id msg := by
  have hset := Lib.tally_set (w := Handler.owes id msg) h' hi
  have hleads := leadsTo_setHandler id h' hi hsrc
  unfold owes
  rw [hleads]
  simp only [setHandler]
  omega

private theorem owes_setCall {j : Nat} {c : Call} (c' : Call) (hj : a.calls[j]? = some c) :
    (a.setCall j c').owes id msg + c.owes (a.leadsTo id) id msg = a.owes id msg + c'.owes (a.leadsTo id) id msg := by
  have hset := Lib.tally_set (w := Call.owes (a.leadsTo id) id msg) c' hj
  have hleads : (a.setCall j c').leadsTo id = a.leadsTo id := rfl
  unfold owes
  rw [hleads]
  simp only [setCall]
  omega

/-- A channel of the map leads to the replica it is filed under. -/
private theorem Open.leadsTo_eq (hinv : a.Open) {src : Int64} {ch : Nat} (hl : a.sendChan.lookup src = some ch) :
    a.leadsTo id ch = if src = id then 1 else 0 := by
  obtain ⟨h, hh, hsrc, -⟩ := hinv.entry src ch hl
  simp [leadsTo, hh, hsrc]

/-- The map has one channel for each replica it knows. -/
theorem Open.tally_entries (hinv : a.Open) :
    tally (a.leadsTo id) (a.sendChan.entries.map fun e => e.2) = a.sendChan.keys.count id := by
  have hkeys : ∀ es ⊆ a.sendChan.entries, tally (a.leadsTo id) (es.map fun e => e.2) = (es.map fun e => e.1).count id := by
    intro es hes
    induction es with
    | nil => rfl
    | cons e es ih =>
      have hmem : e ∈ a.sendChan.entries := hes List.mem_cons_self
      have hhead := hinv.leadsTo_eq id (AList.mem_lookup_iff.2 hmem)
      have htail := ih fun x hx => hes (List.mem_cons_of_mem e hx)
      simp only [List.map_cons, Lib.tally_cons, htail, hhead, List.count_cons, beq_iff_eq]
      omega
  exact hkeys _ (List.Subset.refl _)

private theorem Open.tally_entries_le (hinv : a.Open) :
    tally (a.leadsTo id) (a.sendChan.entries.map fun e => e.2) ≤ 1 := by
  rw [hinv.tally_entries id]
  exact List.nodup_iff_count_le_one.1 a.sendChan.keys_nodup id

/-! ### The server by itself -/

private theorem owes_register (a : ABServer) (i : Nat) : (a.register i).owes id msg = a.owes id msg := by
  unfold register
  split
  · rfl
  rename_i h hi
  split
  · rename_i hp
    have hset := owes_setHandler id msg { h with place := .receiving } hi rfl
    have hbefore : h.owes id msg = 0 := by simp [Handler.owes, hp.1]
    have hafter : Handler.owes id msg { h with place := .receiving } = 0 := by simp [Handler.owes]
    have heq : (a.setHandler i { h with place := .receiving }).owes id msg = a.owes id msg := by omega
    split
    · split
      · rfl
      · exact heq
    · exact heq
  · rfl

private theorem owes_sendReturns (a : ABServer) (i : Nat) (err : Option String) :
    (a.sendReturns i err).owes id msg + a.passes id msg (.sendReturns i err) ≤ a.owes id msg := by
  unfold passes sendReturns
  cases hi : a.handlers[i]? with
  | none => cases err <;> simp [output, hi]
  | some h =>
    cases hp : h.place with
    | sending m =>
      have hbefore : h.owes id msg = if m = msg then a.leadsTo id i else 0 := by
        by_cases hm : m = msg
        · simp [Handler.owes, hp, hm, leadsTo, hi]
        · simp [Handler.owes, hp, hm]
      cases err with
      | none =>
        have hset := owes_setHandler id msg { h with place := .receiving, err := none } hi rfl
        have hafter : Handler.owes id msg { h with place := .receiving, err := none } = 0 := by simp [Handler.owes]
        simp only [hp, output, hi, Option.toList_some, Lib.tally_cons, Lib.tally_nil]
        omega
      | some e =>
        have hset := owes_setHandler id msg { h with place := .removing, err := some e, failed := true } hi rfl
        have hafter : Handler.owes id msg { h with place := .removing, err := some e, failed := true } = 0 := by
          simp [Handler.owes]
        simp only [hp, output, Option.toList_none, Lib.tally_nil]
        omega
    | _ => cases err <;> simp [hp, output, hi]

/-- A handler between two places at which it sends nothing. -/
private theorem owes_setHandler_idle {i : Nat} {h : Handler} (h' : Handler) (hi : a.handlers[i]? = some h)
    (hsrc : h'.src = h.src) (hp : ∀ m, h'.place ≠ .sending m) : (a.setHandler i h').owes id msg ≤ a.owes id msg := by
  have hset := owes_setHandler id msg h' hi hsrc
  have hafter : h'.owes id msg = 0 := by simp [Handler.owes, hp]
  omega

private theorem owes_rLock (hinv : a.Open) (j : Nat) : (a.rLock j).owes id msg ≤ a.owes id msg := by
  unfold rLock
  split
  · exact Nat.le_refl _
  rename_i c hj
  split
  · rename_i m hp
    split
    · rename_i hdest
      have hset := owes_setCall id msg ⟨none, .ranging m (a.sendChan.entries.map fun e => e.2)⟩ hj
      have hle : Call.owes (a.leadsTo id) id msg ⟨none, .ranging m (a.sendChan.entries.map fun e => e.2)⟩ ≤
          c.owes (a.leadsTo id) id msg := by
        have := hinv.tally_entries_le id
        by_cases hm : m = msg
        · simpa [Call.owes, hp, hdest, hm] using this
        · simp [Call.owes, hm]
      omega
    · rename_i dest hdest
      split
      · have hset := owes_setCall id msg ⟨some dest, .returned (some (.invalidNode dest))⟩ hj
        have hafter : Call.owes (a.leadsTo id) id msg ⟨some dest, .returned (some (.invalidNode dest))⟩ = 0 := rfl
        omega
      · rename_i ch hch
        have hset := owes_setCall id msg ⟨some dest, .sending m ch []⟩ hj
        have hle : Call.owes (a.leadsTo id) id msg ⟨some dest, .sending m ch []⟩ ≤ c.owes (a.leadsTo id) id msg := by
          have := hinv.leadsTo_eq id hch
          by_cases hm : m = msg
          · simp [Call.owes, hp, hdest, hm, this]
          · simp [Call.owes, hm]
        omega
  · exact Nat.le_refl _

private theorem owes_pick (a : ABServer) (j k : Nat) : (a.pick j k).owes id msg = a.owes id msg := by
  unfold pick
  split
  · rfl
  rename_i c hj
  split
  · rename_i m rest hp
    split
    · rfl
    · rename_i ch hk
      have hset := owes_setCall id msg { c with place := .sending m ch (rest.eraseIdx k) } hj
      have htally := Lib.tally_eraseIdx (w := a.leadsTo id) hk
      have heq : Call.owes (a.leadsTo id) id msg { c with place := .sending m ch (rest.eraseIdx k) } =
          c.owes (a.leadsTo id) id msg := by
        simp only [Call.owes, hp]
        split <;> omega
      omega
  · rfl

/-- What the call has less, the handler has more. -/
private theorem owes_deliver (a : ABServer) (j : Nat) : (a.deliver j).owes id msg = a.owes id msg := by
  unfold deliver
  split
  · rfl
  rename_i c hj
  split
  · rename_i m ch rest hp
    split
    · rfl
    split
    · rfl
    rename_i h hh
    split
    · rename_i hr
      have hhandler := owes_setHandler id msg { h with place := .sending m } hh rfl
      have hleads := leadsTo_setHandler id { h with place := .sending m } hh rfl
      have hcalls : (a.setHandler ch { h with place := .sending m }).calls[j]? = some c := hj
      have hcall := owes_setCall id msg { c with place := .ranging m rest } hcalls
      rw [hleads] at hcall
      have hidle : h.owes id msg = 0 := by simp [Handler.owes, hr]
      have hmoved : Handler.owes id msg { h with place := .sending m } +
          Call.owes (a.leadsTo id) id msg { c with place := .ranging m rest } = c.owes (a.leadsTo id) id msg := by
        by_cases hm : m = msg
        · simp [Handler.owes, Call.owes, hp, hm, leadsTo, hh]
        · simp [Handler.owes, Call.owes, hp, hm]
      omega
    · rfl
  · rfl

private theorem owes_rUnlock (a : ABServer) (j : Nat) : (a.rUnlock j).owes id msg = a.owes id msg := by
  unfold rUnlock
  split
  · rfl
  rename_i c hj
  split
  · rename_i m hp
    have hset := owes_setCall id msg { c with place := .returned none } hj
    have hbefore : c.owes (a.leadsTo id) id msg = 0 := by simp [Call.owes, hp]
    have hafter : Call.owes (a.leadsTo id) id msg { c with place := .returned none } = 0 := rfl
    omega
  · rfl

/-- Nothing the server does by itself makes a new copy of a message; the one that is put on a stream it has no longer. -/
theorem owes_step (hinv : a.Open) {mv : Move} (hown : mv.IsOwn) :
    (a.step mv).owes id msg + a.passes id msg mv ≤ a.owes id msg := by
  have hrun : a.step mv = a.act mv := by simp [step, hinv.running]
  rw [hrun]
  cases mv with
  | handshake src => cases hown
  | broadcast msg => cases hown
  | unicast msg dest => cases hown
  | register i => exact Nat.le_of_eq (owes_register id msg a i)
  | sendReturns i err => exact owes_sendReturns id msg a i err
  | remove i =>
    show (a.remove i).owes id msg + 0 ≤ a.owes id msg
    unfold remove
    split
    · exact Nat.le_refl _
    rename_i h hi
    split
    · exact owes_setHandler_idle id msg { h with place := .receiving } hi rfl (by simp)
    · exact Nat.le_refl _
  | finish i =>
    show (a.finish i).owes id msg + 0 ≤ a.owes id msg
    unfold finish
    split
    · exact Nat.le_refl _
    rename_i h hi
    split
    · exact owes_setHandler_idle id msg { h with place := .returned } hi rfl (by simp)
    · exact Nat.le_refl _
  | rLock j => exact owes_rLock id msg hinv j
  | pick j k => exact Nat.le_of_eq (owes_pick id msg a j k)
  | deliver j => exact Nat.le_of_eq (owes_deliver id msg a j)
  | rUnlock j => exact Nat.le_of_eq (owes_rUnlock id msg a j)

/-! ### What others ask of the server -/

/-- A new handler has nothing to send, and no call knows it. -/
theorem owes_handshake (hinv : a.Open) (src : Int64) : (a.step (.handshake src)).owes id msg = a.owes id msg := by
  have hrun : a.step (.handshake src) = { a with handlers := a.handlers ++ [⟨src, .registering, none, false⟩] } := by
    simp [step, hinv.running, act]
  have hleads : ∀ ch < a.handlers.length,
      leadsTo { a with handlers := a.handlers ++ [⟨src, .registering, none, false⟩] } id ch = a.leadsTo id ch := by
    intro ch hch
    simp only [leadsTo, List.getElem?_append_left hch]
  have htargets : ∀ c ∈ a.calls, ∀ ch ∈ c.targets, ch < a.handlers.length := by
    intro c hc ch hch
    obtain ⟨src, hsrc⟩ := hinv.target c hc ch hch
    obtain ⟨h, hh, -⟩ := hinv.entry src ch hsrc
    exact (List.getElem?_eq_some_iff.1 hh).1
  have hcalls : ∀ c ∈ a.calls,
      c.owes (leadsTo { a with handlers := a.handlers ++ [⟨src, .registering, none, false⟩] } id) id msg =
        c.owes (a.leadsTo id) id msg := by
    intro c hc
    have hlt := htargets c hc
    unfold Call.targets at hlt
    unfold Call.owes
    split
    · rfl
    · rename_i m rest hp
      simp only [hp] at hlt
      rw [Lib.tally_congr fun ch hch => hleads ch (hlt ch hch)]
    · rename_i m ch rest hp
      simp only [hp] at hlt
      rw [Lib.tally_congr fun ch hch => hleads ch (hlt ch (List.mem_cons_of_mem _ hch)),
        hleads ch (hlt ch List.mem_cons_self)]
    · rfl
  rw [hrun]
  unfold owes
  rw [Lib.tally_congr hcalls]
  simp [Handler.owes]

theorem owes_broadcast (hinv : a.Open) (m : Pb.Message) :
    (a.step (.broadcast (some m))).owes id msg = a.owes id msg + if m = msg then 1 else 0 := by
  have hrun : a.step (.broadcast (some m)) = { a with calls := a.calls ++ [⟨none, .locking m⟩] } := by
    simp [step, hinv.running, act, broadcast]
  have hleads : leadsTo { a with calls := a.calls ++ [⟨none, .locking m⟩] } id = a.leadsTo id := rfl
  rw [hrun]
  unfold owes
  rw [hleads]
  simp [Call.owes]
  omega

theorem owes_unicast (hinv : a.Open) (m : Pb.Message) (dest : Int64) :
    (a.step (.unicast (some m) dest)).owes id msg = a.owes id msg + if m = msg ∧ dest = id then 1 else 0 := by
  have hrun : a.step (.unicast (some m) dest) = { a with calls := a.calls ++ [⟨some dest, .locking m⟩] } := by
    simp [step, hinv.running, act, unicast]
  have hleads : leadsTo { a with calls := a.calls ++ [⟨some dest, .locking m⟩] } id = a.leadsTo id := rfl
  rw [hrun]
  unfold owes
  rw [hleads]
  simp [Call.owes]
  omega

end Owes

end ABServer

end GoHotstuff
