import Mathlib.Data.List.AList
import Mathlib.Data.List.Induction
import GoHotstuff.Pb
import GoHotstuff.Lib.Run

/-!
# The broadcast server (`transport/abserver.go`)

An `ABServer` has any number of `Handshake` handlers and of `Broadcast` and `Unicast` calls at work, each at its place in
the code.  The critical sections under the write lock contain nothing that blocks, so each is one move, possible while
no call holds the read lock (`Free`); a call holds the read lock from one move to another, and sends to a handler in a
move of both.  Go's lock stops new readers while a writer waits; here they need not wait, which allows more runs.

A handler makes one channel, so a channel is the number of its handler.  `closes` is the history of the calls of `close`,
`latest` the last handler that has been registered for a replica.

The channels of `sendChan` are open in every reachable state and nobody sends on a closed one (`channels_open`).  But a
call may wait for a handler that waits for the call's own lock (`broadcast_deadlock`), and a handler that fails may delete
the entry of its successor (`live_channel_lost`).
-/

namespace GoHotstuff

open Lib (run StepsMeet)

/-! ### State -/

namespace ABServer

/-- The errors of `Broadcast` and `Unicast`. -/
inductive CallError where
  /-- broadcast msg is null -/
  | broadcastNull
  /-- unicast msg is null -/
  | unicastNull
  /-- unicast msg to invalid replica node -/
  | invalidNode (dest : Int64)
deriving DecidableEq

inductive HandlerPlace where
  /-- before the section that registers the channel -/
  | registering
  /-- at the head of the loop -/
  | receiving
  /-- in `srv.Send` -/
  | sending (msg : Pb.Message)
  /-- behind a failed `srv.Send`, before the section that deletes the entry -/
  | removing
  | returned
deriving DecidableEq

/-- A call of `Handshake`: `err` is its variable, `failed` says whether a `srv.Send` has ever failed. -/
structure Handler where
  src : Int64
  place : HandlerPlace
  err : Option String
  failed : Bool
deriving DecidableEq

inductive CallPlace where
  /-- before `RLock` -/
  | locking (msg : Pb.Message)
  /-- in the loop over the channels, with the ones that are left -/
  | ranging (msg : Pb.Message) (rest : List Nat)
  /-- at `ch <- msg` -/
  | sending (msg : Pb.Message) (ch : Nat) (rest : List Nat)
  | returned (err : Option CallError)
deriving DecidableEq

/-- A call of `Unicast` to `dest`, or of `Broadcast`. -/
structure Call where
  dest : Option Int64
  place : CallPlace
deriving DecidableEq

/-- The channels the call has still to send to.  It holds the read lock while it is at such a place. -/
def Call.targets (c : Call) : List Nat :=
  match c.place with
  | .ranging _ rest => rest
  | .sending _ ch rest => ch :: rest
  | _ => []

def Call.holdsLock (c : Call) : Bool :=
  match c.place with
  | .ranging .. | .sending .. => true
  | _ => false

/-- The channel on which the call waits to send. -/
def Call.waitsFor (c : Call) : Option Nat :=
  match c.place with
  | .sending _ ch _ => some ch
  | _ => none

/-- The handler waits for the write lock. -/
def Handler.AwaitsLock (h : Handler) : Prop := h.place = .registering ∨ h.place = .removing

instance (h : Handler) : Decidable h.AwaitsLock :=
  inferInstanceAs (Decidable (h.place = .registering ∨ h.place = .removing))

end ABServer

structure ABServer where
  sendChan : AList (fun _ : Int64 => Nat)
  handlers : List ABServer.Handler
  calls : List ABServer.Call
  closes : List Nat
  latest : AList (fun _ : Int64 => Nat)
  panicked : Bool

namespace ABServer

def newABServer : ABServer := ⟨∅, [], [], [], ∅, false⟩

/-- No call holds the read lock. -/
def Free (a : ABServer) : Prop := ∀ c ∈ a.calls, c.holdsLock = false

instance (a : ABServer) : Decidable a.Free := inferInstanceAs (Decidable (∀ c ∈ a.calls, c.holdsLock = false))

/-! ### Handlers -/

def setHandler (a : ABServer) (i : Nat) (h : Handler) : ABServer := { a with handlers := a.handlers.set i h }

def setCall (a : ABServer) (j : Nat) (c : Call) : ABServer := { a with calls := a.calls.set j c }

/-- The channel `i` of handler `h` gets its entry. -/
def enter (a : ABServer) (i : Nat) (h : Handler) : ABServer :=
  { a with sendChan := a.sendChan.insert h.src i, latest := a.latest.insert h.src i }.setHandler i
    { h with place := .receiving }

/-- The first section of `Handshake`.  The channel it finds in its place is closed. -/
def register (a : ABServer) (i : Nat) : ABServer :=
  match a.handlers[i]? with
  | none => a
  | some h =>
    if h.place = .registering ∧ a.Free then
      match a.sendChan.lookup h.src with
      | some oldChan =>
        if oldChan ∈ a.closes then { a with panicked := true }
        else { a with closes := a.closes ++ [oldChan] }.enter i h
      | none => a.enter i h
    else a

/-- `srv.Send` returns `err`. -/
def sendReturns (a : ABServer) (i : Nat) (err : Option String) : ABServer :=
  match a.handlers[i]? with
  | none => a
  | some h =>
    match h.place with
    | .sending _ =>
      match err with
      | none => a.setHandler i { h with place := .receiving, err := none }
      | some e => a.setHandler i { h with place := .removing, err := some e, failed := true }
    | _ => a

/-- The section of the error path.  The loop goes on. -/
def remove (a : ABServer) (i : Nat) : ABServer :=
  match a.handlers[i]? with
  | none => a
  | some h =>
    if h.place = .removing ∧ a.Free then
      { a with sendChan := a.sendChan.erase h.src }.setHandler i { h with place := .receiving }
    else a

/-- The loop ends at a closed channel. -/
def finish (a : ABServer) (i : Nat) : ABServer :=
  match a.handlers[i]? with
  | none => a
  | some h => if h.place = .receiving ∧ i ∈ a.closes then a.setHandler i { h with place := .returned } else a

/-! ### Calls -/

def broadcast (a : ABServer) (msg : Option Pb.Message) : ABServer :=
  match msg with
  | none => { a with calls := a.calls ++ [⟨none, .returned (some .broadcastNull)⟩] }
  | some msg => { a with calls := a.calls ++ [⟨none, .locking msg⟩] }

def unicast (a : ABServer) (msg : Option Pb.Message) (dest : Int64) : ABServer :=
  match msg with
  | none => { a with calls := a.calls ++ [⟨some dest, .returned (some .unicastNull)⟩] }
  | some msg => { a with calls := a.calls ++ [⟨some dest, .locking msg⟩] }

/-- The channels a call finds behind `RLock`. -/
def channelsFor (a : ABServer) (c : Call) : List Nat :=
  match c.place with
  | .locking _ =>
    match c.dest with
    | none => a.sendChan.entries.map fun e => e.2
    | some dest => (a.sendChan.lookup dest).toList
  | _ => []

/-- `RLock`, and for `Unicast` the look-up behind it. -/
def rLock (a : ABServer) (j : Nat) : ABServer :=
  match a.calls[j]? with
  | none => a
  | some c =>
    match c.place with
    | .locking msg =>
      match c.dest with
      | none => a.setCall j ⟨none, .ranging msg (a.sendChan.entries.map fun e => e.2)⟩
      | some dest =>
        match a.sendChan.lookup dest with
        | none => a.setCall j ⟨some dest, .returned (some (.invalidNode dest))⟩
        | some ch => a.setCall j ⟨some dest, .sending msg ch []⟩
    | _ => a

/-- The loop over the map goes on with the `k`-th of the channels that are left: any order is possible. -/
def pick (a : ABServer) (j k : Nat) : ABServer :=
  match a.calls[j]? with
  | none => a
  | some c =>
    match c.place with
    | .ranging msg rest =>
      match rest[k]? with
      | none => a
      | some ch => a.setCall j { c with place := .sending msg ch (rest.eraseIdx k) }
    | _ => a

/-- The call and the handler meet at the channel.  To send on a closed channel is a panic. -/
def deliver (a : ABServer) (j : Nat) : ABServer :=
  match a.calls[j]? with
  | none => a
  | some c =>
    match c.place with
    | .sending msg ch rest =>
      if ch ∈ a.closes then { a with panicked := true }
      else
        match a.handlers[ch]? with
        | none => a
        | some h =>
          if h.place = .receiving then
            (a.setHandler ch { h with place := .sending msg }).setCall j { c with place := .ranging msg rest }
          else a
    | _ => a

/-- All channels are served. -/
def rUnlock (a : ABServer) (j : Nat) : ABServer :=
  match a.calls[j]? with
  | none => a
  | some c =>
    match c.place with
    | .ranging _ [] => a.setCall j { c with place := .returned none }
    | _ => a

/-! ### Moves -/

inductive Move where
  | handshake (src : Int64)
  | register (i : Nat)
  | sendReturns (i : Nat) (err : Option String)
  | remove (i : Nat)
  | finish (i : Nat)
  | broadcast (msg : Option Pb.Message)
  | unicast (msg : Option Pb.Message) (dest : Int64)
  | rLock (j : Nat)
  | pick (j k : Nat)
  | deliver (j : Nat)
  | rUnlock (j : Nat)

def act (a : ABServer) : Move → ABServer
  | .handshake src => { a with handlers := a.handlers ++ [⟨src, .registering, none, false⟩] }
  | .register i => a.register i
  | .sendReturns i err => a.sendReturns i err
  | .remove i => a.remove i
  | .finish i => a.finish i
  | .broadcast msg => a.broadcast msg
  | .unicast msg dest => a.unicast msg dest
  | .rLock j => a.rLock j
  | .pick j k => a.pick j k
  | .deliver j => a.deliver j
  | .rUnlock j => a.rUnlock j

/-- Nothing happens after a panic, and nothing where a move is not possible. -/
def step (a : ABServer) (mv : Move) : ABServer := if a.panicked then a else a.act mv

/-- What a move can do. -/
inductive MoveResult (a : ABServer) : Move → ABServer → Prop
  | idle {mv : Move} : MoveResult a mv a
  | handshake {src : Int64} :
      MoveResult a (.handshake src) { a with handlers := a.handlers ++ [⟨src, .registering, none, false⟩] }
  | register {i : Nat} {h : Handler} {closes : List Nat} (hi : a.handlers[i]? = some h) (hp : h.place = .registering)
      (hfree : a.Free) (hold : (a.sendChan.lookup h.src = none ∧ closes = a.closes) ∨
        ∃ old, a.sendChan.lookup h.src = some old ∧ old ∉ a.closes ∧ closes = a.closes ++ [old]) :
      MoveResult a (.register i) ({ a with closes := closes }.enter i h)
  | succeed {i : Nat} {h : Handler} {msg : Pb.Message} (hi : a.handlers[i]? = some h) (hp : h.place = .sending msg) :
      MoveResult a (.sendReturns i none) (a.setHandler i { h with place := .receiving, err := none })
  | fail {i : Nat} {h : Handler} {msg : Pb.Message} {e : String} (hi : a.handlers[i]? = some h)
      (hp : h.place = .sending msg) : MoveResult a (.sendReturns i (some e))
        (a.setHandler i { h with place := .removing, err := some e, failed := true })
  | remove {i : Nat} {h : Handler} (hi : a.handlers[i]? = some h) (hp : h.place = .removing) (hfree : a.Free) :
      MoveResult a (.remove i)
        ({ a with sendChan := a.sendChan.erase h.src }.setHandler i { h with place := .receiving })
  | finish {i : Nat} {h : Handler} (hi : a.handlers[i]? = some h) (hp : h.place = .receiving) :
      MoveResult a (.finish i) (a.setHandler i { h with place := .returned })
  | call {mv : Move} {c : Call} (ht : c.targets = []) : MoveResult a mv { a with calls := a.calls ++ [c] }
  | rLock {j : Nat} {c c' : Call} (hj : a.calls[j]? = some c) (ht : c'.targets = a.channelsFor c) :
      MoveResult a (.rLock j) (a.setCall j c')
  | advance {mv : Move} {j : Nat} {c c' : Call} (hj : a.calls[j]? = some c) (ht : c'.targets ⊆ c.targets) :
      MoveResult a mv (a.setCall j c')
  | deliver {j ch : Nat} {c c' : Call} {h : Handler} {msg : Pb.Message} (hj : a.calls[j]? = some c)
      (ht : c'.targets ⊆ c.targets) (hh : a.handlers[ch]? = some h) (hp : h.place = .receiving) :
      MoveResult a (.deliver j) ((a.setHandler ch { h with place := .sending msg }).setCall j c')
  | panic {mv : Move} (h : (∃ src old, a.sendChan.lookup src = some old ∧ old ∈ a.closes) ∨
      ∃ c ∈ a.calls, ∃ ch ∈ c.targets, ch ∈ a.closes) : MoveResult a mv { a with panicked := true }

private theorem register_result (a : ABServer) (i : Nat) : MoveResult a (.register i) (a.register i) := by
  unfold register
  split
  · exact .idle
  rename_i h hi
  split
  · rename_i hp
    split
    · rename_i old hold
      split
      · rename_i hclosed
        exact .panic (Or.inl ⟨_, old, hold, hclosed⟩)
      · rename_i hopen
        exact .register hi hp.1 hp.2 (Or.inr ⟨old, hold, hopen, rfl⟩)
    · rename_i hnone
      exact .register hi hp.1 hp.2 (Or.inl ⟨hnone, (rfl : a.closes = a.closes)⟩)
  · exact .idle

private theorem rLock_result (a : ABServer) (j : Nat) : MoveResult a (.rLock j) (a.rLock j) := by
  unfold rLock
  split
  · exact .idle
  rename_i c hj
  split
  · rename_i msg hp
    split
    · rename_i hd
      refine .rLock hj ?_
      simp only [Call.targets, channelsFor, hp, hd]
    · rename_i dest hd
      split
      · rename_i hnone
        refine .rLock hj ?_
        simp only [Call.targets, channelsFor, hp, hd, hnone, Option.toList_none]
      · rename_i ch hch
        refine .rLock hj ?_
        simp only [Call.targets, channelsFor, hp, hd, hch, Option.toList_some]
  · exact .idle

private theorem deliver_result (a : ABServer) (j : Nat) : MoveResult a (.deliver j) (a.deliver j) := by
  unfold deliver
  split
  · exact .idle
  rename_i c hj
  split
  · rename_i msg ch rest hp
    split
    · rename_i hclosed
      refine .panic (Or.inr ⟨c, List.mem_of_getElem? hj, ch, ?_, hclosed⟩)
      simp [Call.targets, hp]
    split
    · exact .idle
    rename_i h hh
    split
    · rename_i hr
      refine .deliver hj ?_ hh hr
      simp [Call.targets, hp]
    · exact .idle
  · exact .idle

theorem step_result (a : ABServer) (mv : Move) : MoveResult a mv (a.step mv) := by
  unfold step
  split
  · exact .idle
  cases mv with
  | handshake src => exact .handshake
  | register i => exact register_result a i
  | sendReturns i err =>
    show MoveResult a _ (a.sendReturns i err)
    unfold sendReturns
    split
    · exact .idle
    rename_i h hi
    split
    · rename_i hp
      split
      · exact .succeed hi hp
      · exact .fail hi hp
    · exact .idle
  | remove i =>
    show MoveResult a _ (a.remove i)
    unfold remove
    split
    · exact .idle
    rename_i h hi
    split
    · rename_i hp
      exact .remove hi hp.1 hp.2
    · exact .idle
  | finish i =>
    show MoveResult a _ (a.finish i)
    unfold finish
    split
    · exact .idle
    rename_i h hi
    split
    · rename_i hp
      exact .finish hi hp.1
    · exact .idle
  | broadcast msg => cases msg <;> exact .call rfl
  | unicast msg dest => cases msg <;> exact .call rfl
  | rLock j => exact rLock_result a j
  | pick j k =>
    show MoveResult a _ (a.pick j k)
    unfold pick
    split
    · exact .idle
    rename_i c hj
    split
    · rename_i msg rest hp
      split
      · exact .idle
      · rename_i ch hk
        refine .advance hj ?_
        simp only [Call.targets, hp]
        exact List.cons_subset.2 ⟨List.mem_of_getElem? hk, (List.eraseIdx_sublist _ _).subset⟩
    · exact .idle
  | deliver j => exact deliver_result a j
  | rUnlock j =>
    show MoveResult a _ (a.rUnlock j)
    unfold rUnlock
    split
    · exact .idle
    rename_i c hj
    split
    · exact .advance hj (List.nil_subset _)
    · exact .idle

/-! ### Handlers and calls after a move -/

section Access

variable {a : ABServer} {i j : Nat} {h h' : Handler} {c c' : Call}

private theorem handlers_setHandler (hj : (a.setHandler i h).handlers[j]? = some h') :
    (j = i ∧ h' = h) ∨ (j ≠ i ∧ a.handlers[j]? = some h') := by
  change (a.handlers.set i h)[j]? = some h' at hj
  rw [List.getElem?_set] at hj
  by_cases heq : i = j
  · rw [if_pos heq] at hj
    split at hj
    · exact Or.inl ⟨heq.symm, (Option.some.inj hj).symm⟩
    · cases hj
  · rw [if_neg heq] at hj
    exact Or.inr ⟨Ne.symm heq, hj⟩

private theorem calls_setCall (hc : c' ∈ (a.setCall j c).calls) : c' = c ∨ c' ∈ a.calls :=
  (List.mem_or_eq_of_mem_set hc).symm

private theorem targets_of_free (hfree : a.Free) (hc : c ∈ a.calls) : c.targets = [] := by
  have hlock := hfree c hc
  obtain ⟨dest, place⟩ := c
  cases place with
  | locking msg => rfl
  | ranging msg rest => cases hlock
  | sending msg ch rest => cases hlock
  | returned err => rfl

private theorem mem_targets_of_waitsFor {ch : Nat} (hch : c.waitsFor = some ch) : ch ∈ c.targets := by
  obtain ⟨dest, place⟩ := c
  cases place with
  | sending msg ch' rest =>
    obtain rfl : ch' = ch := Option.some.inj hch
    exact List.mem_cons_self
  | _ => cases hch

private theorem mem_channelsFor {ch : Nat} (hch : ch ∈ a.channelsFor c) : ∃ src, a.sendChan.lookup src = some ch := by
  unfold channelsFor at hch
  split at hch
  · split at hch
    · obtain ⟨e, he, rfl⟩ := List.mem_map.1 hch
      exact ⟨e.1, AList.mem_lookup_iff.2 he⟩
    · rename_i dest _
      exact ⟨dest, Option.mem_toList.1 hch⟩
  · cases hch

end Access

/-! ### The channels of the map -/

/-- The entries of the map are open channels of handlers that have been registered, each under its own replica; a call
that holds the read lock sends only to these. -/
structure Open (a : ABServer) : Prop where
  opened : ∀ src ch, a.sendChan.lookup src = some ch → ch ∉ a.closes
  entry : ∀ src ch, a.sendChan.lookup src = some ch →
    ∃ h, a.handlers[ch]? = some h ∧ h.src = src ∧ h.place ≠ .registering
  fresh : ∀ i h, a.handlers[i]? = some h → h.place = .registering → i ∉ a.closes
  made : ∀ ch ∈ a.closes, ch < a.handlers.length
  target : ∀ c ∈ a.calls, ∀ ch ∈ c.targets, ∃ src, a.sendChan.lookup src = some ch
  once : a.closes.Nodup
  running : a.panicked = false

private theorem Open.setHandler {a : ABServer} (hinv : a.Open) {i : Nat} {h h' : Handler} (hi : a.handlers[i]? = some h)
    (hsrc : h'.src = h.src) (hp : h'.place ≠ .registering) : (a.setHandler i h').Open where
  opened := hinv.opened
  entry src ch hl := by
    obtain ⟨h₀, hh₀, hsrc₀, hp₀⟩ := hinv.entry src ch hl
    by_cases hch : ch = i
    · subst hch
      rw [hi] at hh₀
      obtain rfl := Option.some.inj hh₀
      refine ⟨h', ?_, hsrc.trans hsrc₀, hp⟩
      exact List.getElem?_set_self (List.getElem?_eq_some_iff.1 hi).1
    · refine ⟨h₀, ?_, hsrc₀, hp₀⟩
      rw [← hh₀]
      exact List.getElem?_set_ne (Ne.symm hch)
  fresh k h₀ hk hreg := by
    rcases handlers_setHandler hk with ⟨-, rfl⟩ | ⟨-, hk⟩
    · exact absurd hreg hp
    · exact hinv.fresh k h₀ hk hreg
  made ch hch := by
    show ch < (a.handlers.set i h').length
    rw [List.length_set]
    exact hinv.made ch hch
  target := hinv.target
  once := hinv.once
  running := hinv.running

/-- A call goes on to channels of the map. -/
theorem Open.setCall {a : ABServer} (hinv : a.Open) {j : Nat} {c : Call}
    (ht : ∀ ch ∈ c.targets, ∃ src, a.sendChan.lookup src = some ch) : (a.setCall j c).Open where
  opened := hinv.opened
  entry := hinv.entry
  fresh := hinv.fresh
  made := hinv.made
  target c' hc' := by
    rcases calls_setCall hc' with rfl | hc'
    · exact ht
    · exact hinv.target c' hc'
  once := hinv.once
  running := hinv.running

private theorem Open.enter {a : ABServer} (hinv : a.Open) {i : Nat} {h : Handler} {closes : List Nat}
    (hi : a.handlers[i]? = some h) (hp : h.place = .registering) (hfree : a.Free)
    (hold : (a.sendChan.lookup h.src = none ∧ closes = a.closes) ∨
      ∃ old, a.sendChan.lookup h.src = some old ∧ old ∉ a.closes ∧ closes = a.closes ++ [old]) :
    ({ a with closes := closes }.enter i h).Open := by
  have hlen := (List.getElem?_eq_some_iff.1 hi).1
  -- what has been closed by now is not of a handler that is still to be registered, and not under another replica
  have hcloses : ∀ ch ∈ closes, ch ∈ a.closes ∨ a.sendChan.lookup h.src = some ch := by
    intro ch hch
    rcases hold with ⟨-, rfl⟩ | ⟨old, hl, -, rfl⟩
    · exact Or.inl hch
    · rcases List.mem_append.1 hch with hch | hch
      · exact Or.inl hch
      · rw [List.mem_singleton.1 hch]
        exact Or.inr hl
  have hfresh : ∀ k h', a.handlers[k]? = some h' → h'.place = .registering → k ∉ closes := by
    intro k h' hk hreg hmem
    rcases hcloses k hmem with hmem | hl
    · exact hinv.fresh k h' hk hreg hmem
    · obtain ⟨h₀, hh₀, -, hp₀⟩ := hinv.entry _ _ hl
      rw [hk] at hh₀
      obtain rfl := Option.some.inj hh₀
      exact hp₀ hreg
  constructor
  · intro src ch hl hmem
    change (a.sendChan.insert h.src i).lookup src = some ch at hl
    by_cases hsrc : src = h.src
    · subst hsrc
      rw [AList.lookup_insert] at hl
      obtain rfl := Option.some.inj hl
      exact hfresh i h hi hp hmem
    · rw [AList.lookup_insert_ne hsrc] at hl
      rcases hcloses ch hmem with hmem | hl'
      · exact hinv.opened src ch hl hmem
      · obtain ⟨h₀, hh₀, hsrc₀, -⟩ := hinv.entry _ _ hl
        obtain ⟨h₁, hh₁, hsrc₁, -⟩ := hinv.entry _ _ hl'
        rw [hh₀] at hh₁
        obtain rfl := Option.some.inj hh₁
        exact hsrc (hsrc₀.symm.trans hsrc₁)
  · intro src ch hl
    change (a.sendChan.insert h.src i).lookup src = some ch at hl
    by_cases hsrc : src = h.src
    · subst hsrc
      rw [AList.lookup_insert] at hl
      obtain rfl := Option.some.inj hl
      exact ⟨{ h with place := .receiving }, List.getElem?_set_self hlen, rfl, nofun⟩
    · rw [AList.lookup_insert_ne hsrc] at hl
      obtain ⟨h₀, hh₀, hsrc₀, hp₀⟩ := hinv.entry _ _ hl
      have hch : ch ≠ i := by
        rintro rfl
        rw [hi] at hh₀
        obtain rfl := Option.some.inj hh₀
        exact hp₀ hp
      exact ⟨h₀, (List.getElem?_set_ne (Ne.symm hch)).trans hh₀, hsrc₀, hp₀⟩
  · intro k h' hk hreg
    rcases handlers_setHandler hk with ⟨-, rfl⟩ | ⟨-, hk⟩
    · cases hreg
    · exact hfresh k h' hk hreg
  · intro ch hch
    show ch < (a.handlers.set i _).length
    rw [List.length_set]
    rcases hcloses ch hch with hch | hl
    · exact hinv.made ch hch
    · obtain ⟨h₀, hh₀, -, -⟩ := hinv.entry _ _ hl
      exact (List.getElem?_eq_some_iff.1 hh₀).1
  · intro c hc ch hch
    rw [targets_of_free hfree hc] at hch
    cases hch
  · show closes.Nodup
    rcases hold with ⟨-, rfl⟩ | ⟨old, -, hopen, rfl⟩
    · exact hinv.once
    · rw [← List.concat_eq_append]
      exact hinv.once.concat hopen
  · exact hinv.running

private theorem Open.remove {a : ABServer} (hinv : a.Open) (hfree : a.Free) (src : Int64) :
    ({ a with sendChan := a.sendChan.erase src }).Open := by
  have hsub : ∀ src' ch, (a.sendChan.erase src).lookup src' = some ch → a.sendChan.lookup src' = some ch := by
    intro src' ch hl
    by_cases hsrc : src' = src
    · rw [hsrc, AList.lookup_erase] at hl
      cases hl
    · rwa [AList.lookup_erase_ne hsrc] at hl
  refine ⟨fun src' ch hl => hinv.opened src' ch (hsub src' ch hl), fun src' ch hl => hinv.entry src' ch (hsub src' ch hl),
    hinv.fresh, hinv.made, ?_, hinv.once, hinv.running⟩
  intro c hc ch hch
  rw [targets_of_free hfree hc] at hch
  cases hch

theorem Open.step {a : ABServer} (hinv : a.Open) (mv : Move) : (a.step mv).Open := by
  have hres := step_result a mv
  generalize a.step mv = a' at hres
  cases hres with
  | idle => exact hinv
  | @handshake src =>
    have hget : ∀ {k h}, (a.handlers ++ [⟨src, .registering, none, false⟩])[k]? = some h →
        a.handlers[k]? = some h ∨ k = a.handlers.length := by
      intro k h hk
      rcases Nat.lt_trichotomy k a.handlers.length with hlt | heq | hgt
      · rw [List.getElem?_append_left hlt] at hk
        exact Or.inl hk
      · exact Or.inr heq
      · rw [List.getElem?_eq_none (by simp; omega)] at hk
        cases hk
    refine ⟨hinv.opened, fun src' ch hl => ?_, fun k h hk hreg hmem => ?_, fun ch hch => ?_, hinv.target, hinv.once,
      hinv.running⟩
    · obtain ⟨h, hh, hrest⟩ := hinv.entry src' ch hl
      refine ⟨h, ?_, hrest⟩
      rw [← hh]
      exact List.getElem?_append_left (List.getElem?_eq_some_iff.1 hh).1
    · have hlt := hinv.made k hmem
      rcases hget hk with hk | rfl
      · exact hinv.fresh k h hk hreg hmem
      · exact Nat.lt_irrefl _ hlt
    · have hlt := hinv.made ch hch
      show ch < (a.handlers ++ [_]).length
      rw [List.length_append]
      omega
  | register hi hp hfree hold => exact hinv.enter hi hp hfree hold
  | succeed hi hp => exact hinv.setHandler hi rfl (fun h => by cases h)
  | fail hi hp => exact hinv.setHandler hi rfl (fun h => by cases h)
  | remove hi hp hfree => exact (hinv.remove hfree _).setHandler hi rfl (fun h => by cases h)
  | finish hi hp => exact hinv.setHandler hi rfl (fun h => by cases h)
  | @call _ c ht =>
    refine ⟨hinv.opened, hinv.entry, hinv.fresh, hinv.made, fun c' hc' => ?_, hinv.once, hinv.running⟩
    rcases List.mem_append.1 hc' with hc' | hc'
    · exact hinv.target c' hc'
    · rw [List.mem_singleton.1 hc', ht]
      exact fun _ h => absurd h List.not_mem_nil
  | rLock hj ht =>
    refine hinv.setCall fun ch hch => ?_
    rw [ht] at hch
    exact mem_channelsFor hch
  | advance hj ht => exact hinv.setCall fun ch hch => hinv.target _ (List.mem_of_getElem? hj) ch (ht hch)
  | @deliver j ch c c' h msg hj ht hh hp =>
    have hset : (a.setHandler ch { h with place := .sending msg }).Open :=
      hinv.setHandler hh rfl (fun h => by cases h)
    exact hset.setCall fun ch hch => hinv.target _ (List.mem_of_getElem? hj) ch (ht hch)
  | panic h =>
    -- neither of the two is possible
    rcases h with ⟨src, old, hl, hclosed⟩ | ⟨c, hc, ch, hch, hclosed⟩
    · exact absurd hclosed (hinv.opened src old hl)
    · obtain ⟨src, hl⟩ := hinv.target c hc ch hch
      exact absurd hclosed (hinv.opened src ch hl)

theorem open_newABServer : newABServer.Open where
  opened _ _ hl := by cases hl
  entry _ _ hl := by cases hl
  fresh _ _ hi := by cases hi
  made _ hch := absurd hch List.not_mem_nil
  target _ hc := absurd hc List.not_mem_nil
  once := List.nodup_nil
  running := rfl

private theorem open_run (mvs : List Move) : (run step newABServer mvs).Open := by
  induction mvs using List.reverseRecOn with
  | nil => exact open_newABServer
  | append_singleton mvs mv ih =>
    rw [Lib.run_append]
    exact ih.step mv

end ABServer

/-- In every run the channels of the map are open, no call is about to send on a closed channel, no channel is closed a
second time and the process does not panic. -/
theorem channels_open (mvs : List ABServer.Move) :
    (∀ src ch, (run ABServer.step ABServer.newABServer mvs).sendChan.lookup src = some ch →
      ch ∉ (run ABServer.step ABServer.newABServer mvs).closes) ∧
    (∀ c ∈ (run ABServer.step ABServer.newABServer mvs).calls, ∀ ch, c.waitsFor = some ch →
      ch ∉ (run ABServer.step ABServer.newABServer mvs).closes) ∧
    (run ABServer.step ABServer.newABServer mvs).closes.Nodup ∧
    (run ABServer.step ABServer.newABServer mvs).panicked = false := by
  have hinv := ABServer.open_run mvs
  refine ⟨hinv.opened, fun c hc ch hch => ?_, hinv.once, hinv.running⟩
  obtain ⟨src, hl⟩ := hinv.target c hc ch (ABServer.mem_targets_of_waitsFor hch)
  exact hinv.opened src ch hl

/-! ### Waiting for each other -/

namespace ABServer

/-- A call that holds the read lock waits to send on a channel whose handler waits for the write lock. -/
def Deadlocked (a : ABServer) : Prop :=
  ∃ c ∈ a.calls, ∃ ch ∈ c.waitsFor, ∃ h ∈ a.handlers[ch]?, h.AwaitsLock

instance (a : ABServer) : Decidable a.Deadlocked :=
  inferInstanceAs (Decidable (∃ c ∈ a.calls, ∃ ch ∈ c.waitsFor, ∃ h ∈ a.handlers[ch]?, h.AwaitsLock))

/-- No call takes the read lock to send to a handler behind a failed `srv.Send`, and `srv.Send` does not fail while a call
that holds the lock has still to send to the handler. -/
def Timely (a : ABServer) : Move → Prop
  | .rLock j => ∀ c ∈ a.calls[j]?, ∀ ch ∈ a.channelsFor c, ∀ h ∈ a.handlers[ch]?, h.place ≠ .removing
  | .sendReturns i (some _) => ∀ c ∈ a.calls, i ∉ c.targets
  | _ => True

instance (a : ABServer) : (mv : Move) → Decidable (a.Timely mv)
  | .rLock j => inferInstanceAs (Decidable
      (∀ c ∈ a.calls[j]?, ∀ ch ∈ a.channelsFor c, ∀ h ∈ a.handlers[ch]?, h.place ≠ .removing))
  | .sendReturns i (some _) => inferInstanceAs (Decidable (∀ c ∈ a.calls, i ∉ c.targets))
  | .sendReturns _ none | .handshake _ | .register _ | .remove _ | .finish _ | .broadcast _ | .unicast .. | .pick ..
  | .deliver _ | .rUnlock _ => .isTrue trivial

/-- No call that holds the lock has still to send to a handler behind a failed `srv.Send`. -/
def Served (a : ABServer) : Prop :=
  ∀ c ∈ a.calls, ∀ ch ∈ c.targets, ∀ h, a.handlers[ch]? = some h → h.place ≠ .removing

private theorem Served.setHandler {a : ABServer} (hinv : a.Served) {i : Nat} {h : Handler} (hp : h.place ≠ .removing) :
    (a.setHandler i h).Served := by
  intro c hc ch hch h' hh'
  rcases handlers_setHandler hh' with ⟨-, rfl⟩ | ⟨-, hh'⟩
  · exact hp
  · exact hinv c hc ch hch h' hh'

private theorem Served.setCall {a : ABServer} (hinv : a.Served) {j : Nat} {c : Call}
    (ht : ∀ ch ∈ c.targets, ∀ h, a.handlers[ch]? = some h → h.place ≠ .removing) : (a.setCall j c).Served := by
  intro c' hc'
  rcases calls_setCall hc' with rfl | hc'
  · exact ht
  · exact hinv c' hc'

theorem Served.step {a : ABServer} (hinv : a.Served) {mv : Move} (hg : a.Timely mv) : (a.step mv).Served := by
  have hres := step_result a mv
  generalize a.step mv = a' at hres
  cases hres with
  | idle => exact hinv
  | handshake =>
    intro c hc ch hch h hh
    change (a.handlers ++ [_])[ch]? = some h at hh
    rw [List.getElem?_append] at hh
    split at hh
    · exact hinv c hc ch hch h hh
    · rw [List.getElem?_singleton] at hh
      split at hh
      · obtain rfl := Option.some.inj hh
        exact nofun
      · cases hh
  | register hi hp hfree hold =>
    intro c hc ch hch
    rw [targets_of_free hfree hc] at hch
    cases hch
  | succeed hi hp => exact hinv.setHandler nofun
  | fail hi hp =>
    intro c hc ch hch h' hh'
    rcases handlers_setHandler hh' with ⟨rfl, -⟩ | ⟨-, hh'⟩
    · exact absurd hch (hg c hc)
    · exact hinv c hc ch hch h' hh'
  | remove hi hp hfree =>
    intro c hc ch hch
    rw [targets_of_free hfree hc] at hch
    cases hch
  | finish hi hp => exact hinv.setHandler nofun
  | @call _ c ht =>
    intro c' hc'
    rcases List.mem_append.1 hc' with hc' | hc'
    · exact hinv c' hc'
    · rw [List.mem_singleton.1 hc', ht]
      exact nofun
  | rLock hj ht =>
    refine hinv.setCall fun ch hch h hh => ?_
    rw [ht] at hch
    exact hg _ hj ch hch h hh
  | advance hj ht => exact hinv.setCall fun ch hch => hinv _ (List.mem_of_getElem? hj) ch (ht hch)
  | @deliver j ch c c' h msg hj ht hh hp =>
    have hset : (a.setHandler ch { h with place := .sending msg }).Served := hinv.setHandler nofun
    exact hset.setCall fun ch' hch' h' hh' => hset _ (List.mem_of_getElem? hj) ch' (ht hch') h' hh'
  | panic h => exact hinv

end ABServer

/-- No deadlock, for every interleaving in which `srv.Send` fails only at a time when no call has still to send to the
handler, and no call starts to send to it before it has deleted its entry. -/
theorem no_broadcast_deadlock (mvs : List ABServer.Move)
    (hguard : StepsMeet ABServer.step ABServer.Timely ABServer.newABServer mvs) :
    ¬ (run ABServer.step ABServer.newABServer mvs).Deadlocked := by
  have hserved : (run ABServer.step ABServer.newABServer mvs).Served :=
    hguard.invariant (fun _ _ h hg => h.step hg) nofun
  have hopen := ABServer.open_run mvs
  rintro ⟨c, hc, ch, hch, h, hh, hlock⟩
  have htarget := ABServer.mem_targets_of_waitsFor hch
  rcases hlock with hreg | hrem
  · -- the channels of the map are those of registered handlers
    obtain ⟨src, hl⟩ := hopen.target c hc ch htarget
    obtain ⟨h', hh', -, hp⟩ := hopen.entry src ch hl
    rw [hh] at hh'
    obtain rfl := Option.some.inj hh'
    exact hp hreg
  · exact hserved c hc ch htarget h hh hrem

namespace ABServer

/-- Replica `1` connects, a broadcast reaches its handler and returns. -/
def connected : List Move :=
  [.handshake 1, .register 0, .broadcast (some .unset), .rLock 0, .pick 0 0, .deliver 0, .rUnlock 0]

end ABServer

/-- The send fails, the entry is deleted, and the next broadcast finds no channel. -/
theorem no_broadcast_deadlock_server :
    ¬ (run ABServer.step ABServer.newABServer (ABServer.connected ++
      [.sendReturns 0 (some "EOF"), .remove 0, .broadcast (some .unset), .rLock 1])).Deadlocked :=
  no_broadcast_deadlock (ABServer.connected ++
    [.sendReturns 0 (some "EOF"), .remove 0, .broadcast (some .unset), .rLock 1]) (by decide +kernel)

/-- The next broadcast comes to its send before the first one fails: it waits for the handler, which waits for the lock. -/
theorem broadcast_deadlock :
    (run ABServer.step ABServer.newABServer (ABServer.connected ++
      [.broadcast (some .unset), .rLock 1, .pick 1 0, .sendReturns 0 (some "EOF")])).Deadlocked := by
  decide +kernel

/-! ### Reconnects -/

namespace ABServer

/-- A handler deletes the entry of its replica only while it is its own, or there is none. -/
def OwnEntry (a : ABServer) : Move → Prop
  | .remove i => ∀ h ∈ a.handlers[i]?, ∀ ch ∈ a.sendChan.lookup h.src, ch = i
  | _ => True

instance (a : ABServer) : (mv : Move) → Decidable (a.OwnEntry mv)
  | .remove i => inferInstanceAs (Decidable (∀ h ∈ a.handlers[i]?, ∀ ch ∈ a.sendChan.lookup h.src, ch = i))
  | .handshake _ | .register _ | .sendReturns .. | .finish _ | .broadcast _ | .unicast .. | .rLock _ | .pick ..
  | .deliver _ | .rUnlock _ => .isTrue trivial

/-- The handler registered last has its entry, unless it has failed. -/
structure Live (a : ABServer) : Prop where
  entry : ∀ src i (h : Handler), a.latest.lookup src = some i → a.handlers[i]? = some h → h.failed = false →
    a.sendChan.lookup src = some i
  failed : ∀ (i : Nat) (h : Handler), a.handlers[i]? = some h → h.place = .removing → h.failed = true
  made : ∀ src i, a.latest.lookup src = some i → i < a.handlers.length

private theorem Live.setHandler {a : ABServer} (hinv : a.Live) {i : Nat} {h h' : Handler} (hi : a.handlers[i]? = some h)
    (hf : h'.failed = false → h.failed = false) (hp : h'.place = .removing → h'.failed = true) :
    (a.setHandler i h').Live where
  entry src k h₀ hl hk hok := by
    rcases handlers_setHandler hk with ⟨rfl, rfl⟩ | ⟨-, hk⟩
    · exact hinv.entry src k h hl hi (hf hok)
    · exact hinv.entry src k h₀ hl hk hok
  failed k h₀ hk := by
    rcases handlers_setHandler hk with ⟨-, rfl⟩ | ⟨-, hk⟩
    · exact hp
    · exact hinv.failed k h₀ hk
  made src k hl := by
    show k < (a.handlers.set i h').length
    rw [List.length_set]
    exact hinv.made src k hl

private theorem Live.enter {a : ABServer} (hinv : a.Live) {i : Nat} {h : Handler} (closes : List Nat)
    (hi : a.handlers[i]? = some h) : ({ a with closes := closes }.enter i h).Live := by
  constructor
  · intro src k h₀ hl hk hok
    change (a.latest.insert h.src i).lookup src = some k at hl
    show (a.sendChan.insert h.src i).lookup src = some k
    by_cases hsrc : src = h.src
    · subst hsrc
      rwa [AList.lookup_insert] at hl ⊢
    · rw [AList.lookup_insert_ne hsrc] at hl ⊢
      rcases handlers_setHandler hk with ⟨rfl, rfl⟩ | ⟨-, hk⟩
      · exact hinv.entry src k h hl hi hok
      · exact hinv.entry src k h₀ hl hk hok
  · intro k h₀ hk hrem
    rcases handlers_setHandler hk with ⟨-, rfl⟩ | ⟨-, hk⟩
    · cases hrem
    · exact hinv.failed k h₀ hk hrem
  · intro src k hl
    change (a.latest.insert h.src i).lookup src = some k at hl
    show k < (a.handlers.set i _).length
    rw [List.length_set]
    by_cases hsrc : src = h.src
    · rw [hsrc, AList.lookup_insert] at hl
      obtain rfl := Option.some.inj hl
      exact (List.getElem?_eq_some_iff.1 hi).1
    · rw [AList.lookup_insert_ne hsrc] at hl
      exact hinv.made src k hl

private theorem Live.remove {a : ABServer} (hinv : a.Live) {i : Nat} {h : Handler} (hi : a.handlers[i]? = some h)
    (hp : h.place = .removing) (hown : ∀ ch ∈ a.sendChan.lookup h.src, ch = i) :
    ({ a with sendChan := a.sendChan.erase h.src }).Live where
  entry src k h₀ hl hk hok := by
    have hentry := hinv.entry src k h₀ hl hk hok
    show (a.sendChan.erase h.src).lookup src = some k
    rw [AList.lookup_erase_ne]
    · exact hentry
    · rintro rfl
      obtain rfl := hown k hentry
      rw [hi] at hk
      obtain rfl := Option.some.inj hk
      rw [hinv.failed k h hi hp] at hok
      cases hok
  failed := hinv.failed
  made := hinv.made

theorem Live.step {a : ABServer} (hinv : a.Live) {mv : Move} (hg : a.OwnEntry mv) : (a.step mv).Live := by
  have hres := step_result a mv
  generalize a.step mv = a' at hres
  cases hres with
  | idle => exact hinv
  | handshake =>
    refine ⟨fun src i h hl hi hok => ?_, fun i h hi hrem => ?_, fun src i hl => ?_⟩
    · change (a.handlers ++ [_])[i]? = some h at hi
      rw [List.getElem?_append_left (hinv.made src i hl)] at hi
      exact hinv.entry src i h hl hi hok
    · change (a.handlers ++ [_])[i]? = some h at hi
      rw [List.getElem?_append] at hi
      split at hi
      · exact hinv.failed i h hi hrem
      · rw [List.getElem?_singleton] at hi
        split at hi
        · obtain rfl := Option.some.inj hi
          cases hrem
        · cases hi
    · have hlt := hinv.made src i hl
      show i < (a.handlers ++ [_]).length
      rw [List.length_append]
      omega
  | register hi hp hfree hold => exact hinv.enter _ hi
  | succeed hi hp => exact hinv.setHandler hi (fun h => h) nofun
  | fail hi hp => exact hinv.setHandler hi nofun (fun _ => rfl)
  | remove hi hp hfree => exact (hinv.remove hi hp (hg _ hi)).setHandler hi (fun h => h) nofun
  | finish hi hp => exact hinv.setHandler hi (fun h => h) nofun
  | call ht => exact ⟨hinv.entry, hinv.failed, hinv.made⟩
  | rLock hj ht => exact ⟨hinv.entry, hinv.failed, hinv.made⟩
  | advance hj ht => exact ⟨hinv.entry, hinv.failed, hinv.made⟩
  | @deliver j ch c c' h msg hj ht hh hp =>
    have hset : (a.setHandler ch { h with place := .sending msg }).Live := hinv.setHandler hh (fun h => h) nofun
    exact ⟨hset.entry, hset.failed, hset.made⟩
  | panic h => exact ⟨hinv.entry, hinv.failed, hinv.made⟩

end ABServer

/-- The channel of the handler registered last is the one in the map, unless that handler has had a failing `srv.Send`, for
every interleaving in which a handler that deletes an entry does not find a newer one in its place. -/
theorem live_channel_kept (mvs : List ABServer.Move)
    (hguard : StepsMeet ABServer.step ABServer.OwnEntry ABServer.newABServer mvs) (src : Int64) (i : Nat)
    (h : ABServer.Handler) (hl : (run ABServer.step ABServer.newABServer mvs).latest.lookup src = some i)
    (hi : (run ABServer.step ABServer.newABServer mvs).handlers[i]? = some h) (hok : h.failed = false) :
    (run ABServer.step ABServer.newABServer mvs).sendChan.lookup src = some i := by
  have hlive : (run ABServer.step ABServer.newABServer mvs).Live :=
    hguard.invariant (fun _ _ h hg => h.step hg) ⟨nofun, nofun, nofun⟩
  exact hlive.entry src i h hl hi hok

/-- The first handler fails and deletes its entry before replica `1` connects again. -/
theorem live_channel_kept_server :
    (run ABServer.step ABServer.newABServer (ABServer.connected ++
      [.sendReturns 0 (some "EOF"), .remove 0, .handshake 1, .register 1])).sendChan.lookup 1 = some 1 :=
  live_channel_kept (ABServer.connected ++ [.sendReturns 0 (some "EOF"), .remove 0, .handshake 1, .register 1])
    (by decide +kernel) 1 1 ⟨1, .receiving, none, false⟩ (by decide +kernel) (by decide +kernel) rfl

/-- Replica `1` connects again while the first handler is in `srv.Send`, which fails then.  The first handler deletes the
entry of the second one, which has not failed, and a unicast to the replica is refused. -/
theorem live_channel_lost :
    (run ABServer.step ABServer.newABServer (ABServer.connected ++
      [.handshake 1, .register 1, .sendReturns 0 (some "EOF"), .remove 0])).latest.lookup 1 = some 1 ∧
    (run ABServer.step ABServer.newABServer (ABServer.connected ++
      [.handshake 1, .register 1, .sendReturns 0 (some "EOF"), .remove 0])).handlers[1]? =
        some ⟨1, .receiving, none, false⟩ ∧
    (run ABServer.step ABServer.newABServer (ABServer.connected ++
      [.handshake 1, .register 1, .sendReturns 0 (some "EOF"), .remove 0])).sendChan.lookup 1 = none ∧
    (run ABServer.step ABServer.newABServer (ABServer.connected ++
      [.handshake 1, .register 1, .sendReturns 0 (some "EOF"), .remove 0, .unicast (some .unset) 1,
        .rLock 1])).calls[1]? = some ⟨some 1, .returned (some (.invalidNode 1))⟩ := by
  decide +kernel

end GoHotstuff
