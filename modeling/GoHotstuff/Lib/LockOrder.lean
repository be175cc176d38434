import Mathlib.Data.List.MinMax
import GoHotstuff.Lib.Run

/-!
# Locks that are taken in order

Threads run straight through lists of instructions: they take and release locks, some of them reader/writer locks, hand
something over to a server (`meet`), and wait for something that may never come (`pause`).  The server takes one thing at a
time: a thread that wants to meet it waits until it is back from the last meeting, and for ever once it has stopped.

A thread is disciplined if it takes locks in the order of their ranks, releases them the other way round, holds none when
it ends, and only locks of rank 0 when it pauses.  The locks above rank 0 never block each other then, also where a thread
meets the server while it holds some of them and where a waiting writer keeps new readers out: as long as the server has
not stopped, whenever such a lock is held somebody can go on (`exists_forced`), and whoever goes on, in whatever order,
after a bounded number of steps all of them are free (`drains`).

What a thread does is described by a program with choices and loops (`Code`); its runs are lists of instructions
(`Trace`), and `check` tests on the program that all of them are disciplined (`disciplined_of_check`).
-/

namespace Lib

namespace LockOrder

inductive Mode where
  | read
  | write
deriving DecidableEq

inductive Instr (L : Type) where
  | acquire (l : L) (m : Mode)
  | release (l : L)
  /-- something is handed over to the server -/
  | meet
  /-- a wait for something outside -/
  | pause
deriving DecidableEq

structure Thread (L : Type) where
  held : List (L × Mode)
  rest : List (Instr L)

inductive Server where
  | waiting
  /-- a thread has just been met -/
  | busy
  | stopped
deriving DecidableEq

structure Pool (L : Type) where
  threads : List (Thread L)
  server : Server

variable {L : Type}

def Pool.start : Pool L := ⟨[], .waiting⟩

/-- Nobody holds the lock in a way that excludes mode `m`. -/
def Free (p : Pool L) (l : L) (m : Mode) : Prop :=
  ∀ t ∈ p.threads, ∀ h ∈ t.held, h.1 = l → m = .read ∧ h.2 = .read

/-- The thread can execute its next instruction, if it has one. -/
def MayGo (p : Pool L) (t : Thread L) : Prop :=
  match t.rest with
  | [] => False
  | .acquire l m :: _ => Free p l m
  | .meet :: _ => p.server = .waiting
  | .release _ :: _ => True
  | .pause :: _ => True

/-- The thread can go on without anything from outside, even where a waiting writer keeps new readers out. -/
def Ready (p : Pool L) (t : Thread L) : Prop :=
  match t.rest with
  | .acquire l m :: _ => Free p l m ∧ (m = .read → ∀ t' ∈ p.threads, ∀ is, t'.rest ≠ .acquire l .write :: is)
  | .release _ :: _ => True
  | .meet :: _ => p.server = .waiting
  | .pause :: _ => False
  | [] => False

private theorem Ready.mayGo {p : Pool L} {t : Thread L} (h : Ready p t) : MayGo p t := by
  obtain ⟨held, rest⟩ := t
  cases rest with
  | nil => exact h
  | cons i is =>
    cases i with
    | acquire l m => exact h.1
    | release l => exact trivial
    | meet => exact h
    | pause => exact h.elim

/-- A new thread starts, the `i`-th thread executes one instruction unless it has to wait, the server is back from a
meeting, or it stops. -/
inductive Move (L : Type) where
  | spawn (is : List (Instr L))
  | exec (i : Nat)
  | turn
  | stop

/-- A step of a thread that is ready, or of the server. -/
def Forced (p : Pool L) (mv : Move L) : Prop :=
  (∃ i t, mv = .exec i ∧ p.threads[i]? = some t ∧ Ready p t) ∨ mv = .turn ∧ p.server = .busy

/-- The instructions that the threads still have to execute. -/
def remaining : List (Thread L) → Nat
  | [] => 0
  | t :: p => t.rest.length + remaining p

/-- A bound on the steps that are left: a meeting costs one more, for the server. -/
def Pool.work (p : Pool L) : Nat := 2 * remaining p.threads + if p.server = .busy then 1 else 0

private theorem remaining_set {ts : List (Thread L)} {i : Nat} {t : Thread L} (hi : ts[i]? = some t) (t' : Thread L) :
    remaining (ts.set i t') + t.rest.length = remaining ts + t'.rest.length := by
  induction ts generalizing i with
  | nil => cases hi
  | cons t0 ts ih =>
    cases i with
    | zero =>
      obtain rfl : t0 = t := Option.some.inj hi
      simp only [remaining, List.set_cons_zero]
      omega
    | succ i =>
      have h := ih (i := i) hi
      simp only [remaining, List.set_cons_succ]
      omega

/-- The server after the thread's next instruction. -/
def Thread.serve (t : Thread L) (s : Server) : Server :=
  match t.rest with
  | .meet :: _ => .busy
  | _ => s

private theorem serve_cases {p : Pool L} {t : Thread L} (h : Ready p t) :
    t.serve p.server = p.server ∨ p.server = .waiting ∧ t.serve p.server = .busy := by
  obtain ⟨held, rest⟩ := t
  cases rest with
  | nil => exact h.elim
  | cons i is =>
    cases i with
    | acquire l m => exact .inl rfl
    | release l => exact .inl rfl
    | meet => exact .inr ⟨h, rfl⟩
    | pause => exact h.elim

section

variable [DecidableEq L]

instance (p : Pool L) (l : L) (m : Mode) : Decidable (Free p l m) :=
  inferInstanceAs (Decidable (∀ t ∈ p.threads, ∀ h ∈ t.held, h.1 = l → m = .read ∧ h.2 = .read))

instance (p : Pool L) : (t : Thread L) → Decidable (MayGo p t)
  | ⟨_, []⟩ => .isFalse id
  | ⟨_, .acquire l m :: _⟩ => inferInstanceAs (Decidable (Free p l m))
  | ⟨_, .meet :: _⟩ => inferInstanceAs (Decidable (p.server = .waiting))
  | ⟨_, .release _ :: _⟩ | ⟨_, .pause :: _⟩ => .isTrue trivial

/-- The thread after its next instruction. -/
def Thread.advance (t : Thread L) : Thread L :=
  match t.rest with
  | [] => t
  | .acquire l m :: is => ⟨(l, m) :: t.held, is⟩
  | .release l :: is => ⟨t.held.eraseP fun h => h.1 = l, is⟩
  | .meet :: is => ⟨t.held, is⟩
  | .pause :: is => ⟨t.held, is⟩

def step (p : Pool L) : Move L → Pool L
  | .spawn is => { p with threads := p.threads ++ [⟨[], is⟩] }
  | .exec i =>
    match p.threads[i]? with
    | none => p
    | some t => if MayGo p t then ⟨p.threads.set i t.advance, t.serve p.server⟩ else p
  | .turn => if p.server = .busy then { p with server := .waiting } else p
  | .stop => if p.server = .waiting then { p with server := .stopped } else p

private theorem step_exec {p : Pool L} {i : Nat} {t : Thread L} (hi : p.threads[i]? = some t) (h : MayGo p t) :
    step p (.exec i) = ⟨p.threads.set i t.advance, t.serve p.server⟩ := by
  rw [step, hi]
  exact if_pos h

end

/-! ### Discipline -/

section

variable (rank : L → Nat)

/-- A thread that holds `held` and still has to execute the list. -/
def Disciplined : List (L × Mode) → List (Instr L) → Prop
  | held, [] => held = []
  | held, .acquire l m :: is => (∀ h ∈ held, rank h.1 < rank l) ∧ Disciplined ((l, m) :: held) is
  | held, .release l :: is => ∃ m held', held = (l, m) :: held' ∧ Disciplined held' is
  | held, .meet :: is => Disciplined held is
  | held, .pause :: is => (∀ h ∈ held, rank h.1 = 0) ∧ Disciplined held is

/-- All threads are disciplined. -/
def Pool.Disciplined (p : Pool L) : Prop := ∀ t ∈ p.threads, LockOrder.Disciplined rank t.held t.rest

variable {rank}

/-- A thread that waits for something outside, or for a lock of rank 0, holds no lock above rank 0. -/
theorem Disciplined.rank_eq_zero {held : List (L × Mode)} {is : List (Instr L)} {i : Instr L}
    (h : Disciplined rank held (i :: is)) (hi : i = .pause ∨ ∃ l m, i = .acquire l m ∧ rank l = 0) :
    ∀ x ∈ held, rank x.1 = 0 := by
  rcases hi with rfl | ⟨l, m, rfl, hl⟩
  · exact h.1
  · intro x hx
    have hlow := h.1 x hx
    omega

/-! ### Progress -/

/-- Among the locks that are held there is one of highest rank. -/
private theorem exists_top (rank : L → Nat) {ts : List (Thread L)} {t : Thread L} (ht : t ∈ ts) {h : L × Mode}
    (hh : h ∈ t.held) :
    ∃ t' ∈ ts, ∃ top ∈ t'.held, rank h.1 ≤ rank top.1 ∧ ∀ t'' ∈ ts, ∀ h' ∈ t''.held, rank h'.1 ≤ rank top.1 := by
  have hmem : h ∈ ts.flatMap Thread.held := List.mem_flatMap.2 ⟨t, ht, hh⟩
  cases hmax : (ts.flatMap Thread.held).argmax fun h => rank h.1 with
  | none => exact absurd (List.argmax_eq_none.1 hmax) (List.ne_nil_of_mem hmem)
  | some top =>
    have hall : ∀ t'' ∈ ts, ∀ h' ∈ t''.held, rank h'.1 ≤ rank top.1 := fun t'' ht'' h' hh' =>
      List.le_of_mem_argmax (f := fun h => rank h.1) (List.mem_flatMap.2 ⟨t'', ht'', hh'⟩) hmax
    obtain ⟨t', ht', htop⟩ := List.mem_flatMap.1 (List.argmax_mem hmax)
    exact ⟨t', ht', top, htop, hall t ht h hh, hall⟩

private theorem forced_of_ready {p : Pool L} {t : Thread L} (ht : t ∈ p.threads) (h : Ready p t) :
    ∃ mv, Forced p mv := by
  obtain ⟨i, hi⟩ := List.getElem?_of_mem ht
  exact ⟨.exec i, .inl ⟨i, t, rfl, hi, h⟩⟩

/-- Whenever a lock above rank 0 is held and the server has not stopped, somebody can go on. -/
theorem exists_forced {p : Pool L} (hp : p.Disciplined rank) (hserver : p.server ≠ .stopped)
    (hheld : ∃ t ∈ p.threads, ∃ h ∈ t.held, 0 < rank h.1) : ∃ mv, Forced p mv := by
  obtain ⟨t, ht, h, hh, hpos⟩ := hheld
  obtain ⟨⟨held, rest⟩, ht, top, hmem, hle, htop⟩ := exists_top rank ht hh
  have hd := hp _ ht
  cases rest with
  | nil =>
    obtain rfl : held = [] := hd
    cases hmem
  | cons i is =>
    cases i with
    | acquire l m =>
      -- the lock ranks above all that are held, so nobody holds it
      have hfree : ∀ m, Free p l m := by
        rintro m t' ht' h' hh' rfl
        have hlow := hd.1 top hmem
        have hhigh := htop t' ht' h' hh'
        omega
      by_cases hw : m = .read ∧ ∃ t' ∈ p.threads, ∃ is, t'.rest = .acquire l .write :: is
      · obtain ⟨-, ⟨held', rest'⟩, ht', is', rfl⟩ := hw
        refine forced_of_ready ht' ⟨hfree .write, fun h => ?_⟩
        cases h
      · exact forced_of_ready ht ⟨hfree m, fun hm t' ht' is' hrest' => hw ⟨hm, t', ht', is', hrest'⟩⟩
    | release l => exact forced_of_ready ht trivial
    | meet =>
      cases hs : p.server with
      | waiting => exact forced_of_ready ht hs
      | busy => exact ⟨.turn, .inr ⟨rfl, hs⟩⟩
      | stopped => exact absurd hs hserver
    | pause =>
      have hzero := hd.1 top hmem
      omega

/-! ### Runs -/

variable [DecidableEq L]

theorem Disciplined.advance {t : Thread L} (h : Disciplined rank t.held t.rest) :
    Disciplined rank t.advance.held t.advance.rest := by
  obtain ⟨held, rest⟩ := t
  cases rest with
  | nil => exact h
  | cons i is =>
    cases i with
    | acquire l m => exact h.2
    | release l =>
      obtain ⟨m, held', heq, h⟩ := h
      obtain rfl : held = (l, m) :: held' := heq
      have herase : ((l, m) :: held').eraseP (fun h => h.1 = l) = held' := List.eraseP_cons_of_pos (by simp)
      unfold Thread.advance
      dsimp only
      rw [herase]
      exact h
    | meet => exact h
    | pause => exact h.2

private theorem disciplined_step {p : Pool L} (h : p.Disciplined rank) (mv : Move L)
    (hmv : ∀ is, mv = .spawn is → Disciplined rank [] is) : (step p mv).Disciplined rank := by
  cases mv with
  | spawn is =>
    intro t ht
    rcases List.mem_append.1 ht with ht | ht
    · exact h t ht
    · rw [List.mem_singleton.1 ht]
      exact hmv is rfl
  | exec i =>
    rw [step]
    split
    · exact h
    · rename_i t' hi
      split
      · intro t ht
        rcases List.mem_or_eq_of_mem_set ht with ht | rfl
        · exact h t ht
        · exact (h t' (List.mem_of_getElem? hi)).advance
      · exact h
  | turn =>
    rw [step]
    split <;> exact h
  | stop =>
    rw [step]
    split <;> exact h

theorem disciplined_run {mvs : List (Move L)} (hmvs : ∀ is, Move.spawn is ∈ mvs → Disciplined rank [] is) :
    (run step Pool.start mvs).Disciplined rank := by
  induction mvs using List.reverseRecOn with
  | nil => exact fun t ht => by cases ht
  | append_singleton mvs mv ih =>
    rw [run_append]
    refine disciplined_step (ih fun is his => hmvs is (List.mem_append_left _ his)) mv fun is his => hmvs is ?_
    rw [his]
    exact List.mem_append_right _ (List.mem_singleton_self _)

private theorem length_advance {p : Pool L} {t : Thread L} (h : Ready p t) :
    t.advance.rest.length + 1 = t.rest.length := by
  obtain ⟨held, rest⟩ := t
  cases rest with
  | nil => exact h.elim
  | cons i is => cases i <;> rfl

/-- A forced step takes work off and does not stop the server. -/
private theorem Forced.work_lt {p : Pool L} {mv : Move L} (h : Forced p mv) :
    (step p mv).work < p.work ∧ (p.server ≠ .stopped → (step p mv).server ≠ .stopped) := by
  rcases h with ⟨i, t, rfl, hi, hready⟩ | ⟨rfl, hbusy⟩
  · rw [step_exec hi hready.mayGo]
    have hset := remaining_set hi t.advance
    have hlen := length_advance hready
    unfold Pool.work
    dsimp only
    rcases serve_cases hready with hs | ⟨hw, hs⟩
    · rw [hs]
      refine ⟨?_, id⟩
      split <;> omega
    · rw [hs, hw, if_pos rfl, if_neg (by decide)]
      exact ⟨by omega, fun _ => by decide⟩
  · rw [step, if_pos hbusy]
    unfold Pool.work
    dsimp only
    rw [hbusy, if_neg (by decide), if_pos rfl]
    exact ⟨by omega, fun _ => by decide⟩

/-- Whoever goes on, in whatever order: there is an end to it, and until then no lock above rank 0 is stuck. -/
theorem drains {p : Pool L} (hp : p.Disciplined rank) (hserver : p.server ≠ .stopped) {mvs : List (Move L)}
    (hmvs : StepsMeet step Forced p mvs) :
    mvs.length + (run step p mvs).work ≤ p.work ∧
      ((∃ mv, Forced (run step p mvs) mv) ∨ ∀ t ∈ (run step p mvs).threads, ∀ h ∈ t.held, rank h.1 = 0) := by
  induction mvs generalizing p with
  | nil =>
    refine ⟨by simp, ?_⟩
    by_cases hheld : ∃ t ∈ p.threads, ∃ h ∈ t.held, 0 < rank h.1
    · exact .inl (exists_forced hp hserver hheld)
    · refine .inr fun t ht h hh => Nat.eq_zero_of_not_pos fun hpos => ?_
      exact hheld ⟨t, ht, h, hh, hpos⟩
  | cons mv mvs ih =>
    obtain ⟨hmv, hmvs⟩ := hmvs
    obtain ⟨hwork, hserver'⟩ := hmv.work_lt
    have hspawn : ∀ is, mv = .spawn is → Disciplined rank [] is := by
      rintro is rfl
      rcases hmv with ⟨i, t, h, -⟩ | ⟨h, -⟩ <;> cases h
    obtain ⟨hbound, hend⟩ := ih (disciplined_step hp mv hspawn) (hserver' hserver) hmvs
    refine ⟨?_, hend⟩
    rw [run_cons, List.length_cons]
    omega

end

/-! ### Programs -/

/-- Programs whose choices and numbers of iterations are left open. -/
inductive Code (L : Type) where
  | skip
  | instr (i : Instr L)
  | seq (c d : Code L)
  | alt (c d : Code L)
  | star (c : Code L)

/-- The runs of a program. -/
inductive Trace : Code L → List (Instr L) → Prop
  | skip : Trace .skip []
  | instr (i : Instr L) : Trace (.instr i) [i]
  | seq {c d : Code L} {is js : List (Instr L)} (h : Trace c is) (h' : Trace d js) : Trace (.seq c d) (is ++ js)
  | left {c d : Code L} {is : List (Instr L)} (h : Trace c is) : Trace (.alt c d) is
  | right {c d : Code L} {is : List (Instr L)} (h : Trace d is) : Trace (.alt c d) is
  | done {c : Code L} : Trace (.star c) []
  | more {c : Code L} {is js : List (Instr L)} (h : Trace c is) (h' : Trace (.star c) js) : Trace (.star c) (is ++ js)

section

variable [DecidableEq L]

/-- The locks held after the program, if it is disciplined and they are the same on all its runs. -/
def check (rank : L → Nat) : Code L → List (L × Mode) → Option (List (L × Mode))
  | .skip, held => some held
  | .instr (.acquire l m), held => if ∀ h ∈ held, rank h.1 < rank l then some ((l, m) :: held) else none
  | .instr (.release _), [] => none
  | .instr (.release l), h :: held => if h.1 = l then some held else none
  | .instr .meet, held => some held
  | .instr .pause, held => if ∀ h ∈ held, rank h.1 = 0 then some held else none
  | .seq c d, held => (check rank c held).bind (check rank d)
  | .alt c d, held =>
    match check rank c held with
    | none => none
    | some held' => if check rank d held = some held' then some held' else none
  | .star c, held => if check rank c held = some held then some held else none

private theorem disciplined_append {rank : L → Nat} {c : Code L} {is : List (Instr L)} (ht : Trace c is)
    {held held' : List (L × Mode)} (hc : check rank c held = some held') {rest : List (Instr L)}
    (hrest : Disciplined rank held' rest) : Disciplined rank held (is ++ rest) := by
  induction ht generalizing held held' rest with
  | skip =>
    obtain rfl := Option.some.inj hc
    exact hrest
  | instr i =>
    cases i with
    | acquire l m =>
      rw [check] at hc
      split at hc
      · rename_i hlow
        obtain rfl := Option.some.inj hc
        exact ⟨hlow, hrest⟩
      · cases hc
    | release l =>
      cases held with
      | nil => cases hc
      | cons h held =>
        rw [check] at hc
        split at hc
        · rename_i hl
          obtain rfl := Option.some.inj hc
          exact ⟨h.2, held, by rw [← hl], hrest⟩
        · cases hc
    | meet =>
      obtain rfl := Option.some.inj hc
      exact hrest
    | pause =>
      rw [check] at hc
      split at hc
      · rename_i hheld
        obtain rfl := Option.some.inj hc
        exact ⟨hheld, hrest⟩
      · cases hc
  | seq h h' ih ih' =>
    rw [check, Option.bind_eq_some_iff] at hc
    obtain ⟨mid, hc, hd⟩ := hc
    rw [List.append_assoc]
    exact ih hc (ih' hd hrest)
  | left h ih =>
    rw [check] at hc
    split at hc
    · cases hc
    · rename_i mid hc'
      split at hc
      · obtain rfl := Option.some.inj hc
        exact ih hc' hrest
      · cases hc
  | right h ih =>
    rw [check] at hc
    split at hc
    · cases hc
    · split at hc
      · rename_i hd
        obtain rfl := Option.some.inj hc
        exact ih hd hrest
      · cases hc
  | done =>
    rw [check] at hc
    split at hc
    · obtain rfl := Option.some.inj hc
      exact hrest
    · cases hc
  | more h h' ih ih' =>
    have hstar := hc
    rw [check] at hc
    split at hc
    · rename_i hbody
      obtain rfl := Option.some.inj hc
      rw [List.append_assoc]
      exact ih hbody (ih' hstar hrest)
    · cases hc

/-- A program that passes the check from no lock to no lock is disciplined on all its runs. -/
theorem disciplined_of_check {rank : L → Nat} {c : Code L} (hc : check rank c [] = some []) {is : List (Instr L)}
    (ht : Trace c is) : Disciplined rank [] is := by
  have h : Disciplined rank [] (is ++ []) := disciplined_append ht hc rfl
  rwa [List.append_nil] at h

end

end LockOrder

end Lib
