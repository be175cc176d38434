import GoHotstuff.Lib.Tally

/-!
# A loop that starts goroutines and waits for them

A loop goes through jobs in any order and starts a goroutine for each one that is known.  A goroutine does its job, adds one
to a shared counter if the job has turned out well, and leaves the group on which the loop's owner waits.  Whatever the
interleaving, the counter of the group is never below zero; as long as the wait is not over something can go on
(`exists_enabled`), and every move brings the end nearer (`remaining_step`); when the wait is over, the counter is the number
of known jobs that turn out well (`count_of_joinable`).
-/

namespace Lib

namespace ForkJoin

/-- Where a goroutine is. -/
inductive Place (J : Type) where
  | working (j : J)
  | adding
  | leaving
  | ended
deriving DecidableEq

/-- What a goroutine will still add. -/
def Place.adds {J : Type} (ok : J → Bool) : Place J → Nat
  | .working j => if ok j then 1 else 0
  | .adding => 1
  | _ => 0

/-- A goroutine that has not left the group. -/
def Place.member {J : Type} : Place J → Nat
  | .ended => 0
  | _ => 1

/-- The moves that a goroutine has before it. -/
def Place.rest {J : Type} : Place J → Nat
  | .working _ => 3
  | .adding => 2
  | .leaving => 1
  | .ended => 0

structure Pool (J : Type) where
  todo : List J
  threads : List (Place J)
  /-- the counter of the wait group -/
  group : Int
  count : Nat
  panicked : Bool
deriving DecidableEq

inductive Move where
  /-- the loop goes on with the `k`-th of the jobs that are left -/
  | next (k : Nat)
  /-- the job of goroutine `i` is done -/
  | work (i : Nat)
  | add (i : Nat)
  | leave (i : Nat)

namespace Pool

variable {J : Type}

def start (jobs : List J) : Pool J := ⟨jobs, [], 0, 0, false⟩

def setThread (p : Pool J) (i : Nat) (t : Place J) : Pool J := { p with threads := p.threads.set i t }

/-- The wait at the end of the loop is over. -/
def Joinable (p : Pool J) : Prop := p.todo = [] ∧ p.group = 0

instance [DecidableEq J] (p : Pool J) : Decidable p.Joinable := inferInstanceAs (Decidable (p.todo = [] ∧ p.group = 0))

section Step

variable (known ok : J → Bool)

/-- A group below zero is a panic. -/
def step (p : Pool J) : Move → Pool J
  | .next k =>
    match p.todo[k]? with
    | none => p
    | some j =>
      if known j then
        { p with todo := p.todo.eraseIdx k, threads := p.threads ++ [.working j], group := p.group + 1 }
      else { p with todo := p.todo.eraseIdx k }
  | .work i =>
    match p.threads[i]? with
    | some (.working j) => p.setThread i (if ok j then .adding else .leaving)
    | _ => p
  | .add i =>
    match p.threads[i]? with
    | some .adding => { p with count := p.count + 1 }.setThread i .leaving
    | _ => p
  | .leave i =>
    match p.threads[i]? with
    | some .leaving =>
      if p.group - 1 < 0 then { p with panicked := true } else { p with group := p.group - 1 }.setThread i .ended
    | _ => p

/-- The move is possible. -/
def Enabled (p : Pool J) : Move → Prop
  | .next k => k < p.todo.length
  | .work i => ∃ t ∈ p.threads[i]?, t ≠ .adding ∧ t ≠ .leaving ∧ t ≠ .ended
  | .add i => .adding ∈ p.threads[i]?
  | .leave i => .leaving ∈ p.threads[i]?

instance [DecidableEq J] (p : Pool J) : (m : Move) → Decidable (p.Enabled m)
  | .next k => inferInstanceAs (Decidable (k < p.todo.length))
  | .work i => inferInstanceAs (Decidable (∃ t ∈ p.threads[i]?, t ≠ .adding ∧ t ≠ .leaving ∧ t ≠ .ended))
  | .add i => inferInstanceAs (Decidable (.adding ∈ p.threads[i]?))
  | .leave i => inferInstanceAs (Decidable (.leaving ∈ p.threads[i]?))

/-! ### What is counted -/

/-- Every known job that turns out well is counted once: now or later. -/
structure Sound (jobs : List J) (p : Pool J) : Prop where
  count : p.count + tally (Place.adds ok) p.threads + tally (fun j => if known j && ok j then 1 else 0) p.todo =
    (jobs.filter fun j => known j && ok j).length
  group : p.group = tally Place.member p.threads
  panicked : p.panicked = false

/-- The moves that are left at most. -/
def remaining (p : Pool J) : Nat := 4 * p.todo.length + tally Place.rest p.threads

variable {known ok} {jobs : List J} {p : Pool J}

theorem sound_start (jobs : List J) : Sound known ok jobs (start jobs) where
  count := by
    have := tally_ite (fun j => known j && ok j) jobs
    simp only [start, tally_nil, Nat.zero_add]
    exact this
  group := rfl
  panicked := rfl

/-- Goroutine `i` goes on from `t` to `t'`. -/
private theorem Sound.setThread (h : Sound known ok jobs p) {i : Nat} {t t' : Place J} (hi : p.threads[i]? = some t)
    {count : Nat}
    {group : Int} (hc : count + t'.adds ok = p.count + t.adds ok) (hg : group + t.member = p.group + t'.member) :
    Sound known ok jobs ({ p with count := count, group := group }.setThread i t') := by
  have hadds := tally_set (w := Place.adds ok) t' hi
  have hmember := tally_set (w := Place.member) t' hi
  have hcount := h.count
  have hgroup := h.group
  refine ⟨?_, ?_, h.panicked⟩
  · simp only [Pool.setThread]
    omega
  · simp only [Pool.setThread]
    omega

private theorem Sound.member_le (h : Sound known ok jobs p) {i : Nat} {t : Place J} (hi : p.threads[i]? = some t) :
    (t.member : Int) ≤ p.group := by
  have hset := tally_set (w := Place.member) Place.ended hi
  have hended : (Place.ended : Place J).member = 0 := rfl
  have hgroup := h.group
  omega

/-- The loop takes a job. -/
theorem Sound.next (h : Sound known ok jobs p) (k : Nat) : Sound known ok jobs (p.step known ok (.next k)) := by
  unfold step
  dsimp only
  split
  · exact h
  rename_i j hj
  have htodo := tally_eraseIdx (w := fun j => if known j && ok j then 1 else 0) hj
  have hcount := h.count
  have hgroup := h.group
  split
  · rename_i hknown
    refine ⟨?_, ?_, h.panicked⟩
    · simp only [hknown, Bool.true_and, tally_append, tally_cons, tally_nil, Place.adds] at htodo hcount ⊢
      omega
    · simp only [tally_append, tally_cons, tally_nil, Place.member]
      omega
  · rename_i hknown
    refine ⟨?_, hgroup, h.panicked⟩
    have hnot : (known j && ok j) = false := by simp [hknown]
    rw [hnot, if_neg Bool.false_ne_true] at htodo
    simp only
    omega

theorem Sound.step (h : Sound known ok jobs p) (m : Move) : Sound known ok jobs (p.step known ok m) := by
  cases m with
  | next k => exact h.next k
  | work i =>
    unfold Pool.step
    dsimp only
    split
    · rename_i j hi
      have hadds : ∀ b : Bool, (if b then Place.adding else Place.leaving : Place J).adds ok = if b then 1 else 0 := by
        intro b
        cases b <;> rfl
      have hmember : ∀ b : Bool, (if b then Place.adding else Place.leaving : Place J).member = 1 := by
        intro b
        cases b <;> rfl
      refine h.setThread hi ?_ ?_
      · rw [hadds]
        rfl
      · rw [hmember]
        rfl
    · exact h
  | add i =>
    unfold Pool.step
    dsimp only
    split
    · rename_i hi
      exact h.setThread hi rfl rfl
    · exact h
  | leave i =>
    unfold Pool.step
    dsimp only
    split
    · rename_i hi
      have hmember := h.member_le hi
      have hone : (Place.leaving : Place J).member = 1 := rfl
      rw [if_neg (by omega)]
      refine h.setThread hi rfl ?_
      simp [Place.member]
    · exact h

/-! ### The end -/

/-- When the wait is over the counter is complete. -/
theorem Sound.count_of_joinable (h : Sound known ok jobs p) (hj : p.Joinable) :
    p.count = (jobs.filter fun j => known j && ok j).length := by
  obtain ⟨htodo, hgroup⟩ := hj
  have hmember : tally Place.member p.threads = 0 := by
    have := h.group
    omega
  have hadds : tally (Place.adds ok) p.threads = 0 := by
    rw [tally_eq_zero] at hmember ⊢
    intro t ht
    have := hmember t ht
    cases t with
    | ended => rfl
    | _ => simp [Place.member] at this
  have hcount := h.count
  rw [hadds, htodo] at hcount
  simpa using hcount

/-- As long as the wait is not over something can go on. -/
theorem Sound.exists_enabled (h : Sound known ok jobs p) (hj : ¬ p.Joinable) : ∃ m, p.Enabled m := by
  by_cases htodo : p.todo = []
  · have hgroup : p.group ≠ 0 := fun h0 => hj ⟨htodo, h0⟩
    have hmember : tally Place.member p.threads ≠ 0 := by
      have := h.group
      omega
    rw [Ne, tally_eq_zero] at hmember
    push Not at hmember
    obtain ⟨t, ht, hlive⟩ := hmember
    obtain ⟨i, hi⟩ := List.getElem?_of_mem ht
    cases t with
    | working j => exact ⟨.work i, .working j, hi, by simp⟩
    | adding => exact ⟨.add i, hi⟩
    | leaving => exact ⟨.leave i, hi⟩
    | ended => simp [Place.member] at hlive
  · exact ⟨.next 0, List.length_pos_iff.2 htodo⟩

/-- A possible move takes one off. -/
theorem Sound.remaining_step (h : Sound known ok jobs p) {m : Move} (hm : p.Enabled m) :
    (p.step known ok m).remaining + 1 ≤ p.remaining := by
  have hset : ∀ {i : Nat} {t : Place J} (t' : Place J) {count : Nat} {group : Int}, p.threads[i]? = some t →
      t'.rest + 1 ≤ t.rest →
        ({ p with count := count, group := group }.setThread i t').remaining + 1 ≤ p.remaining := by
    intro i t t' count group hi hlt
    have := tally_set (w := Place.rest) t' hi
    simp only [remaining, Pool.setThread]
    omega
  cases m with
  | next k =>
    have hk : k < p.todo.length := hm
    have hlen := List.length_eraseIdx_of_lt hk
    unfold Pool.step
    simp only [List.getElem?_eq_getElem hk]
    split
    · simp only [remaining, tally_append, tally_cons, tally_nil, Place.rest, hlen]
      omega
    · simp only [remaining, hlen]
      omega
  | work i =>
    obtain ⟨t, ht, hne⟩ := hm
    have hi : p.threads[i]? = some t := ht
    cases t with
    | working j =>
      simp only [Pool.step, hi]
      refine hset _ hi ?_
      cases ok j <;> simp [Place.rest]
    | _ => simp at hne
  | add i =>
    have hi : p.threads[i]? = some .adding := hm
    simp only [Pool.step, hi]
    exact hset _ hi (Nat.le_refl 2)
  | leave i =>
    have hi : p.threads[i]? = some .leaving := hm
    have hmember := h.member_le hi
    have hone : (Place.leaving : Place J).member = 1 := rfl
    simp only [Pool.step, hi]
    rw [if_neg (by omega)]
    exact hset _ hi (Nat.le_refl 1)

end Step

end Pool

end ForkJoin

end Lib
