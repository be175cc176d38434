import GoHotstuff.Entity
import GoHotstuff.Lib.ForkJoin
import GoHotstuff.Lib.Run

/-!
# `VerifyQuorumCert`, goroutine by goroutine

`VerifyQuorumCert` goes through the entries of a certificate in the order of a map, starts a goroutine for each one of a
registered replica, waits for them and compares an atomic counter with the size of a quorum.  `verifyQuorumCert` is what
comes out of it: every run of the call, whatever the order of the map and the interleaving of the goroutines, ends after a
bounded number of moves, and with this answer (`verifyQuorumCert_interleaved`).
-/

namespace GoHotstuff

open Lib (run StepsMeet)
open Lib.ForkJoin (Pool)

namespace ReplicaConf

/-- An entry of the map of signatures. -/
abbrev SignEntry := (_ : Int64) × PartCert

/-- A call of `VerifyQuorumCert`. -/
inductive VerifyCall where
  | running (p : Pool SignEntry)
  | returned (ok : Bool)
deriving DecidableEq

inductive VerifyMove where
  /-- the loop or a goroutine goes on -/
  | pool (m : Lib.ForkJoin.Move)
  /-- `wg.Wait` returns -/
  | wait

section Call

variable (rc : ReplicaConf) (qc : QuorumCert)

/-- The replica of the entry is registered. -/
def known (e : SignEntry) : Bool := (rc.replicas.lookup e.1).isSome

/-- What the goroutine of an entry finds. -/
def verified (e : SignEntry) : Bool := rc.accepts e.1 e.2.signature qc.blockHash

namespace VerifyCall

/-- Certificates with too few entries are turned down at once. -/
def start : VerifyCall :=
  if (qc.signs.entries.length : Int) < getQuorumSize rc.metadata then .returned false
  else .running (Pool.start qc.signs.entries)

def step (c : VerifyCall) (m : VerifyMove) : VerifyCall :=
  match c with
  | .returned ok => .returned ok
  | .running p =>
    match m with
    | .pool m => .running (p.step rc.known (rc.verified qc) m)
    | .wait =>
      if p.Joinable then .returned (decide ((rc.metadata.n - rc.metadata.f).toUInt64.toNat ≤ p.count))
      else .running p

/-- The move is possible. -/
def Enabled (c : VerifyCall) (m : VerifyMove) : Prop :=
  match c with
  | .returned _ => False
  | .running p =>
    match m with
    | .pool m => p.Enabled m
    | .wait => p.Joinable

instance : (c : VerifyCall) → (m : VerifyMove) → Decidable (c.Enabled m)
  | .returned _, _ => .isFalse id
  | .running p, .pool m => inferInstanceAs (Decidable (p.Enabled m))
  | .running p, .wait => inferInstanceAs (Decidable p.Joinable)

/-- The moves that are left at most. -/
def remaining : VerifyCall → Nat
  | .returned _ => 0
  | .running p => p.remaining + 1

/-- What holds during a call. -/
def Sound : VerifyCall → Prop
  | .returned ok => ok = rc.verifyQuorumCert qc
  | .running p => p.Sound rc.known (rc.verified qc) qc.signs.entries ∧
      ¬ (qc.signs.entries.length : Int) < getQuorumSize rc.metadata

variable {rc qc}

private theorem known_of_verified {e : SignEntry} (h : rc.verified qc e = true) : rc.known e = true := by
  obtain ⟨info, hl, -⟩ := accepts_eq_true.1 h
  simp [known, hl]

private theorem length_verified :
    (qc.signs.entries.filter fun e => rc.known e && rc.verified qc e).length = (rc.verifiedIds qc).length := by
  have hfilter : (qc.signs.entries.filter fun e => rc.known e && rc.verified qc e) =
      qc.signs.entries.filter (rc.verified qc) := by
    apply List.filter_congr
    intro e _
    by_cases hv : rc.verified qc e = true
    · simp [hv, known_of_verified hv]
    · simp [hv]
  rw [hfilter, verifiedIds, List.length_map]
  rfl

private theorem sound_start : (start rc qc).Sound rc qc := by
  have hlen : qc.signs.keys.length = qc.signs.entries.length := List.length_map _
  unfold start
  split
  · rename_i hfew
    rw [← hlen] at hfew
    simp only [Sound, verifyQuorumCert, if_pos hfew]
  · rename_i hfew
    exact ⟨Pool.sound_start _, hfew⟩

theorem Sound.step {c : VerifyCall} (h : c.Sound rc qc) (m : VerifyMove) : (c.step rc qc m).Sound rc qc := by
  have hlen : qc.signs.keys.length = qc.signs.entries.length := List.length_map _
  cases c with
  | returned ok => exact h
  | running p =>
    obtain ⟨hp, hfew⟩ := h
    cases m with
    | pool m => exact ⟨hp.step m, hfew⟩
    | wait =>
      by_cases hj : p.Joinable
      · have hcount := hp.count_of_joinable hj
        rw [length_verified] at hcount
        rw [← hlen] at hfew
        simp only [VerifyCall.step, if_pos hj, Sound, verifyQuorumCert, if_neg hfew, hcount]
      · simp only [VerifyCall.step, if_neg hj]
        exact ⟨hp, hfew⟩

theorem Sound.remaining_step {c : VerifyCall} (h : c.Sound rc qc) {m : VerifyMove} (hm : c.Enabled m) :
    (c.step rc qc m).remaining + 1 ≤ c.remaining := by
  cases c with
  | returned ok => cases hm
  | running p =>
    cases m with
    | pool m =>
      have := h.1.remaining_step hm
      simp only [VerifyCall.step, remaining]
      omega
    | wait =>
      have hj : p.Joinable := hm
      simp [VerifyCall.step, if_pos hj, remaining]

theorem Sound.exists_enabled {p : Pool SignEntry} (h : Sound rc qc (.running p)) : ∃ m, Enabled (.running p) m := by
  by_cases hj : p.Joinable
  · exact ⟨.wait, hj⟩
  · obtain ⟨m, hm⟩ := h.1.exists_enabled hj
    exact ⟨.pool m, hm⟩

private theorem length_le_remaining {c : VerifyCall} (hc : c.Sound rc qc) {ms : List VerifyMove}
    (h : StepsMeet (VerifyCall.step rc qc) Enabled c ms) : ms.length + (run (VerifyCall.step rc qc) c ms).remaining ≤
      c.remaining := by
  induction ms generalizing c with
  | nil => simp
  | cons m ms ih =>
    have hstep := hc.remaining_step h.1
    have hrest := ih (hc.step m) h.2
    simp only [List.length_cons, Lib.run_cons]
    omega

private theorem remaining_start_le : (start rc qc).remaining ≤ 4 * qc.signs.entries.length + 1 := by
  unfold start
  split
  · exact Nat.zero_le _
  · simp [remaining, Pool.remaining, Pool.start]

end VerifyCall

end Call

/-- Whatever the order of the map and the interleaving: a call makes at most four moves for each signature and one more, it
is never stuck before it has returned, no goroutine panics, and what is returned is `verifyQuorumCert`. -/
theorem verifyQuorumCert_interleaved (rc : ReplicaConf) (qc : QuorumCert) (ms : List VerifyMove)
    (h : StepsMeet (VerifyCall.step rc qc) VerifyCall.Enabled (VerifyCall.start rc qc) ms) :
    ms.length ≤ 4 * qc.signs.entries.length + 1 ∧
      (∀ ok, run (VerifyCall.step rc qc) (VerifyCall.start rc qc) ms = .returned ok → ok = rc.verifyQuorumCert qc) ∧
      ∀ p, run (VerifyCall.step rc qc) (VerifyCall.start rc qc) ms = .running p →
        p.panicked = false ∧ ∃ m, VerifyCall.Enabled (.running p) m := by
  have hlen := VerifyCall.length_le_remaining VerifyCall.sound_start h
  have hstart := @VerifyCall.remaining_start_le rc qc
  have hsound : (run (VerifyCall.step rc qc) (VerifyCall.start rc qc) ms).Sound rc qc :=
    h.invariant (fun c m hc _ => hc.step m) VerifyCall.sound_start
  refine ⟨by omega, ?_, ?_⟩
  · intro ok hok
    rw [hok] at hsound
    exact hsound
  · intro p hp
    rw [hp] at hsound
    exact ⟨hsound.1.panicked, hsound.exists_enabled⟩

/-- Two of three signatures are of registered replicas; the goroutine that was started first adds last. -/
theorem verifyQuorumCert_interleaved_pair :
    let accepting : ReplicaInfo := ⟨fun signature _ => .ok (decide (signature ≠ []))⟩
    let rc : ReplicaConf := ⟨⟨3, 1, 0⟩, (∅ : AList fun _ : Int64 => ReplicaInfo).insert 0 accepting |>.insert 1 accepting⟩
    let qc : QuorumCert := ⟨0, [1], (∅ : Signs).insert 1 ⟨1, [5]⟩ |>.insert 7 ⟨7, [6]⟩ |>.insert 0 ⟨0, [4]⟩⟩
    let ms : List VerifyMove := [.pool (.next 2), .pool (.next 0), .pool (.work 0), .pool (.next 0), .pool (.work 1),
      .pool (.add 1), .pool (.leave 1), .pool (.add 0), .pool (.leave 0), .wait]
    StepsMeet (VerifyCall.step rc qc) VerifyCall.Enabled (VerifyCall.start rc qc) ms ∧
      run (VerifyCall.step rc qc) (VerifyCall.start rc qc) ms = .returned true ∧ true = rc.verifyQuorumCert qc := by
  intro accepting rc qc ms
  have hmeet : StepsMeet (VerifyCall.step rc qc) VerifyCall.Enabled (VerifyCall.start rc qc) ms := by decide +kernel
  have hrun : run (VerifyCall.step rc qc) (VerifyCall.start rc qc) ms = .returned true := by decide +kernel
  exact ⟨hmeet, hrun, (verifyQuorumCert_interleaved rc qc ms hmeet).2.1 true hrun⟩

end ReplicaConf

end GoHotstuff
