import GoHotstuff.Cluster
import GoHotstuff.Validity

/-!
# Replicas on their transport

The results about networks assume that what arrives has been sent (`Net.Delivers`).  The transport keeps to it
(`stepsMeet_faithful`), so they hold of replicas that are connected by it.  Validity is stated here for the whole of replicas,
broadcast servers and workers (`cluster_executed_submitted`).
-/

namespace GoHotstuff

open Lib (Bytes run StepsMeet)

private theorem Node.exists_sent_of_sentTo_pos {n : Node} {id : Int64} {msg : Pb.Message} (h : 0 < n.sentTo id msg) :
    ∃ m ∈ n.sent, m.msg = msg := by
  by_contra hnone
  have hzero : n.sentTo id msg = 0 := by
    refine Lib.tally_eq_zero.2 fun m hm => ?_
    have hne : m.msg ≠ msg := fun heq => hnone ⟨m, hm, heq⟩
    simp [Sent.addressed, hne]
  omega

namespace Net

variable {E : NetEnv} {acts : List (Int64 × Action)} {x : Int64 × Action}

private theorem Deliverable.delivers (h : Deliverable E E.replicas.replicas.keys acts x) :
    (run (step E) start acts).Delivers E x.2 := by
  obtain ⟨id, a⟩ := x
  cases a with
  | message src msg =>
    obtain ⟨hsrc, -, -, hlt⟩ : src ∈ E.replicas.replicas.keys ∧ id ∈ E.replicas.replicas.keys ∧ src ≠ id ∧
        deliveries id src msg acts < (run (step E) start acts src).sentTo id msg := h
    exact ⟨hsrc, Node.exists_sent_of_sentTo_pos (Nat.zero_lt_of_lt hlt)⟩
  | _ => exact trivial

/-- A run that the transport allows is one in which the replicas act on what they have sent each other. -/
theorem stepsMeet_faithful (h : StepsMeet record (Deliverable E E.replicas.replicas.keys) [] acts)
    (hids : ∀ x ∈ acts, x.1 ∈ E.replicas.replicas.keys) : StepsMeet (step E) (FaithfulStep E) start acts := by
  induction acts using List.reverseRecOn with
  | nil => trivial
  | append_singleton acts x ih =>
    obtain ⟨hacts, hx⟩ := stepsMeet_snoc.1 h
    have hid : x.1 ∈ E.replicas.replicas.keys := hids x (List.mem_append_right _ (List.mem_singleton_self x))
    refine Lib.stepsMeet_append.2 ⟨ih hacts fun y hy => hids y (List.mem_append_left _ hy), ?_, trivial⟩
    exact ⟨hid, hx.delivers⟩

end Net

/-- Validity of the whole: whatever replicas, servers, workers and strangers do, and in whatever order, and as long as no two
blocks show a collision of SHA-256, every command that a replica executes is not empty and has been submitted to one of the
replicas by a client. -/
theorem cluster_executed_submitted (E : NetEnv) (moves : List (Int64 × Cluster.Move))
    (hids : ∀ x ∈ moves, x.1 ∈ E.replicas.replicas.keys)
    (hcf : CollisionFree ((run (Cluster.step E) (Cluster.start E.replicas.replicas.keys) moves).net.blocks
      E.replicas.replicas.keys)) (id : Int64) (cmds : Bytes)
    (hc : cmds ∈ ((run (Cluster.step E) (Cluster.start E.replicas.replicas.keys) moves).net id).executed) :
    cmds ≠ [] ∧ ∃ src, (src, Cluster.Move.act (.submit cmds)) ∈ moves := by
  obtain ⟨acts, h, hmoves⟩ := Cluster.exists_follows E E.replicas.replicas.keys moves
  have hacts : ∀ y ∈ acts, y.1 ∈ E.replicas.replicas.keys := by
    intro y hy
    obtain ⟨mv, hmem, -⟩ := hmoves y hy
    exact hids _ hmem
  rw [h.net] at hcf hc
  obtain ⟨hne, src, hsubmit⟩ := ((Net.valid_run (Net.stepsMeet_faithful h.steps hacts) hcf).2 id).executed cmds hc
  obtain ⟨mv, hmem, hact⟩ := hmoves _ hsubmit
  rw [hact rfl] at hmem
  exact ⟨hne, src, hmem⟩

namespace Server

/-- The worker of `dst` connects to `src`, whose handler `h` registers. -/
def link (src dst : Int64) (h : Nat) : List (Int64 × Cluster.Move) := [(dst, .dial src), (src, .serve (.register h))]

/-- The call `j` of `src` sends to the handlers of `dests`, one after the other, and the workers there receive. -/
def call (src : Int64) (j : Nat) (dests : List (Int64 × Nat)) : List (Int64 × Cluster.Move) :=
  (src, .serve (.rLock j)) :: dests.flatMap (fun d =>
    [(src, .serve (.pick j 0)), (src, .serve (.deliver j)), (src, .serve (.sendReturns d.2 none)), (d.1, .recv src)]) ++
  [(src, .serve (.rUnlock j))]

def acts (l : List (Int64 × Action)) : List (Int64 × Cluster.Move) := l.map fun x => (x.1, .act x.2)

/-- A stranger connects to replica `0`, and then some of the workers. -/
def links : List (Int64 × Cluster.Move) :=
  (0, .accept (dialContext 7)) :: (0, .serve (.register 0)) :: link 0 3 1 ++ link 0 2 2 ++ link 0 1 3 ++ link 1 3 0 ++
    link 1 2 1 ++ link 2 3 0 ++ link 2 1 1 ++ link 3 0 0 ++ link 3 2 1

/-- The rounds of `commandRun` on the transport.  The broadcast of replica `0` does not get to the stranger. -/
def commandMoves : List (Int64 × Cluster.Move) :=
  links ++ acts [(3, .submit [1]), runTask 3 1, runTask 3 0] ++ call 3 0 [(0, 0)] ++ [(0, .take 0)] ++
  acts [runTask 0 1, runTask 0 0, runTask 0 0, (1, .submit [2]), runTask 1 1] ++
  call 0 0 [(1, 3), (2, 2), (3, 1)] ++ [(1, .take 0), (2, .take 0), (3, .take 0)] ++
  acts [runTask 1 1, runTask 2 1, runTask 3 0] ++ call 2 0 [(1, 1)] ++ [(1, .take 0)] ++
  acts [runTask 1 2, runTask 1 0, runTask 1 2, (2, .submit [3]), runTask 2 1] ++
  call 1 0 [(2, 1), (3, 0)] ++ [(2, .take 0), (3, .take 0)] ++ acts [runTask 2 2, runTask 3 1] ++
  call 3 2 [(2, 1)] ++ [(2, .take 0)] ++ acts [runTask 2 3, runTask 2 0, runTask 2 3, (3, .submit [4]), runTask 3 1] ++
  call 2 1 [(1, 1), (3, 0)] ++ [(3, .take 0), (1, .take 0)] ++ acts [runTask 3 2, runTask 1 3] ++
  call 1 1 [(3, 0)] ++ [(3, .take 0)] ++ acts [runTask 3 3, runTask 3 3, runTask 3 3]

end Server

theorem cluster_executed_submitted_server :
    [1] ∈ ((run (Cluster.step Server.netEnv) (Cluster.start Server.netEnv.replicas.replicas.keys)
      Server.commandMoves).net 3).executed ∧
      ∃ src, (src, Cluster.Move.act (.submit [1])) ∈ Server.commandMoves := by
  obtain ⟨hids, hcf, hc⟩ : (∀ x ∈ Server.commandMoves, x.1 ∈ Server.netEnv.replicas.replicas.keys) ∧
      CollisionFree ((run (Cluster.step Server.netEnv)
        (Cluster.start Server.netEnv.replicas.replicas.keys) Server.commandMoves).net.blocks
        Server.netEnv.replicas.replicas.keys) ∧
      [1] ∈ ((run (Cluster.step Server.netEnv) (Cluster.start Server.netEnv.replicas.replicas.keys)
        Server.commandMoves).net 3).executed := by
    decide +kernel
  exact ⟨hc, (cluster_executed_submitted Server.netEnv Server.commandMoves hids hcf 3 [1] hc).2⟩

end GoHotstuff
