import GoHotstuff.Core

/-!
# The four-replica deployment (`cmd/server/main.go`)

The configuration the server binary starts with: replicas `0` to `3`, `N = 4`, `F = 1`.  The source registers ECDSA
verifiers; here a signature spells out the signer and the signed bytes, so that it verifies for that signer and these
bytes and for nothing else.  Concrete certificates and runs are evaluated in this configuration.
-/

namespace GoHotstuff

open Lib (Bytes)

namespace Server

/-- The signature of replica `id` on `digest`. -/
def sign (id : Int64) (digest : Bytes) : Bytes := id.toUInt64.toUInt8 :: digest

def verifier (id : Int64) : ReplicaInfo := ⟨fun signature digest => .ok (signature == sign id digest)⟩

def replicas : ReplicaConf where
  metadata := ⟨4, 1, 3⟩
  replicas := [⟨0, verifier 0⟩, ⟨1, verifier 1⟩, ⟨2, verifier 2⟩, ⟨3, verifier 3⟩].toAList

def env (id : Int64) : Env := ⟨id, replicas, fun _ digest => .ok (sign id digest)⟩

/-- Every replica's signature is accepted as its own. -/
theorem verifyIdentity_sign {id : Int64} (hid : id ∈ replicas.replicas.keys) (digest : Bytes) :
    replicas.verifyIdentity id (sign id digest) digest = true := by
  have hid' : id = 0 ∨ id = 1 ∨ id = 2 ∨ id = 3 := by
    have hmem : id ∈ [0, 1, 2, 3] := hid
    simpa using hmem
  have hself : ∀ id, (verifier id).verify (sign id digest) digest = .ok true := by
    intro id
    show Except.ok (sign id digest == sign id digest) = _
    rw [beq_self_eq_true]
  rcases hid' with rfl | rfl | rfl | rfl
  all_goals exact ReplicaConf.accepts_eq_true.2 ⟨_, rfl, hself _⟩

/-- The certificate for `hash` in view `view` with the signatures of `ids`. -/
def quorumCert (view : Int64) (hash : Bytes) (ids : List Int64) : QuorumCert :=
  ⟨view, hash, (ids.map fun id => ⟨id, ⟨id, sign id hash⟩⟩).toAList⟩

/-- The block a leader makes on `parent` in view `view`. -/
def child (view : Int64) (parent : Block) (justify : QuorumCert) (cmds : Bytes) : Block :=
  let leaf : Block := ⟨parent.selfQc.blockHash, cmds, view % 4, parent.height + 1, 0, some justify, default⟩
  { leaf with selfQc := ⟨view, getBlockHash leaf, ∅⟩ }

/-- A chain on the genesis block, each block with a certificate for its parent that carries the signatures of `ids`. -/
def branch (ids : List Int64) (cmds : Bytes) : Nat → Block
  | 0 => genesis
  | 1 => child 0 genesis genesisQC cmds
  | k + 2 => child (.ofNat (k + 1)) (branch ids cmds (k + 1))
      (quorumCert (.ofNat k) (branch ids cmds (k + 1)).selfQc.blockHash ids) cmds

/-- The chain with the certificates of replicas `0`, `1` and `2`. -/
def chain : Nat → Block := branch [0, 1, 2] [1]

end Server

/-- Quorum intersection.  Any two certificates on which `VerifyQuorumCert` returns true, whatever else is in them, share
the id of a registered replica that is not Byzantine and whose verifier accepts both signatures. -/
theorem quorum_intersection (rc : ReplicaConf) (hN : (rc.replicas.keys.length : Int) = rc.metadata.n.toInt)
    (hF : 0 ≤ rc.metadata.f.toInt) (hNF : 3 * rc.metadata.f.toInt + 1 ≤ rc.metadata.n.toInt)
    (byzantine : Finset Int64) (hbyz : (byzantine.card : Int) ≤ rc.metadata.f.toInt) (qc1 qc2 : QuorumCert)
    (h1 : rc.verifyQuorumCert qc1 = true) (h2 : rc.verifyQuorumCert qc2 = true) :
    ∃ id, id ∉ byzantine ∧ ∃ info pc1 pc2, rc.replicas.lookup id = some info ∧
      qc1.signs.lookup id = some pc1 ∧ info.verify pc1.signature qc1.blockHash = .ok true ∧
      qc2.signs.lookup id = some pc2 ∧ info.verify pc2.signature qc2.blockHash = .ok true := by
  obtain ⟨id, hid, hid1, hid2⟩ := ReplicaConf.exists_common_verified hN hF hNF hbyz h1 h2
  obtain ⟨pc1, hl1, ha1⟩ := ReplicaConf.mem_verifiedIds.1 hid1
  obtain ⟨pc2, hl2, ha2⟩ := ReplicaConf.mem_verifiedIds.1 hid2
  obtain ⟨info, hinfo, hv1⟩ := ReplicaConf.accepts_eq_true.1 ha1
  obtain ⟨info', hinfo', hv2⟩ := ReplicaConf.accepts_eq_true.1 ha2
  have hsame : info' = info := by
    rw [hinfo] at hinfo'
    exact (Option.some.inj hinfo').symm
  exact ⟨id, hid, info, pc1, pc2, hinfo, hl1, hv1, hl2, hsame ▸ hv2⟩

/-- Replica `1` is Byzantine and one certificate carries the signature of an unknown id besides. -/
theorem quorum_intersection_server :
    ∃ id, id ∉ ({1} : Finset Int64) ∧ ∃ info pc1 pc2, Server.replicas.replicas.lookup id = some info ∧
      (Server.quorumCert 0 [7] [0, 1, 2, 9]).signs.lookup id = some pc1 ∧ info.verify pc1.signature [7] = .ok true ∧
      (Server.quorumCert 1 [8] [1, 2, 3]).signs.lookup id = some pc2 ∧ info.verify pc2.signature [8] = .ok true :=
  quorum_intersection Server.replicas (by decide +kernel) (by decide +kernel) (by decide +kernel) {1} (by decide)
    (Server.quorumCert 0 [7] [0, 1, 2, 9]) (Server.quorumCert 1 [8] [1, 2, 3]) (by decide +kernel) (by decide +kernel)

end GoHotstuff
