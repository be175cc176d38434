import GoHotstuff.Pb
import GoHotstuff.Lib.Sha256
import GoHotstuff.Lib.Quorum

/-!
# Replicas, certificates and block hashes (`consensus/entity.go`)

`verifyQuorumCert` counts the entries of a certificate whose key is a registered replica id and whose signature that
replica's verifier accepts for the certificate's `blockHash`; the entry's own `replicaId` plays no role.  The set of
these ids (`verifiedIds`) has at least `N - F` elements when the certificate verifies, so two certificates that verify
share the id of a correct replica (`quorum_intersection`).
-/

namespace GoHotstuff

open Lib (Bytes putUint64 sum256)

/-- ReplicaInfo holds information about a replica: its `Verifier`, a signature and a digest to a verdict or an
error. -/
structure ReplicaInfo where
  verify : Bytes → Bytes → Except String Bool

structure ReplicaConf where
  metadata : ConfigMetadata
  replicas : AList (fun _ : Int64 => ReplicaInfo)

/-- `int(metadata.N - metadata.F)` -/
def getQuorumSize (metadata : ConfigMetadata) : Int := (metadata.n - metadata.f).toInt

namespace ReplicaConf

/-- `err == nil && ok` for the verifier of a registered replica. -/
def accepts (rc : ReplicaConf) (id : Int64) (signature digest : Bytes) : Bool :=
  match rc.replicas.lookup id with
  | none => false
  | some info =>
    match info.verify signature digest with
    | .ok ok => ok
    | .error _ => false

/-- The ids whose signature the loop of `VerifyQuorumCert` counts. -/
def verifiedIds (rc : ReplicaConf) (qc : QuorumCert) : List Int64 :=
  (qc.signs.entries.filter fun e => rc.accepts e.1 e.2.signature qc.blockHash).map fun e => e.1

/-- VerifyQuorumCert will verify a QuorumCert from public keys stored in ReplicaConf -/
def verifyQuorumCert (rc : ReplicaConf) (qc : QuorumCert) : Bool :=
  if (qc.signs.keys.length : Int) < getQuorumSize rc.metadata then false
  else decide ((rc.metadata.n - rc.metadata.f).toUInt64.toNat ≤ (rc.verifiedIds qc).length)

/-- VerifyVote will verify a vote from public keys stored in ReplicaConf -/
def verifyIdentity (rc : ReplicaConf) (replicaId : Int64) (signature digest : Bytes) : Bool :=
  rc.accepts replicaId signature digest

end ReplicaConf

/-! ### Block hashes -/

/-- The bytes that `GetBlockHash` feeds to SHA-256. -/
def hashInput (block : Block) : Bytes := block.parentHash ++ putUint64 block.height ++ block.cmds

def getBlockHash (block : Block) : Bytes := sum256 (hashInput block)

@[simp]
theorem length_getBlockHash (block : Block) : (getBlockHash block).length = 32 := Lib.length_sum256 _

/-- Blocks whose parent hashes have the same length have the same hash input only if they agree in all it covers. -/
theorem hashInput_inj {b b' : Block} (hlen : b.parentHash.length = b'.parentHash.length)
    (h : hashInput b = hashInput b') :
    b.parentHash = b'.parentHash ∧ b.height = b'.height ∧ b.cmds = b'.cmds := by
  unfold hashInput at h
  rw [List.append_assoc, List.append_assoc] at h
  obtain ⟨h1, h2⟩ := List.append_inj h hlen
  obtain ⟨h3, h4⟩ := List.append_inj h2 (by simp)
  exact ⟨h1, Lib.putUint64_injective h3, h4⟩

/-! ### Certificates -/

namespace ReplicaConf

theorem accepts_eq_true {rc : ReplicaConf} {id : Int64} {signature digest : Bytes} :
    rc.accepts id signature digest = true ↔
      ∃ info, rc.replicas.lookup id = some info ∧ info.verify signature digest = .ok true := by
  unfold accepts
  cases hl : rc.replicas.lookup id with
  | none => simp
  | some info =>
    cases hv : info.verify signature digest with
    | ok ok => simp [hv]
    | error e => simp [hv]

theorem mem_verifiedIds {rc : ReplicaConf} {qc : QuorumCert} {id : Int64} :
    id ∈ rc.verifiedIds qc ↔ ∃ pc, qc.signs.lookup id = some pc ∧ rc.accepts id pc.signature qc.blockHash = true := by
  simp only [verifiedIds, List.mem_map, List.mem_filter]
  constructor
  · rintro ⟨⟨id', pc⟩, ⟨hm, hv⟩, rfl⟩
    exact ⟨pc, (AList.mem_lookup_iff).2 hm, hv⟩
  · rintro ⟨pc, hl, hv⟩
    exact ⟨⟨id, pc⟩, ⟨(AList.mem_lookup_iff).1 hl, hv⟩, rfl⟩

private theorem verifiedIds_nodup (rc : ReplicaConf) (qc : QuorumCert) : (rc.verifiedIds qc).Nodup := by
  have h : (rc.verifiedIds qc).Sublist qc.signs.keys := (List.filter_sublist).map _
  exact qc.signs.keys_nodup.sublist h

theorem mem_replicas_of_mem_verifiedIds {rc : ReplicaConf} {qc : QuorumCert} {id : Int64}
    (h : id ∈ rc.verifiedIds qc) : id ∈ rc.replicas.keys := by
  obtain ⟨pc, -, hv⟩ := mem_verifiedIds.1 h
  obtain ⟨info, hl, -⟩ := accepts_eq_true.1 hv
  rw [← AList.mem_keys, ← AList.lookup_isSome, hl]
  rfl

/-- A certificate that verifies has at least as many entries as the quorum asks for. -/
theorem quorumSize_le_of_verify {rc : ReplicaConf} {qc : QuorumCert} (h : rc.verifyQuorumCert qc = true) :
    getQuorumSize rc.metadata ≤ qc.signs.keys.length := by
  unfold verifyQuorumCert at h
  split at h
  · cases h
  · omega

private theorem quorumSize_le_verifiedIds {rc : ReplicaConf} {qc : QuorumCert} (h : rc.verifyQuorumCert qc = true)
    (hq : 0 ≤ getQuorumSize rc.metadata) : getQuorumSize rc.metadata ≤ (rc.verifiedIds qc).length := by
  unfold verifyQuorumCert at h
  split at h
  · cases h
  · have hle := of_decide_eq_true h
    unfold getQuorumSize at hq ⊢
    have h0 : (0 : Int64) ≤ rc.metadata.n - rc.metadata.f := Int64.le_iff_toInt_le.2 (by simpa using hq)
    rw [Int64.toNat_toUInt64_of_le h0] at hle
    have := Int64.toNat_toInt (rc.metadata.n - rc.metadata.f)
    omega

/-- Quorum intersection on ids: two certificates that verify have a counted id in common that is not faulty. -/
theorem exists_common_verified {rc : ReplicaConf} {byzantine : Finset Int64} {qc1 qc2 : QuorumCert}
    (hN : (rc.replicas.keys.length : Int) = rc.metadata.n.toInt) (hF : 0 ≤ rc.metadata.f.toInt)
    (hNF : 3 * rc.metadata.f.toInt + 1 ≤ rc.metadata.n.toInt)
    (hbyz : (byzantine.card : Int) ≤ rc.metadata.f.toInt) (h1 : rc.verifyQuorumCert qc1 = true)
    (h2 : rc.verifyQuorumCert qc2 = true) :
    ∃ id, id ∉ byzantine ∧ id ∈ rc.verifiedIds qc1 ∧ id ∈ rc.verifiedIds qc2 := by
  -- the subtraction in `GetQuorumSize` does not overflow
  have hsize : getQuorumSize rc.metadata = rc.metadata.n.toInt - rc.metadata.f.toInt := by
    have := rc.metadata.n.toInt_lt
    unfold getQuorumSize
    rw [Int64.toInt_sub, Int.bmod_eq_of_le] <;> omega
  have hl1 := quorumSize_le_verifiedIds h1 (by omega)
  have hl2 := quorumSize_le_verifiedIds h2 (by omega)
  have hsub : ∀ qc : QuorumCert, (rc.verifiedIds qc).toFinset ⊆ rc.replicas.keys.toFinset := by
    intro qc id hid
    rw [List.mem_toFinset] at hid ⊢
    exact mem_replicas_of_mem_verifiedIds hid
  obtain ⟨id, hid1, hid2, hid⟩ := Lib.exists_mem_inter_notMem (Z := byzantine) (hsub qc1) (hsub qc2) (by
    rw [List.toFinset_card_of_nodup rc.replicas.keys_nodup, List.toFinset_card_of_nodup (verifiedIds_nodup rc qc1),
      List.toFinset_card_of_nodup (verifiedIds_nodup rc qc2)]
    omega)
  exact ⟨id, hid, List.mem_toFinset.1 hid1, List.mem_toFinset.1 hid2⟩

end ReplicaConf

end GoHotstuff
