import GoHotstuff.Ecdsa
import GoHotstuff.Network

/-!
# What the signature of a view-change message covers

`createSignedViewChange` gives the encoded message itself to the signer, not a hash of it, and the signer hands it to
`crypto/ecdsa`, which reads a digest as a number of as many bits as the order of the curve has.  Of an encoding longer
than that the rest is not signed.  A signature is refused for every encoding with other leftmost bits
(`view_change_signature_binds`); it is accepted for a message that differs from the signed one behind its first `32` bytes
(`view_change_signature_reused`).
-/

namespace GoHotstuff

open Lib (Bytes)

namespace Node

private theorem handleViewChange_of_not_accepted {env : NodeEnv} {n : Node} {id : Int64} {data signature : Bytes}
    (h : env.replicas.verifyIdentity id signature data = false) : n.handleViewChange env id data signature = n := by
  unfold handleViewChange
  rw [h]
  rfl

private theorem createSignedViewChange_eq_ok_iff {env : NodeEnv} {n : Node} {data signature : Bytes} :
    (n.createSignedViewChange env).1 = .ok (.viewChange data signature) ↔
      env.marshal ⟨n.curView, n.core.genericQC⟩ = .ok data ∧ env.sign n.core.signLog.length data = .ok signature := by
  unfold createSignedViewChange
  constructor
  · intro h
    split at h
    · cases h
    · rename_i data' hdata
      split at h
      · cases h
      · rename_i sig hsig
        obtain ⟨rfl, rfl⟩ := Pb.Message.viewChange.inj (Except.ok.inj h)
        exact ⟨hdata, hsig⟩
  · rintro ⟨hdata, hsig⟩
    rw [hdata]
    dsimp only
    rw [hsig]

end Node

/-- A view-change signature binds the leftmost bits of the message and no more.  No replica that has registered the signer's
public key accepts the signature of `createSignedViewChange` over `d1` for a string from which `crypto/ecdsa` reads another
number; and if the library accepts its own signatures, every such replica accepts it for all other strings. -/
theorem view_change_signature_binds {PrivateKey PublicKey : Type} (L : EcdsaLib PrivateKey PublicKey) (hL : L.Ideal)
    (pri : PrivateKey) (env : NodeEnv) (hsigner : env.sign = ecdsaSigner L pri) (n : Node) (d1 signature : Bytes)
    (hsigned : (n.createSignedViewChange env).1 = .ok (.viewChange d1 signature)) (env' : NodeEnv)
    (hpub : env'.replicas.replicas.lookup env.id = some (ecdsaVerifier L (L.publicKey pri))) (d2 : Bytes) :
    (hashToInt (L.curve (L.publicKey pri)) d1 ≠ hashToInt (L.curve (L.publicKey pri)) d2 →
      env'.replicas.verifyIdentity env.id signature d2 = false ∧
      ∀ n' : Node, n'.handleViewChange env' env.id d2 signature = n') ∧
    (L.Correct → (env'.replicas.verifyIdentity env.id signature d2 = false ↔
      hashToInt (L.curve (L.publicKey pri)) d1 ≠ hashToInt (L.curve (L.publicKey pri)) d2)) := by
  obtain ⟨-, hsign⟩ := Node.createSignedViewChange_eq_ok_iff.1 hsigned
  rw [hsigner] at hsign
  have hrefused : hashToInt (L.curve (L.publicKey pri)) d1 ≠ hashToInt (L.curve (L.publicKey pri)) d2 →
      env'.replicas.verifyIdentity env.id signature d2 = false := by
    intro hleft
    rw [Bool.eq_false_iff]
    intro haccepts
    obtain ⟨info, hinfo, hverify⟩ := ReplicaConf.accepts_eq_true.1 haccepts
    rw [hpub] at hinfo
    obtain rfl := Option.some.inj hinfo
    exact hleft (hL.hashToInt_eq hsign hverify)
  refine ⟨fun hleft => ⟨hrefused hleft, fun n' => Node.handleViewChange_of_not_accepted (hrefused hleft)⟩,
    fun hC => ⟨fun hfalse heq => ?_, hrefused⟩⟩
  have hverify : Ecdsa.verify L (L.publicKey pri) signature d2 = .ok true :=
    (hL.verify_eq heq signature).symm.trans (hC.verify_of_sign hsign)
  have haccepts : env'.replicas.verifyIdentity env.id signature d2 = true :=
    ReplicaConf.accepts_eq_true.2 ⟨_, hpub, hverify⟩
  rw [haccepts] at hfalse
  cases hfalse

namespace Server

/-- The four replicas with ECDSA keys; only the messages of `msgs` are decoded. -/
def ecdsaEnv (msgs : List NewView) (id : Int64) : NodeEnv where
  id := id
  replicas := ⟨⟨4, 1, 3⟩, ([0, 1, 2, 3].map fun id => ⟨id, ecdsaVerifier ecdsa id⟩).toAList⟩
  sign := ecdsaSigner ecdsa id
  marshal newView := .ok (marshalNewView newView)
  unmarshal := unmarshalNewView msgs

private theorem exists_marshalNewView_eq_cons (newView : NewView) :
    ∃ b bs, marshalNewView newView = b :: bs ∧ b ≠ 0 := by
  unfold marshalNewView int64Field
  split
  · exact ⟨_, _, rfl, by decide⟩
  · exact ⟨_, _, rfl, by decide⟩

private theorem hashToInt_marshalNewView_ne {newView newView' : NewView}
    (h : (marshalNewView newView).take 32 ≠ (marshalNewView newView').take 32) :
    hashToInt .p256 (marshalNewView newView) ≠ hashToInt .p256 (marshalNewView newView') := by
  obtain ⟨b, bs, hbs, hb⟩ := exists_marshalNewView_eq_cons newView
  obtain ⟨c, cs, hcs, hc⟩ := exists_marshalNewView_eq_cons newView'
  rw [hbs, hcs] at h ⊢
  exact fun heq => h (hashToInt_p256_inj hb hc heq)

private theorem createSignedViewChange_ecdsaEnv (msgs : List NewView) (id : Int64) (n : Node) (newView : NewView)
    (h : newView = ⟨n.curView, n.core.genericQC⟩) :
    (n.createSignedViewChange (ecdsaEnv msgs id)).1 =
      .ok (.viewChange (marshalNewView newView) (ecdsaSig id (marshalNewView newView))) := by
  have hdata : (ecdsaEnv msgs id).marshal ⟨n.curView, n.core.genericQC⟩ = .ok (marshalNewView newView) := by
    rw [h]
    rfl
  exact Node.createSignedViewChange_eq_ok_iff.2 ⟨hdata, sign_ecdsa n.core.signLog.length id _⟩

private theorem sign_ecdsaEnv (msgs : List NewView) (id : Int64) : (ecdsaEnv msgs id).sign = ecdsaSigner ecdsa id := rfl

private theorem lookup_ecdsaEnv (msgs : List NewView) :
    (ecdsaEnv msgs 0).replicas.replicas.lookup 1 = some (ecdsaVerifier ecdsa (ecdsa.publicKey 1)) := rfl

/-- The first message of a replica with another block hash in its certificate. -/
def alteredNewView : NewView := ⟨0, ⟨-1, genesisHash.set 31 0, ∅⟩⟩

/-- The signature of replica `1` over its first message. -/
def firstSignature : Bytes := ecdsaSig 1 (marshalNewView firstNewView)

end Server

/-- Replica `1` has signed its first view-change message.  Replica `0` refuses the signature for a message exactly if its
first `32` bytes are other ones, such as those of the same message for view `1`. -/
theorem view_change_signature_binds_server :
    (Server.marshalNewView Server.firstNewView).take 32 ≠ (Server.marshalNewView ⟨1, genesisQC⟩).take 32 ∧
    ∀ newView, (Server.ecdsaEnv [] 0).replicas.verifyIdentity 1 Server.firstSignature
        (Server.marshalNewView newView) = false ↔
      (Server.marshalNewView Server.firstNewView).take 32 ≠ (Server.marshalNewView newView).take 32 := by
  refine ⟨?_, ?_⟩
  · decide +kernel
  · intro newView
    have hsigned := Server.createSignedViewChange_ecdsaEnv [] 1 newNode Server.firstNewView rfl
    have hbinds := view_change_signature_binds Server.ecdsa Server.ecdsa_ideal 1 (Server.ecdsaEnv [] 1)
      (Server.sign_ecdsaEnv [] 1) newNode _ _ hsigned (Server.ecdsaEnv [] 0) (Server.lookup_ecdsaEnv [])
      (Server.marshalNewView newView)
    refine (hbinds.2 Server.ecdsa_correct).trans ⟨fun hne heq => hne ?_, Server.hashToInt_marshalNewView_ne⟩
    show hashToInt .p256 _ = hashToInt .p256 _
    rw [hashToInt_p256, hashToInt_p256, heq]

/-- The altered message has another encoding, with the same first `32` bytes.  Replica `0` accepts replica `1`'s signature
over the first message for it and handles the certificate that replica `1` has not signed. -/
theorem view_change_signature_reused :
    Server.ecdsa.Ideal ∧
    (newNode.createSignedViewChange (Server.ecdsaEnv [Server.alteredNewView] 1)).1 =
      .ok (.viewChange (Server.marshalNewView Server.firstNewView) Server.firstSignature) ∧
    Server.marshalNewView Server.firstNewView ≠ Server.marshalNewView Server.alteredNewView ∧
    (Server.ecdsaEnv [Server.alteredNewView] 0).replicas.verifyIdentity 1 Server.firstSignature
      (Server.marshalNewView Server.alteredNewView) = true ∧
    (newNode.handleViewChange (Server.ecdsaEnv [Server.alteredNewView] 0) 1 (Server.marshalNewView Server.alteredNewView)
      Server.firstSignature).tasks = [.beat, .event (.receiveNewView 1 Server.alteredNewView)] := by
  refine ⟨Server.ecdsa_ideal, Server.createSignedViewChange_ecdsaEnv _ 1 newNode Server.firstNewView rfl, ?_⟩
  decide +kernel

end GoHotstuff
