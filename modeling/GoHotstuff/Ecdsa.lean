import Mathlib.Data.Int.ModEq
import GoHotstuff.Entity
import GoHotstuff.Lib.Der

/-!
# Signatures (`common/crypto/ecdsa.go`)

A signature is the DER encoding of two integers `R` and `S`.  `Sign` replaces an `S` above half the order of the curve by
`N - S`, `Verify` refuses one.  What `crypto/ecdsa` itself computes is a parameter (`EcdsaLib`).

`UnmarshalECDSASignature` drops the rest that `asn1.Unmarshal` returns, and `asn1.Unmarshal` drops what follows `S` inside
the sequence.  Of the strings with nothing to drop (`Exact`) at most one is accepted for each `R` and each `S` up to sign
(`signature_encoding_unique`); with a byte appended the string is accepted again (`signature_with_byte_appended`).  What
`Sign` returns is accepted (`produced_signature_verifies`).
-/

namespace GoHotstuff

open Lib (Bytes)
open Lib.Der (integer readInteger element readElement ofNatBytes)

/-! ### Curves -/

/-- The curves of `crypto/elliptic`, and any other one with its name and order. -/
inductive Curve where
  | p224 | p256 | p384 | p521
  | other (name : String) (n : Nat)
deriving DecidableEq

namespace Curve

/-- `Params().N`, the order of the base point. -/
def order : Curve → Nat
  | p224 => 0xffffffffffffffffffffffffffff16a2e0b8f03e13dd29455c5c2a3d
  | p256 => 0xffffffff00000000ffffffffffffffffbce6faada7179e84f3b9cac2fc632551
  | p384 => 0xffffffffffffffffffffffffffffffffffffffffffffffffc7634d81f4372ddf581a0db248b0a77aecec196accc52973
  | p521 => 0x1fffffffffffffffffffffffffffffffffffffffffffffffffffffffffffffffffa51868783bf2f966b7fcc0148f709a5d03bb5c9b8899c47aebb6fb71e91386409
  | other _ n => n

def name : Curve → String
  | p224 => "P-224"
  | p256 => "P-256"
  | p384 => "P-384"
  | p521 => "P-521"
  | other name _ => name

end Curve

/-- curveHalfOrders contains the precomputed curve group orders halved. -/
def curveHalfOrders : Curve → Option Int
  | .other _ _ => none
  | c => some (c.order >>> 1 : Nat)

/-- For a curve that has no entry the source dereferences nil; `Verify` does not call it then. -/
def getCurveHalfOrdersAt (c : Curve) : Int := (curveHalfOrders c).getD 0

private theorem order_of_registered {c : Curve} {halfOrder : Int} (h : curveHalfOrders c = some halfOrder) :
    2 * halfOrder + 1 = c.order ∧ c.order < 2 ^ 521 := by
  cases c with
  | other => cases h
  | _ =>
    obtain rfl := Option.some.inj h
    decide +kernel

private theorem curveHalfOrders_of_mem {c : Curve} (h : c ∈ [.p224, .p256, .p384, .p521]) :
    curveHalfOrders c = some (c.order >>> 1 : Nat) := by
  cases c with
  | other name n => simp at h
  | _ => rfl

/-! ### The encoding -/

structure ECDSASignature where
  r : Option Int
  s : Option Int

def marshalECDSASignature (r s : Int) : Except String Bytes := .ok (element 0x30 (integer r ++ integer s))

/-- The two integers of the sequence, what follows them inside it and what follows the sequence. -/
def readSignature (raw : Bytes) : Except String ((Int × Int) × Bytes × Bytes) :=
  match readElement 0x30 raw with
  | .error e => .error e
  | .ok (content, rest) =>
    match readInteger content with
    | .error e => .error e
    | .ok (r, content) =>
      match readInteger content with
      | .error e => .error e
      | .ok (s, content) => .ok ((r, s), content, rest)

/-- `asn1.Unmarshal` into a new `ECDSASignature`: extra bytes at the end of the sequence are allowed, the rest is
returned. -/
def asn1Unmarshal (raw : Bytes) : Except String (Bytes × ECDSASignature) :=
  match readSignature raw with
  | .error e => .error e
  | .ok ((r, s), _, rest) => .ok (rest, ⟨some r, some s⟩)

def unmarshalECDSASignature (raw : Bytes) : Except String (Int × Int) :=
  match asn1Unmarshal raw with
  | .error err => .error s!"failed unmashalling signature [{err}]"
  | .ok (_, sig) =>
    match sig.r, sig.s with
    | none, _ => .error "invalid signature, R must be different from nil"
    | some _, none => .error "invalid signature, S must be different from nil"
    | some r, some s =>
      if r.sign ≠ 1 then .error "invalid signature, R must be larger than zero"
      else if s.sign ≠ 1 then .error "invalid signature, S must be larger than zero"
      else .ok (r, s)

/-- What decoding drops: the bytes behind `S` inside the sequence and those behind the sequence. -/
def dropped (raw : Bytes) : Except String (Bytes × Bytes) := (readSignature raw).map fun x => x.2

/-- The string is one sequence of two integers and nothing else. -/
def Exact (raw : Bytes) : Prop := ∃ rs, readSignature raw = .ok (rs, [], [])

private theorem readSignature_eq_ok_iff {raw content rest : Bytes} {r s : Int} :
    readSignature raw = .ok ((r, s), content, rest) ↔
      raw = element 0x30 (integer r ++ integer s ++ content) ++ rest ∧
        (integer r ++ integer s ++ content).length < 2 ^ 31 := by
  unfold readSignature
  constructor
  · intro h
    split at h
    · cases h
    · rename_i content1 rest1 hseq
      split at h
      · cases h
      · rename_i r1 content2 hr
        split at h
        · cases h
        · rename_i s1 content3 hs
          obtain ⟨hrs, hrest⟩ := Prod.mk.inj (Except.ok.inj h)
          obtain ⟨rfl, rfl⟩ := Prod.mk.inj hrs
          obtain ⟨rfl, rfl⟩ := Prod.mk.inj hrest
          obtain ⟨rfl, -⟩ := Lib.Der.readInteger_eq_ok_iff.1 hs
          obtain ⟨rfl, -⟩ := Lib.Der.readInteger_eq_ok_iff.1 hr
          rw [List.append_assoc]
          exact Lib.Der.readElement_eq_ok_iff.1 hseq
  · rintro ⟨rfl, hlen⟩
    have hint : ∀ n : Int, (Lib.Der.integerBytes n).length ≤ (integer n).length := by
      intro n
      unfold integer element
      rw [List.length_cons, List.length_append]
      omega
    have hr := hint r
    have hs := hint s
    have hlen' := hlen
    rw [List.length_append, List.length_append] at hlen'
    rw [Lib.Der.readElement_eq_ok_iff.2 ⟨rfl, hlen⟩]
    simp only [List.append_assoc]
    rw [Lib.Der.readInteger_eq_ok_iff.2 ⟨rfl, by omega⟩]
    dsimp only
    rw [Lib.Der.readInteger_eq_ok_iff.2 ⟨rfl, by omega⟩]

private theorem unmarshalECDSASignature_eq_ok_iff {raw : Bytes} {r s : Int} :
    unmarshalECDSASignature raw = .ok (r, s) ↔
      0 < r ∧ 0 < s ∧ ∃ content rest, readSignature raw = .ok ((r, s), content, rest) := by
  unfold unmarshalECDSASignature asn1Unmarshal
  constructor
  · intro h
    cases hread : readSignature raw with
    | error e =>
      rw [hread] at h
      cases h
    | ok x =>
      obtain ⟨⟨r1, s1⟩, content, rest⟩ := x
      rw [hread] at h
      dsimp only at h
      split_ifs at h with hr hs
      obtain ⟨rfl, rfl⟩ := Prod.mk.inj (Except.ok.inj h)
      exact ⟨Int.sign_eq_one_iff_pos.1 (not_not.1 hr), Int.sign_eq_one_iff_pos.1 (not_not.1 hs), content, rest, rfl⟩
  · rintro ⟨hr, hs, content, rest, hread⟩
    rw [hread]
    dsimp only
    rw [if_neg (not_not_intro (Int.sign_eq_one_iff_pos.2 hr)), if_neg (not_not_intro (Int.sign_eq_one_iff_pos.2 hs))]

private theorem unmarshal_marshal {r s : Int} (hr : 0 < r ∧ r < 2 ^ 521) (hs : 0 < s ∧ s < 2 ^ 521) :
    unmarshalECDSASignature (element 0x30 (integer r ++ integer s)) = .ok (r, s) := by
  have hlen : ∀ {x : Int}, 0 < x ∧ x < 2 ^ 521 → (integer x).length ≤ 73 := by
    intro x hx
    obtain ⟨n, rfl⟩ := Int.eq_ofNat_of_zero_le (Int.le_of_lt hx.1)
    have hn : n < 256 ^ 66 := by omega
    exact Lib.Der.length_integer_le hn (by decide)
  have hlenR := hlen hr
  have hlenS := hlen hs
  refine unmarshalECDSASignature_eq_ok_iff.2 ⟨hr.1, hs.1, [], [], readSignature_eq_ok_iff.2 ⟨?_, ?_⟩⟩
  · rw [List.append_nil, List.append_nil]
  · rw [List.append_nil, List.length_append]
    omega

private theorem marshal_eq_ok_iff_exact {raw : Bytes} {r s : Int} (hrs : unmarshalECDSASignature raw = .ok (r, s)) :
    marshalECDSASignature r s = .ok raw ↔ Exact raw := by
  obtain ⟨-, -, content, rest, hread⟩ := unmarshalECDSASignature_eq_ok_iff.1 hrs
  obtain ⟨hraw, hlen⟩ := readSignature_eq_ok_iff.1 hread
  constructor
  · intro h
    refine ⟨(r, s), readSignature_eq_ok_iff.2 ⟨?_, ?_⟩⟩
    · rw [List.append_nil, List.append_nil]
      exact (Except.ok.inj h).symm
    · rw [List.length_append] at hlen
      rw [List.append_nil]
      omega
  · rintro ⟨rs, hexact⟩
    rw [hread] at hexact
    obtain ⟨-, hdrop⟩ := Prod.mk.inj (Except.ok.inj hexact)
    obtain ⟨rfl, rfl⟩ := Prod.mk.inj hdrop
    rw [hraw, marshalECDSASignature, List.append_nil, List.append_nil]

private theorem eq_iff_dropped_eq {raw raw' : Bytes} {rs : Int × Int} (h : unmarshalECDSASignature raw = .ok rs)
    (h' : unmarshalECDSASignature raw' = .ok rs) : raw = raw' ↔ dropped raw = dropped raw' := by
  obtain ⟨r, s⟩ := rs
  obtain ⟨-, -, content, rest, hread⟩ := unmarshalECDSASignature_eq_ok_iff.1 h
  obtain ⟨-, -, content', rest', hread'⟩ := unmarshalECDSASignature_eq_ok_iff.1 h'
  refine ⟨fun heq => by rw [heq], fun heq => ?_⟩
  rw [dropped, dropped, hread, hread'] at heq
  obtain ⟨rfl, rfl⟩ := Prod.mk.inj (Except.ok.inj heq)
  rw [(readSignature_eq_ok_iff.1 hread).1, (readSignature_eq_ok_iff.1 hread').1]

/-! ### `Sign` and `Verify` -/

/-- `crypto/ecdsa`: private and public keys, with the curve of a public key, the signing function, whose first argument
stands for the random bytes it reads, and the verifying function.  A signature is a pair of numbers between `1` and
`N - 1`. -/
structure EcdsaLib (PrivateKey PublicKey : Type) where
  publicKey : PrivateKey → PublicKey
  curve : PublicKey → Curve
  sign : Nat → PrivateKey → Bytes → Except String (Int × Int)
  verify : PublicKey → Bytes → Int → Int → Bool
  sign_range : ∀ {call k digest r s}, sign call k digest = .ok (r, s) →
    (1 ≤ r ∧ r < (curve (publicKey k)).order) ∧ 1 ≤ s ∧ s < (curve (publicKey k)).order

/-- `hashToInt` of the library: the leftmost bits of the digest, as many as the order has. -/
def hashToInt (c : Curve) (hash : Bytes) : Nat :=
  let orderBits := c.order.size
  let orderBytes := (orderBits + 7) / 8
  let hash := if orderBytes < hash.length then hash.take orderBytes else hash
  ofNatBytes hash >>> (hash.length * 8 - orderBits)

/-- What is assumed of the library where more than the shape of its results is needed: it uses only the leftmost bits of a
digest; it accepts what it has signed; and it accepts a pair that it has signed, or its mirror image, for no digest with
other leftmost bits. -/
structure EcdsaLib.Ideal {PrivateKey PublicKey : Type} (L : EcdsaLib PrivateKey PublicKey) : Prop where
  verify_congr : ∀ {k digest digest'} (r s : Int),
    hashToInt (L.curve k) digest = hashToInt (L.curve k) digest' → L.verify k digest r s = L.verify k digest' r s
  verify_sign : ∀ {call k digest r s}, L.sign call k digest = .ok (r, s) → L.verify (L.publicKey k) digest r s = true
  unforgeable : ∀ {call k digest digest' r s}, L.sign call k digest = .ok (r, s) →
    ∀ s', s' = s ∨ s' = (L.curve (L.publicKey k)).order - s → L.verify (L.publicKey k) digest' r s' = true →
      hashToInt (L.curve (L.publicKey k)) digest = hashToInt (L.curve (L.publicKey k)) digest'

/-- What is assumed of the library where its own signatures have to be accepted: it verifies what it has signed, and with
a pair also the one with `N - S`. -/
structure EcdsaLib.Correct {PrivateKey PublicKey : Type} (L : EcdsaLib PrivateKey PublicKey) : Prop where
  verify_sign : ∀ {call k digest r s}, L.sign call k digest = .ok (r, s) → L.verify (L.publicKey k) digest r s = true
  verify_sub : ∀ {k digest r s}, L.verify k digest r s = true → L.verify k digest r ((L.curve k).order - s) = true

theorem hashToInt_p256 (digest : Bytes) : hashToInt .p256 digest = ofNatBytes (digest.take 32) := by
  have hbits : Curve.p256.order.size = 256 := by decide +kernel
  have htake : (if 32 < digest.length then digest.take 32 else digest) = digest.take 32 := by
    split
    · rfl
    · exact (List.take_of_length_le (by omega)).symm
  unfold hashToInt
  rw [hbits]
  dsimp only
  rw [htake, List.length_take, show min 32 digest.length * 8 - 256 = 0 by omega, Nat.shiftRight_zero]

private theorem hashToInt_p256_lt (digest : Bytes) : hashToInt .p256 digest < 2 ^ 256 := by
  have hlt := Lib.Der.ofNatBytes_lt (digest.take 32)
  have hpow : 256 ^ (digest.take 32).length ≤ 256 ^ 32 := Nat.pow_le_pow_right (by decide) (List.length_take_le _ _)
  rw [hashToInt_p256]
  omega

/-- From digests that begin with a nonzero byte the library reads the same number only if their first `32` bytes agree. -/
theorem hashToInt_p256_inj {b c : UInt8} (hb : b ≠ 0) (hc : c ≠ 0) {bs cs : Bytes}
    (h : hashToInt .p256 (b :: bs) = hashToInt .p256 (c :: cs)) : (b :: bs).take 32 = (c :: cs).take 32 := by
  rw [hashToInt_p256, hashToInt_p256] at h
  exact Lib.Der.ofNatBytes_inj hb hc h

section Ecdsa

variable {PrivateKey PublicKey : Type} (L : EcdsaLib PrivateKey PublicKey)

/-- IsLow checks that s is a low-S -/
def isLowS (k : PublicKey) (s : Int) : Except String Bool :=
  match curveHalfOrders (L.curve k) with
  | none => .error s!"curve not recognized [{(L.curve k).name}]"
  | some halfOrder => .ok (compare s halfOrder != .gt)

/-- The flag tells whether `s` has been replaced. -/
def toLowS (k : PublicKey) (s : Int) : Except String (Int × Bool) :=
  match isLowS L k s with
  | .error err => .error err
  | .ok lowS => if !lowS then .ok ((L.curve k).order - s, true) else .ok (s, false)

namespace Ecdsa

def sign (call : Nat) (k : PrivateKey) (digest : Bytes) : Except String Bytes :=
  match L.sign call k digest with
  | .error err => .error err
  | .ok (r, s) =>
    match toLowS L (L.publicKey k) s with
    | .error err => .error err
    | .ok (s, _) => marshalECDSASignature r s

def verify (k : PublicKey) (signature digest : Bytes) : Except String Bool :=
  match unmarshalECDSASignature signature with
  | .error err => .error s!"failed unmashalling signature [{err}]"
  | .ok (r, s) =>
    match isLowS L k s with
    | .error err => .error err
    | .ok lowS =>
      if !lowS then
        .error s!"invalid S. Must be smaller than half the order [{s}][{getCurveHalfOrdersAt (L.curve k)}]"
      else .ok (L.verify k digest r s)

end Ecdsa

/-- `ECDSASigner` with the private key `pri`, as the signer of a replica. -/
def ecdsaSigner (pri : PrivateKey) (call : Nat) (digest : Bytes) : Except String Bytes := Ecdsa.sign L call pri digest

/-- `ECDSAVerifier` with the public key `pub`, as the verifier that is registered for a replica. -/
def ecdsaVerifier (pub : PublicKey) : ReplicaInfo := ⟨fun signature digest => Ecdsa.verify L pub signature digest⟩

variable {L}

private theorem isLowS_eq_ok_iff {k : PublicKey} {s : Int} {lowS : Bool} :
    isLowS L k s = .ok lowS ↔ ∃ halfOrder, curveHalfOrders (L.curve k) = some halfOrder ∧ lowS = decide (s ≤ halfOrder) := by
  unfold isLowS
  cases curveHalfOrders (L.curve k) with
  | none => simp
  | some halfOrder =>
    have hcmp : (compare s halfOrder != .gt) = decide (s ≤ halfOrder) := by
      rw [Bool.eq_iff_iff]
      simp [← compare_le_iff_le]
    simp only [hcmp, Except.ok.injEq, Option.some.injEq, exists_eq_left', eq_comm]

private theorem verify_eq_ok_true_iff {k : PublicKey} {signature digest : Bytes} :
    Ecdsa.verify L k signature digest = .ok true ↔
      ∃ r s, unmarshalECDSASignature signature = .ok (r, s) ∧ isLowS L k s = .ok true ∧ L.verify k digest r s = true := by
  unfold Ecdsa.verify
  constructor
  · intro h
    split at h
    · cases h
    · rename_i r s hrs
      split at h
      · cases h
      · rename_i lowS hlow
        cases lowS with
        | false => cases h
        | true => exact ⟨r, s, hrs, hlow, Except.ok.inj h⟩
  · rintro ⟨r, s, hrs, hlow, hv⟩
    rw [hrs]
    dsimp only
    rw [hlow]
    dsimp only
    rw [hv]
    rfl

/-! ### `toLowS` -/

private theorem toLowS_of_le {k : PublicKey} {s halfOrder : Int} (hhalf : curveHalfOrders (L.curve k) = some halfOrder)
    (hle : s ≤ halfOrder) : toLowS L k s = .ok (s, false) := by
  have hlow : isLowS L k s = .ok true := isLowS_eq_ok_iff.2 ⟨halfOrder, hhalf, (decide_eq_true hle).symm⟩
  unfold toLowS
  rw [hlow]
  rfl

private theorem toLowS_of_lt {k : PublicKey} {s halfOrder : Int} (hhalf : curveHalfOrders (L.curve k) = some halfOrder)
    (hlt : halfOrder < s) : toLowS L k s = .ok ((L.curve k).order - s, true) := by
  have hhigh : isLowS L k s = .ok false :=
    isLowS_eq_ok_iff.2 ⟨halfOrder, hhalf, (decide_eq_false (by omega)).symm⟩
  unfold toLowS
  rw [hhigh]
  rfl

/-- Of `s` and `N - s` the low one is taken; the order is odd, so that there is always exactly one. -/
private theorem toLowS_spec {k : PublicKey} {s halfOrder : Int} (hhalf : curveHalfOrders (L.curve k) = some halfOrder)
    (hs : 1 ≤ s) (hsN : s < (L.curve k).order) :
    ∃ s' replaced, toLowS L k s = .ok (s', replaced) ∧ 1 ≤ s' ∧ s' ≤ halfOrder ∧
      (s' = s ∨ s' = (L.curve k).order - s) ∧ (s ≤ halfOrder → s' = s) := by
  obtain ⟨hN, -⟩ := order_of_registered hhalf
  by_cases hle : s ≤ halfOrder
  · exact ⟨s, false, toLowS_of_le hhalf hle, hs, hle, .inl rfl, fun _ => rfl⟩
  · refine ⟨(L.curve k).order - s, true, toLowS_of_lt hhalf (by omega), ?_, ?_, .inr rfl, fun h => absurd h hle⟩
    · omega
    · omega

private theorem sign_toLowS {call : Nat} {k : PrivateKey} {digest signature : Bytes}
    (h : Ecdsa.sign L call k digest = .ok signature) :
    ∃ r s s' halfOrder, L.sign call k digest = .ok (r, s) ∧
      curveHalfOrders (L.curve (L.publicKey k)) = some halfOrder ∧ 1 ≤ s' ∧ s' ≤ halfOrder ∧
      (s' = s ∨ s' = (L.curve (L.publicKey k)).order - s) ∧ unmarshalECDSASignature signature = .ok (r, s') := by
  unfold Ecdsa.sign at h
  split at h
  · cases h
  · rename_i r s hsign
    obtain ⟨hr, hs⟩ := L.sign_range hsign
    cases hhalf : curveHalfOrders (L.curve (L.publicKey k)) with
    | none =>
      -- the curve is not recognized, and `toLowS` fails
      unfold toLowS isLowS at h
      rw [hhalf] at h
      cases h
    | some halfOrder =>
      obtain ⟨s', replaced, hlow, h1, hle, hor, -⟩ := toLowS_spec hhalf hs.1 hs.2
      rw [hlow] at h
      obtain rfl := Except.ok.inj h
      obtain ⟨hN, hmax⟩ := order_of_registered hhalf
      have hmax' : ((L.curve (L.publicKey k)).order : Int) < 2 ^ 521 := by exact_mod_cast hmax
      exact ⟨r, s, s', halfOrder, hsign, rfl, h1, hle, hor, unmarshal_marshal (by omega) (by omega)⟩

private theorem sign_eq_ok {call : Nat} {k : PrivateKey} {digest signature : Bytes}
    (h : Ecdsa.sign L call k digest = .ok signature) :
    ∃ r s s', L.sign call k digest = .ok (r, s) ∧ (s' = s ∨ s' = (L.curve (L.publicKey k)).order - s) ∧
      unmarshalECDSASignature signature = .ok (r, s') := by
  obtain ⟨r, s, s', -, hsign, -, -, -, hor, hread⟩ := sign_toLowS h
  exact ⟨r, s, s', hsign, hor, hread⟩

private theorem sign_of_low {call : Nat} {k : PrivateKey} {digest : Bytes} {r s : Int}
    (h : L.sign call k digest = .ok (r, s)) (hlow : isLowS L (L.publicKey k) s = .ok true) :
    Ecdsa.sign L call k digest = .ok (element 0x30 (integer r ++ integer s)) := by
  unfold Ecdsa.sign toLowS
  rw [h]
  dsimp only
  rw [hlow]
  rfl

/-- What `Sign` returns is accepted for digests with the same leftmost bits only. -/
theorem EcdsaLib.Ideal.hashToInt_eq (hL : L.Ideal) {call : Nat} {k : PrivateKey} {digest digest' signature : Bytes}
    (hsign : Ecdsa.sign L call k digest = .ok signature)
    (hverify : Ecdsa.verify L (L.publicKey k) signature digest' = .ok true) :
    hashToInt (L.curve (L.publicKey k)) digest = hashToInt (L.curve (L.publicKey k)) digest' := by
  obtain ⟨r, s, s', hrs, hs', hread⟩ := sign_eq_ok hsign
  obtain ⟨r2, s2, hread2, -, hv⟩ := verify_eq_ok_true_iff.1 hverify
  obtain ⟨rfl, rfl⟩ := Prod.mk.inj (Except.ok.inj (hread.symm.trans hread2))
  exact hL.unforgeable hrs s' hs' hv

/-- `Verify` accepts what `Sign` returns. -/
theorem EcdsaLib.Correct.verify_of_sign (hL : L.Correct) {call : Nat} {k : PrivateKey} {digest signature : Bytes}
    (hsign : Ecdsa.sign L call k digest = .ok signature) :
    Ecdsa.verify L (L.publicKey k) signature digest = .ok true := by
  obtain ⟨r, s, s', halfOrder, hrs, hhalf, -, hle, hor, hread⟩ := sign_toLowS hsign
  have hlow : isLowS L (L.publicKey k) s' = .ok true :=
    isLowS_eq_ok_iff.2 ⟨halfOrder, hhalf, (decide_eq_true hle).symm⟩
  have hverify : L.verify (L.publicKey k) digest r s' = true := by
    have hs := hL.verify_sign hrs
    rcases hor with rfl | rfl
    · exact hs
    · exact hL.verify_sub hs
  exact verify_eq_ok_true_iff.2 ⟨r, s', hread, hlow, hverify⟩

/-- `Verify` does not look behind the leftmost bits of the digest. -/
theorem EcdsaLib.Ideal.verify_eq (hL : L.Ideal) {k : PublicKey} {digest digest' : Bytes}
    (h : hashToInt (L.curve k) digest = hashToInt (L.curve k) digest') (signature : Bytes) :
    Ecdsa.verify L k signature digest = Ecdsa.verify L k signature digest' := by
  unfold Ecdsa.verify
  split
  · rfl
  · rw [hL.verify_congr _ _ h]

/-- Of two numbers with the same residue up to sign only one is positive and at most half the odd order. -/
private theorem low_unique {N h s t : Int} (hN : 2 * h + 1 = N) (hs : 0 < s) (hsh : s ≤ h) (ht : 0 < t) (hth : t ≤ h)
    (hst : s ≡ t [ZMOD N] ∨ s ≡ -t [ZMOD N]) : s = t := by
  rcases hst with hst | hst
  · have hdvd := hst.dvd
    have habs : |t - s| < N := abs_lt.2 ⟨by omega, by omega⟩
    have hzero := Int.eq_zero_of_abs_lt_dvd hdvd habs
    omega
  · have hdvd : N ∣ s + t := by
      have := hst.symm.dvd
      rwa [sub_neg_eq_add] at this
    have hle := Int.le_of_dvd (by omega) hdvd
    omega

end Ecdsa

/-- Signatures have one accepted encoding, bytes that the decoder drops apart.  If `Verify` accepts two strings whose `R` agree
and whose `S` agree up to sign modulo the order, the strings are equal exactly if decoding drops the same bytes from them, so
in particular if both consist of a sequence of two integers and nothing else; `MarshalECDSASignature` gives a string back
exactly if it consists of nothing else; and the other one of `S` and `N - S` is not low. -/
theorem signature_encoding_unique {PrivateKey PublicKey : Type} (L : EcdsaLib PrivateKey PublicKey) (k : PublicKey)
    (digest sig1 sig2 : Bytes) (hv1 : Ecdsa.verify L k sig1 digest = .ok true)
    (hv2 : Ecdsa.verify L k sig2 digest = .ok true) (r s1 s2 : Int)
    (hd1 : unmarshalECDSASignature sig1 = .ok (r, s1)) (hd2 : unmarshalECDSASignature sig2 = .ok (r, s2))
    (hs : s1 ≡ s2 [ZMOD (L.curve k).order] ∨ s1 ≡ -s2 [ZMOD (L.curve k).order]) :
    (sig1 = sig2 ↔ dropped sig1 = dropped sig2) ∧ (Exact sig1 → Exact sig2 → sig1 = sig2) ∧
    (marshalECDSASignature r s1 = .ok sig1 ↔ Exact sig1) ∧
    s1 = s2 ∧ isLowS L k ((L.curve k).order - s1) = .ok false := by
  have hpos : ∀ {sig : Bytes} {s : Int}, Ecdsa.verify L k sig digest = .ok true →
      unmarshalECDSASignature sig = .ok (r, s) → 0 < s ∧ isLowS L k s = .ok true := by
    intro sig s hv hd
    obtain ⟨r', s', hd', hlow, -⟩ := verify_eq_ok_true_iff.1 hv
    rw [hd] at hd'
    obtain ⟨rfl, rfl⟩ := Prod.mk.inj (Except.ok.inj hd')
    exact ⟨(unmarshalECDSASignature_eq_ok_iff.1 hd).2.1, hlow⟩
  obtain ⟨hs1, hlow1⟩ := hpos hv1 hd1
  obtain ⟨hs2, hlow2⟩ := hpos hv2 hd2
  obtain ⟨halfOrder, hhalf, hle1⟩ := isLowS_eq_ok_iff.1 hlow1
  obtain ⟨halfOrder', hhalf', hle2⟩ := isLowS_eq_ok_iff.1 hlow2
  obtain rfl := Option.some.inj (hhalf.symm.trans hhalf')
  have hle1 : s1 ≤ halfOrder := of_decide_eq_true hle1.symm
  have hle2 : s2 ≤ halfOrder := of_decide_eq_true hle2.symm
  obtain ⟨hN, -⟩ := order_of_registered hhalf
  obtain rfl := low_unique hN hs1 hle1 hs2 hle2 hs
  refine ⟨eq_iff_dropped_eq hd1 hd2, fun he1 he2 => ?_, marshal_eq_ok_iff_exact hd1, rfl,
    isLowS_eq_ok_iff.2 ⟨halfOrder, hhalf, (decide_eq_false (by omega)).symm⟩⟩
  have hm1 := (marshal_eq_ok_iff_exact hd1).2 he1
  have hm2 := (marshal_eq_ok_iff_exact hd2).2 he2
  exact Except.ok.inj (hm1.symm.trans hm2)

/-- Every produced signature verifies.  On the registered curves, whose orders are odd, `toLowS` makes of each number from
`1` to `N - 1` one from `1` to `N >> 1` that is the number itself or `N` minus it, leaves low numbers as they are and does
nothing more when it is applied again; and `Verify` accepts all that `Sign` returns, for the matching key and the digest. -/
theorem produced_signature_verifies {PrivateKey PublicKey : Type} (L : EcdsaLib PrivateKey PublicKey) (hL : L.Correct) :
    (∀ (k : PublicKey) (s : Int), L.curve k ∈ [.p224, .p256, .p384, .p521] → 1 ≤ s → s < (L.curve k).order →
      ∃ s' replaced, toLowS L k s = .ok (s', replaced) ∧ 1 ≤ s' ∧ s' ≤ ((L.curve k).order >>> 1 : Nat) ∧
        (s' = s ∨ s' = (L.curve k).order - s) ∧ (s ≤ ((L.curve k).order >>> 1 : Nat) → s' = s) ∧
        toLowS L k s' = .ok (s', false)) ∧
    ∀ call k digest signature, Ecdsa.sign L call k digest = .ok signature →
      Ecdsa.verify L (L.publicKey k) signature digest = .ok true := by
  constructor
  · intro k s hk hs hsN
    have hhalf := curveHalfOrders_of_mem hk
    obtain ⟨s', replaced, hlow, h1, hle, hor, hsame⟩ := toLowS_spec hhalf hs hsN
    exact ⟨s', replaced, hlow, h1, hle, hor, hsame, toLowS_of_le hhalf hle⟩
  · exact fun call k digest signature hsign => hL.verify_of_sign hsign

namespace Server

/-- The pair of numbers by which the library of the examples signs: `R` spells out the key and the upper half of the number
that is signed, `S` the lower half. -/
def ecdsaR (id : Int64) (digest : Bytes) : Int :=
  (hashToInt .p256 digest / 2 ^ 128 * 256 + id.toUInt64.toNat % 256 + 1 : Nat)

def ecdsaS (digest : Bytes) : Int := (hashToInt .p256 digest % 2 ^ 128 + 1 : Nat)

private theorem ecdsa_range (id : Int64) (digest : Bytes) :
    (1 ≤ ecdsaR id digest ∧ ecdsaR id digest < 2 ^ 137) ∧ 1 ≤ ecdsaS digest ∧ ecdsaS digest < 2 ^ 129 := by
  have hlt := hashToInt_p256_lt digest
  unfold ecdsaR ecdsaS
  omega

private theorem hashToInt_eq_of_pair {id : Int64} {digest digest' : Bytes} (hr : ecdsaR id digest = ecdsaR id digest')
    (hs : ecdsaS digest = ecdsaS digest') : hashToInt .p256 digest = hashToInt .p256 digest' := by
  unfold ecdsaR at hr
  unfold ecdsaS at hs
  omega

private theorem order_p256 : (2 : Int) ^ 255 < Curve.p256.order := by decide +kernel

/-- The library in examples, over P-256, where each replica's key is its id.  The pair with `N - S` is accepted too. -/
def ecdsa : EcdsaLib Int64 Int64 where
  publicKey id := id
  curve _ := .p256
  sign _ id digest := .ok (ecdsaR id digest, ecdsaS digest)
  verify id digest r s := r = ecdsaR id digest && (s = ecdsaS digest || s = Curve.p256.order - ecdsaS digest)
  sign_range {_ id digest r s} h := by
    obtain ⟨rfl, rfl⟩ := Prod.mk.inj (Except.ok.inj h)
    have hrange := ecdsa_range id digest
    have hN := order_p256
    omega

theorem ecdsa_ideal : ecdsa.Ideal where
  verify_congr {id digest digest'} r s h := by
    have hr : ecdsaR id digest = ecdsaR id digest' := by
      unfold ecdsaR
      rw [show hashToInt .p256 digest = hashToInt .p256 digest' from h]
    have hs : ecdsaS digest = ecdsaS digest' := by
      unfold ecdsaS
      rw [show hashToInt .p256 digest = hashToInt .p256 digest' from h]
    simp only [ecdsa, hr, hs]
  verify_sign {call id digest r s} h := by
    obtain ⟨rfl, rfl⟩ := Prod.mk.inj (Except.ok.inj h)
    simp [ecdsa]
  unforgeable {call id digest digest' r s} h s' hs' hv := by
    obtain ⟨rfl, rfl⟩ := Prod.mk.inj (Except.ok.inj h)
    have hrange := ecdsa_range id digest
    have hrange' := ecdsa_range id digest'
    have hN := order_p256
    simp only [ecdsa, Bool.and_eq_true, Bool.or_eq_true, decide_eq_true_eq] at hv hs'
    obtain ⟨hr, hs⟩ := hv
    -- low and high values of `S` are far apart
    have hs : ecdsaS digest = ecdsaS digest' := by omega
    exact hashToInt_eq_of_pair hr hs

theorem ecdsa_correct : ecdsa.Correct where
  verify_sign := ecdsa_ideal.verify_sign
  verify_sub {id digest r s} h := by
    simp only [ecdsa, Bool.and_eq_true, Bool.or_eq_true, decide_eq_true_eq] at h ⊢
    omega

/-- The replica's signature on the digest. -/
def ecdsaSig (id : Int64) (digest : Bytes) : Bytes :=
  element 0x30 (integer (ecdsaR id digest) ++ integer (ecdsaS digest))

theorem sign_ecdsa (call : Nat) (id : Int64) (digest : Bytes) :
    Ecdsa.sign ecdsa call id digest = .ok (ecdsaSig id digest) := by
  have hrange := ecdsa_range id digest
  obtain ⟨halfOrder, hhalf⟩ : ∃ halfOrder, curveHalfOrders .p256 = some halfOrder :=
    Option.isSome_iff_exists.1 rfl
  obtain ⟨hN, -⟩ := order_of_registered hhalf
  have hN' := order_p256
  have hle : ecdsaS digest ≤ halfOrder := by omega
  have hlow : isLowS ecdsa id (ecdsaS digest) = .ok true :=
    isLowS_eq_ok_iff.2 ⟨halfOrder, hhalf, (decide_eq_true hle).symm⟩
  exact sign_of_low rfl hlow

end Server

/-- What replica `1` signs with its key is accepted. -/
theorem produced_signature_verifies_server :
    (∃ replaced, toLowS Server.ecdsa 1 (Curve.p256.order - 1) = .ok (1, replaced)) ∧
    ∀ digest, Ecdsa.verify Server.ecdsa 1 (Server.ecdsaSig 1 digest) digest = .ok true := by
  obtain ⟨hlow, hverify⟩ := produced_signature_verifies Server.ecdsa Server.ecdsa_correct
  refine ⟨?_, fun digest => hverify 0 1 digest (Server.ecdsaSig 1 digest) (Server.sign_ecdsa 0 1 digest)⟩
  have hrange : (1 : Int) ≤ Curve.p256.order - 1 ∧ (Curve.p256.order : Int) - 1 < Curve.p256.order ∧
      ((Curve.p256.order >>> 1 : Nat) : Int) < Curve.p256.order - 1 := by decide +kernel
  obtain ⟨s', replaced, heq, h1, hle, hor, -⟩ := hlow 1 (Curve.p256.order - 1) (by decide) hrange.1 hrange.2.1
  have hs' : s' = 1 := by
    have hle' : s' ≤ ((Curve.p256.order >>> 1 : Nat) : Int) := hle
    have hor' : s' = (Curve.p256.order : Int) - 1 ∨ s' = Curve.p256.order - (Curve.p256.order - 1) := hor
    omega
  exact ⟨replaced, by rw [heq, hs']⟩

/-- Both strings are replica `1`'s signature. -/
theorem signature_encoding_unique_server :
    marshalECDSASignature (Server.ecdsaR 1 [7]) (Server.ecdsaS [7]) = .ok (Server.ecdsaSig 1 [7]) ∧
    isLowS Server.ecdsa 1 (Curve.p256.order - Server.ecdsaS [7]) = .ok false := by
  have hread : readSignature (Server.ecdsaSig 1 [7]) = .ok ((Server.ecdsaR 1 [7], Server.ecdsaS [7]), [], []) := by
    decide +kernel
  have hrs : unmarshalECDSASignature (Server.ecdsaSig 1 [7]) = .ok (Server.ecdsaR 1 [7], Server.ecdsaS [7]) := by
    decide +kernel
  have hv : Ecdsa.verify Server.ecdsa 1 (Server.ecdsaSig 1 [7]) [7] = .ok true := by decide +kernel
  have hunique := signature_encoding_unique Server.ecdsa 1 [7] (Server.ecdsaSig 1 [7]) (Server.ecdsaSig 1 [7]) hv hv _ _ _
    hrs hrs (.inl (Int.ModEq.refl _))
  exact ⟨hunique.2.2.1.2 ⟨_, hread⟩, hunique.2.2.2.2⟩

/-- What `Sign` returns is accepted, and so it is with a byte appended, and with a byte after `S` inside the sequence; all
three strings are decoded to the same values. -/
theorem signature_with_byte_appended :
    Ecdsa.sign Server.ecdsa 0 1 [7] = .ok (Server.ecdsaSig 1 [7]) ∧
    ∀ sig ∈ [Server.ecdsaSig 1 [7], Server.ecdsaSig 1 [7] ++ [0],
        element 0x30 (integer (Server.ecdsaR 1 [7]) ++ integer (Server.ecdsaS [7]) ++ [0])],
      unmarshalECDSASignature sig = .ok (Server.ecdsaR 1 [7], Server.ecdsaS [7]) ∧
      Ecdsa.verify Server.ecdsa 1 sig [7] = .ok true := by
  decide +kernel

end GoHotstuff
