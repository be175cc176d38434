import Mathlib.Data.Nat.Digits.Lemmas
import GoHotstuff.Lib.Bytes

/-!
# DER

The distinguished encoding of integers, as `encoding/asn1` writes and reads it: an element is a tag, the length of its
content and the content; a length and an integer have one encoding each, the shortest one.  A reader takes the first
element off a byte string and returns what is left.  It accepts exactly the strings that begin with an encoding
(`readElement_eq_ok_iff`, `readInteger_eq_ok_iff`), hence what it takes off is determined by the value it returns.

Contents of `2 ^ 31` bytes and more are written and not read.  Where several errors are present the one reported may be
another than the library's, and the tags that do not match are left out of the text.
-/

namespace Lib

namespace Der

/-! ### Natural numbers, most significant byte first -/

/-- `(*big.Int).Bytes`: no leading zeros, and nothing for zero. -/
def natBytes (n : Nat) : Bytes := (Nat.digits 256 n).reverse.map UInt8.ofNat

/-- `(*big.Int).SetBytes`. -/
def ofNatBytes (bs : Bytes) : Nat := Nat.ofDigits 256 (bs.reverse.map UInt8.toNat)

private theorem ofNatBytes_zero_cons (bs : Bytes) : ofNatBytes (0 :: bs) = ofNatBytes bs := by
  unfold ofNatBytes
  rw [List.reverse_cons, List.map_append, Nat.ofDigits_append]
  simp

private theorem natBytes_ofNatBytes {b : UInt8} (hb : b ≠ 0) (bs : Bytes) :
    natBytes (ofNatBytes (b :: bs)) = b :: bs := by
  have hlt : ∀ d ∈ (b :: bs).reverse.map UInt8.toNat, d < 256 := by
    intro d hd
    obtain ⟨x, -, rfl⟩ := List.mem_map.1 hd
    exact x.toNat_lt
  have hlast : ∀ h : (b :: bs).reverse.map UInt8.toNat ≠ [], ((b :: bs).reverse.map UInt8.toNat).getLast h ≠ 0 := by
    intro h h0
    simp only [List.getLast_map, List.getLast_reverse, List.head_cons] at h0
    exact hb (UInt8.toNat_inj.1 h0)
  unfold natBytes ofNatBytes
  rw [Nat.digits_ofDigits 256 (by decide) _ hlt hlast, ← List.map_reverse, List.map_map, List.reverse_reverse]
  simp [Function.comp_def]

private theorem ofNatBytes_natBytes (n : Nat) : ofNatBytes (natBytes n) = n := by
  have hmap : (Nat.digits 256 n).map (UInt8.toNat ∘ UInt8.ofNat) = Nat.digits 256 n := by
    conv_rhs => rw [← List.map_id (Nat.digits 256 n)]
    apply List.map_congr_left
    intro d hd
    have : d < 256 := Nat.digits_lt_base (by decide) hd
    simp [Nat.mod_eq_of_lt this]
  unfold ofNatBytes natBytes
  rw [← List.map_reverse, List.reverse_reverse, List.map_map, hmap, Nat.ofDigits_digits]

private theorem length_natBytes_le_iff {n k : Nat} : (natBytes n).length ≤ k ↔ n < 256 ^ k := by
  unfold natBytes
  rw [List.length_map, List.length_reverse]
  exact Nat.digits_length_le_iff (by decide) n

theorem ofNatBytes_lt (bs : Bytes) : ofNatBytes bs < 256 ^ bs.length := by
  have hlt : ∀ d ∈ bs.reverse.map UInt8.toNat, d < 256 := by
    intro d hd
    obtain ⟨x, -, rfl⟩ := List.mem_map.1 hd
    exact x.toNat_lt
  have h := Nat.ofDigits_lt_base_pow_length (by decide) hlt
  rw [List.length_map, List.length_reverse] at h
  exact h

private theorem head_natBytes_ne_zero {n : Nat} {b : UInt8} {bs : Bytes} (h : natBytes n = b :: bs) : b ≠ 0 := by
  rintro rfl
  have hval : ofNatBytes bs = n := by
    rw [← ofNatBytes_zero_cons, ← h, ofNatBytes_natBytes]
  -- without its first byte the string would be long enough for `n`
  have hlen : (natBytes n).length ≤ bs.length := length_natBytes_le_iff.2 (hval ▸ ofNatBytes_lt bs)
  rw [h, List.length_cons] at hlen
  omega

theorem ofNatBytes_inj {b c : UInt8} (hb : b ≠ 0) (hc : c ≠ 0) {bs cs : Bytes}
    (h : ofNatBytes (b :: bs) = ofNatBytes (c :: cs)) : b :: bs = c :: cs := by
  rw [← natBytes_ofNatBytes hb bs, h, natBytes_ofNatBytes hc cs]

/-! ### Lengths -/

/-- One byte below `128`, otherwise the number of bytes that follow and these bytes. -/
def lengthBytes (l : Nat) : Bytes :=
  if l < 128 then [.ofNat l] else .ofNat (128 + (natBytes l).length) :: natBytes l

def readLength : Bytes → Except String (Nat × Bytes)
  | [] => .error "asn1: syntax error: truncated tag or length"
  | b :: bs =>
    if b < 128 then .ok (b.toNat, bs)
    else if b = 128 then .error "asn1: syntax error: indefinite length found (not DER)"
    else if bs.length < b.toNat - 128 then .error "asn1: syntax error: truncated tag or length"
    else if (bs.take (b.toNat - 128)).head? = some 0 then
      .error "asn1: structure error: superfluous leading zeros in length"
    else if 2 ^ 31 ≤ ofNatBytes (bs.take (b.toNat - 128)) then .error "asn1: structure error: length too large"
    else if ofNatBytes (bs.take (b.toNat - 128)) < 128 then .error "asn1: structure error: non-minimal length"
    else .ok (ofNatBytes (bs.take (b.toNat - 128)), bs.drop (b.toNat - 128))

private theorem lengthBytes_of_readLength {bs rest : Bytes} {l : Nat} (h : readLength bs = .ok (l, rest)) :
    bs = lengthBytes l ++ rest ∧ l < 2 ^ 31 := by
  cases bs with
  | nil => cases h
  | cons b bs =>
    rw [readLength] at h
    split at h
    · rename_i hb
      obtain ⟨rfl, rfl⟩ := Prod.mk.inj (Except.ok.inj h)
      have hb' : b.toNat < 128 := UInt8.lt_iff_toNat_lt.1 hb
      refine ⟨?_, by omega⟩
      rw [lengthBytes, if_pos hb', UInt8.ofNat_toNat]
      rfl
    · rename_i hb
      split_ifs at h with h0 hlen hzero hbig hsmall
      obtain ⟨hl, hrest⟩ := Prod.mk.inj (Except.ok.inj h)
      have hb' : 128 ≤ b.toNat := Nat.le_of_not_lt fun h => hb (UInt8.lt_iff_toNat_lt.2 h)
      have hb0 : b.toNat ≠ 128 := fun h => h0 (UInt8.toNat_inj.1 h)
      obtain ⟨ds, hds⟩ : ∃ ds, ds = bs.take (b.toNat - 128) := ⟨_, rfl⟩
      rw [← hds] at hl hzero hbig hsmall
      have hlenDs : ds.length = b.toNat - 128 := by
        rw [hds, List.length_take]
        omega
      have hnat : natBytes l = ds := by
        cases ds with
        | nil => simp at hlenDs; omega
        | cons d ds =>
          rw [← hl]
          exact natBytes_ofNatBytes (fun h => hzero (by rw [h]; rfl)) ds
      refine ⟨?_, by omega⟩
      rw [lengthBytes, if_neg (by omega), hnat, hlenDs, Nat.add_sub_cancel' hb', UInt8.ofNat_toNat, hds, ← hrest,
        List.cons_append, List.take_append_drop]

private theorem readLength_lengthBytes {l : Nat} (hl : l < 2 ^ 31) (rest : Bytes) :
    readLength (lengthBytes l ++ rest) = .ok (l, rest) := by
  by_cases h : l < 128
  · have hto : (UInt8.ofNat l).toNat = l := by
      rw [UInt8.toNat_ofNat']
      omega
    rw [lengthBytes, if_pos h, List.singleton_append, readLength, if_pos (UInt8.lt_iff_toNat_lt.2 (by rw [hto]; exact h)),
      hto]
  · obtain ⟨d, ds, hds⟩ : ∃ d ds, natBytes l = d :: ds := by
      cases hnat : natBytes l with
      | nil =>
        have := length_natBytes_le_iff (n := l) (k := 0)
        rw [hnat] at this
        simp at this
        omega
      | cons d ds => exact ⟨d, ds, rfl⟩
    have hlen : (natBytes l).length ≤ 4 := length_natBytes_le_iff.2 (by omega)
    have hpos : 0 < (natBytes l).length := by rw [hds]; simp
    obtain ⟨b, hb⟩ : ∃ b, b = UInt8.ofNat (128 + (natBytes l).length) := ⟨_, rfl⟩
    have hto : b.toNat = 128 + (natBytes l).length := by
      rw [hb, UInt8.toNat_ofNat']
      omega
    have hsub : b.toNat - 128 = (natBytes l).length := by omega
    have h128 : ¬ b < 128 := fun h => by
      have : b.toNat < 128 := UInt8.lt_iff_toNat_lt.1 h
      omega
    have hne : b ≠ 128 := fun h => by
      have : b.toNat = 128 := congrArg UInt8.toNat h
      omega
    have hhead : (natBytes l).head? ≠ some 0 := by
      rw [hds]
      exact fun h => head_natBytes_ne_zero hds (Option.some.inj h)
    rw [lengthBytes, if_neg h, ← hb, List.cons_append, readLength, if_neg h128, if_neg hne, hsub,
      List.take_left, List.drop_left, if_neg (by simp), if_neg hhead, ofNatBytes_natBytes, if_neg (by omega), if_neg h]

/-! ### Elements -/

def element (tag : UInt8) (content : Bytes) : Bytes := tag :: (lengthBytes content.length ++ content)

def readElement (tag : UInt8) : Bytes → Except String (Bytes × Bytes)
  | [] => .error "asn1: syntax error: sequence truncated"
  | t :: bs =>
    if t ≠ tag then .error "asn1: structure error: tags don't match"
    else
      match readLength bs with
      | .error e => .error e
      | .ok (l, bs) =>
        if bs.length < l then .error "asn1: syntax error: data truncated" else .ok (bs.take l, bs.drop l)

theorem readElement_eq_ok_iff {tag : UInt8} {bs content rest : Bytes} :
    readElement tag bs = .ok (content, rest) ↔ bs = element tag content ++ rest ∧ content.length < 2 ^ 31 := by
  constructor
  · intro h
    cases bs with
    | nil => cases h
    | cons t bs =>
      rw [readElement] at h
      split at h
      · cases h
      · rename_i ht
        split at h
        · cases h
        · rename_i l bs' hread
          split at h
          · cases h
          · rename_i hlen
            obtain ⟨rfl, rfl⟩ := Prod.mk.inj (Except.ok.inj h)
            obtain ⟨rfl, hl⟩ := lengthBytes_of_readLength hread
            have hlen' : (bs'.take l).length = l := List.length_take_of_le (Nat.le_of_not_lt hlen)
            rw [element, hlen', not_not.1 ht, List.cons_append, List.append_assoc, List.take_append_drop]
            exact ⟨rfl, hl⟩
  · rintro ⟨rfl, hlen⟩
    rw [element, List.cons_append, List.append_assoc, readElement, if_neg (not_not_intro rfl),
      readLength_lengthBytes hlen]
    simp

/-! ### Integers -/

/-- The magnitude with a zero byte before it if its first bit is set, or if there is none. -/
def unsigned (n : Nat) : Bytes :=
  match natBytes n with
  | [] => [0]
  | b :: bs => if b < 128 then b :: bs else 0 :: b :: bs

/-- Two's complement in as few bytes as possible. -/
def integerBytes : Int → Bytes
  | .ofNat n => unsigned n
  | .negSucc n => (unsigned n).map fun b => ~~~b

/-- `checkInteger`: the first nine bits are neither all clear nor all set. -/
def minimal : Bytes → Bool
  | [] => false
  | [_] => true
  | b :: c :: _ => !(b = 0 && c < 128 || b = 255 && 128 ≤ c)

/-- `parseBigInt` -/
def parseInteger : Bytes → Except String Int
  | [] => .error "asn1: structure error: empty integer"
  | b :: bs =>
    if minimal (b :: bs) then
      .ok (if b < 128 then .ofNat (ofNatBytes (b :: bs)) else .negSucc (ofNatBytes ((b :: bs).map fun b => ~~~b)))
    else .error "asn1: structure error: integer not minimally-encoded"

private theorem not_lt_iff {b : UInt8} : ~~~b < 128 ↔ ¬ b < 128 := by
  have hb := b.toNat_lt
  have h128 : (128 : UInt8).toNat = 128 := rfl
  rw [UInt8.lt_iff_toNat_lt, UInt8.lt_iff_toNat_lt, UInt8.toNat_not, h128]
  simp only [UInt8.size]
  omega

private theorem minimal_map_not (bs : Bytes) : minimal (bs.map fun b => ~~~b) = minimal bs := by
  match bs with
  | [] => rfl
  | [_] => rfl
  | b :: c :: _ =>
    have h0 : ~~~b = 0 ↔ b = 255 := by
      rw [← UInt8.not_inj, UInt8.not_not]
      rfl
    have h255 : ~~~b = 255 ↔ b = 0 := by
      rw [← UInt8.not_inj, UInt8.not_not]
      rfl
    have hc : (128 ≤ ~~~c) ↔ c < 128 := by
      rw [← UInt8.not_lt, not_lt_iff, not_not]
    have hc' : (128 ≤ c) ↔ ¬ c < 128 := UInt8.not_lt.symm
    simp only [List.map_cons, minimal, h0, h255, hc, hc', not_lt_iff]
    rw [Bool.or_comm]

private theorem map_not_map_not (bs : Bytes) : ((bs.map fun b => ~~~b).map fun b => ~~~b) = bs := by
  rw [List.map_map]
  simp [Function.comp_def]

private theorem unsigned_spec (n : Nat) :
    ∃ b bs, unsigned n = b :: bs ∧ b < 128 ∧ minimal (b :: bs) = true ∧ ofNatBytes (b :: bs) = n := by
  have hval := ofNatBytes_natBytes n
  unfold unsigned
  cases h : natBytes n with
  | nil =>
    rw [h] at hval
    exact ⟨0, [], rfl, by decide, rfl, by rw [ofNatBytes_zero_cons, hval]⟩
  | cons b bs =>
    rw [h] at hval
    have hb0 := head_natBytes_ne_zero h
    by_cases hb : b < 128
    · refine ⟨b, bs, if_pos hb, hb, ?_, hval⟩
      cases bs with
      | nil => rfl
      | cons c bs =>
        have hb255 : b ≠ 255 := fun h => absurd hb (by rw [h]; decide)
        simp [minimal, hb0, hb255]
    · refine ⟨0, b :: bs, if_neg hb, by decide, ?_, by rw [ofNatBytes_zero_cons, hval]⟩
      simp [minimal, hb]

private theorem unsigned_ofNatBytes {b : UInt8} {bs : Bytes} (hb : b < 128) (hm : minimal (b :: bs) = true) :
    unsigned (ofNatBytes (b :: bs)) = b :: bs := by
  unfold unsigned
  by_cases h0 : b = 0
  · subst h0
    rw [ofNatBytes_zero_cons]
    cases bs with
    | nil => rfl
    | cons c bs =>
      have hc : ¬ c < 128 := by
        intro hc
        simp [minimal, hc] at hm
      have hc0 : c ≠ 0 := fun h => hc (by rw [h]; decide)
      rw [natBytes_ofNatBytes hc0]
      exact if_neg hc
  · rw [natBytes_ofNatBytes h0]
    exact if_pos hb

private theorem parseInteger_eq_ok_iff {bs : Bytes} {n : Int} : parseInteger bs = .ok n ↔ bs = integerBytes n := by
  constructor
  · intro h
    cases bs with
    | nil => cases h
    | cons b bs =>
      rw [parseInteger] at h
      split at h
      · rename_i hm
        obtain rfl := Except.ok.inj h
        by_cases hb : b < 128
        · rw [if_pos hb]
          exact (unsigned_ofNatBytes hb hm).symm
        · rw [if_neg hb, integerBytes]
          have hm' := minimal_map_not (b :: bs)
          rw [hm, List.map_cons] at hm'
          rw [List.map_cons, unsigned_ofNatBytes (not_lt_iff.2 hb) hm', ← List.map_cons, map_not_map_not]
      · cases h
  · rintro rfl
    cases n with
    | ofNat n =>
      obtain ⟨b, bs, hu, hb, hm, hval⟩ := unsigned_spec n
      rw [integerBytes, hu, parseInteger, if_pos hm, if_pos hb, hval]
    | negSucc n =>
      obtain ⟨b, bs, hu, hb, hm, hval⟩ := unsigned_spec n
      have hm' := minimal_map_not (b :: bs)
      rw [hm, List.map_cons] at hm'
      have hb' : ¬ ~~~b < 128 := fun h => not_lt_iff.1 h hb
      rw [integerBytes, hu, List.map_cons, parseInteger, if_pos hm', if_neg hb', ← List.map_cons, map_not_map_not, hval]

/-- An element with the tag of integers. -/
def integer (n : Int) : Bytes := element 0x02 (integerBytes n)

def readInteger (bs : Bytes) : Except String (Int × Bytes) :=
  match readElement 0x02 bs with
  | .error e => .error e
  | .ok (content, rest) =>
    match parseInteger content with
    | .error e => .error e
    | .ok n => .ok (n, rest)

private theorem length_unsigned_le {n k : Nat} (hn : n < 256 ^ k) : (unsigned n).length ≤ k + 1 := by
  have hlen := length_natBytes_le_iff.2 hn
  unfold unsigned
  cases h : natBytes n with
  | nil => simp
  | cons b bs =>
    rw [h, List.length_cons] at hlen
    dsimp only
    split
    · rw [List.length_cons]
      omega
    · rw [List.length_cons, List.length_cons]
      omega

theorem length_integer_le {n k : Nat} (hn : n < 256 ^ k) (hk : k < 2 ^ 30) : (integer n).length ≤ k + 7 := by
  have hlen : (integerBytes n).length ≤ k + 1 := length_unsigned_le hn
  have hnat : (natBytes (integerBytes n).length).length ≤ 4 := length_natBytes_le_iff.2 (by omega)
  unfold integer element lengthBytes
  rw [List.length_cons, List.length_append]
  split
  · rw [List.length_singleton]
    omega
  · rw [List.length_cons]
    omega

theorem readInteger_eq_ok_iff {bs rest : Bytes} {n : Int} :
    readInteger bs = .ok (n, rest) ↔ bs = integer n ++ rest ∧ (integerBytes n).length < 2 ^ 31 := by
  unfold readInteger
  constructor
  · intro h
    split at h
    · cases h
    · rename_i content rest' hread
      split at h
      · cases h
      · rename_i n' hparse
        obtain ⟨rfl, rfl⟩ := Prod.mk.inj (Except.ok.inj h)
        obtain rfl := parseInteger_eq_ok_iff.1 hparse
        exact readElement_eq_ok_iff.1 hread
  · intro h
    have hread := readElement_eq_ok_iff.2 h
    have hparse := parseInteger_eq_ok_iff.2 (rfl : integerBytes n = integerBytes n)
    rw [hread]
    simp only [hparse]

end Der

end Lib
