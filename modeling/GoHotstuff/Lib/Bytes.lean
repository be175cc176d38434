import Mathlib.Algebra.Group.Int.Defs
import Mathlib.Algebra.Group.Nat.Defs
import Mathlib.Data.List.Basic

/-!
# Byte strings

Byte strings as lists of bytes, the lower-case hexadecimal text of a byte string (`encoding/hex`) and the eight
little-endian bytes of a 64-bit integer (`binary.LittleEndian.PutUint64`).  Both encodings are injective, which is
what makes hexadecimal text usable as a map key and lets a fixed-width field be read back out of a concatenation.
-/

namespace Lib

/-- A Go `[]byte`, with `nil` and the empty slice identified. -/
abbrev Bytes := List UInt8

/-! ### Hexadecimal text -/

/-- The sixteen lower-case digits. -/
def hexDigits : List Char :=
  ['0', '1', '2', '3', '4', '5', '6', '7', '8', '9', 'a', 'b', 'c', 'd', 'e', 'f']

def hexDigit (d : Nat) : Char := hexDigits.getD d '0'

/-- `hex.EncodeToString`, as the list of its characters: the high half of each byte first. -/
def encodeToString (bs : Bytes) : List Char :=
  bs.flatMap fun b => [hexDigit (b.toNat / 16), hexDigit (b.toNat % 16)]

private theorem hexDigit_inj {d e : Nat} (hd : d < 16) (he : e < 16) (h : hexDigit d = hexDigit e) : d = e := by
  have key : ∀ d < 16, ∀ e < 16, hexDigit d = hexDigit e → d = e := by decide
  exact key d hd e he h

private theorem encodeToString_cons (b : UInt8) (bs : Bytes) :
    encodeToString (b :: bs) = hexDigit (b.toNat / 16) :: hexDigit (b.toNat % 16) :: encodeToString bs := rfl

theorem encodeToString_injective : Function.Injective encodeToString := by
  intro bs
  induction bs with
  | nil =>
    intro cs h
    cases cs with
    | nil => rfl
    | cons c cs => rw [encodeToString_cons] at h; cases h
  | cons b bs ih =>
    intro cs h
    cases cs with
    | nil => rw [encodeToString_cons] at h; cases h
    | cons c cs =>
      rw [encodeToString_cons, encodeToString_cons] at h
      simp only [List.cons.injEq] at h
      obtain ⟨h1, h2, h3⟩ := h
      have hb := b.toNat_lt
      have hc := c.toNat_lt
      have e1 := hexDigit_inj (by omega) (by omega) h1
      have e2 := hexDigit_inj (by omega) (by omega) h2
      have e : b = c := by
        apply UInt8.toNat_inj.1
        omega
      rw [e, ih h3]

@[simp]
theorem encodeToString_inj {bs cs : Bytes} : encodeToString bs = encodeToString cs ↔ bs = cs :=
  encodeToString_injective.eq_iff

/-! ### Fixed-width integers -/

/-- The `n` low bytes of `x`, least significant first. -/
def littleEndian : Nat → Nat → Bytes
  | 0, _ => []
  | n + 1, x => UInt8.ofNat x :: littleEndian n (x / 256)

@[simp]
theorem length_littleEndian (n x : Nat) : (littleEndian n x).length = n := by
  induction n generalizing x with
  | zero => rfl
  | succ n ih => simp [littleEndian, ih]

private theorem littleEndian_inj {n x y : Nat} (hx : x < 256 ^ n) (hy : y < 256 ^ n)
    (h : littleEndian n x = littleEndian n y) : x = y := by
  induction n generalizing x y with
  | zero => simp at hx hy; omega
  | succ n ih =>
    simp only [littleEndian, List.cons.injEq] at h
    have hlow : x % 256 = y % 256 := by
      have := congrArg UInt8.toNat h.1
      simpa using this
    have hhigh : x / 256 = y / 256 := by
      apply ih _ _ h.2
      · rw [Nat.pow_succ, Nat.mul_comm] at hx; exact Nat.div_lt_of_lt_mul hx
      · rw [Nat.pow_succ, Nat.mul_comm] at hy; exact Nat.div_lt_of_lt_mul hy
    omega

/-- `binary.LittleEndian.PutUint64` of `uint64(x)`. -/
def putUint64 (x : Int64) : Bytes := littleEndian 8 x.toUInt64.toNat

@[simp]
theorem length_putUint64 (x : Int64) : (putUint64 x).length = 8 := length_littleEndian _ _

theorem putUint64_injective : Function.Injective putUint64 := by
  intro x y h
  have hx := x.toUInt64.toNat_lt
  have hy := y.toUInt64.toNat_lt
  have h' := littleEndian_inj (n := 8) (by omega) (by omega) h
  have e : x.toUInt64 = y.toUInt64 := UInt64.toNat_inj.1 h'
  rw [← Int64.toInt64_toUInt64 x, e, Int64.toInt64_toUInt64]

end Lib
