import Mathlib.Data.List.Basic
import GoHotstuff.Lib.Bytes

/-!
# Decimal numbers as text

`itoa` writes a 64-bit integer in decimal, `atoi` reads one: a sign, then digits.  What is no number is read as `0`, and a
number out of range as the nearest one in range; the error that tells so is not looked at here.  Reading what has been
written gives the number back (`atoi_itoa`).
-/

namespace Lib

def itoa (x : Int64) : List Char :=
  if x.toInt < 0 then '-' :: Nat.toDigits 10 x.toInt.natAbs else Nat.toDigits 10 x.toInt.natAbs

/-- The digits from left to right, with the number read so far; a number beyond 64 bits is cut off at the first digit
that is too much. -/
def parseDigits : List Char → Nat → Option Nat
  | [], n => some n
  | c :: cs, n =>
    if 48 ≤ c.toNat ∧ c.toNat ≤ 57 then
      if n * 10 + (c.toNat - 48) < 2 ^ 64 then parseDigits cs (n * 10 + (c.toNat - 48)) else some (2 ^ 64 - 1)
    else none

def parseUint (s : List Char) : Option Nat := if s = [] then none else parseDigits s 0

/-- A number without sign, or with the sign `+`. -/
def parsePositive (s : List Char) : Int64 :=
  match parseUint s with
  | none => 0
  | some n => if 2 ^ 63 ≤ n then Int64.maxValue else Int64.ofInt n

def parseNegative (s : List Char) : Int64 :=
  match parseUint s with
  | none => 0
  | some n => if 2 ^ 63 < n then Int64.minValue else Int64.ofInt (-n)

def atoi (s : List Char) : Int64 :=
  match s with
  | '-' :: s => parseNegative s
  | '+' :: s => parsePositive s
  | s => parsePositive s

/-! ### What is read of what has been written -/

private theorem toNat_digitChar {d : Nat} (h : d < 10) : d.digitChar.toNat = 48 + d := by
  have hall : ∀ d : Fin 10, (d : Nat).digitChar.toNat = 48 + d := by decide
  exact hall ⟨d, h⟩

private theorem parseDigits_digitChar {d n : Nat} (hd : d < 10) (hn : n * 10 + d < 2 ^ 64) (rest : List Char) :
    parseDigits (d.digitChar :: rest) n = parseDigits rest (n * 10 + d) := by
  have htoNat := toNat_digitChar hd
  have hval : d.digitChar.toNat - 48 = d := by omega
  rw [parseDigits, hval, if_pos (by omega), if_pos hn]

private theorem parseDigits_toDigits {n : Nat} (hn : n < 2 ^ 64) (rest : List Char) :
    parseDigits (Nat.toDigits 10 n ++ rest) 0 = parseDigits rest n := by
  induction n using Nat.strongRecOn generalizing rest with
  | ind n ih =>
    by_cases hd : n < 10
    · have := parseDigits_digitChar (n := 0) hd (by omega) rest
      simpa [Nat.toDigits_of_lt_base hd] using this
    · -- the last digit is read with the other ones as the number so far
      have hmod : n % 10 < 10 := Nat.mod_lt n (by omega)
      have hsum : 10 * (n / 10) + n % 10 = n := Nat.div_add_mod n 10
      have hsum' : n / 10 * 10 + n % 10 = n := by omega
      have hsplit := Nat.toDigits_append_toDigits (b := 10) (n := n / 10) (d := n % 10) (by omega) (by omega) hmod
      rw [hsum, Nat.toDigits_of_lt_base hmod] at hsplit
      rw [← hsplit, List.append_assoc, List.singleton_append, ih (n / 10) (by omega) (by omega),
        parseDigits_digitChar hmod (by omega), hsum']

private theorem parseUint_toDigits {n : Nat} (hn : n < 2 ^ 64) : parseUint (Nat.toDigits 10 n) = some n := by
  have hparse := parseDigits_toDigits hn []
  rw [List.append_nil] at hparse
  rw [parseUint, if_neg Nat.toDigits_ne_nil, hparse, parseDigits]

/-- A number that is read starts with a digit. -/
private theorem atoi_of_parseUint {s : List Char} {n : Nat} (h : parseUint s = some n) : atoi s = parsePositive s := by
  unfold atoi
  split
  · simp [parseUint, parseDigits] at h
  · simp [parseUint, parseDigits] at h
  · rfl

/-- What has been written is read back. -/
theorem atoi_itoa (x : Int64) : atoi (itoa x) = x := by
  have hlt := x.toInt_lt
  have hle := x.le_toInt
  have hparse := parseUint_toDigits (n := x.toInt.natAbs) (by omega)
  unfold itoa
  split
  · rename_i hneg
    have habs : (-(x.toInt.natAbs : Int)) = x.toInt := by omega
    simp only [atoi, parseNegative, hparse]
    rw [if_neg (by omega), habs, Int64.ofInt_toInt]
  · rename_i hpos
    have habs : (x.toInt.natAbs : Int) = x.toInt := by omega
    rw [atoi_of_parseUint hparse]
    simp only [parsePositive, hparse]
    rw [if_neg (by omega), habs, Int64.ofInt_toInt]

end Lib
