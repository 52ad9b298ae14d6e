import Mathlib.Data.List.Basic

/-!
# Characters as bytes

Literals, white space, and hexadecimal digits as Go's `encoding/hex` writes and reads them: the
writer uses small letters, the reader takes both.
-/

namespace CtfChallenges.Framework

/-- The bytes of a literal. -/
def ascii (s : String) : List UInt8 := s.toList.map fun c => UInt8.ofNat c.toNat

def isspace (c : UInt8) : Bool := c = 0x20 ∨ (0x09 ≤ c ∧ c ≤ 0x0d)

namespace Hex

abbrev Bytes := List UInt8

/-- A digit of `%x`, `%o` and `%d`. -/
def digit (d : Nat) : UInt8 := if d < 10 then UInt8.ofNat (0x30 + d) else UInt8.ofNat (0x57 + d)

/-- A digit of `%X`. -/
def upperDigit (d : Nat) : UInt8 := if d < 10 then UInt8.ofNat (0x30 + d) else UInt8.ofNat (0x37 + d)

def fromHexChar (c : UInt8) : Option Nat :=
  if 0x30 ≤ c ∧ c ≤ 0x39 then some (c.toNat - 0x30)
  else if 0x61 ≤ c ∧ c ≤ 0x66 then some (c.toNat - 0x57)
  else if 0x41 ≤ c ∧ c ≤ 0x46 then some (c.toNat - 0x37)
  else none

def encode (s : Bytes) : Bytes := s.flatMap fun c => [digit (c.toNat / 16), digit (c.toNat % 16)]

/-- No value for a byte that is no digit and for an odd number of digits. -/
def decode : Bytes → Option Bytes
  | [] => some []
  | [_] => none
  | c :: c' :: s => do
    let d ← fromHexChar c
    let d' ← fromHexChar c'
    let rest ← decode s
    return UInt8.ofNat (16 * d + d') :: rest

theorem length_encode (s : Bytes) : (encode s).length = 2 * s.length := by
  induction s with
  | nil => rfl
  | cons c s ih =>
    rw [encode, List.flatMap_cons, List.length_append, ← encode, ih, List.length_cons]
    simp only [List.length_cons, List.length_nil]
    omega

private theorem fromHexChar_digit : ∀ d < 16, fromHexChar (digit d) = some d := by decide

theorem fromHexChar_upperDigit : ∀ d < 16, fromHexChar (upperDigit d) = some d := by decide

theorem decode_encode (s : Bytes) : decode (encode s) = some s := by
  induction s with
  | nil => rfl
  | cons c s ih =>
    have hc := c.toNat_lt
    have hencode : encode (c :: s) = digit (c.toNat / 16) :: digit (c.toNat % 16) :: encode s := rfl
    have hbyte : 16 * (c.toNat / 16) + c.toNat % 16 = c.toNat := by omega
    rw [hencode, decode, fromHexChar_digit _ (by omega), fromHexChar_digit _ (by omega), ih]
    simp only [Option.bind_eq_bind, Option.bind_some, Option.pure_def, hbyte, UInt8.ofNat_toNat]

end Hex

end CtfChallenges.Framework
