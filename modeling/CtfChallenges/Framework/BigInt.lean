import Mathlib.Algebra.Order.Group.Int
import Mathlib.Data.Int.GCD
import Mathlib.Data.Int.ModEq
import Mathlib.Data.Nat.Digits.Lemmas
import Mathlib.Data.Nat.Prime.Defs
import Mathlib.RingTheory.Coprime.Lemmas
import Mathlib.Tactic.Ring

/-!
# Arbitrary-precision integers of the Go standard library

The functions of `math/big` on exact integers. Strings and byte slices are lists of bytes.
`Div` and `Mod` of the library are Euclidean, as `/` and `%` are on `Int`, and `ProbablyPrime`
is taken to decide primality.
-/

namespace CtfChallenges.Framework.BigInt

/-- The value of a digit character in a base up to 36. -/
def digitValue (base : Nat) (c : UInt8) : Option Nat :=
  let d :=
    if 0x30 ≤ c ∧ c ≤ 0x39 then c.toNat - 0x30
    else if 0x61 ≤ c ∧ c ≤ 0x7a then c.toNat - 0x61 + 10
    else if 0x41 ≤ c ∧ c ≤ 0x5a then c.toNat - 0x41 + 10
    else base
  if d < base then some d else none

/-- Read digits as far as they go, onto the value and the digit count so far. -/
def scanDigits (base : Nat) : List UInt8 → Nat → Nat → Nat × Nat × List UInt8
  | [], value, count => (value, count, [])
  | c :: cs, value, count =>
    match digitValue base c with
    | some d => scanDigits base cs (value * base + d) (count + 1)
    | none => (value, count, c :: cs)

/-- `SetString` on a fresh receiver: the receiver's new value and whether the whole string is a
numeral. The receiver of a refused string keeps the digits read before the fault. -/
def setString (s : List UInt8) (base : Nat) : Int × Bool :=
  let (neg, digits) := match s with
    | 0x2d :: cs => (true, cs)
    | 0x2b :: cs => (false, cs)
    | cs => (false, cs)
  let (value, count, rest) := scanDigits base digits 0 0
  (if neg then -(value : Int) else value, 0 < count && rest.isEmpty)

/-- The character of a digit below 36. -/
def digitChar (d : Nat) : UInt8 :=
  if d < 10 then UInt8.ofNat (0x30 + d) else UInt8.ofNat (0x61 + (d - 10))

/-- `Text`: the digits of `x` without leading zeros. -/
def text (x : Int) (base : Nat) : List UInt8 :=
  let digits := if x = 0 then [0x30] else ((Nat.digits base x.natAbs).map digitChar).reverse
  if x < 0 then 0x2d :: digits else digits

/-- `SetBytes`: the bytes as a big-endian unsigned number. -/
def setBytes (bs : List UInt8) : Int := bs.foldl (fun x b => 256 * x + b.toNat) 0

/-- `Bytes`: the absolute value of `x` in big-endian bytes, without leading zeros. -/
def bytes (x : Int) : List UInt8 := ((Nat.digits 256 x.natAbs).map UInt8.ofNat).reverse

def probablyPrime (x : Int) : Bool := decide x.toNat.Prime

/-- `GCD(nil, nil, a, b)`. -/
def gcd (a b : Int) : Int := Int.gcd a b

/-- No value when `g` and `n` are not relatively prime; the receiver is unchanged then. -/
def modInverse (g n : Int) : Option Int :=
  if Int.gcd g n = 1 then some (Int.gcdA g n % n) else none

/-- `x**y mod |m|`. A negative exponent needs an inverse of `x`. -/
def exp (x y m : Int) : Option Int :=
  if m = 0 then some (x ^ y.toNat)
  else if y < 0 then (modInverse x m).map fun z => z ^ (-y).toNat % m
  else some (x ^ y.toNat % m)

private theorem digitChar_toNat {d : Nat} (h : d < 36) :
    (digitChar d).toNat = if d < 10 then 0x30 + d else 0x61 + (d - 10) := by
  unfold digitChar
  split <;> simp only [UInt8.toNat_ofNat'] <;> omega

private theorem digitChar_ne {d : Nat} (h : d < 36) (c : UInt8) (hc : c.toNat < 0x30) :
    digitChar d ≠ c := by
  intro heq
  have hd := digitChar_toNat h
  rw [heq] at hd
  split at hd <;> omega

theorem digitValue_digitChar {base d : Nat} (hbase : base ≤ 36) (h : d < base) :
    digitValue base (digitChar d) = some d := by
  have hd := digitChar_toNat (show d < 36 by omega)
  simp only [digitValue, UInt8.le_iff_toNat_le, hd, UInt8.reduceToNat]
  split_ifs <;> first | omega | simp <;> omega

private theorem foldl_ofDigits (base : Nat) (ds : List Nat) (v : Nat) :
    ds.foldl (fun v d => v * base + d) v = v * base ^ ds.length + Nat.ofDigits base ds.reverse := by
  induction ds generalizing v with
  | nil => simp
  | cons d ds ih =>
    rw [List.foldl_cons, ih, Nat.ofDigits_reverse_cons, List.length_cons]
    ring

theorem scanDigits_digitChar {base : Nat} (hbase : base ≤ 36) (ds : List Nat)
    (hds : ∀ d ∈ ds, d < base) (v count : Nat) :
    scanDigits base (ds.map digitChar) v count =
      (ds.foldl (fun v d => v * base + d) v, count + ds.length, []) := by
  induction ds generalizing v count with
  | nil => rfl
  | cons d ds ih =>
    rw [List.forall_mem_cons] at hds
    rw [List.map_cons, scanDigits, digitValue_digitChar hbase hds.1]
    simp only [List.foldl_cons, List.length_cons]
    rw [ih hds.2]
    congr 2
    omega

/-- `SetString` reads a numeral back to its value. -/
theorem setString_digitChar {base : Nat} (hbase : base ≤ 36) {ds : List Nat} (hne : ds ≠ [])
    (hds : ∀ d ∈ ds, d < base) :
    setString (ds.map digitChar) base = (((Nat.ofDigits base ds.reverse : Nat) : Int), true) := by
  obtain ⟨d, ds, rfl⟩ := List.exists_cons_of_ne_nil hne
  have hd : d < 36 := by
    have := hds d List.mem_cons_self
    omega
  have hscan := scanDigits_digitChar hbase (d :: ds) hds 0 0
  rw [foldl_ofDigits, Nat.zero_mul, Nat.zero_add] at hscan
  unfold setString
  split
  rename_i neg digits hmatch
  split at hmatch
  · rename_i heq
    exact absurd (List.cons.inj heq).1 (digitChar_ne hd _ (by decide))
  · rename_i heq
    exact absurd (List.cons.inj heq).1 (digitChar_ne hd _ (by decide))
  · cases hmatch
    rw [hscan]
    simp

theorem text_natCast {n base : Nat} (hn : n ≠ 0) :
    text n base = (Nat.digits base n).reverse.map digitChar := by
  have hpos : ¬ ((n : Int) < 0) := by omega
  have hne : ¬ ((n : Int) = 0) := by omega
  rw [text, if_neg hpos, if_neg hne, Int.natAbs_natCast, List.map_reverse]

/-- A number that is not negative is read back from its text. -/
theorem setString_text {x : Int} (hx : 0 ≤ x) {base : Nat} (hlow : 2 ≤ base) (hbase : base ≤ 36) :
    setString (text x base) base = (x, true) := by
  obtain ⟨n, rfl⟩ := Int.eq_ofNat_of_zero_le hx
  by_cases hn : n = 0
  · have hdigits : text (n : Int) base = [0].map digitChar := by simp [hn, text, digitChar]
    rw [hdigits, setString_digitChar hbase (by simp) (by simp; omega)]
    simp [hn]
  · have hne : (Nat.digits base n).reverse ≠ [] := by
      simpa [Nat.digits_eq_nil_iff_eq_zero] using hn
    rw [text_natCast hn, setString_digitChar hbase hne, List.reverse_reverse,
      Nat.ofDigits_digits]
    intro d hd
    exact Nat.digits_lt_base hlow (List.mem_reverse.mp hd)

theorem setBytes_eq (bs : List UInt8) :
    setBytes bs = (Nat.ofDigits 256 (bs.map UInt8.toNat).reverse : Nat) := by
  have hfold (v : Nat) : bs.foldl (fun (x : Int) b => 256 * x + b.toNat) v =
      ((bs.map UInt8.toNat).foldl (fun v d => v * 256 + d) v : Nat) := by
    induction bs generalizing v with
    | nil => rfl
    | cons b bs ih =>
      rw [List.foldl_cons, List.map_cons, List.foldl_cons, ← ih]
      congr 1
      push_cast
      ring
  rw [setBytes, ← Nat.cast_zero, hfold, foldl_ofDigits, Nat.zero_mul, Nat.zero_add]

private theorem toNat_lt (bs : List UInt8) : ∀ d ∈ (bs.map UInt8.toNat).reverse, d < 256 := by
  intro d hd
  obtain ⟨b, -, rfl⟩ := List.mem_map.mp (List.mem_reverse.mp hd)
  exact b.toNat_lt

theorem setBytes_bytes (x : Int) : setBytes (bytes x) = x.natAbs := by
  have hid : (Nat.digits 256 x.natAbs).map (UInt8.toNat ∘ UInt8.ofNat) =
      Nat.digits 256 x.natAbs := by
    refine (List.map_congr_left fun d hd => ?_).trans (List.map_id _)
    have := Nat.digits_lt_base (by decide) hd
    simp only [Function.comp_apply, UInt8.toNat_ofNat', id_eq]
    omega
  rw [setBytes_eq, bytes, List.map_reverse, List.reverse_reverse, List.map_map, hid,
    Nat.ofDigits_digits]

/-- `Bytes` writes the absolute value and nothing else of a number. -/
theorem bytes_eq_bytes_iff (x y : Int) : bytes x = bytes y ↔ x.natAbs = y.natAbs := by
  constructor
  · intro h
    have hvalue := setBytes_bytes x
    rw [h, setBytes_bytes] at hvalue
    exact_mod_cast hvalue.symm
  · intro h
    rw [bytes, bytes, h]

/-- Without leading zeros, the bytes of a number determine it and are determined by it. -/
theorem bytes_eq_iff {b : UInt8} (hb : b ≠ 0) (bs : List UInt8) (x : Int) :
    bytes x = b :: bs ↔ (x.natAbs : Int) = setBytes (b :: bs) := by
  have hdigits : Nat.digits 256 (Nat.ofDigits 256 ((b :: bs).map UInt8.toNat).reverse) =
      ((b :: bs).map UInt8.toNat).reverse := by
    apply Nat.digits_ofDigits 256 (by decide) _ (toNat_lt _)
    intro hne
    simp only [List.map_cons, List.reverse_cons, List.getLast_append_singleton]
    intro hzero
    exact hb (UInt8.toNat_inj.mp hzero)
  rw [setBytes_eq, Nat.cast_inj]
  constructor
  · intro h
    have hvalue := setBytes_bytes x
    rw [h, setBytes_eq] at hvalue
    exact_mod_cast hvalue.symm
  · intro h
    rw [bytes, h, hdigits, List.map_reverse, List.reverse_reverse, List.map_map]
    refine (List.map_congr_left fun c _ => ?_).trans (List.map_id _)
    exact UInt8.ofNat_toNat

theorem probablyPrime_iff (x : Int) : probablyPrime x = true ↔ ∃ p : Nat, x = p ∧ p.Prime := by
  unfold probablyPrime
  rw [decide_eq_true_iff]
  constructor
  · intro h
    have hpos := h.pos
    exact ⟨x.toNat, by omega, h⟩
  · rintro ⟨p, rfl, hp⟩
    rwa [Int.toNat_natCast]

theorem gcd_eq_one_iff (a b : Int) : gcd a b = 1 ↔ IsCoprime a b := by
  rw [gcd, Int.isCoprime_iff_gcd_eq_one]
  omega

theorem modInverse_spec {g n : Int} (h : IsCoprime g n) (hn : 0 < n) :
    ∃ z, modInverse g n = some z ∧ 0 ≤ z ∧ z < n ∧ g * z ≡ 1 [ZMOD n] := by
  have hgcd : Int.gcd g n = 1 := Int.isCoprime_iff_gcd_eq_one.mp h
  refine ⟨Int.gcdA g n % n, by rw [modInverse, if_pos hgcd], Int.emod_nonneg _ hn.ne',
    Int.emod_lt_of_pos _ hn, ?_⟩
  have hbezout : (1 : Int) = g * Int.gcdA g n + n * Int.gcdB g n := by
    have hb := Int.gcd_eq_gcd_ab g n
    rwa [hgcd, Nat.cast_one] at hb
  have hmod : g * (Int.gcdA g n % n) ≡ g * Int.gcdA g n [ZMOD n] :=
    (Int.mod_modEq _ _).mul_left g
  apply hmod.trans
  rw [Int.modEq_iff_dvd]
  exact ⟨Int.gcdB g n, by rw [hbezout]; ring⟩

end CtfChallenges.Framework.BigInt
