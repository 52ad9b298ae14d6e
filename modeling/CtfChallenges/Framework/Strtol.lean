import CtfChallenges.Framework.Ascii
import Mathlib.Algebra.Order.Group.Int
import Mathlib.Algebra.Order.Group.Nat
import Mathlib.Data.List.TakeWhile
import Mathlib.Data.Nat.Notation

/-!
# Numbers in a C string

`isspace`, `strtol` and `strtoul` in the C locale for a `long` of 64 bits, and the numerals that they
take to the last character. A number out of range becomes the end of the range, with `ERANGE`. Go's
`Atoi` takes whole texts only, and has no value out of range.
-/

namespace CtfChallenges.Framework.Strtol

/-- The value of a digit or a letter. -/
def digitValue (c : UInt8) : Option Nat :=
  if 0x30 ≤ c ∧ c ≤ 0x39 then some (c.toNat - 0x30)
  else if 0x61 ≤ c ∧ c ≤ 0x7a then some (c.toNat - 0x61 + 10)
  else if 0x41 ≤ c ∧ c ≤ 0x5a then some (c.toNat - 0x41 + 10)
  else none

def isDigit (base : Nat) (c : UInt8) : Bool := (digitValue c).any (· < base)

/-- The value of a string of digits. -/
def number (base : Nat) (ds : List UInt8) : Nat :=
  ds.foldl (fun v c => v * base + (digitValue c).getD 0) 0

/-- An optional sign, and what is behind it. -/
def sign : List UInt8 → Bool × List UInt8
  | 0x2d :: t => (true, t)
  | 0x2b :: t => (false, t)
  | t => (false, t)

/-- Whether the text begins with `0x` and a hexadecimal digit. -/
def hasHexPrefix : List UInt8 → Bool
  | 0x30 :: x :: d :: _ => (x = 0x78 ∨ x = 0x58) ∧ isDigit 16 d
  | _ => false

/-- The base of the digits, and the text from the first of them on. -/
def radix (base : Nat) (t : List UInt8) : Nat × List UInt8 :=
  if (base = 0 ∨ base = 16) ∧ hasHexPrefix t then (16, t.drop 2)
  else if base = 0 then (if t.head? = some 0x30 then 8 else 10, t)
  else (base, t)

/-- What a reader finds: the sign, the value of the digits, and the text behind them. -/
structure Scan where
  negative : Bool
  magnitude : Nat
  rest : List UInt8
deriving DecidableEq

/-- The number in front of a text, with no value where there is none. -/
def scan (base : Nat) (text : List UInt8) : Option Scan :=
  let signed := sign (text.dropWhile isspace)
  let based := radix base signed.2
  let ds := based.2.takeWhile (isDigit based.1)
  if ds = [] then none
  else some ⟨signed.1, number based.1 ds, based.2.dropWhile (isDigit based.1)⟩

def LONG_MAX : Int := 2 ^ 63 - 1
def LONG_MIN : Int := -2 ^ 63
def ULONG_MAX : Nat := 2 ^ 64 - 1

/-- A result, what `endptr` points to, and whether `errno` is set to `ERANGE`. -/
structure Converted (α : Type) where
  value : α
  endptr : List UInt8
  erange : Bool
deriving DecidableEq

def signed (neg : Bool) (m : Nat) : Int := if neg then -m else m

def strtol (base : Nat) (text : List UInt8) : Converted Int :=
  match scan base text with
  | none => ⟨0, text, false⟩
  | some s =>
    let v := signed s.negative s.magnitude
    if LONG_MAX < v then ⟨LONG_MAX, s.rest, true⟩
    else if v < LONG_MIN then ⟨LONG_MIN, s.rest, true⟩
    else ⟨v, s.rest, false⟩

/-- A minus sign takes the value from `2 ^ 64`. -/
def strtoul (base : Nat) (text : List UInt8) : Converted Nat :=
  match scan base text with
  | none => ⟨0, text, false⟩
  | some s =>
    if ULONG_MAX < s.magnitude then ⟨ULONG_MAX, s.rest, true⟩
    else ⟨if s.negative then (2 ^ 64 - s.magnitude) % 2 ^ 64 else s.magnitude, s.rest, false⟩

/-- `atol`, where it does not overflow as `strtol` does. -/
def atol (text : List UInt8) : Int := (strtol 10 text).value

/-- A number of C without a sign: decimal, octal with a leading zero, or hexadecimal with a leading
`0x`. -/
inductive Magnitude : List UInt8 → Nat → Prop where
  | decimal {ds : List UInt8} : ds ≠ [] → (∀ c ∈ ds, isDigit 10 c) → ds.head? ≠ some 0x30 →
      Magnitude ds (number 10 ds)
  | octal {ds : List UInt8} : (∀ c ∈ ds, isDigit 8 c) → Magnitude (0x30 :: ds) (number 8 ds)
  | hex {x : UInt8} {ds : List UInt8} : x = 0x78 ∨ x = 0x58 → ds ≠ [] → (∀ c ∈ ds, isDigit 16 c) →
      Magnitude (0x30 :: x :: ds) (number 16 ds)

/-- A number of C, with its sign. -/
inductive Numeral : List UInt8 → Bool → Nat → Prop where
  | plain {ds : List UInt8} {m : Nat} : Magnitude ds m → Numeral ds false m
  | plus {ds : List UInt8} {m : Nat} : Magnitude ds m → Numeral (0x2b :: ds) false m
  | minus {ds : List UInt8} {m : Nat} : Magnitude ds m → Numeral (0x2d :: ds) true m

section
variable {base m : Nat} {neg : Bool} {t text : List UInt8}

theorem Magnitude.head {c : UInt8} (h : Magnitude (c :: t) m) : isDigit 10 c := by
  cases h with
  | decimal _ hds _ => exact hds c List.mem_cons_self
  | octal => rfl
  | hex => rfl

theorem Magnitude.sign_eq (h : Magnitude t m) : sign t = (false, t) := by
  cases t with
  | nil => rfl
  | cons c t =>
    have hc := h.head
    unfold sign
    split
    · rename_i heq
      cases heq
      cases hc
    · rename_i heq
      cases heq
      cases hc
    · rfl

theorem Numeral.sign_eq (h : Numeral t neg m) :
    ∃ ds, sign t = (neg, ds) ∧ Magnitude ds m := by
  cases h with
  | plain h => exact ⟨t, h.sign_eq, h⟩
  | plus h => exact ⟨_, rfl, h⟩
  | minus h => exact ⟨_, rfl, h⟩

theorem Numeral.of_sign : ∀ {t : List UInt8}, Magnitude (sign t).2 m → Numeral t (sign t).1 m := by
  intro t
  fun_cases sign t with
  | case1 t => exact .minus
  | case2 t => exact .plus
  | case3 t => exact .plain

theorem hasHexPrefix_iff : hasHexPrefix t ↔
    ∃ x d rest, t = 0x30 :: x :: d :: rest ∧ (x = 0x78 ∨ x = 0x58) ∧ isDigit 16 d := by
  constructor
  · intro h
    unfold hasHexPrefix at h
    split at h
    · exact ⟨_, _, _, rfl, by simpa using h⟩
    · cases h
  · rintro ⟨x, d, rest, rfl, hx, hd⟩
    simp [hasHexPrefix, hx, hd]

theorem number_zero_cons (base : Nat) (ds : List UInt8) :
    number base (0x30 :: ds) = number base ds := by
  have hzero : (digitValue 0x30).getD 0 = 0 := rfl
  simp [number, hzero]

/-- The digits that the reader looks for are those of the number. -/
theorem magnitude_iff : Magnitude t m ↔ (radix 0 t).2 ≠ [] ∧
    (∀ c ∈ (radix 0 t).2, isDigit (radix 0 t).1 c) ∧ number (radix 0 t).1 (radix 0 t).2 = m := by
  by_cases hhex : hasHexPrefix t
  · obtain ⟨x, d, rest, rfl, hx, hd⟩ := hasHexPrefix_iff.mp hhex
    have hradix : radix 0 (0x30 :: x :: d :: rest) = (16, d :: rest) := by simp [radix, hhex]
    rw [hradix]
    constructor
    · intro h
      cases h with
      | decimal _ _ hhead => exact absurd rfl hhead
      | octal hds =>
        have hx8 := hds x List.mem_cons_self
        rcases hx with rfl | rfl <;> cases hx8
      | hex _ hne hds => exact ⟨hne, hds, rfl⟩
    · rintro ⟨hne, hds, rfl⟩
      exact .hex hx hne hds
  · by_cases hzero : t.head? = some 0x30
    · obtain ⟨rest, rfl⟩ := List.head?_eq_some_iff.mp hzero
      have hradix : radix 0 (0x30 :: rest) = (8, 0x30 :: rest) := by simp [radix, hhex]
      rw [hradix]
      constructor
      · intro h
        cases h with
        | decimal _ _ hhead => exact absurd rfl hhead
        | octal hds =>
          refine ⟨List.cons_ne_nil _ _, ?_, number_zero_cons 8 _⟩
          simpa using ⟨by decide, hds⟩
        | @hex x ds hx hne hds =>
          obtain ⟨d, ds, rfl⟩ := List.exists_cons_of_ne_nil hne
          exact absurd (hasHexPrefix_iff.mpr ⟨x, d, ds, rfl, hx, hds d List.mem_cons_self⟩) hhex
      · rintro ⟨-, hds, rfl⟩
        rw [number_zero_cons]
        exact .octal fun c hc => hds c (List.mem_cons_of_mem _ hc)
    · have hradix : radix 0 t = (10, t) := by simp [radix, hhex, hzero]
      rw [hradix]
      constructor
      · intro h
        cases h with
        | decimal hne hds hhead => exact ⟨hne, hds, rfl⟩
        | octal _ => exact absurd rfl hzero
        | hex _ _ _ => exact absurd rfl hzero
      · rintro ⟨hne, hds, rfl⟩
        exact .decimal hne hds hzero

theorem takeWhile_dropWhile_nil {p : UInt8 → Bool} (t : List UInt8) :
    (t.takeWhile p ≠ [] ∧ t.dropWhile p = []) ↔ t ≠ [] ∧ ∀ c ∈ t, p c := by
  rw [List.dropWhile_eq_nil_iff]
  constructor
  · rintro ⟨hne, hall⟩
    rw [List.takeWhile_eq_self_iff.mpr hall] at hne
    exact ⟨hne, hall⟩
  · rintro ⟨hne, hall⟩
    rw [List.takeWhile_eq_self_iff.mpr hall]
    exact ⟨hne, hall⟩

/-- Behind white space, the reader takes all of a text exactly where it is a numeral. -/
theorem scan_eq_some_iff :
    scan 0 text = some ⟨neg, m, []⟩ ↔ Numeral (text.dropWhile isspace) neg m := by
  have hscan : scan 0 text = some ⟨neg, m, []⟩ ↔ (sign (text.dropWhile isspace)).1 = neg ∧
      Magnitude (sign (text.dropWhile isspace)).2 m := by
    rw [magnitude_iff]
    unfold scan
    simp only
    generalize sign (text.dropWhile isspace) = signed
    generalize radix 0 signed.2 = based
    constructor
    · intro h
      by_cases hnone : based.2.takeWhile (isDigit based.1) = []
      · simp [hnone] at h
      · simp only [if_neg hnone, Option.some.injEq, Scan.mk.injEq] at h
        obtain ⟨hneg, hm, hrest⟩ := h
        obtain ⟨hne, hall⟩ := (takeWhile_dropWhile_nil based.2).mp ⟨hnone, hrest⟩
        rw [List.takeWhile_eq_self_iff.mpr hall] at hm
        exact ⟨hneg, hne, hall, hm⟩
    · rintro ⟨rfl, hne, hall, rfl⟩
      have hrest := ((takeWhile_dropWhile_nil based.2).mpr ⟨hne, hall⟩).2
      simp only [hrest, List.takeWhile_eq_self_iff.mpr hall, if_neg hne]
  rw [hscan]
  constructor
  · rintro ⟨rfl, h⟩
    exact .of_sign h
  · intro h
    obtain ⟨ds, hsign, hds⟩ := h.sign_eq
    rw [hsign]
    exact ⟨rfl, hds⟩

theorem Numeral.head (h : Numeral t neg m) : neg = true ↔ t.head? = some 0x2d := by
  cases h with
  | plain h =>
    cases t with
    | nil => simp
    | cons c t =>
      have hc := h.head
      simp only [Bool.false_eq_true, List.head?_cons, Option.some.injEq, false_iff]
      rintro rfl
      cases hc
  | plus _ => simp
  | minus _ => simp

theorem not_isspace_of_isDigit {c : UInt8} (h : isDigit base c) : isspace c = false := by
  by_contra hspace
  rw [Bool.not_eq_false, isspace, decide_eq_true_iff] at hspace
  have hnone : digitValue c = none := by
    simp only [UInt8.le_iff_toNat_le, ← UInt8.toNat_inj] at hspace
    unfold digitValue
    simp only [UInt8.le_iff_toNat_le]
    rw [if_neg, if_neg, if_neg]
    all_goals
      simp only [UInt8.reduceToNat] at hspace ⊢
      omega
  rw [isDigit, hnone] at h
  cases h

theorem Numeral.dropWhile_eq (h : Numeral t neg m) : t.dropWhile isspace = t := by
  cases h with
  | plain h =>
    cases t with
    | nil => rfl
    | cons c t => rw [List.dropWhile_cons_of_neg (by simp [not_isspace_of_isDigit h.head])]
  | plus _ => rfl
  | minus _ => rfl

theorem Numeral.scan_eq (h : Numeral t neg m) : scan 0 t = some ⟨neg, m, []⟩ := by
  apply scan_eq_some_iff.mpr
  rwa [h.dropWhile_eq]

theorem Numeral.unique {neg' : Bool} {m' : Nat} (h : Numeral t neg m) (h' : Numeral t neg' m') :
    neg = neg' ∧ m = m' := by
  have heq := h.scan_eq.symm.trans h'.scan_eq
  simpa using heq

theorem Numeral.strtol_eq (h : Numeral t neg m) : strtol 0 t =
    if LONG_MAX < signed neg m then ⟨LONG_MAX, [], true⟩
    else if signed neg m < LONG_MIN then ⟨LONG_MIN, [], true⟩
    else ⟨signed neg m, [], false⟩ := by
  rw [strtol, h.scan_eq]

theorem Numeral.strtoul_eq (h : Numeral t false m) : strtoul 0 t =
    if ULONG_MAX < m then ⟨ULONG_MAX, [], true⟩ else ⟨m, [], false⟩ := by
  rw [strtoul, h.scan_eq]
  rfl

theorem endptr_of_scan {s : Scan} (h : scan base t = some s) :
    (strtol base t).endptr = s.rest ∧ (strtoul base t).endptr = s.rest := by
  unfold strtol strtoul
  rw [h]
  constructor
  · simp only
    split
    · rfl
    · split <;> rfl
  · simp only
    split <;> rfl

/-- All of a text without white space in front is read for numerals only, or where there is none. -/
theorem numeral_of_endptr (ht : t.dropWhile isspace = t) (hne : t ≠ [])
    (h : (strtol 0 t).endptr = [] ∨ (strtoul 0 t).endptr = []) : ∃ neg m, Numeral t neg m := by
  cases hscan : scan 0 t with
  | none =>
    unfold strtol strtoul at h
    rw [hscan] at h
    exact absurd (h.elim id id) hne
  | some s =>
    obtain ⟨hlong, hulong⟩ := endptr_of_scan hscan
    rw [hlong, hulong, or_self] at h
    obtain ⟨neg, m, rest⟩ := s
    cases h
    rw [← ht]
    exact ⟨neg, m, scan_eq_some_iff.mp hscan⟩

end

/-- `strconv.Atoi` -/
def Atoi (s : List Char) : Option Int :=
  let (negative, digits) := match s with
    | '-' :: digits => (true, digits)
    | '+' :: digits => (false, digits)
    | digits => (false, digits)
  if digits ≠ [] ∧ digits.all Char.isDigit then
    let n : Int := digits.foldl (fun n c => 10 * n + (c.toNat - '0'.toNat)) 0
    let n := if negative then -n else n
    if -2 ^ 63 ≤ n ∧ n < 2 ^ 63 then some n else none
  else none

end CtfChallenges.Framework.Strtol
