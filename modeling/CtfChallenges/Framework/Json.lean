import CtfChallenges.Framework.Ascii
import Mathlib.Data.Nat.Digits.Lemmas

/-!
# JSON as the Go package `encoding/json` reads and writes it

A text is checked as a whole before anything is decoded, so a value can be read first and be given
to the decoder of a type afterwards. Numbers keep their text; strings are bytes of UTF-8.
-/

namespace CtfChallenges.Framework.Json

abbrev Bytes := List UInt8

inductive Value
  | null
  | bool (b : Bool)
  | number (text : Bytes)
  | string (text : Bytes)
  | array (vs : List Value)
  | object (members : List (Bytes × Value))

def word (s : String) : Bytes := s.toList.map fun c => UInt8.ofNat c.toNat

/-! ## Writing -/

def digit (d : Nat) : UInt8 := UInt8.ofNat (0x30 + d)

/-- `strconv.AppendUint` with base 10. -/
def formatUint (n : Nat) : Bytes :=
  if n = 0 then [digit 0] else ((Nat.digits 10 n).reverse).map digit

/-- `strconv.AppendInt` with base 10. -/
def formatInt : Int → Bytes
  | .ofNat n => formatUint n
  | .negSucc n => 0x2d :: formatUint (n + 1)

/-- The character at the beginning and its length; a byte that is no UTF-8 counts one. -/
def decodeRune (s : Bytes) : Char × Nat :=
  match (s.take 4).toByteArray.utf8DecodeChar? 0 with
  | some c => (c, c.utf8Size)
  | none => (Char.ofNat 0xfffd, 1)

/-- `htmlSafeSet` -/
def safe (c : UInt8) : Bool :=
  0x20 ≤ c && c < 0x80 && c ≠ 0x22 && c ≠ 0x5c && c ≠ 0x3c && c ≠ 0x3e && c ≠ 0x26

def escapeByte (c : UInt8) : Bytes :=
  if c = 0x5c ∨ c = 0x22 then [0x5c, c]
  else if c = 0x0a then word "\\n"
  else if c = 0x0d then word "\\r"
  else if c = 0x09 then word "\\t"
  else word "\\u00" ++ [Hex.digit (c.toNat / 16), Hex.digit (c.toNat % 16)]

/-- The loop of `encodeState.string`, for a text of at most `n` bytes. -/
def escape : Nat → Bytes → Bytes
  | 0, _ => []
  | _, [] => []
  | n + 1, c :: s =>
    if c < 0x80 then (if safe c then [c] else escapeByte c) ++ escape n s
    else
      let (r, size) := decodeRune (c :: s)
      let text :=
        if r.toNat = 0xfffd ∧ size = 1 then word "\\ufffd"
        else if r.toNat = 0x2028 ∨ r.toNat = 0x2029 then
          word "\\u202" ++ [Hex.digit (r.toNat % 16)]
        else (c :: s).take size
      text ++ escape n (s.drop (size - 1))

def quote (s : Bytes) : Bytes := 0x22 :: escape s.length s ++ [0x22]

mutual

/-- The compact form that `Marshal` writes. -/
def render : Value → Bytes
  | .null => word "null"
  | .bool true => word "true"
  | .bool false => word "false"
  | .number text => text
  | .string text => quote text
  | .array [] => [0x5b, 0x5d]
  | .array (v :: vs) => 0x5b :: render v ++ renderElements vs
  | .object [] => [0x7b, 0x7d]
  | .object ((key, v) :: members) => 0x7b :: quote key ++ 0x3a :: render v ++ renderMembers members

/-- The elements after the first one. -/
def renderElements : List Value → Bytes
  | [] => [0x5d]
  | v :: vs => 0x2c :: render v ++ renderElements vs

def renderMembers : List (Bytes × Value) → Bytes
  | [] => [0x7d]
  | (key, v) :: members => 0x2c :: quote key ++ 0x3a :: render v ++ renderMembers members

end

/-! ## Reading -/

def isSpace (c : UInt8) : Bool := c == 0x20 || c == 0x09 || c == 0x0d || c == 0x0a

def skipSpace (s : Bytes) : Bytes := s.dropWhile isSpace

def isDigit (c : UInt8) : Bool := 0x30 ≤ c && c ≤ 0x39

/-- The digits at the beginning, when there are any. -/
def someDigits (s : Bytes) : Option (Bytes × Bytes) :=
  let digits := s.takeWhile isDigit
  if digits = [] then none else some (digits, s.dropWhile isDigit)

def signed (signs : Bytes) : Bytes → Bytes × Bytes
  | [] => ([], [])
  | c :: s => if c ∈ signs then ([c], s) else ([], c :: s)

def exponent : Bytes → Option (Bytes × Bytes)
  | [] => some ([], [])
  | c :: s =>
    if c = 0x65 ∨ c = 0x45 then
      let (sign, s) := signed [0x2b, 0x2d] s
      (someDigits s).map fun (digits, s) => (c :: sign ++ digits, s)
    else some ([], c :: s)

def fraction : Bytes → Option (Bytes × Bytes)
  | [] => some ([], [])
  | c :: s =>
    if c = 0x2e then (someDigits s).map fun (digits, s) => (c :: digits, s) else some ([], c :: s)

/-- A zero is the whole of the integer part. -/
def integer : Bytes → Option (Bytes × Bytes)
  | [] => none
  | c :: s => if c = 0x30 then some ([c], s) else someDigits (c :: s)

/-- The text of the number at the beginning. -/
def number (s : Bytes) : Option (Bytes × Bytes) := do
  let (sign, s) := signed [0x2d] s
  let (int, s) ← integer s
  let (frac, s) ← fraction s
  let (exp, s) ← exponent s
  return (sign ++ int ++ frac ++ exp, s)

/-- What one character after a backslash stands for. -/
def escapes : List (UInt8 × UInt8) :=
  [(0x22, 0x22), (0x5c, 0x5c), (0x2f, 0x2f), (0x62, 0x08), (0x66, 0x0c), (0x6e, 0x0a), (0x72, 0x0d),
    (0x74, 0x09)]

/-- The string up to its end, still with its escapes, after the quotation mark. -/
def scanString : Bytes → Option (Bytes × Bytes)
  | [] => none
  | c :: s =>
    if c = 0x22 then some ([], s)
    else if c = 0x5c then
      match s with
      | [] => none
      | e :: s =>
        if (escapes.lookup e).isSome then
          (scanString s).map fun (text, s) => (c :: e :: text, s)
        else if e = 0x75 then
          match s with
          | h₁ :: h₂ :: h₃ :: h₄ :: s =>
            if [h₁, h₂, h₃, h₄].all fun h => (Hex.fromHexChar h).isSome then
              (scanString s).map fun (text, s) => (c :: e :: h₁ :: h₂ :: h₃ :: h₄ :: text, s)
            else none
          | _ => none
        else none
    else if c < 0x20 then none
    else (scanString s).map fun (text, s) => (c :: text, s)

/-- The number after `\u`. -/
def getu4 : Bytes → Option Nat
  | b :: u :: h₁ :: h₂ :: h₃ :: h₄ :: _ =>
    if b = 0x5c ∧ u = 0x75 then
      ([h₁, h₂, h₃, h₄].mapM Hex.fromHexChar).map (·.foldl (fun n d => 16 * n + d) 0)
    else none
  | _ => none

/-- The character of a pair of surrogates. -/
def decodeSurrogates (r r₁ : Nat) : Option Char :=
  if 0xd800 ≤ r ∧ r < 0xdc00 ∧ 0xdc00 ≤ r₁ ∧ r₁ < 0xe000 then
    some (Char.ofNat ((r - 0xd800) * 0x400 + (r₁ - 0xdc00) + 0x10000))
  else none

/-- The loop of `unquoteBytes`, for a text of at most `n` bytes. What is no UTF-8 and no character
is replaced. -/
def unquote : Nat → Bytes → Option Bytes
  | _, [] => some []
  | 0, _ :: _ => none
  | n + 1, c :: s =>
    if c = 0x5c then
      match getu4 (c :: s) with
      | some r =>
        let after := s.drop 5
        match (getu4 after).bind (decodeSurrogates r) with
        | some pair => (unquote n (after.drop 6)).map (String.utf8EncodeChar pair ++ ·)
        | none =>
          let r := if 0xd800 ≤ r ∧ r < 0xe000 then 0xfffd else r
          (unquote n after).map (String.utf8EncodeChar (Char.ofNat r) ++ ·)
      | none =>
        match s with
        | [] => none
        | e :: s =>
          match escapes.lookup e with
          | some b => (unquote n s).map (b :: ·)
          | none => none
    else if c < 0x80 then (unquote n s).map (c :: ·)
    else
      let (r, size) := decodeRune (c :: s)
      (unquote n (s.drop (size - 1))).map (String.utf8EncodeChar r ++ ·)

/-- A string, after its quotation mark. -/
def string (s : Bytes) : Option (Bytes × Bytes) := do
  let (text, s) ← scanString s
  let text ← unquote text.length text
  return (text, s)

/-- A word of letters, of which the first has told which one it has to be. -/
def literal (w : Bytes) (v : Value) (s : Bytes) : Option (Value × Bytes) :=
  if w.isPrefixOf s then some (v, s.drop w.length) else none

/-- The next byte that is no space. -/
def next (s : Bytes) : Option (UInt8 × Bytes) :=
  match skipSpace s with
  | [] => none
  | c :: s => some (c, s)

def expect (c : UInt8) (s : Bytes) : Option Bytes := do
  let (d, s) ← next s
  if d = c then some s else none

mutual

/-- The value at the beginning, when it is nested less than `n` deep. -/
def value : Nat → Bytes → Option (Value × Bytes)
  | 0, _ => none
  | n + 1, s => do
    let (c, s) ← next s
    if c = 0x7b then
      match expect 0x7d s with
      | some s => some (.object [], s)
      | none => (members n s).map fun (ms, s) => (.object ms, s)
    else if c = 0x5b then
      match expect 0x5d s with
      | some s => some (.array [], s)
      | none => (elements n s).map fun (vs, s) => (.array vs, s)
    else if c = 0x22 then (string s).map fun (text, s) => (.string text, s)
    else if c = 0x74 then literal (word "true") (.bool true) (c :: s)
    else if c = 0x66 then literal (word "false") (.bool false) (c :: s)
    else if c = 0x6e then literal (word "null") .null (c :: s)
    else (number (c :: s)).map fun (text, s) => (.number text, s)

def elements : Nat → Bytes → Option (List Value × Bytes)
  | 0, _ => none
  | n + 1, s => do
    let (v, s) ← value n s
    let (c, s) ← next s
    if c = 0x2c then (elements n s).map fun (vs, s) => (v :: vs, s)
    else if c = 0x5d then some ([v], s)
    else none

def members : Nat → Bytes → Option (List (Bytes × Value) × Bytes)
  | 0, _ => none
  | n + 1, s => do
    let s ← expect 0x22 s
    let (key, s) ← string s
    let s ← expect 0x3a s
    let (v, s) ← value n s
    let (c, s) ← next s
    if c = 0x2c then (members n s).map fun (ms, s) => ((key, v) :: ms, s)
    else if c = 0x7d then some ([(key, v)], s)
    else none

end

/-- The value of a whole text. Two levels need at least one byte. -/
def parse (s : Bytes) : Option Value :=
  match value (2 * s.length + 1) s with
  | some (v, rest) => if skipSpace rest = [] then some v else none
  | none => none

/-! ## Decoding into fields -/

/-- `strconv.ParseUint` with base 10. -/
def parseUint (bits : Nat) (text : Bytes) : Option Nat :=
  if text ≠ [] ∧ text.all isDigit then
    let n := text.foldl (fun n c => 10 * n + (c.toNat - 0x30)) 0
    if n < 2 ^ bits then some n else none
  else none

/-- `strconv.ParseInt` with base 10. -/
def parseInt (bits : Nat) (text : Bytes) : Option Int :=
  if text.head? = some 0x2d then
    match parseUint bits text.tail with
    | some n => if n ≤ 2 ^ (bits - 1) then some (-n) else none
    | none => none
  else
    match parseUint bits text with
    | some n => if n < 2 ^ (bits - 1) then some n else none
    | none => none

/-- The key `t` is the name `s` of a field but for the case of letters. Two characters beyond ASCII
have letters of ASCII for their other case. -/
def equalFold : Bytes → Bytes → Bool
  | [], t => t == []
  | _ :: _, [] => false
  | c :: s, d :: t =>
    if d < 0x80 then
      let upper := c &&& 0xdf
      (c == d || (0x41 ≤ upper && upper ≤ 0x5a && upper == d &&& 0xdf)) && equalFold s t
    else
      let (r, size) := decodeRune (d :: t)
      ((c &&& 0xdf == 0x53 && r.toNat == 0x17f) || (c &&& 0xdf == 0x4b && r.toNat == 0x212a)) &&
        equalFold s ((d :: t).drop size)

/-- The field that a key is for: its very name goes first. -/
def fieldOf (names : List Bytes) (key : Bytes) : Option Bytes :=
  if key ∈ names then some key else names.find? fun name => equalFold name key

/-! ## Numbers and strings are read back -/

theorem mem_formatUint {n : Nat} {c : UInt8} (h : c ∈ formatUint n) : isDigit c = true := by
  have hdigit : ∀ d < 10, isDigit (digit d) = true := by decide
  unfold formatUint at h
  split at h
  · rw [List.mem_singleton.mp h]
    decide
  · obtain ⟨d, hd, rfl⟩ := List.mem_map.mp h
    exact hdigit d (Nat.digits_lt_base (by decide) (List.mem_reverse.mp hd))

theorem formatUint_cons (n : Nat) : ∃ c s, formatUint n = c :: s ∧ (c = 0x30 → s = []) := by
  unfold formatUint
  split
  · exact ⟨_, _, rfl, fun _ => rfl⟩
  · rename_i hn
    have hne : Nat.digits 10 n ≠ [] := Nat.digits_ne_nil_iff_ne_zero.mpr hn
    have hrev := List.dropLast_append_getLast hne
    have hlast := Nat.getLast_digit_ne_zero 10 hn
    have hlt : (Nat.digits 10 n).getLast hne < 10 :=
      Nat.digits_lt_base (by decide) (List.getLast_mem hne)
    rw [← hrev, List.reverse_append, List.reverse_singleton, List.singleton_append, List.map_cons]
    refine ⟨_, _, rfl, fun hzero => absurd hzero ?_⟩
    have hdigit : ∀ d < 10, d ≠ 0 → digit d ≠ 0x30 := by decide
    exact hdigit _ hlt hlast

/-- What can follow a value in a compact text. -/
def Ends (rest : Bytes) : Prop := ∀ c ∈ rest.head?, c = 0x2c ∨ c = 0x5d ∨ c = 0x7d

private theorem takeWhile_digits {s rest : Bytes} (hs : ∀ c ∈ s, isDigit c = true)
    (hrest : Ends rest) : (s ++ rest).takeWhile isDigit = s ∧ (s ++ rest).dropWhile isDigit = rest := by
  have hstop : rest.takeWhile isDigit = [] ∧ rest.dropWhile isDigit = rest := by
    cases rest with
    | nil => exact ⟨rfl, rfl⟩
    | cons c rest =>
      have hc : isDigit c = false := by
        obtain rfl | rfl | rfl := hrest c rfl <;> decide
      rw [List.takeWhile_cons_of_neg (by simp [hc]), List.dropWhile_cons_of_neg (by simp [hc])]
      exact ⟨rfl, rfl⟩
  rw [List.takeWhile_append_of_pos hs, List.dropWhile_append_of_pos hs, hstop.1, hstop.2,
    List.append_nil]
  exact ⟨rfl, rfl⟩

private theorem integer_formatUint (n : Nat) {rest : Bytes} (hrest : Ends rest) :
    integer (formatUint n ++ rest) = some (formatUint n, rest) := by
  obtain ⟨c, s, hcons, hzero⟩ := formatUint_cons n
  have hdigits : ∀ d ∈ c :: s, isDigit d = true := by
    intro d hd
    rw [← hcons] at hd
    exact mem_formatUint hd
  rw [hcons, List.cons_append, integer]
  split
  · rename_i hc
    rw [hzero hc]
    rfl
  · obtain ⟨htake, hdrop⟩ := takeWhile_digits hdigits hrest
    rw [someDigits, ← List.cons_append, htake, hdrop, if_neg (List.cons_ne_nil c s)]

private theorem fraction_ends {rest : Bytes} (hrest : Ends rest) : fraction rest = some ([], rest) := by
  cases rest with
  | nil => rfl
  | cons c rest =>
    have hc : c ≠ 0x2e := by
      obtain rfl | rfl | rfl := hrest c rfl <;> decide
    rw [fraction, if_neg hc]

private theorem exponent_ends {rest : Bytes} (hrest : Ends rest) : exponent rest = some ([], rest) := by
  cases rest with
  | nil => rfl
  | cons c rest =>
    have hc : ¬(c = 0x65 ∨ c = 0x45) := by
      obtain rfl | rfl | rfl := hrest c rfl <;> decide
    rw [exponent, if_neg hc]

theorem number_formatInt (n : Int) {rest : Bytes} (hrest : Ends rest) :
    number (formatInt n ++ rest) = some (formatInt n, rest) := by
  have hunsigned : ∀ m sign, ((do
      let (int, s) ← integer (formatUint m ++ rest)
      let (frac, s) ← fraction s
      let (exp, s) ← exponent s
      return (sign ++ int ++ frac ++ exp, s)) : Option (Bytes × Bytes)) =
        some (sign ++ formatUint m, rest) := by
    intro m sign
    simp [integer_formatUint m hrest, fraction_ends hrest, exponent_ends hrest]
  cases n with
  | ofNat m =>
    obtain ⟨c, s, hcons, -⟩ := formatUint_cons m
    have hsign : signed [0x2d] (formatUint m ++ rest) = ([], formatUint m ++ rest) := by
      have hdigit : isDigit c = true := mem_formatUint (n := m) (hcons ▸ List.mem_cons_self)
      have hc : c ∉ [(0x2d : UInt8)] := by
        rw [List.mem_singleton]
        rintro rfl
        exact absurd hdigit (by decide)
      rw [hcons, List.cons_append, signed, if_neg hc]
    rw [formatInt, number, hsign]
    exact hunsigned m []
  | negSucc m =>
    rw [formatInt, number, List.cons_append, signed, if_pos (List.mem_singleton.mpr rfl)]
    exact hunsigned (m + 1) [0x2d]

private theorem digit_value : ∀ d < 10, (digit d).toNat - 0x30 = d := by decide

private theorem foldl_formatUint (n : Nat) :
    (formatUint n).foldl (fun n c => 10 * n + (c.toNat - 0x30)) 0 = n := by
  have hofDigits : ∀ ds : List Nat, (∀ d ∈ ds, d < 10) →
      ds.foldr (fun d n => 10 * n + ((digit d).toNat - 0x30)) 0 = Nat.ofDigits 10 ds := by
    intro ds hds
    induction ds with
    | nil => rfl
    | cons d ds ih =>
      rw [List.forall_mem_cons] at hds
      rw [List.foldr_cons, ih hds.2, digit_value d hds.1, Nat.ofDigits_cons,
        Nat.add_comm]
  unfold formatUint
  split
  · rename_i hn
    rw [hn]
    rfl
  · rw [List.foldl_map, List.foldl_reverse,
      hofDigits _ fun d hd => Nat.digits_lt_base (by decide) hd, Nat.ofDigits_digits]

theorem parseUint_formatUint {bits n : Nat} (h : n < 2 ^ bits) :
    parseUint bits (formatUint n) = some n := by
  have hne : formatUint n ≠ [] := by
    obtain ⟨c, s, hcons, -⟩ := formatUint_cons n
    rw [hcons]
    exact List.cons_ne_nil c s
  have hdigits : (formatUint n).all isDigit = true := List.all_eq_true.mpr fun _ => mem_formatUint
  rw [parseUint, if_pos ⟨hne, hdigits⟩, foldl_formatUint]
  exact if_pos h

theorem parseInt_formatInt {bits : Nat} {n : Int} (hlow : -2 ^ bits ≤ n) (hhigh : n < 2 ^ bits) :
    parseInt (bits + 1) (formatInt n) = some n := by
  cases n with
  | ofNat m =>
    have hm : m < 2 ^ bits := by
      rw [Int.ofNat_eq_natCast] at hhigh
      exact_mod_cast hhigh
    have hhead : (formatUint m).head? ≠ some 0x2d := by
      obtain ⟨c, s, hcons, -⟩ := formatUint_cons m
      have hdigit : isDigit c = true := mem_formatUint (n := m) (hcons ▸ List.mem_cons_self)
      rw [hcons, List.head?_cons]
      rintro ⟨⟩
      exact absurd hdigit (by decide)
    have hm' : m < 2 ^ (bits + 1) := hm.trans (Nat.pow_lt_pow_succ (by decide))
    rw [formatInt, parseInt, if_neg hhead, parseUint_formatUint hm']
    exact if_pos hm
  | negSucc m =>
    have hm : m + 1 ≤ 2 ^ bits := by
      rw [Int.negSucc_eq] at hlow
      have : ((m : Int) + 1) ≤ 2 ^ bits := by omega
      exact_mod_cast this
    have hm' : m + 1 < 2 ^ (bits + 1) := hm.trans_lt (Nat.pow_lt_pow_succ (by decide))
    rw [formatInt, parseInt, List.head?_cons, if_pos rfl, List.tail_cons, parseUint_formatUint hm']
    dsimp only
    rw [Nat.add_sub_cancel, if_pos hm, Int.negSucc_eq]
    rfl

private theorem safe_ranges {c : UInt8} (h : safe c = true) :
    c < 0x80 ∧ c ≠ 0x22 ∧ c ≠ 0x5c ∧ ¬c < 0x20 := by
  simp only [safe, Bool.and_eq_true, decide_eq_true_eq] at h
  obtain ⟨⟨⟨⟨⟨⟨hlow, hhigh⟩, hquote⟩, hslash⟩, -⟩, -⟩, -⟩ := h
  exact ⟨hhigh, hquote, hslash, UInt8.not_lt.mpr hlow⟩

theorem escape_safe {s : Bytes} (h : ∀ c ∈ s, safe c = true) {n : Nat} (hn : s.length ≤ n) :
    escape n s = s := by
  induction s generalizing n with
  | nil => cases n <;> rfl
  | cons c s ih =>
    rw [List.forall_mem_cons] at h
    obtain ⟨m, rfl⟩ : ∃ m, n = m + 1 := ⟨n - 1, by simp at hn; omega⟩
    rw [escape, if_pos (safe_ranges h.1).1, if_pos h.1,
      ih h.2 (Nat.le_of_succ_le_succ hn), List.singleton_append]

private theorem scanString_safe {s : Bytes} (h : ∀ c ∈ s, safe c = true) (rest : Bytes) :
    scanString (s ++ 0x22 :: rest) = some (s, rest) := by
  induction s with
  | nil =>
    rw [List.nil_append, scanString.eq_def]
    exact if_pos rfl
  | cons c s ih =>
    rw [List.forall_mem_cons] at h
    obtain ⟨-, hquote, hslash, hlow⟩ := safe_ranges h.1
    rw [List.cons_append, scanString.eq_def]
    dsimp only
    rw [if_neg hquote, if_neg hslash, if_neg hlow, ih h.2]
    rfl

private theorem unquote_safe {s : Bytes} (h : ∀ c ∈ s, safe c = true) {n : Nat}
    (hn : s.length ≤ n) : unquote n s = some s := by
  induction s generalizing n with
  | nil => cases n <;> rfl
  | cons c s ih =>
    rw [List.forall_mem_cons] at h
    obtain ⟨hhigh, -, hslash, -⟩ := safe_ranges h.1
    obtain ⟨m, rfl⟩ : ∃ m, n = m + 1 := ⟨n - 1, by simp at hn; omega⟩
    rw [unquote.eq_def]
    dsimp only
    rw [if_neg hslash, if_pos hhigh, ih h.2 (Nat.le_of_succ_le_succ hn), Option.map_some]

/-- A string without special characters is read back. -/
theorem string_quote {s : Bytes} (h : ∀ c ∈ s, safe c = true) (rest : Bytes) :
    quote s ++ rest = 0x22 :: (s ++ 0x22 :: rest) ∧
      string (s ++ 0x22 :: rest) = some (s, rest) := by
  constructor
  · rw [quote, escape_safe h (Nat.le_refl _)]
    simp
  · simp [string, scanString_safe h, unquote_safe h (Nat.le_refl _)]

/-! ## Values are read back -/

mutual

/-- A value of which no character is escaped and whose numbers are integers. -/
def Plain : Value → Prop
  | .null => True
  | .bool _ => True
  | .number text => ∃ n, text = formatInt n
  | .string text => ∀ c ∈ text, safe c = true
  | .array vs => PlainElements vs
  | .object members => PlainMembers members

def PlainElements : List Value → Prop
  | [] => True
  | v :: vs => Plain v ∧ PlainElements vs

def PlainMembers : List (Bytes × Value) → Prop
  | [] => True
  | (key, v) :: members => (∀ c ∈ key, safe c = true) ∧ Plain v ∧ PlainMembers members

end

mutual

/-- How deep the reader has to go. -/
def size : Value → Nat
  | .array (v :: vs) => size v + sizeElements vs + 2
  | .object ((_, v) :: members) => size v + sizeMembers members + 2
  | _ => 1

def sizeElements : List Value → Nat
  | [] => 0
  | v :: vs => size v + sizeElements vs + 1

def sizeMembers : List (Bytes × Value) → Nat
  | [] => 0
  | (_, v) :: members => size v + sizeMembers members + 1

end

private theorem ends_elements (vs : List Value) (rest : Bytes) : Ends (renderElements vs ++ rest) := by
  cases vs <;> simp [Ends, renderElements]

private theorem ends_members (ms : List (Bytes × Value)) (rest : Bytes) :
    Ends (renderMembers ms ++ rest) := by
  cases ms with
  | nil => simp [Ends, renderMembers]
  | cons m ms => simp [Ends, renderMembers]

private theorem next_cons {c : UInt8} (h : isSpace c = false) (s : Bytes) :
    next (c :: s) = some (c, s) := by
  rw [next, skipSpace, List.dropWhile_cons_of_neg (by simp [h])]

private theorem expect_cons {c : UInt8} (h : isSpace c = false) (s : Bytes) :
    expect c (c :: s) = some s := by
  simp [expect, next_cons h]

private theorem expect_of_ne {c d : UInt8} (h : isSpace d = false) (hne : d ≠ c) (s : Bytes) :
    expect c (d :: s) = none := by
  simp [expect, next_cons h, hne]

private theorem formatInt_cons (n : Int) :
    ∃ c s, formatInt n = c :: s ∧ (isDigit c = true ∨ c = 0x2d) := by
  cases n with
  | ofNat m =>
    obtain ⟨c, s, hcons, -⟩ := formatUint_cons m
    exact ⟨c, s, hcons, .inl (mem_formatUint (n := m) (hcons ▸ List.mem_cons_self))⟩
  | negSucc m => exact ⟨_, _, rfl, .inr rfl⟩

private theorem isDigit_ranges : ∀ n < 256, isDigit (.ofNat n) = true ∨ UInt8.ofNat n = 0x2d →
    isSpace (.ofNat n) = false ∧ UInt8.ofNat n ∉ ([0x7b, 0x5b, 0x22, 0x74, 0x66, 0x6e, 0x5d] : Bytes) := by
  decide +kernel

private theorem number_start {c : UInt8} (h : isDigit c = true ∨ c = 0x2d) :
    isSpace c = false ∧ c ∉ ([0x7b, 0x5b, 0x22, 0x74, 0x66, 0x6e, 0x5d] : Bytes) := by
  have hc := isDigit_ranges c.toNat c.toNat_lt
  rw [UInt8.ofNat_toNat] at hc
  exact hc h

private theorem render_cons {v : Value} (h : Plain v) :
    ∃ c s, render v = c :: s ∧ isSpace c = false ∧ c ≠ 0x5d := by
  match v with
  | .null => exact ⟨_, _, rfl, rfl, by decide⟩
  | .bool true => exact ⟨_, _, rfl, rfl, by decide⟩
  | .bool false => exact ⟨_, _, rfl, rfl, by decide⟩
  | .number text =>
    obtain ⟨n, rfl⟩ := h
    obtain ⟨c, s, hcons, hc⟩ := formatInt_cons n
    obtain ⟨hspace, hmem⟩ := number_start hc
    exact ⟨c, s, hcons, hspace, fun h => hmem (by simp [h])⟩
  | .string text => exact ⟨_, _, rfl, rfl, by decide⟩
  | .array [] => exact ⟨_, _, rfl, rfl, by decide⟩
  | .array (_ :: _) => exact ⟨_, _, rfl, rfl, by decide⟩
  | .object [] => exact ⟨_, _, rfl, rfl, by decide⟩
  | .object (_ :: _) => exact ⟨_, _, rfl, rfl, by decide⟩

mutual

theorem value_render : ∀ (v : Value), Plain v → ∀ (n : Nat), size v ≤ n → ∀ (rest : Bytes),
    Ends rest → value n (render v ++ rest) = some (v, rest)
  | .null, _, n + 1, _, rest, _ => by rfl
  | .bool true, _, n + 1, _, rest, _ => by rfl
  | .bool false, _, n + 1, _, rest, _ => by rfl
  | .number text, ⟨i, hi⟩, n + 1, _, rest, hrest => by
    subst hi
    obtain ⟨c, s, hcons, hc⟩ := formatInt_cons i
    obtain ⟨hspace, hmem⟩ := number_start hc
    simp only [List.mem_cons, List.not_mem_nil, or_false, not_or] at hmem
    have hnumber := number_formatInt i hrest
    rw [render, value, hcons, List.cons_append, next_cons hspace]
    rw [hcons, List.cons_append] at hnumber
    simp [hmem, hnumber]
  | .string text, h, n + 1, _, rest, _ => by
    obtain ⟨hquote, hstring⟩ := string_quote h rest
    rw [render, value, hquote, next_cons (by decide)]
    simp [hstring]
  | .array [], _, n + 1, _, rest, _ => by rfl
  | .array (v :: vs), h, n + 1, hn, rest, hrest => by
    obtain ⟨c, s, hcons, hspace, hend⟩ := render_cons h.1
    have helements := elements_render v vs h.1 h.2 n (by simp only [size] at hn; omega) rest
    rw [render, value, List.append_assoc, List.cons_append, next_cons (by decide)]
    rw [hcons, List.cons_append] at helements ⊢
    simp [expect_of_ne hspace hend, helements]
  | .object [], _, n + 1, _, rest, _ => by rfl
  | .object ((key, v) :: ms), h, n + 1, hn, rest, hrest => by
    have hmembers := members_render key v ms h.1 h.2.1 h.2.2 n (by simp only [size] at hn; omega) rest
    obtain ⟨hquote, -⟩ := string_quote h.1 (0x3a :: render v ++ renderMembers ms ++ rest)
    rw [render, value]
    simp only [List.cons_append, List.append_assoc] at hquote hmembers ⊢
    rw [next_cons (by decide)]
    rw [hquote] at hmembers ⊢
    simp [expect_of_ne (c := 0x7d) (d := 0x22) (by decide) (by decide), hmembers]

theorem elements_render : ∀ (v : Value) (vs : List Value), Plain v → PlainElements vs →
    ∀ (n : Nat), size v + sizeElements vs + 1 ≤ n → ∀ (rest : Bytes),
      elements n (render v ++ (renderElements vs ++ rest)) = some (v :: vs, rest)
  | v, vs, hv, hvs, n + 1, hn, rest => by
    have hvalue := value_render v hv n (by omega) (renderElements vs ++ rest) (ends_elements vs rest)
    rw [elements, hvalue]
    match vs, hvs with
    | [], _ => rfl
    | w :: vs, hvs =>
      have helements := elements_render w vs hvs.1 hvs.2 n (by simp only [sizeElements] at hn; omega) rest
      simp [renderElements, next_cons (c := 0x2c) (by decide), helements]

theorem members_render : ∀ (key : Bytes) (v : Value) (ms : List (Bytes × Value)),
    (∀ c ∈ key, safe c = true) → Plain v → PlainMembers ms → ∀ (n : Nat),
      size v + sizeMembers ms + 1 ≤ n → ∀ (rest : Bytes),
        members n (quote key ++ 0x3a :: render v ++ (renderMembers ms ++ rest)) =
          some ((key, v) :: ms, rest)
  | key, v, ms, hkey, hv, hms, n + 1, hn, rest => by
    have hvalue := value_render v hv n (by omega) (renderMembers ms ++ rest) (ends_members ms rest)
    obtain ⟨hquote, hstring⟩ := string_quote hkey (0x3a :: (render v ++ (renderMembers ms ++ rest)))
    rw [members, List.append_assoc, List.cons_append, hquote, expect_cons (by decide)]
    simp only [Option.bind_eq_bind, Option.bind_some, hstring, expect_cons (c := 0x3a) (by decide),
      hvalue]
    match ms, hms with
    | [], _ => rfl
    | (key', w) :: ms, hms =>
      have hmembers := members_render key' w ms hms.1 hms.2.1 hms.2.2 n
        (by simp only [sizeMembers] at hn; omega) rest
      simp only [List.append_assoc, List.cons_append] at hmembers
      simp [renderMembers, next_cons (c := 0x2c) (by decide), hmembers]

end

/-- An object ends by itself, whatever follows. -/
theorem object_render : ∀ (ms : List (Bytes × Value)), PlainMembers ms → ∀ (n : Nat),
    size (.object ms) ≤ n → ∀ (rest : Bytes),
      value n (render (.object ms) ++ rest) = some (.object ms, rest)
  | [], _, n + 1, _, rest => by rfl
  | (key, v) :: ms, h, n + 1, hn, rest => by
    have hmembers := members_render key v ms h.1 h.2.1 h.2.2 n (by simp only [size] at hn; omega) rest
    obtain ⟨hquote, -⟩ := string_quote h.1 (0x3a :: render v ++ renderMembers ms ++ rest)
    rw [render, value]
    simp only [List.cons_append, List.append_assoc] at hquote hmembers ⊢
    rw [next_cons (by decide)]
    rw [hquote] at hmembers ⊢
    simp [expect_of_ne (c := 0x7d) (d := 0x22) (by decide) (by decide), hmembers]

/-! ## The depth is no limit

Every part of a text that is read is shorter than the whole, so a larger bound changes nothing.
-/

private theorem next_lt {s rest : Bytes} {c : UInt8} (h : next s = some (c, rest)) :
    rest.length < s.length := by
  unfold next at h
  split at h
  · cases h
  · rename_i d t hskip
    cases h
    have hle : (skipSpace s).length ≤ s.length := (List.dropWhile_sublist _).length_le
    rw [hskip] at hle
    exact hle

private theorem expect_lt {s rest : Bytes} {c : UInt8} (h : expect c s = some rest) :
    rest.length < s.length := by
  simp only [expect, Option.bind_eq_bind, Option.bind_eq_some_iff] at h
  obtain ⟨⟨d, t⟩, hnext, h⟩ := h
  split at h
  · cases h
    exact next_lt hnext
  · cases h

private theorem someDigits_lt {s digits rest : Bytes} (h : someDigits s = some (digits, rest)) :
    rest.length < s.length := by
  unfold someDigits at h
  dsimp only at h
  split at h
  · cases h
  · rename_i hne
    cases h
    have hlen := congrArg List.length (List.takeWhile_append_dropWhile (p := isDigit) (l := s))
    rw [List.length_append] at hlen
    have := List.length_pos_iff.mpr hne
    omega

private theorem signed_le (signs s : Bytes) : (signed signs s).2.length ≤ s.length := by
  unfold signed
  split
  · exact Nat.le_refl _
  · split
    · exact Nat.le_succ _
    · exact Nat.le_refl _

private theorem integer_lt {s int rest : Bytes} (h : integer s = some (int, rest)) :
    rest.length < s.length := by
  unfold integer at h
  split at h
  · cases h
  · split at h
    · cases h
      exact Nat.lt_succ_self _
    · exact someDigits_lt h

private theorem fraction_le {s frac rest : Bytes} (h : fraction s = some (frac, rest)) :
    rest.length ≤ s.length := by
  unfold fraction at h
  split at h
  · cases h
    exact Nat.le_refl _
  · split at h
    · obtain ⟨⟨digits, t⟩, hdigits, h⟩ := Option.map_eq_some_iff.mp h
      cases h
      exact Nat.le_succ_of_le (someDigits_lt hdigits).le
    · cases h
      exact Nat.le_refl _

private theorem exponent_le {s exp rest : Bytes} (h : exponent s = some (exp, rest)) :
    rest.length ≤ s.length := by
  unfold exponent at h
  split at h
  · cases h
    exact Nat.le_refl _
  · rename_i c t
    split at h
    · obtain ⟨⟨digits, t'⟩, hdigits, h⟩ := Option.map_eq_some_iff.mp h
      cases h
      exact Nat.le_succ_of_le ((someDigits_lt hdigits).le.trans (signed_le [0x2b, 0x2d] t))
    · cases h
      exact Nat.le_refl _

private theorem number_lt {s text rest : Bytes} (h : number s = some (text, rest)) :
    rest.length < s.length := by
  simp only [number, Option.bind_eq_bind, Option.bind_eq_some_iff, Option.pure_def,
    Option.some.injEq] at h
  obtain ⟨⟨int, s₁⟩, hint, ⟨frac, s₂⟩, hfrac, ⟨exp, s₃⟩, hexp, h⟩ := h
  cases h
  have hrest : s₃.length ≤ s₁.length := (exponent_le hexp).trans (fraction_le hfrac)
  exact (hrest.trans_lt (integer_lt hint)).trans_le (signed_le [0x2d] s)

private theorem scanString_eq {s text rest : Bytes} (h : scanString s = some (text, rest)) :
    s = text ++ 0x22 :: rest := by
  fun_induction scanString s generalizing text with
  | case1 => cases h
  | case2 s =>
    cases h
    rfl
  | case4 e s hescape hquote ih =>
    obtain ⟨⟨raw, t⟩, hscan, h⟩ := Option.map_eq_some_iff.mp h
    cases h
    rw [ih hscan, List.cons_append, List.cons_append]
  | case5 h₁ h₂ h₃ h₄ s hhex hquote hescape ih =>
    obtain ⟨⟨raw, t⟩, hscan, h⟩ := Option.map_eq_some_iff.mp h
    cases h
    rw [ih hscan]
    simp only [List.cons_append]
  | case10 c s hquote hslash hlow ih =>
    obtain ⟨⟨raw, t⟩, hscan, h⟩ := Option.map_eq_some_iff.mp h
    cases h
    rw [ih hscan, List.cons_append]
  | _ => cases h

private theorem string_lt {s text rest : Bytes} (h : string s = some (text, rest)) :
    rest.length < s.length := by
  simp only [string, Option.bind_eq_bind, Option.bind_eq_some_iff, Option.pure_def,
    Option.some.injEq] at h
  obtain ⟨⟨raw, t⟩, hscan, text', -, h⟩ := h
  cases h
  rw [scanString_eq hscan, List.length_append, List.length_cons]
  exact Nat.lt_of_lt_of_le (Nat.lt_succ_self _) (Nat.le_add_left _ _)

private theorem literal_lt {w s rest : Bytes} {v v' : Value} (hw : w ≠ [])
    (h : literal w v s = some (v', rest)) : rest.length < s.length := by
  unfold literal at h
  split at h
  · rename_i hprefix
    cases h
    have hle := (List.isPrefixOf_iff_prefix.mp hprefix).length_le
    have hpos := List.length_pos_iff.mpr hw
    rw [List.length_drop]
    omega
  · cases h

private theorem rest_lt (n : Nat) :
    (∀ s v rest, value n s = some (v, rest) → rest.length < s.length) ∧
      (∀ s vs rest, elements n s = some (vs, rest) → rest.length < s.length) ∧
        ∀ s ms rest, members n s = some (ms, rest) → rest.length < s.length := by
  induction n with
  | zero => exact ⟨nofun, nofun, nofun⟩
  | succ n ih =>
    obtain ⟨hvalue, helements, hmembers⟩ := ih
    refine ⟨?_, ?_, ?_⟩
    · intro s v rest h
      simp only [value, Option.bind_eq_bind, Option.bind_eq_some_iff] at h
      obtain ⟨⟨c, t⟩, hnext, h⟩ := h
      have hlt : (c :: t).length ≤ s.length := next_lt hnext
      refine Nat.lt_of_lt_of_le ?_ hlt
      dsimp only at h
      split at h
      · split at h
        · rename_i hexpect
          cases h
          exact Nat.lt_succ_of_lt (expect_lt hexpect)
        · obtain ⟨⟨ms, t'⟩, hms, h⟩ := Option.map_eq_some_iff.mp h
          cases h
          exact Nat.lt_succ_of_lt (hmembers _ _ _ hms)
      · split at h
        · split at h
          · rename_i hexpect
            cases h
            exact Nat.lt_succ_of_lt (expect_lt hexpect)
          · obtain ⟨⟨vs, t'⟩, hvs, h⟩ := Option.map_eq_some_iff.mp h
            cases h
            exact Nat.lt_succ_of_lt (helements _ _ _ hvs)
        · split at h
          · obtain ⟨⟨text, t'⟩, hstring, h⟩ := Option.map_eq_some_iff.mp h
            cases h
            exact Nat.lt_succ_of_lt (string_lt hstring)
          · split at h
            · exact literal_lt (by decide) h
            · split at h
              · exact literal_lt (by decide) h
              · split at h
                · exact literal_lt (by decide) h
                · obtain ⟨⟨text, t'⟩, hnumber, h⟩ := Option.map_eq_some_iff.mp h
                  cases h
                  exact number_lt hnumber
    · intro s vs rest h
      simp only [elements, Option.bind_eq_bind, Option.bind_eq_some_iff] at h
      obtain ⟨⟨v, s₁⟩, hv, ⟨c, s₂⟩, hnext, h⟩ := h
      have hlt : s₂.length < s.length := (next_lt hnext).trans (hvalue _ _ _ hv)
      dsimp only at h
      split at h
      · obtain ⟨⟨vs', t⟩, hvs, h⟩ := Option.map_eq_some_iff.mp h
        cases h
        exact (helements _ _ _ hvs).trans hlt
      · split at h
        · cases h
          exact hlt
        · cases h
    · intro s ms rest h
      simp only [members, Option.bind_eq_bind, Option.bind_eq_some_iff] at h
      obtain ⟨s₁, hquote, ⟨key, s₂⟩, hkey, s₃, hcolon, ⟨v, s₄⟩, hv, ⟨c, s₅⟩, hnext, h⟩ := h
      have hlt : s₅.length < s.length :=
        (next_lt hnext).trans ((hvalue _ _ _ hv).trans ((expect_lt hcolon).trans
          ((string_lt hkey).trans (expect_lt hquote))))
      dsimp only at h
      split at h
      · obtain ⟨⟨ms', t⟩, hms, h⟩ := Option.map_eq_some_iff.mp h
        cases h
        exact (hmembers _ _ _ hms).trans hlt
      · split at h
        · cases h
          exact hlt
        · cases h

private theorem stable (n : Nat) :
    (∀ s, 2 * s.length + 1 ≤ n → ∀ m, n ≤ m → value m s = value n s) ∧
      (∀ s, 2 * s.length + 2 ≤ n → ∀ m, n ≤ m → elements m s = elements n s) ∧
        ∀ s, 2 * s.length + 2 ≤ n → ∀ m, n ≤ m → members m s = members n s := by
  induction n with
  | zero => exact ⟨nofun, nofun, nofun⟩
  | succ n ih =>
    obtain ⟨hvalue, helements, hmembers⟩ := ih
    refine ⟨?_, ?_, ?_⟩
    · intro s hs m hm
      obtain ⟨m, rfl⟩ : ∃ k, m = k + 1 := ⟨m - 1, by omega⟩
      rw [value, value]
      refine Option.bind_congr fun (c, t) hnext => ?_
      have hlt := next_lt hnext
      have hms := hmembers t (by omega) m (Nat.le_of_succ_le_succ hm)
      have hvs := helements t (by omega) m (Nat.le_of_succ_le_succ hm)
      simp only [hms, hvs]
    · intro s hs m hm
      obtain ⟨m, rfl⟩ : ∃ k, m = k + 1 := ⟨m - 1, by omega⟩
      rw [elements, elements, hvalue s (by omega) m (Nat.le_of_succ_le_succ hm)]
      refine Option.bind_congr fun (v, s₁) hv => Option.bind_congr fun (c, s₂) hnext => ?_
      have hlt : s₂.length < s₁.length := next_lt hnext
      have hlt' : s₁.length < s.length := (rest_lt n).1 _ _ _ hv
      have hvs := helements s₂ (by omega) m (Nat.le_of_succ_le_succ hm)
      simp only [hvs]
    · intro s hs m hm
      obtain ⟨m, rfl⟩ : ∃ k, m = k + 1 := ⟨m - 1, by omega⟩
      rw [members, members]
      refine Option.bind_congr fun s₁ hquote => Option.bind_congr fun (key, s₂) hkey =>
        Option.bind_congr fun s₃ hcolon => ?_
      have hlt : s₃.length < s.length :=
        (expect_lt hcolon).trans ((string_lt hkey).trans (expect_lt hquote))
      rw [hvalue s₃ (by omega) m (Nat.le_of_succ_le_succ hm)]
      refine Option.bind_congr fun (v, s₄) hv => Option.bind_congr fun (c, s₅) hnext => ?_
      have hlt' : s₅.length < s₃.length := (next_lt hnext).trans ((rest_lt n).1 _ _ _ hv)
      have hms := hmembers s₅ (by omega) m (Nat.le_of_succ_le_succ hm)
      simp only [hms]

/-- What `Marshal` writes is read back. -/
theorem parse_render {v : Value} (h : Plain v) : parse (render v) = some v := by
  have hends : Ends [] := nofun
  have hdeep := value_render v h (2 * (render v).length + 1 + size v) (by omega) [] hends
  rw [(stable _).1 (render v ++ []) (by rw [List.append_nil]) _ (Nat.le_add_right _ _),
    List.append_nil] at hdeep
  rw [parse, hdeep]
  rfl

/-- What `Encode` writes, with the end of the line, is read back. -/
theorem parse_render_line {ms : List (Bytes × Value)} (h : PlainMembers ms) :
    parse (render (.object ms) ++ [0x0a]) = some (.object ms) := by
  have hdeep := object_render ms h
    (2 * (render (.object ms) ++ [0x0a]).length + 1 + size (.object ms)) (by omega) [0x0a]
  rw [(stable _).1 _ le_rfl _ (Nat.le_add_right _ _)] at hdeep
  rw [parse, hdeep]
  rfl

end CtfChallenges.Framework.Json
