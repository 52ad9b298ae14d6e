import Mathlib.Data.List.DropRight
import Mathlib.Data.List.Basic

/-!
# Text in the Rust standard library

Strings as lists of characters, with the functions of `str` and of `BufRead::lines` that line-based
file formats use. The `hex` crate is given by what its documentation says.
-/

namespace CtfChallenges.Framework.Text

/-- `char::is_whitespace`: the Unicode property `White_Space`. -/
def isWhitespace (c : Char) : Bool :=
  (0x09 ≤ c.toNat && c.toNat ≤ 0x0d) || c.toNat = 0x20 || c.toNat = 0x85 || c.toNat = 0xa0 ||
    c.toNat = 0x1680 || (0x2000 ≤ c.toNat && c.toNat ≤ 0x200a) || c.toNat = 0x2028 ||
    c.toNat = 0x2029 || c.toNat = 0x202f || c.toNat = 0x205f || c.toNat = 0x3000

def trim (s : List Char) : List Char := (s.dropWhile isWhitespace).rdropWhile isWhitespace

/-- `splitn(2, ":")`, when the string has the separator. -/
def splitOnce (sep : Char) (s : List Char) : Option (List Char × List Char) :=
  match s.dropWhile (· ≠ sep) with
  | [] => none
  | _ :: after => some (s.takeWhile (· ≠ sep), after)

private def stripReturn (line : List Char) : List Char :=
  if line.getLast? = some '\r' then line.dropLast else line

/-- The lines of a text from the reversed beginning of the first on. A line that a newline ends
loses a carriage return before it too. -/
def linesFrom : List Char → List Char → List (List Char)
  | [], [] => []
  | start, [] => [start.reverse]
  | start, c :: cs =>
    if c = '\n' then stripReturn start.reverse :: linesFrom [] cs else linesFrom (c :: start) cs

def lines (text : List Char) : List (List Char) := linesFrom [] text

def hexDigits : List Char :=
  ['0', '1', '2', '3', '4', '5', '6', '7', '8', '9', 'a', 'b', 'c', 'd', 'e', 'f']

/-- `encode` and `decode` of the `hex` crate: small digits, two for a byte. -/
structure HexCrate where
  encode : List UInt8 → List Char
  decode : List Char → Option (List UInt8)
  decode_encode : ∀ data, decode (encode data) = some data
  mem_encode : ∀ data, ∀ c ∈ encode data, c ∈ hexDigits
  length_decode : ∀ text data, decode text = some data → text.length = 2 * data.length

def hexChar (d : Nat) : Char := if d < 10 then Char.ofNat (0x30 + d) else Char.ofNat (0x57 + d)

def hexEncode (bs : List UInt8) : List Char :=
  bs.flatMap fun b => [hexChar (b.toNat / 16), hexChar (b.toNat % 16)]

def hexVal (c : Char) : Option Nat :=
  if '0' ≤ c ∧ c ≤ '9' then some (c.toNat - 0x30)
  else if 'a' ≤ c ∧ c ≤ 'f' then some (c.toNat - 0x57)
  else if 'A' ≤ c ∧ c ≤ 'F' then some (c.toNat - 0x37)
  else none

/-- No value for an odd number of characters or a character that is no digit. -/
def hexDecode : List Char → Option (List UInt8)
  | [] => some []
  | [_] => none
  | c :: c' :: cs => do
    let d ← hexVal c
    let d' ← hexVal c'
    let bs ← hexDecode cs
    return UInt8.ofNat (16 * d + d') :: bs

def asBytes (s : List Char) : List UInt8 := s.flatMap String.utf8EncodeChar

def fromUtf8 (bs : List UInt8) : Option (List Char) :=
  bs.toByteArray.utf8Decode?.map Array.toList

theorem trim_trim (s : List Char) : trim (trim s) = trim s := by
  have hhead : (trim s).dropWhile isWhitespace = trim s := by
    rw [List.dropWhile_eq_self_iff]
    intro hpos
    have hpre : trim s <+: s.dropWhile isWhitespace := List.rdropWhile_prefix _ _
    have hlen := hpre.length_le
    rw [hpre.getElem hpos]
    exact List.dropWhile_eq_self_iff.mp (List.dropWhile_idempotent (p := isWhitespace) (l := s)) _
  unfold trim at hhead ⊢
  rw [hhead, List.rdropWhile_idempotent]

theorem mem_of_mem_trim {c : Char} {s : List Char} (h : c ∈ trim s) : c ∈ s := by
  have hpre : trim s <+: s.dropWhile isWhitespace := List.rdropWhile_prefix _ _
  exact (List.dropWhile_sublist _).subset (hpre.subset h)

/-- Trimming leaves a text alone that has no white space at all. -/
theorem trim_eq_self {s : List Char} (h : ∀ c ∈ s, isWhitespace c = false) : trim s = s := by
  have hdrop : s.dropWhile isWhitespace = s := by
    rw [List.dropWhile_eq_self_iff]
    intro hpos
    simp [h _ (List.getElem_mem hpos)]
  unfold trim
  rw [hdrop, List.rdropWhile_eq_self_iff]
  intro hne
  simp [h _ (List.getLast_mem hne)]

theorem trim_space_cons {s : List Char} : trim (' ' :: s) = trim s := by
  unfold trim
  rw [List.dropWhile_cons_of_pos (by decide)]

/-- A trimmed text does not end in white space. -/
theorem getLast?_ne_of_trim {s : List Char} (h : trim s = s) {c : Char}
    (hc : isWhitespace c = true) : s.getLast? ≠ some c := by
  intro hlast
  have hne : s ≠ [] := by
    rintro rfl
    cases hlast
  rw [List.getLast?_eq_some_getLast hne, Option.some.injEq] at hlast
  have htrim : (s.dropWhile isWhitespace).rdropWhile isWhitespace = s := h
  have hnot := List.rdropWhile_last_not isWhitespace (s.dropWhile isWhitespace) (by rwa [htrim])
  simp only [htrim, hlast] at hnot
  exact hnot hc

theorem splitOnce_append {sep : Char} {s : List Char} (h : sep ∉ s) (after : List Char) :
    splitOnce sep (s ++ sep :: after) = some (s, after) := by
  have hall : ∀ c ∈ s, decide (c ≠ sep) = true := by
    intro c hc
    rw [decide_eq_true_iff]
    rintro rfl
    exact h hc
  rw [splitOnce, List.dropWhile_append_of_pos hall, List.takeWhile_append_of_pos hall,
    List.dropWhile_cons_of_neg (by simp), List.takeWhile_cons_of_neg (by simp), List.append_nil]

theorem splitOnce_eq_some {sep : Char} {s before after : List Char}
    (h : splitOnce sep s = some (before, after)) :
    sep ∉ before ∧ (∀ c ∈ before, c ∈ s) ∧ ∀ c ∈ after, c ∈ s := by
  unfold splitOnce at h
  split at h
  · cases h
  · rename_i x rest hdrop
    cases h
    refine ⟨fun hmem => ?_, fun c hc => (List.takeWhile_sublist _).subset hc, fun c hc => ?_⟩
    · have := List.mem_takeWhile_imp hmem
      simp at this
    · refine (List.dropWhile_sublist fun c => decide (c ≠ sep)).subset ?_
      rw [hdrop]
      exact List.mem_cons_of_mem _ hc

private theorem linesFrom_append {line : List Char} (h : '\n' ∉ line) (start cs : List Char) :
    linesFrom start (line ++ cs) = linesFrom (line.reverse ++ start) cs := by
  induction line generalizing start with
  | nil => rfl
  | cons c line ih =>
    rw [List.mem_cons, not_or] at h
    rw [List.cons_append, linesFrom, if_neg (Ne.symm h.1), ih h.2, List.reverse_cons,
      List.append_assoc, List.singleton_append]

/-- Written lines are read back, unless one has a newline inside or a carriage return at its end. -/
theorem lines_flatMap {ls : List (List Char)}
    (h : ∀ line ∈ ls, '\n' ∉ line ∧ line.getLast? ≠ some '\r') :
    lines (ls.flatMap (· ++ ['\n'])) = ls := by
  induction ls with
  | nil => rfl
  | cons line ls ih =>
    rw [List.forall_mem_cons] at h
    rw [lines] at ih ⊢
    rw [List.flatMap_cons, List.append_assoc, linesFrom_append h.1.1, List.append_nil,
      List.singleton_append, linesFrom, if_pos rfl, List.reverse_reverse, stripReturn,
      if_neg h.1.2, ih h.2]

theorem newline_not_mem_lines {text line : List Char} (h : line ∈ lines text) : '\n' ∉ line := by
  suffices hfrom : ∀ start, '\n' ∉ start → line ∈ linesFrom start text → '\n' ∉ line from
    hfrom [] List.not_mem_nil h
  clear h
  induction text with
  | nil =>
    intro start hstart hmem
    cases start with
    | nil => cases hmem
    | cons c start =>
      rw [linesFrom, List.mem_singleton] at hmem
      · rw [hmem, List.mem_reverse]
        exact hstart
      · exact List.cons_ne_nil c start
  | cons c text ih =>
    intro start hstart hmem
    rw [linesFrom] at hmem
    split at hmem
    · rw [List.mem_cons] at hmem
      rcases hmem with rfl | hmem
      · unfold stripReturn
        split
        · exact fun hin => hstart (List.mem_reverse.mp (List.dropLast_subset _ hin))
        · simpa using hstart
      · exact ih [] List.not_mem_nil hmem
    · rename_i hc
      refine ih (c :: start) ?_ hmem
      rw [List.mem_cons, not_or]
      exact ⟨Ne.symm hc, hstart⟩

private theorem hexVal_hexChar : ∀ d < 16, hexVal (hexChar d) = some d := by decide

private theorem hexChar_mem : ∀ d < 16, hexChar d ∈ hexDigits := by decide

theorem hexDecode_hexEncode (bs : List UInt8) : hexDecode (hexEncode bs) = some bs := by
  induction bs with
  | nil => rfl
  | cons b bs ih =>
    have hb := b.toNat_lt
    have hencode : hexEncode (b :: bs) =
        hexChar (b.toNat / 16) :: hexChar (b.toNat % 16) :: hexEncode bs := rfl
    rw [hencode, hexDecode, hexVal_hexChar _ (by omega), hexVal_hexChar _ (by omega), ih]
    have hbyte : 16 * (b.toNat / 16) + b.toNat % 16 = b.toNat := by omega
    simp only [Option.bind_eq_bind, Option.bind_some, Option.pure_def, hbyte, UInt8.ofNat_toNat]

theorem mem_hexEncode {bs : List UInt8} {c : Char} (h : c ∈ hexEncode bs) : c ∈ hexDigits := by
  obtain ⟨b, -, hc⟩ := List.mem_flatMap.mp h
  have hb := b.toNat_lt
  simp only [List.mem_cons, List.not_mem_nil, or_false] at hc
  rcases hc with rfl | rfl <;> exact hexChar_mem _ (by omega)

theorem length_of_hexDecode {cs : List Char} {bs : List UInt8} (h : hexDecode cs = some bs) :
    cs.length = 2 * bs.length := by
  induction cs using hexDecode.induct generalizing bs with
  | case1 =>
    cases h
    rfl
  | case2 => cases h
  | case3 c c' cs ih =>
    simp only [hexDecode, Option.bind_eq_bind, Option.bind_eq_some_iff, Option.pure_def,
      Option.some.injEq] at h
    obtain ⟨d, -, d', -, bs', hbs', rfl⟩ := h
    have := ih hbs'
    simp only [List.length_cons]
    omega

theorem hexDigits_not_whitespace {c : Char} (h : c ∈ hexDigits) : isWhitespace c = false := by
  have hall : (hexDigits.all fun c => !isWhitespace c) = true := by decide
  simpa using List.all_eq_true.mp hall c h

def hexCrate : HexCrate where
  encode := hexEncode
  decode := hexDecode
  decode_encode := hexDecode_hexEncode
  mem_encode := fun _ _ => mem_hexEncode
  length_decode := fun _ _ => length_of_hexDecode

theorem asBytes_of_fromUtf8 {bs : List UInt8} {s : List Char} (h : fromUtf8 bs = some s) :
    asBytes s = bs := by
  obtain ⟨a, ha, rfl⟩ := Option.map_eq_some_iff.mp h
  have hencode := ByteArray.utf8Encode_get_utf8Decode? (b := bs.toByteArray) (h := by rw [ha]; rfl)
  simp only [ha, Option.get_some] at hencode
  exact List.toByteArray_inj.mp hencode

theorem fromUtf8_asBytes (s : List Char) : fromUtf8 (asBytes s) = some s := by
  have hdecode : (asBytes s).toByteArray.utf8Decode? = some s.toArray :=
    List.utf8Decode?_utf8Encode
  rw [fromUtf8, hdecode, Option.map_some]

private theorem utf8EncodeChar_ofNat :
    ∀ n < 0x80, String.utf8EncodeChar (Char.ofNat n) = [UInt8.ofNat n] := by
  decide +kernel

theorem fromUtf8_isSome {bs : List UInt8} (h : ∀ b ∈ bs, b < 0x80) : (fromUtf8 bs).isSome := by
  have hchars : asBytes (bs.map fun b => Char.ofNat b.toNat) = bs := by
    rw [asBytes, List.flatMap_map]
    have hbyte : ∀ b ∈ bs, String.utf8EncodeChar (Char.ofNat b.toNat) = [b] := by
      intro b hb
      rw [utf8EncodeChar_ofNat b.toNat (UInt8.lt_iff_toNat_lt.mp (h b hb)), UInt8.ofNat_toNat]
    rw [List.flatMap_congr hbyte, List.flatMap_singleton']
  rw [← hchars, fromUtf8_asBytes]
  rfl

theorem length_le_length_asBytes (s : List Char) : s.length ≤ (asBytes s).length := by
  induction s with
  | nil => exact Nat.le_refl 0
  | cons c s ih =>
    have hc : 0 < (String.utf8EncodeChar c).length := by
      rw [String.length_utf8EncodeChar]
      exact Char.utf8Size_pos c
    rw [asBytes, List.flatMap_cons, List.length_append, List.length_cons]
    rw [asBytes] at ih
    omega

end CtfChallenges.Framework.Text
