import CtfChallenges.Framework.CString
import Mathlib.Algebra.Order.Group.Nat
import Mathlib.Data.List.GetD
import Mathlib.Data.Vector.Basic
import Mathlib.Tactic.IntervalCases

/-!
# The Base64 of hashpop

`base64_encode` and `base64_decode` of `base64.c`. Both write into a block of a length that they
computed before; a write behind its end has no value. `size` is how many values a `size_t` has.
-/

namespace CtfChallenges.Hashpop.Base64
open Framework CString

def base64_table : List UInt8 :=
  ascii "ABCDEFGHIJKLMNOPQRSTUVWXYZabcdefghijklmnopqrstuvwxyz0123456789+/"

def newline : UInt8 := 0x0a
def equals : UInt8 := 0x3d

/-- `base64_table[i]` -/
def letter (i : UInt8) : UInt8 := base64_table.getD i.toNat 0

/-- The pointers `out` and `pos`. -/
abbrev Out := Mem × Nat

/-- `*pos++ = b` for one byte after the other. -/
def puts (out : Out) (bs : List UInt8) : Option Out :=
  bs.foldlM (fun out b => (store out.1 out.2 b).map fun mem => (mem, out.2 + 1)) out

/-! ## The encoder -/

/-- What is asked of `malloc`, in the arithmetic of `size_t`. -/
def encodedSize (size len : Nat) : Nat :=
  let olen := (len * 4 % size / 3 + 4) % size
  let olen := (olen + olen / 72) % size
  (olen + 1) % size

/-- The line feed at the end. -/
def endLine (line_len : Nat) (out : Out) : Option Out :=
  if line_len ≠ 0 then puts out [newline] else some out

/-- The loop, and what comes after it up to the terminator. -/
def encodeLoop : List UInt8 → Nat → Out → Option Out
  | a :: b :: c :: rest, line_len, out => do
    let out ← puts out [letter (a >>> 2), letter ((a &&& 0x03) <<< 4 ||| b >>> 4),
      letter ((b &&& 0x0f) <<< 2 ||| c >>> 6), letter (c &&& 0x3f)]
    let line_len := line_len + 4
    if 72 ≤ line_len then
      let out ← puts out [newline]
      encodeLoop rest 0 out
    else encodeLoop rest line_len out
  | [a, b], line_len, out => do
    let out ← puts out [letter (a >>> 2), letter ((a &&& 0x03) <<< 4 ||| b >>> 4),
      letter ((b &&& 0x0f) <<< 2), equals]
    endLine (line_len + 4) out
  | [a], line_len, out => do
    let out ← puts out [letter (a >>> 2), letter ((a &&& 0x03) <<< 4), equals, equals]
    endLine (line_len + 4) out
  | [], line_len, out => endLine line_len out

/-- The block and the length of the text in it. The inner value is missing where `NULL` is
returned. -/
def base64_encode (size : Nat) (malloc : (n : Nat) → Option (Vector UInt8 n)) (src : List UInt8) :
    Option (Option Out) :=
  let olen := encodedSize size src.length
  if olen < src.length then some none
  else
    match malloc olen with
    | none => some none
    | some block => do
      let out ← encodeLoop src 0 (block.toList, 0)
      let mem ← store out.1 out.2 0
      return some (mem, out.2)

/-! ## The decoder -/

/-- The table of values, with `0x80` for all other characters. -/
def dtable : List UInt8 :=
  let dtable := List.replicate 256 0x80
  let dtable := (List.range 64).foldl (fun dtable i =>
    dtable.set (base64_table.getD i 0).toNat (UInt8.ofNat i)) dtable
  dtable.set equals.toNat 0

/-- `dtable[c]` -/
def lookUp (c : UInt8) : UInt8 := dtable.getD c.toNat 0

/-- The second loop, with the values of the block so far. -/
def decodeLoop : List UInt8 → List UInt8 → Nat → Out → Option (Option Out)
  | [], _, _, out => some (some out)
  | c :: src, block, pad, out =>
    let tmp := lookUp c
    if tmp = 0x80 then decodeLoop src block pad out
    else
      let pad := if c = equals then pad + 1 else pad
      match block with
      | [b0, b1, b2] => do
        let out ← puts out [b0 <<< 2 ||| b1 >>> 4, b1 <<< 4 ||| b2 >>> 2, b2 <<< 6 ||| tmp]
        if pad ≠ 0 then
          if pad = 1 then some (some (out.1, out.2 - 1))
          else if pad = 2 then some (some (out.1, out.2 - 2))
          -- invalid padding
          else some none
        else decodeLoop src [] pad out
      | block => decodeLoop src (block ++ [tmp]) pad out

/-- The block and the number of bytes in it. -/
def base64_decode (malloc : (n : Nat) → Option (Vector UInt8 n)) (src : List UInt8) :
    Option (Option Out) :=
  let count := src.countP fun c => lookUp c ≠ 0x80
  if count = 0 ∨ count % 4 ≠ 0 then some none
  else
    match malloc (count / 4 * 3) with
    | none => some none
    | some block => decodeLoop src [] 0 (block.toList, 0)

/-! ## The texts -/

/-- The text that the encoder writes behind `line_len` characters of a line. -/
def lines : List UInt8 → Nat → List UInt8
  | a :: b :: c :: rest, line_len =>
    letter (a >>> 2) :: letter ((a &&& 0x03) <<< 4 ||| b >>> 4) ::
      letter ((b &&& 0x0f) <<< 2 ||| c >>> 6) :: letter (c &&& 0x3f) ::
      if 72 ≤ line_len + 4 then newline :: lines rest 0 else lines rest (line_len + 4)
  | [a, b], _ => [letter (a >>> 2), letter ((a &&& 0x03) <<< 4 ||| b >>> 4),
      letter ((b &&& 0x0f) <<< 2), equals, newline]
  | [a], _ => [letter (a >>> 2), letter ((a &&& 0x03) <<< 4), equals, equals, newline]
  | [], line_len => if line_len ≠ 0 then [newline] else []

/-- The characters that the decoder does not pass over. -/
def inTable (c : UInt8) : Bool := lookUp c ≠ 0x80

/-! ## Writing -/

theorem puts_append (out : Out) (bs cs : List UInt8) :
    puts out (bs ++ cs) = (puts out bs).bind fun out => puts out cs := List.foldlM_append

/-- Writes that have room lay the bytes down one after the other. -/
theorem puts_eq {mem : Mem} {pos : Nat} {bs : List UInt8} (h : pos + bs.length ≤ mem.length) :
    puts (mem, pos) bs = some (overwrite mem pos bs, pos + bs.length) := by
  induction bs generalizing mem pos with
  | nil => simp [puts, overwrite]
  | cons b bs ih =>
    rw [List.length_cons] at h
    have hstore := store_eq (show pos < mem.length by omega) b
    have hlength : (overwrite mem pos [b]).length = mem.length := by
      rw [length_overwrite (by rw [List.length_singleton]; omega)]
    have hroom : pos + 1 + bs.length ≤ (overwrite mem pos [b]).length := by omega
    have hrest := ih hroom
    rw [puts, List.foldlM_cons, hstore]
    simp only [Option.map_some, Option.bind_eq_bind, Option.bind_some]
    rw [← puts, hrest, List.length_cons, show b :: bs = [b] ++ bs from rfl,
      overwrite_append (by omega), show pos + 1 + bs.length = pos + (bs.length + 1) by omega]
    rfl

/-! ## The encoder's text -/

theorem encodeLoop_eq (src : List UInt8) (line_len : Nat) (out : Out) :
    encodeLoop src line_len out = puts out (lines src line_len) := by
  have hfour : ∀ (out : Out) (b0 b1 b2 b3 : UInt8) (bs : List UInt8),
      puts out (b0 :: b1 :: b2 :: b3 :: bs) =
        (puts out [b0, b1, b2, b3]).bind fun out => puts out bs :=
    fun out b0 b1 b2 b3 bs => puts_append out [b0, b1, b2, b3] bs
  have hnewline : ∀ (out : Out) (bs : List UInt8),
      puts out (newline :: bs) = (puts out [newline]).bind fun out => puts out bs :=
    fun out bs => puts_append out [newline] bs
  induction src, line_len using lines.induct generalizing out with
  | case1 a b c rest line_len ihnew ih =>
    symm
    rw [lines, hfour, encodeLoop]
    by_cases hfull : 72 ≤ line_len + 4
    · simp only [if_pos hfull, hnewline _ (lines _ _), ihnew, Option.bind_eq_bind]
    · simp only [if_neg hfull, ih, Option.bind_eq_bind]
  | case2 a b line_len =>
    symm
    rw [lines, hfour, encodeLoop]
    simp [endLine]
  | case3 a line_len =>
    symm
    rw [lines, hfour, encodeLoop]
    simp [endLine]
  | case4 line_len hne => rw [encodeLoop, lines, endLine, if_pos hne, if_pos hne]
  | case5 line_len hne =>
    rw [encodeLoop, lines, endLine, if_neg hne, if_neg hne, puts, List.foldlM_nil, Option.pure_def]

/-- Four characters for each started group, and a line feed for each started line. -/
theorem length_lines_le (src : List UInt8) {line_len : Nat} (h : line_len < 72) :
    (lines src line_len).length ≤
      4 * ((src.length + 2) / 3) + (line_len + 4 * ((src.length + 2) / 3) + 71) / 72 := by
  induction src, line_len using lines.induct with
  | case1 a b c rest line_len ihnew ih =>
    rw [lines]
    by_cases hfull : 72 ≤ line_len + 4
    · have hrest := ihnew (by omega)
      simp only [if_pos hfull, List.length_cons]
      omega
    · have hrest := ih (by omega)
      simp only [if_neg hfull, List.length_cons]
      omega
  | case2 a b line_len =>
    simp only [lines, List.length_cons, List.length_nil]
    omega
  | case3 a line_len =>
    simp only [lines, List.length_cons, List.length_nil]
    omega
  | case4 line_len hne =>
    simp only [lines, if_pos hne, List.length_cons, List.length_nil]
    omega
  | case5 line_len hne => simp [lines, hne]

/-- Either the request to `malloc` wraps around so far that the overflow is noticed, or it has room
for the text and its terminator. -/
theorem encodedSize_enough {size : Nat} (hsize : 4096 ≤ size) {src : List UInt8}
    (hlt : src.length < size) (h : ¬ encodedSize size src.length < src.length) :
    (lines src 0).length < encodedSize size src.length := by
  have htext := length_lines_le src (show 0 < 72 by decide)
  have hdiv := Nat.div_add_mod (src.length * 4) size
  have hmod := Nat.mod_lt (src.length * 4) (show 0 < size by omega)
  have hquot : src.length * 4 / size < 4 := by
    rw [Nat.div_lt_iff_lt_mul (by omega)]
    omega
  simp only [encodedSize] at h ⊢
  rw [Nat.mod_eq_of_lt (show src.length * 4 % size / 3 + 4 < size by omega)] at h ⊢
  rw [Nat.mod_eq_of_lt (show src.length * 4 % size / 3 + 4 +
    (src.length * 4 % size / 3 + 4) / 72 < size by omega)] at h ⊢
  rw [Nat.mod_eq_of_lt (show src.length * 4 % size / 3 + 4 +
    (src.length * 4 % size / 3 + 4) / 72 + 1 < size by omega)] at h ⊢
  -- every time the product wraps around takes more from the block than the slack can give back
  generalize src.length * 4 / size = q at hdiv hquot
  interval_cases q <;> omega

/-- The encoder stays in its block, and leaves its text and a terminator there. -/
theorem base64_encode_eq {size : Nat} (hsize : 4096 ≤ size)
    (malloc : (n : Nat) → Option (Vector UInt8 n)) {src : List UInt8} (hlt : src.length < size) :
    ∃ r, base64_encode size malloc src = some r ∧
      (r = none ↔ encodedSize size src.length < src.length ∨
        malloc (encodedSize size src.length) = none) ∧
      ∀ mem pos, r = some (mem, pos) →
        pos = (lines src 0).length ∧ mem.take (pos + 1) = lines src 0 ++ [0] := by
  unfold base64_encode
  by_cases hwrap : encodedSize size src.length < src.length
  · exact ⟨none, by simp [hwrap], by simp [hwrap], by simp⟩
  have hroom := encodedSize_enough hsize hlt hwrap
  cases hblock : malloc (encodedSize size src.length) with
  | none => exact ⟨none, by simp [hwrap, hblock], by simp, by simp⟩
  | some block =>
    have hlength : block.toList.length = encodedSize size src.length := Vector.length_toList
    have hfits : 0 + (lines src 0).length ≤ block.toList.length := by omega
    have hputs := puts_eq hfits
    have hwritten : (overwrite block.toList 0 (lines src 0)).length = block.toList.length :=
      length_overwrite (by omega)
    have hlast : 0 + (lines src 0).length < (overwrite block.toList 0 (lines src 0)).length := by
      omega
    have hstore := store_eq hlast 0
    rw [← overwrite_append (Nat.zero_le _)] at hstore
    rw [Nat.zero_add] at hputs hstore
    refine ⟨some (overwrite block.toList 0 (lines src 0 ++ [0]), (lines src 0).length),
      by simp [hwrap, hblock, encodeLoop_eq, hputs, hstore], by simpa using hwrap, ?_⟩
    intro mem pos h
    rw [Option.some.injEq, Prod.mk.injEq] at h
    obtain ⟨rfl, rfl⟩ := h
    simp [overwrite, List.take_append]

/-! ## The decoder and the characters that it passes over -/

theorem decodeLoop_filter (src block : List UInt8) (pad : Nat) (out : Out) :
    decodeLoop src block pad out = decodeLoop (src.filter inTable) block pad out := by
  induction src generalizing block pad out with
  | nil => rfl
  | cons c src ih =>
    by_cases hc : lookUp c = 0x80
    · rw [List.filter_cons_of_neg (by simp [inTable, hc]), decodeLoop]
      simp only [if_pos hc]
      exact ih block pad out
    · rw [List.filter_cons_of_pos (by simp [inTable, hc]), decodeLoop, decodeLoop]
      simp only [ih]

/-- The decoder stays in a block with three bytes for each four characters. -/
theorem decodeLoop_isSome (src : List UInt8) {block : List UInt8} {pad : Nat} {mem : Mem} {pos : Nat}
    (hblock : block.length ≤ 3)
    (hroom : pos + 3 * ((block.length + src.countP inTable) / 4) ≤ mem.length) :
    (decodeLoop src block pad (mem, pos)).isSome := by
  induction src generalizing block pad mem pos with
  | nil => rfl
  | cons c src ih =>
    rw [decodeLoop]
    by_cases hc : lookUp c = 0x80
    · rw [List.countP_cons_of_neg (by simp [inTable, hc])] at hroom
      simpa [hc] using ih hblock hroom
    rw [List.countP_cons_of_pos (by simp [inTable, hc])] at hroom
    simp only [if_neg hc]
    generalize (if c = equals then pad + 1 else pad) = pad'
    split
    · rename_i b0 b1 b2
      simp only [List.length_cons, List.length_nil] at hroom
      rw [puts_eq (by simp only [List.length_cons, List.length_nil]; omega)]
      simp only [Option.bind_eq_bind, Option.bind_some]
      split_ifs
      · rfl
      · rfl
      · rfl
      · apply ih (by simp)
        rw [length_overwrite (by simp only [List.length_cons, List.length_nil]; omega)]
        simp only [List.length_cons, List.length_nil]
        omega
    · rename_i hshort
      have hlt : block.length < 3 := by
        match block, hblock, hshort with
        | [], _, _ => simp
        | [_], _, _ => simp
        | [_, _], _, _ => simp
        | [b0, b1, b2], _, hshort => exact absurd rfl (hshort b0 b1 b2)
      apply ih
      · rw [List.length_append, List.length_singleton]
        omega
      · rw [List.length_append, List.length_singleton]
        have hsum : block.length + 1 + src.countP inTable =
          block.length + (src.countP inTable + 1) := by omega
        rwa [hsum]

/-! ## Back and forth -/

private theorem sextet_of_forall_lt {P : UInt8 → Prop} (h : ∀ i < 64, P (UInt8.ofNat i))
    {c : UInt8} (hc : c.toNat < 64) : P c := by
  rw [← UInt8.ofNat_toNat (x := c)]
  exact h c.toNat hc

theorem lookUp_letter {i : UInt8} (hi : i.toNat < 64) : lookUp (letter i) = i :=
  sextet_of_forall_lt (P := fun i => lookUp (letter i) = i) (by decide +kernel) hi

theorem letter_ne_equals {i : UInt8} (hi : i.toNat < 64) : letter i ≠ equals :=
  sextet_of_forall_lt (P := fun i => letter i ≠ equals) (by decide +kernel) hi

theorem lookUp_equals : lookUp equals = 0 := by decide +kernel

theorem inTable_newline : inTable newline = false := by decide +kernel

theorem inTable_equals : inTable equals = true := by decide +kernel

theorem inTable_letter {i : UInt8} (hi : i.toNat < 64) : inTable (letter i) = true := by
  simp only [inTable, lookUp_letter hi, ne_eq, decide_eq_true_eq]
  intro h
  rw [h] at hi
  exact absurd hi (by decide)

/-- The four sextets of three bytes. -/
def sextets (a b c : UInt8) : UInt8 × UInt8 × UInt8 × UInt8 :=
  (a >>> 2, (a &&& 0x03) <<< 4 ||| b >>> 4, (b &&& 0x0f) <<< 2 ||| c >>> 6, c &&& 0x3f)

private theorem masked_lt {v : UInt8} (h : v &&& 0x3f = v) : v.toNat < 64 := by
  rw [← h, UInt8.toNat_and]
  exact Nat.lt_of_le_of_lt Nat.and_le_right (by decide)

theorem sextets_lt (a b c : UInt8) : (sextets a b c).1.toNat < 64 ∧
    (sextets a b c).2.1.toNat < 64 ∧ (sextets a b c).2.2.1.toNat < 64 ∧
    (sextets a b c).2.2.2.toNat < 64 := by
  refine ⟨masked_lt ?_, masked_lt ?_, masked_lt ?_, masked_lt ?_⟩ <;>
  · apply UInt8.toBitVec_inj.mp
    apply BitVec.eq_of_getLsbD_eq
    intro i hi
    interval_cases i <;> simp [sextets]

/-- The bytes that the decoder makes of four sextets. -/
theorem bytes_sextets (a b c : UInt8) :
    (sextets a b c).1 <<< 2 ||| (sextets a b c).2.1 >>> 4 = a ∧
    (sextets a b c).2.1 <<< 4 ||| (sextets a b c).2.2.1 >>> 2 = b ∧
    (sextets a b c).2.2.1 <<< 6 ||| (sextets a b c).2.2.2 = c := by
  refine ⟨?_, ?_, ?_⟩ <;>
  · apply UInt8.toBitVec_inj.mp
    apply BitVec.eq_of_getLsbD_eq
    intro i hi
    interval_cases i <;> simp [sextets]

/-- The text without its line feeds. -/
def quads : List UInt8 → List UInt8
  | a :: b :: c :: rest =>
    letter (sextets a b c).1 :: letter (sextets a b c).2.1 :: letter (sextets a b c).2.2.1 ::
      letter (sextets a b c).2.2.2 :: quads rest
  | [a, b] => [letter (sextets a b 0).1, letter (sextets a b 0).2.1, letter (sextets a b 0).2.2.1,
      equals]
  | [a] => [letter (sextets a 0 0).1, letter (sextets a 0 0).2.1, equals, equals]
  | [] => []

theorem filter_lines (src : List UInt8) (line_len : Nat) :
    (lines src line_len).filter inTable = quads src := by
  induction src, line_len using lines.induct with
  | case1 a b c rest line_len ihnew ih =>
    obtain ⟨h0, h1, h2, h3⟩ := sextets_lt a b c
    rw [lines, quads]
    have hletters := And.intro (inTable_letter h0) (And.intro (inTable_letter h1)
      (And.intro (inTable_letter h2) (inTable_letter h3)))
    simp only [sextets] at hletters ⊢
    simp only [List.filter_cons, hletters, if_true]
    by_cases hfull : 72 ≤ line_len + 4
    · simp [hfull, inTable_newline, ihnew]
    · simp [hfull, ih]
  | case2 a b line_len =>
    obtain ⟨h0, h1, h2, -⟩ := sextets_lt a b 0
    have hletters := And.intro (inTable_letter h0) (And.intro (inTable_letter h1)
      (inTable_letter h2))
    simp only [sextets, UInt8.zero_shiftRight, UInt8.or_zero] at hletters
    simp [lines, quads, sextets, hletters, inTable_equals, inTable_newline]
  | case3 a line_len =>
    obtain ⟨h0, h1, -, -⟩ := sextets_lt a 0 0
    have hletters := And.intro (inTable_letter h0) (inTable_letter h1)
    simp only [sextets, UInt8.zero_shiftRight, UInt8.or_zero] at hletters
    simp [lines, quads, sextets, hletters, inTable_equals, inTable_newline]
  | case4 line_len hne => simp [lines, quads, hne, inTable_newline]
  | case5 line_len hne => simp [lines, quads, hne]

/-- The text consists of line feeds and of characters that the decoder knows. -/
theorem mem_lines {src : List UInt8} {line_len : Nat} {c : UInt8} (h : c ∈ lines src line_len) :
    c = newline ∨ inTable c = true := by
  by_cases hc : inTable c
  · exact .inr hc
  left
  have hne : ∀ {v : UInt8}, v.toNat < 64 → c ≠ letter v := fun hv heq => hc (heq ▸ inTable_letter hv)
  have hequals : c ≠ equals := fun heq => hc (heq ▸ inTable_equals)
  induction src, line_len using lines.induct with
  | case1 a b d rest line_len ihnew ih =>
    obtain ⟨h0, h1, h2, h3⟩ := sextets_lt a b d
    have hletters := And.intro (hne h0) (And.intro (hne h1) (And.intro (hne h2) (hne h3)))
    simp only [sextets] at hletters
    simp only [lines, List.mem_cons, hletters, false_or] at h
    split at h
    · rw [List.mem_cons] at h
      exact h.elim id ihnew
    · exact ih h
  | case2 a b line_len =>
    obtain ⟨h0, h1, h2, -⟩ := sextets_lt a b 0
    have hletters := And.intro (hne h0) (And.intro (hne h1) (hne h2))
    simp only [sextets, UInt8.zero_shiftRight, UInt8.or_zero] at hletters
    simpa [lines, hletters, hequals] using h
  | case3 a line_len =>
    obtain ⟨h0, h1, -, -⟩ := sextets_lt a 0 0
    have hletters := And.intro (hne h0) (hne h1)
    simp only [sextets, UInt8.zero_shiftRight, UInt8.or_zero] at hletters
    simpa [lines, hletters, hequals] using h
  | case4 line_len hne => simpa [lines, hne] using h
  | case5 line_len hne => simp [lines, hne] at h

theorem nul_not_mem_lines (src : List UInt8) (line_len : Nat) : 0 ∉ lines src line_len := by
  intro h
  rcases mem_lines h with heq | heq
  · cases heq
  · exact absurd heq (by decide +kernel)

theorem length_quads (src : List UInt8) : (quads src).length = 4 * ((src.length + 2) / 3) := by
  induction src using quads.induct with
  | case1 a b c rest ih =>
    simp only [quads, List.length_cons, ih]
    omega
  | case2 => simp [quads]
  | case3 => simp [quads]
  | case4 => simp [quads]

private theorem sextet_ne {v : UInt8} (hv : v.toNat < 64) : v ≠ 0x80 := by
  intro h
  rw [h] at hv
  exact absurd hv (by decide)

theorem decodeLoop_letters {v0 v1 v2 v3 : UInt8} (h0 : v0.toNat < 64) (h1 : v1.toNat < 64)
    (h2 : v2.toNat < 64) (h3 : v3.toNat < 64) (src : List UInt8) (out : Out) :
    decodeLoop (letter v0 :: letter v1 :: letter v2 :: letter v3 :: src) [] 0 out =
      (puts out [v0 <<< 2 ||| v1 >>> 4, v1 <<< 4 ||| v2 >>> 2, v2 <<< 6 ||| v3]).bind
        fun out => decodeLoop src [] 0 out := by
  simp [decodeLoop, lookUp_letter, letter_ne_equals, sextet_ne, h0, h1, h2, h3]

theorem decodeLoop_one_equals {v0 v1 v2 : UInt8} (h0 : v0.toNat < 64) (h1 : v1.toNat < 64)
    (h2 : v2.toNat < 64) (src : List UInt8) (out : Out) :
    decodeLoop (letter v0 :: letter v1 :: letter v2 :: equals :: src) [] 0 out =
      (puts out [v0 <<< 2 ||| v1 >>> 4, v1 <<< 4 ||| v2 >>> 2, v2 <<< 6]).bind
        fun out => some (some (out.1, out.2 - 1)) := by
  simp [decodeLoop, lookUp_letter, lookUp_equals, letter_ne_equals, sextet_ne, h0, h1, h2]

theorem decodeLoop_two_equals {v0 v1 : UInt8} (h0 : v0.toNat < 64) (h1 : v1.toNat < 64)
    (src : List UInt8) (out : Out) :
    decodeLoop (letter v0 :: letter v1 :: equals :: equals :: src) [] 0 out =
      (puts out [v0 <<< 2 ||| v1 >>> 4, v1 <<< 4, 0]).bind
        fun out => some (some (out.1, out.2 - 2)) := by
  simp [decodeLoop, lookUp_letter, lookUp_equals, letter_ne_equals, sextet_ne, h0, h1]

theorem take_overwritten {mem : Mem} {pos k : Nat} {bs : List UInt8} (hk : k ≤ bs.length)
    (hroom : pos + bs.length ≤ mem.length) :
    (overwrite mem pos bs).take (pos + k) = mem.take pos ++ bs.take k := by
  have hpos : (mem.take pos).length = pos := by
    rw [List.length_take]
    omega
  rw [overwrite, List.append_assoc, List.take_append, hpos, Nat.add_sub_cancel_left,
    List.take_append_of_le_length hk, List.take_of_length_le (by omega)]

/-- The bytes come back, and what lies before them in the block stays. -/
theorem decodeLoop_quads (src : List UInt8) {mem : Mem} {pos : Nat}
    (hroom : pos + 3 * ((src.length + 2) / 3) ≤ mem.length) :
    ∃ mem', decodeLoop (quads src) [] 0 (mem, pos) = some (some (mem', pos + src.length)) ∧
      mem'.take (pos + src.length) = mem.take pos ++ src := by
  induction src using quads.induct generalizing mem pos with
  | case1 a b c rest ih =>
    simp only [List.length_cons] at hroom ⊢
    obtain ⟨h0, h1, h2, h3⟩ := sextets_lt a b c
    obtain ⟨ha, hb, hc⟩ := bytes_sextets a b c
    have hthree : pos + [a, b, c].length ≤ mem.length := by
      simp only [List.length_cons, List.length_nil]
      omega
    have hlength := length_overwrite hthree
    have hrest : pos + 3 + 3 * ((rest.length + 2) / 3) ≤ (overwrite mem pos [a, b, c]).length := by
      omega
    obtain ⟨mem', hrun, htake⟩ := ih hrest
    have hsum : pos + (rest.length + 1 + 1 + 1) = pos + 3 + rest.length := by omega
    refine ⟨mem', ?_, ?_⟩
    · rw [quads, decodeLoop_letters h0 h1 h2 h3, ha, hb, hc, puts_eq hthree, Option.bind_some, hsum]
      exact hrun
    · rw [hsum, htake, take_overwritten (k := 3) le_rfl hthree]
      simp
  | case2 a b =>
    simp only [List.length_cons, List.length_nil] at hroom
    obtain ⟨h0, h1, h2, -⟩ := sextets_lt a b 0
    obtain ⟨ha, hb, -⟩ := bytes_sextets a b 0
    have hthree : pos + [a, b, (sextets a b 0).2.2.1 <<< 6].length ≤ mem.length := by
      simp only [List.length_cons, List.length_nil]
      omega
    refine ⟨overwrite mem pos [a, b, (sextets a b 0).2.2.1 <<< 6], ?_, ?_⟩
    · rw [quads, decodeLoop_one_equals h0 h1 h2, ha, hb, puts_eq hthree, Option.bind_some]
      rfl
    · exact take_overwritten (k := 2) (by simp) hthree
  | case3 a =>
    simp only [List.length_cons, List.length_nil] at hroom
    obtain ⟨h0, h1, -, -⟩ := sextets_lt a 0 0
    obtain ⟨ha, -, -⟩ := bytes_sextets a 0 0
    have hthree : pos + [a, (sextets a 0 0).2.1 <<< 4, 0].length ≤ mem.length := by
      simp only [List.length_cons, List.length_nil]
      omega
    refine ⟨overwrite mem pos [a, (sextets a 0 0).2.1 <<< 4, 0], ?_, ?_⟩
    · rw [quads, decodeLoop_two_equals h0 h1, ha, puts_eq hthree, Option.bind_some]
      rfl
    · exact take_overwritten (k := 1) (by simp) hthree
  | case4 => exact ⟨mem, by simp [quads, decodeLoop]⟩

/-! ## Results -/

/-- Neither function writes behind its block, however the length of the text wraps around. Unless it
has wrapped or there is no memory, the encoder leaves its text there with a terminator. -/
theorem base64_stays_in_block {size : Nat} (hsize : 4096 ≤ size)
    (malloc : (n : Nat) → Option (Vector UInt8 n)) {src : List UInt8} (hlt : src.length < size) :
    (∃ r, base64_encode size malloc src = some r ∧
      (r = none ↔ encodedSize size src.length < src.length ∨
        malloc (encodedSize size src.length) = none) ∧
      ∀ mem pos, r = some (mem, pos) →
        pos = (lines src 0).length ∧ mem.take (pos + 1) = lines src 0 ++ [0]) ∧
    ∃ r, base64_decode malloc src = some r := by
  constructor
  · exact base64_encode_eq hsize malloc hlt
  · apply Option.isSome_iff_exists.mp
    unfold base64_decode
    by_cases hcount : (src.countP fun c => lookUp c ≠ 0x80) = 0 ∨
        (src.countP fun c => lookUp c ≠ 0x80) % 4 ≠ 0
    · simp only [if_pos hcount, Option.isSome_some]
    simp only [if_neg hcount]
    split
    · rfl
    · rename_i block _
      apply decodeLoop_isSome src (by simp)
      rw [Vector.length_toList, show inTable = fun c => decide (lookUp c ≠ 0x80) from rfl]
      simp only [List.length_nil, Nat.zero_add]
      omega

/-- On a machine with 32 bits, the text `Zg==` with its newline. -/
theorem base64_stays_in_block_f : ∃ mem,
    base64_encode 4294967296 (fun n => some (Vector.replicate n 0)) [0x66] = some (some (mem, 5)) ∧
      mem.take 6 = [0x5a, 0x67, 0x3d, 0x3d, 0x0a, 0] := by
  obtain ⟨⟨r, hr, hnone, hout⟩, -⟩ := @base64_stays_in_block 4294967296 (by decide)
    (fun n => some (Vector.replicate n 0)) [0x66] (by decide)
  have hlines : lines [0x66] 0 = [0x5a, 0x67, 0x3d, 0x3d, 0x0a] := by decide +kernel
  cases r with
  | none => exact absurd (hnone.mp rfl) (by decide)
  | some out =>
    obtain ⟨mem, pos⟩ := out
    obtain ⟨rfl, htext⟩ := hout mem pos rfl
    rw [hlines] at hr htext
    exact ⟨mem, hr, htext⟩

/-- What the encoder writes for some bytes is decoded to these, also with other characters in it
that are not in the table. -/
theorem base64_decode_encode {size : Nat} (hsize : 4096 ≤ size)
    {malloc : (n : Nat) → Option (Vector UInt8 n)} {src : List UInt8} (hlt : src.length < size)
    (hne : src ≠ []) {mem : Mem} {pos : Nat}
    (h : base64_encode size malloc src = some (some (mem, pos))) {text : List UInt8}
    (htext : text.filter inTable = (mem.take pos).filter inTable) {mallocD}
    (hmalloc : ∀ n, (mallocD n : Option (Vector UInt8 n)).isSome) :
    ∃ mem', base64_decode mallocD text = some (some (mem', src.length)) ∧
      mem'.take src.length = src := by
  obtain ⟨r, hr, -, hout⟩ := base64_encode_eq hsize malloc hlt
  rw [hr, Option.some.injEq] at h
  obtain ⟨rfl, hwritten⟩ := hout mem pos h
  have hquads : text.filter inTable = quads src := by
    rw [htext, ← filter_lines src 0]
    have htake := congrArg (List.take (lines src 0).length) hwritten
    rw [List.take_take, Nat.min_eq_left (Nat.le_succ _), List.take_left] at htake
    rw [htake]
  have hpos := List.length_pos_iff.mpr hne
  have hcount : (text.countP fun c => lookUp c ≠ 0x80) = 4 * ((src.length + 2) / 3) := by
    rw [← length_quads, ← hquads, ← List.countP_eq_length_filter]
    rfl
  obtain ⟨block, hblock⟩ := Option.isSome_iff_exists.mp
    (hmalloc ((text.countP fun c => lookUp c ≠ 0x80) / 4 * 3))
  have hlength : block.toList.length = (text.countP fun c => lookUp c ≠ 0x80) / 4 * 3 :=
    Vector.length_toList
  have hroom : 0 + 3 * ((src.length + 2) / 3) ≤ block.toList.length := by omega
  obtain ⟨mem', hrun, htake⟩ := decodeLoop_quads src hroom
  refine ⟨mem', ?_, by simpa using htake⟩
  unfold base64_decode
  simp only [hblock]
  rw [if_neg (by omega), decodeLoop_filter, hquads, hrun, Nat.zero_add]

/-- `Zm9v` is written for `foo`, and decoded with a blank in it. -/
theorem base64_decode_encode_foo :
    ∃ mem', base64_decode (fun n => some (Vector.replicate n 0)) [0x5a, 0x6d, 0x20, 0x39, 0x76] =
        some (some (mem', 3)) ∧
      mem'.take 3 = [0x66, 0x6f, 0x6f] := by
  have hencode : base64_encode 4294967296 (fun n => some (Vector.replicate n 0)) [0x66, 0x6f, 0x6f] =
      some (some ([0x5a, 0x6d, 0x39, 0x76, 0x0a, 0, 0, 0, 0], 5)) := by decide +kernel
  exact base64_decode_encode (by decide) (by decide) (by decide) hencode (by decide +kernel)
    fun _ => rfl

end CtfChallenges.Hashpop.Base64
