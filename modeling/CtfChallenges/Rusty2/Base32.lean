import CtfChallenges.Framework.Blocks
import CtfChallenges.Framework.Run
import Mathlib.Data.List.GetD
import Mathlib.Data.List.TakeWhile
import Mathlib.Tactic.IntervalCases

/-!
# Base32 of rusty2

`encode` and `decode` of `main.rs`. A `&str` is the list of its bytes, and a length is any
natural number.
-/

namespace CtfChallenges.Rusty2
open Framework

/-- `0123456789ABCDEFGHJKMNPQRSTVWXYZ`. -/
def ALPHABET : List UInt8 :=
  [0x30, 0x31, 0x32, 0x33, 0x34, 0x35, 0x36, 0x37, 0x38, 0x39, 0x41, 0x42, 0x43, 0x44, 0x45, 0x46,
    0x47, 0x48, 0x4a, 0x4b, 0x4d, 0x4e, 0x50, 0x51, 0x52, 0x53, 0x54, 0x56, 0x57, 0x58, 0x59, 0x5a]

def INV_ALPHABET : List Int :=
  [0, 1, 2, 3, 4, 5, 6, 7, 8, 9, -1, -1, -1, -1, -1, -1, -1, 10, 11, 12, 13, 14, 15, 16, 17, 1, 18,
    19, 1, 20, 21, 0, 22, 23, 24, 25, 26, -1, 27, 28, 29, 30, 31]

/-- The indices of a chunk of five bytes. -/
def indices (buf : Nat → UInt8) : List UInt8 :=
  [(buf 0 &&& 0xF8) >>> 3,
    ((buf 0 &&& 0x07) <<< 2) ||| ((buf 1 &&& 0xC0) >>> 6),
    (buf 1 &&& 0x3E) >>> 1,
    ((buf 1 &&& 0x01) <<< 4) ||| ((buf 2 &&& 0xF0) >>> 4),
    ((buf 2 &&& 0x0F) <<< 1) ||| (buf 3 >>> 7),
    (buf 3 &&& 0x7C) >>> 2,
    ((buf 3 &&& 0x03) <<< 3) ||| ((buf 4 &&& 0xE0) >>> 5),
    buf 4 &&& 0x1F]

def letter (index : UInt8) : UInt8 := ALPHABET.getD index.toNat 0

/-- The body of the loop, where `buf` is the chunk and zeros behind it. -/
def encodeChunk (chunk : List UInt8) : List UInt8 := (indices fun i => chunk.getD i 0).map letter

/-- `encode` with its `padding` of `false`. -/
def encode (data : List UInt8) : List UInt8 :=
  let ret := (Blocks.chunks 5 data).flatMap encodeChunk
  if data.length % 5 ≠ 0 then
    let num_extra := 8 - (data.length % 5 * 8 + 4) / 5
    ret.take (ret.length - num_extra)
  else ret

def toAsciiUppercase (c : UInt8) : UInt8 := if 0x61 ≤ c ∧ c ≤ 0x7a then c - 0x20 else c

/-- The value of a character, with no value where `decode` returns `None`. -/
def lookUp (c : UInt8) : Option UInt8 :=
  match INV_ALPHABET[(toAsciiUppercase c - 0x30).toNat]? with
  | none => none
  | some value => if value = -1 then none else some (UInt8.ofInt value)

/-- The five bytes of a chunk of eight values. -/
def fiveBytes (buf : Nat → UInt8) : List UInt8 :=
  [(buf 0 <<< 3) ||| (buf 1 >>> 2),
    (buf 1 <<< 6) ||| (buf 2 <<< 1) ||| (buf 3 >>> 4),
    (buf 3 <<< 4) ||| (buf 4 >>> 1),
    (buf 4 <<< 7) ||| (buf 5 <<< 2) ||| (buf 6 >>> 3),
    (buf 6 <<< 5) ||| buf 7]

def decodeChunk (chunk : List UInt8) : Option (List UInt8) := do
  let buf ← chunk.mapM lookUp
  return fiveBytes fun i => buf.getD i 0

/-- The length without the padding: at most six characters, and all `=`. -/
def unpaddedLength (data : List UInt8) : Nat :=
  data.length - ((data.reverse.take (min 6 data.length)).takeWhile (· = 0x3d)).length

def decode (data : List UInt8) : Option (List UInt8) := do
  if ¬data.all (· < 0x80) then none
  let output_length := unpaddedLength data * 5 / 8
  let ret ← (Blocks.chunks 8 data).mapM decodeChunk
  return ret.flatten.take output_length

theorem indices_masked (buf : Nat → UInt8) : ∀ index ∈ indices buf, index &&& 0x1F = index := by
  simp only [indices, List.forall_mem_cons]
  refine ⟨?_, ?_, ?_, ?_, ?_, ?_, ?_, ?_, by simp⟩ <;>
  · apply UInt8.toBitVec_inj.mp
    apply BitVec.eq_of_getLsbD_eq
    intro i hi
    interval_cases i <;> simp

theorem indices_beyond (buf : Nat → UInt8) {i : Nat} (hi : 8 ≤ i) : (indices buf).getD i 0 = 0 :=
  List.getD_eq_default _ _ hi

theorem fiveBytes_indices (buf : Nat → UInt8) :
    fiveBytes (fun i => (indices buf).getD i 0) = [buf 0, buf 1, buf 2, buf 3, buf 4] := by
  simp only [fiveBytes, indices, List.getD_cons_zero, List.getD_cons_succ, List.cons.injEq, and_true]
  refine ⟨?_, ?_, ?_, ?_, ?_⟩ <;>
  · apply UInt8.toBitVec_inj.mp
    apply BitVec.eq_of_getLsbD_eq
    intro i hi
    interval_cases i <;> simp

private theorem byte_of_forall_lt {P : UInt8 → Prop} {n : Nat} (h : ∀ i < n, P (UInt8.ofNat i))
    {c : UInt8} (hc : c.toNat < n) : P c := by
  rw [← UInt8.ofNat_toNat (x := c)]
  exact h c.toNat hc

private theorem index_lt {index : UInt8} (h : index &&& 0x1F = index) : index.toNat < 32 := by
  rw [← h, UInt8.toNat_and]
  exact Nat.lt_of_le_of_lt Nat.and_le_right (by decide)

theorem lookUp_letter {index : UInt8} (h : index &&& 0x1F = index) :
    lookUp (letter index) = some index :=
  byte_of_forall_lt (P := fun index => lookUp (letter index) = some index) (by decide) (index_lt h)

theorem letter_plain {index : UInt8} (h : index &&& 0x1F = index) :
    letter index < 0x80 ∧ letter index ≠ 0x3d :=
  byte_of_forall_lt (P := fun index => letter index < 0x80 ∧ letter index ≠ 0x3d) (by decide)
    (index_lt h)

/-- The characters that are left out of a short chunk stand for zeros. -/
theorem decodeChunk_letters (buf : Nat → UInt8) (k : Nat)
    (hzero : ∀ i, k ≤ i → (indices buf).getD i 0 = 0) :
    decodeChunk (((indices buf).take k).map letter) =
      some [buf 0, buf 1, buf 2, buf 3, buf 4] := by
  have hvalues : (((indices buf).take k).map letter).mapM lookUp = some ((indices buf).take k) := by
    have hlook : ∀ index ∈ (indices buf).take k, (lookUp ∘ letter) index = some (id index) :=
      fun index hindex => lookUp_letter (indices_masked buf index (List.mem_of_mem_take hindex))
    rw [List.mapM_map, mapM_some hlook, List.map_id]
  have hbuf (i : Nat) : ((indices buf).take k).getD i 0 = (indices buf).getD i 0 := by
    rcases Nat.lt_or_ge i k with hi | hi
    · simp [List.getD_eq_getElem?_getD, hi]
    · rw [hzero i hi]
      simp [List.getD_eq_getElem?_getD, Nat.not_lt.mpr hi]
  rw [decodeChunk, hvalues]
  simp only [Option.pure_def, Option.bind_eq_bind, Option.bind_some, hbuf, fiveBytes_indices]

/-- `decode` of a text without padding. -/
def decodePlain (data : List UInt8) : Option (List UInt8) :=
  ((Blocks.chunks 8 data).mapM decodeChunk).map fun ret => ret.flatten.take (data.length * 5 / 8)

theorem decode_plain {data : List UInt8} (h : ∀ c ∈ data, c < 0x80 ∧ c ≠ 0x3d) :
    decode data = decodePlain data := by
  have hascii : data.all (· < 0x80) := by
    rw [List.all_eq_true]
    exact fun c hc => decide_eq_true (h c hc).1
  have hpadding : (data.reverse.take (min 6 data.length)).takeWhile (· = 0x3d) = [] := by
    rw [List.takeWhile_eq_nil_iff]
    intro hpos heq
    have hmem := List.mem_of_mem_take (List.getElem_mem hpos)
    exact (h _ (List.mem_reverse.mp hmem)).2 (of_decide_eq_true heq)
  unfold decode decodePlain unpaddedLength
  rw [hpadding]
  simp [hascii, Option.map_eq_bind]

theorem encodeChunk_length (chunk : List UInt8) : (encodeChunk chunk).length = 8 := rfl

theorem encodeChunk_eq (chunk : List UInt8) :
    encodeChunk chunk = ((indices fun i => chunk.getD i 0).take 8).map letter := rfl

theorem encode_append {xs : List UInt8} (hxs : xs.length = 5) (ys : List UInt8) :
    encode (xs ++ ys) = encodeChunk xs ++ encode ys := by
  have hmod : (xs ++ ys).length % 5 = ys.length % 5 := by
    rw [List.length_append, hxs, Nat.add_mod_left]
  unfold encode
  rw [Blocks.chunks_append (by decide) hxs, List.flatMap_cons, hmod]
  by_cases hrest : ys.length % 5 = 0
  · simp [hrest]
  · have hpos : 0 < (Blocks.chunks 5 ys).length := by
      simp only [Blocks.chunks, List.length_map, List.length_range]
      omega
    have hlen : ((Blocks.chunks 5 ys).flatMap encodeChunk).length =
        (Blocks.chunks 5 ys).length * 8 := by
      simp [List.length_flatMap, encodeChunk_length]
    simp only [if_pos hrest, ne_eq, List.length_append, encodeChunk_length]
    rw [Nat.add_sub_assoc (by omega), ← encodeChunk_length xs, List.take_length_add_append]

theorem encode_short {data : List UInt8} (hne : data ≠ []) (hlt : data.length < 5) :
    encode data = ((indices fun i => data.getD i 0).take ((data.length * 8 + 4) / 5)).map letter := by
  have hpos := List.length_pos_iff.mpr hne
  have hmod : data.length % 5 = data.length := Nat.mod_eq_of_lt hlt
  have hkept : 8 - (8 - (data.length * 8 + 4) / 5) = (data.length * 8 + 4) / 5 := by omega
  unfold encode
  rw [Blocks.chunks_of_le hne (Nat.le_of_lt hlt), hmod]
  simp only [if_pos (Nat.pos_iff_ne_zero.mp hpos), ne_eq, List.flatMap_cons, List.flatMap_nil,
    List.append_nil, encodeChunk_length, hkept]
  rw [encodeChunk, List.map_take]

theorem encode_plain (data : List UInt8) : ∀ c ∈ encode data, c < 0x80 ∧ c ≠ 0x3d := by
  intro c hc
  have hmem : c ∈ (Blocks.chunks 5 data).flatMap encodeChunk := by
    unfold encode at hc
    simp only at hc
    split at hc
    · exact List.mem_of_mem_take hc
    · exact hc
  obtain ⟨chunk, _, hchunk⟩ := List.mem_flatMap.mp hmem
  obtain ⟨index, hindex, rfl⟩ := List.mem_map.mp hchunk
  exact letter_plain (indices_masked _ index hindex)

theorem decodePlain_append {xs bytes : List UInt8} (hxs : xs.length = 8) (hbytes : bytes.length = 5)
    (h : decodeChunk xs = some bytes) (ys : List UInt8) :
    decodePlain (xs ++ ys) = (decodePlain ys).map (bytes ++ ·) := by
  have hlen : (xs ++ ys).length * 5 / 8 = bytes.length + ys.length * 5 / 8 := by
    rw [List.length_append, hxs, hbytes]
    omega
  unfold decodePlain
  rw [Blocks.chunks_append (by decide) hxs, List.mapM_cons, h, hlen]
  cases (Blocks.chunks 8 ys).mapM decodeChunk with
  | none => rfl
  | some ret => simp [List.take_length_add_append]

theorem take_getD : ∀ data : List UInt8, data.length ≤ 5 →
    [data.getD 0 0, data.getD 1 0, data.getD 2 0, data.getD 3 0, data.getD 4 0].take data.length =
      data
  | [], _ => rfl
  | [_], _ => rfl
  | [_, _], _ => rfl
  | [_, _, _], _ => rfl
  | [_, _, _, _], _ => rfl
  | [_, _, _, _, _], _ => rfl

/-- What is left out of the last chunk stands for the zeros behind it. -/
theorem indices_short : ∀ data : List UInt8, data.length < 5 → data ≠ [] →
    ∀ i, (data.length * 8 + 4) / 5 ≤ i → (indices fun i => data.getD i 0).getD i 0 = 0 := by
  intro data hlt hne i hi
  rcases Nat.lt_or_ge i 8 with hi8 | hi8
  · match data, hlt, hne with
    | [a], _, _ => interval_cases i <;> simp_all [indices]
    | [a, b], _, _ => interval_cases i <;> simp_all [indices]
    | [a, b, c], _, _ => interval_cases i <;> simp_all [indices]
    | [a, b, c, d], _, _ => interval_cases i <;> simp_all [indices]
  · exact indices_beyond _ hi8

theorem decodePlain_encode_short {data : List UInt8} (hlt : data.length < 5) (hne : data ≠ []) :
    decodePlain (encode data) = some data := by
  have hpos := List.length_pos_iff.mpr hne
  have hlen : (encode data).length = (data.length * 8 + 4) / 5 := by
    rw [encode_short hne hlt, List.length_map, List.length_take]
    simp only [indices, List.length_cons, List.length_nil]
    omega
  have hchunk : Blocks.chunks 8 (encode data) = [encode data] := by
    apply Blocks.chunks_of_le
    · rw [← List.length_pos_iff, hlen]
      omega
    · omega
  have hkept : (data.length * 8 + 4) / 5 * 5 / 8 = data.length := by omega
  have hdecode : decodeChunk (encode data) =
      some [data.getD 0 0, data.getD 1 0, data.getD 2 0, data.getD 3 0, data.getD 4 0] := by
    rw [encode_short hne hlt]
    exact decodeChunk_letters _ _ (indices_short data hlt hne)
  unfold decodePlain
  rw [hchunk, hlen, hkept, List.mapM_cons, hdecode]
  simpa using take_getD data (Nat.le_of_lt hlt)

theorem decodePlain_encode (data : List UInt8) : decodePlain (encode data) = some data := by
  induction data using Blocks.chunks_induction (n := 5) (by decide) with
  | hshort data hlt =>
    by_cases hne : data = []
    · subst hne
      rfl
    · exact decodePlain_encode_short hlt hne
  | happend xs ys hxs ih =>
    have hbytes := take_getD xs hxs.le
    rw [List.take_of_length_le hxs.ge] at hbytes
    have hchunk : decodeChunk (encodeChunk xs) = some xs := by
      rw [encodeChunk_eq, decodeChunk_letters _ 8 fun i => indices_beyond _, hbytes]
    rw [encode_append hxs, decodePlain_append (encodeChunk_length xs) hxs hchunk, ih]
    rfl

/-- Two ways to write one character: the cases of a letter, the letter O for the digit 0, and the
letters I and L for the digit 1. -/
inductive Alias : UInt8 → UInt8 → Prop where
  | refl (c : UInt8) : Alias c c
  | symm {c d : UInt8} : Alias c d → Alias d c
  | trans {c d e : UInt8} : Alias c d → Alias d e → Alias c e
  | case {c : UInt8} : 0x41 ≤ c → c ≤ 0x5a → Alias c (c + 0x20)
  | zero : Alias 0x30 0x4f
  | one_i : Alias 0x31 0x49
  | one_l : Alias 0x31 0x4c

/-- One of the ways to write a character. -/
def canonical (c : UInt8) : UInt8 :=
  let c := toAsciiUppercase c
  if c = 0x4f then 0x30 else if c = 0x49 ∨ c = 0x4c then 0x31 else c

theorem Alias.canonical_eq {c d : UInt8} (h : Alias c d) : canonical c = canonical d := by
  induction h with
  | refl c => rfl
  | symm _ ih => exact ih.symm
  | trans _ _ ih ih' => exact ih.trans ih'
  | @case c hlo hhi =>
    exact byte_of_forall_lt (P := fun c => 0x41 ≤ c → c ≤ 0x5a → canonical c = canonical (c + 0x20))
      (by decide +kernel) c.toNat_lt hlo hhi
  | zero => decide
  | one_i => decide
  | one_l => decide

/-- The decoder does not tell a character from its canonical form. -/
theorem lookUp_canonical (c : UInt8) : lookUp (canonical c) = lookUp c ∧
    (canonical c < 0x80 ↔ c < 0x80) ∧ (canonical c = 0x3d ↔ c = 0x3d) :=
  byte_of_forall_lt (P := fun c => lookUp (canonical c) = lookUp c ∧
    (canonical c < 0x80 ↔ c < 0x80) ∧ (canonical c = 0x3d ↔ c = 0x3d)) (by decide +kernel) c.toNat_lt

theorem decodeChunk_canonical (chunk : List UInt8) :
    decodeChunk (chunk.map canonical) = decodeChunk chunk := by
  have hlook : lookUp ∘ canonical = lookUp := funext fun c => (lookUp_canonical c).1
  rw [decodeChunk, List.mapM_map, hlook, decodeChunk]

theorem decode_canonical (data : List UInt8) : decode (data.map canonical) = decode data := by
  have hascii : (data.map canonical).all (· < 0x80) = data.all (· < 0x80) := by
    rw [List.all_map]
    congr 1
    funext c
    exact decide_eq_decide.mpr (lookUp_canonical c).2.1
  have hlength : unpaddedLength (data.map canonical) = unpaddedLength data := by
    have hpad : (fun c : UInt8 => decide (c = 0x3d)) ∘ canonical = fun c => decide (c = 0x3d) :=
      funext fun c => decide_eq_decide.mpr (lookUp_canonical c).2.2
    unfold unpaddedLength
    rw [← List.map_reverse, ← List.map_take, List.takeWhile_map, hpad, List.length_map,
      List.length_map]
  have hchunks : decodeChunk ∘ List.map canonical = decodeChunk := funext decodeChunk_canonical
  unfold decode
  rw [hascii, hlength, Blocks.chunks_map, List.mapM_map, hchunks]

/-- Decoding undoes encoding, and does not depend on how a character is written. -/
theorem base32_round_trip : (∀ data, decode (encode data) = some data) ∧
    ∀ data data', List.Forall₂ Alias data data' → decode data = decode data' := by
  constructor
  · intro data
    rw [decode_plain (encode_plain data), decodePlain_encode]
  · intro data data' halias
    have hcanonical : data.map canonical = data'.map canonical := by
      induction halias with
      | nil => rfl
      | cons h _ ih => rw [List.map_cons, List.map_cons, h.canonical_eq, ih]
    rw [← decode_canonical data, hcanonical, decode_canonical]

end CtfChallenges.Rusty2
