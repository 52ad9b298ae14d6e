import CtfChallenges.Framework.AddressSpace

/-!
# Gzip without compression

A member of a gzip file whose deflate blocks are stored, which is what level 0 writes: a header with
the time, blocks of at most 65535 bytes with their length and its complement, the CRC and the size.
-/

namespace CtfChallenges.Framework.Gzip
open AddressSpace

def crcBit (crc : UInt32) : UInt32 :=
  if crc &&& 1 = 1 then (crc >>> 1) ^^^ 0xEDB88320 else crc >>> 1

def crc32 (s : List UInt8) : UInt32 :=
  s.foldl (fun crc b => Nat.iterate crcBit 8 (crc ^^^ b.toUInt32)) 0xFFFFFFFF ^^^ 0xFFFFFFFF

def maxBlock : Nat := 65535

/-- The block with its bit for the last one. -/
def block (final : UInt8) (s : List UInt8) : List UInt8 :=
  final :: leBytes 2 s.length ++ leBytes 2 (maxBlock - s.length) ++ s

def deflate (s : List UInt8) : List UInt8 :=
  if s.length ≤ maxBlock then block 1 s else block 0 (s.take maxBlock) ++ deflate (s.drop maxBlock)
termination_by s.length
decreasing_by
  rw [List.length_drop, maxBlock] at *
  omega

def header (mtime : UInt32) : List UInt8 :=
  [0x1f, 0x8b, 0x08, 0x00] ++ leBytes 4 mtime.toNat ++ [0x00, 0xff]

def trailer (s : List UInt8) : List UInt8 := leBytes 4 (crc32 s).toNat ++ leBytes 4 s.length

def compress (mtime : UInt32) (s : List UInt8) : List UInt8 := header mtime ++ deflate s ++ trailer s

/-- The text of a block and what is behind it. -/
def readBlock (s : List UInt8) : Option (List UInt8 × List UInt8) :=
  let length := ofLe (s.take 2)
  if ofLe ((s.drop 2).take 2) = maxBlock - length ∧ length + 4 ≤ s.length then
    some ((s.drop 4).take length, (s.drop 4).drop length)
  else none

/-- The text of some blocks and what is behind the last one. -/
def inflate : Nat → List UInt8 → Option (List UInt8 × List UInt8)
  | n + 1, final :: s =>
    (readBlock s).bind fun (text, rest) =>
      if final = 1 then some (text, rest)
      else (inflate n rest).map fun (more, rest) => (text ++ more, rest)
  | _, _ => none

def decompress (s : List UInt8) : Option (List UInt8) :=
  if s.take 4 = [0x1f, 0x8b, 0x08, 0x00] then
    (inflate s.length (s.drop 10)).bind fun (text, rest) =>
      if rest = trailer text then some text else none
  else none

theorem readBlock_block {s : List UInt8} (h : s.length ≤ maxBlock) (rest : List UInt8) :
    readBlock ((leBytes 2 s.length ++ leBytes 2 (maxBlock - s.length) ++ s) ++ rest) =
      some (s, rest) := by
  have hlength : ofLe (leBytes 2 s.length) = s.length := by
    rw [ofLe_leBytes, Nat.mod_eq_of_lt]
    exact h.trans_lt (by decide)
  have hcomplement : ofLe (leBytes 2 (maxBlock - s.length)) = maxBlock - s.length := by
    rw [ofLe_leBytes, Nat.mod_eq_of_lt]
    exact (Nat.sub_le _ _).trans_lt (by decide)
  have hfour : (leBytes 2 s.length ++ leBytes 2 (maxBlock - s.length)).length = 4 := by simp
  have htake : (leBytes 2 s.length ++ leBytes 2 (maxBlock - s.length) ++ s ++ rest).take 2 =
      leBytes 2 s.length := by
    rw [List.append_assoc, List.append_assoc, List.take_left' (length_leBytes 2 _)]
  have hnext : ((leBytes 2 s.length ++ leBytes 2 (maxBlock - s.length) ++ s ++ rest).drop 2).take 2 =
      leBytes 2 (maxBlock - s.length) := by
    rw [List.append_assoc, List.append_assoc, List.drop_left' (length_leBytes 2 _),
      List.take_left' (length_leBytes 2 _)]
  have hdrop : (leBytes 2 s.length ++ leBytes 2 (maxBlock - s.length) ++ s ++ rest).drop 4 =
      s ++ rest := by
    rw [List.append_assoc, List.drop_left' hfour]
  rw [readBlock, htake, hnext, hdrop, hlength, hcomplement, if_pos, List.take_left, List.drop_left]
  refine ⟨rfl, ?_⟩
  simp only [List.length_append, length_leBytes]
  omega

/-- Any number of steps that is not below the length is enough. -/
theorem inflate_deflate (s rest : List UInt8) {n : Nat} (hn : s.length < n) :
    inflate n (deflate s ++ rest) = some (s, rest) := by
  induction s using deflate.induct generalizing n with
  | case1 s hle =>
    obtain ⟨n, rfl⟩ := Nat.exists_eq_add_of_lt hn
    rw [deflate, if_pos hle, block]
    simp only [List.cons_append, inflate, readBlock_block hle, Option.bind_some, if_true]
  | case2 s hgt ih =>
    have hmax : maxBlock < s.length := Nat.lt_of_not_le hgt
    obtain ⟨n, rfl⟩ := Nat.exists_eq_add_of_lt hn
    have htake : (s.take maxBlock).length ≤ maxBlock := List.length_take_le _ _
    have hrest : (s.drop maxBlock).length < s.length + n := by
      rw [List.length_drop, maxBlock]
      rw [maxBlock] at hmax
      omega
    rw [deflate, if_neg hgt, block]
    simp only [List.cons_append, List.append_assoc, inflate]
    have hread := readBlock_block htake (deflate (s.drop maxBlock) ++ rest)
    simp only [List.append_assoc] at hread
    rw [hread, Option.bind_some, if_neg (by decide), ih hrest, Option.map_some,
      List.take_append_drop]

theorem length_le_deflate (s : List UInt8) : s.length ≤ (deflate s).length := by
  induction s using deflate.induct with
  | case1 s hle =>
    rw [deflate, if_pos hle, block]
    simp only [List.length_append, List.length_cons, length_leBytes]
    omega
  | case2 s hgt ih =>
    rw [deflate, if_neg hgt, block]
    rw [List.length_drop] at ih
    simp only [List.length_append, List.length_cons, List.length_take, length_leBytes]
    omega

theorem decompress_compress (mtime : UInt32) (s : List UInt8) :
    decompress (compress mtime s) = some s := by
  have hheader : (header mtime).length = 10 := by simp [header]
  have hmagic : (compress mtime s).take 4 = [0x1f, 0x8b, 0x08, 0x00] := by simp [compress, header]
  have hbody : (compress mtime s).drop 10 = deflate s ++ trailer s := by
    rw [compress, List.append_assoc, List.drop_left' hheader]
  have hlong : s.length < (compress mtime s).length := by
    have hdeflate := length_le_deflate s
    rw [compress, List.length_append, List.length_append, hheader]
    omega
  rw [decompress, if_pos hmagic, hbody, inflate_deflate s _ hlong, Option.bind_some]
  exact if_pos rfl

end CtfChallenges.Framework.Gzip
