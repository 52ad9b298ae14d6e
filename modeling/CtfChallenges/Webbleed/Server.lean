import CtfChallenges.Framework.CString
import CtfChallenges.Framework.Strtol

/-!
# The server that bleeds

`server.go` answers a body with as many bytes as the header `Content-Length` asks for, and takes the
missing ones from a buffer that holds the flag.
-/

namespace CtfChallenges.Webbleed
open Framework CString Strtol

abbrev Bytes := List UInt8

def flag : Bytes := ascii "CTF\x7bwat_parsing_is_that\x7d"

/-- How `ReadAll` ends, but for the end of the body. -/
inductive ReadError
  | unexpectedEOF
  | other
deriving DecidableEq, Repr

structure Request where
  Method : String
  /-- `r.Header.Get("Content-Length")` -/
  ContentLength : List Char
  /-- What `ReadAll` returns. -/
  Body : Bytes
  err : Option ReadError

inductive Answer
  | error (text : String) (code : Nat)
  | memory (outbuf : Bytes)
deriving DecidableEq, Repr

/-- `copy` -/
def copy (dst src : Bytes) : Bytes := src.take dst.length ++ dst.drop src.length

/-- `ServeHTTP` with the buffer and a random number, and no value where it panics. -/
def ServeHTTP (membuf : Bytes) (random : Nat) (r : Request) : Option Answer :=
  if r.Method ≠ "POST" then some (.error "Method Not Allowed" 200)
  else
    let clen := (Atoi r.ContentLength).getD 0
    if clen > 1024 * 1024 then some (.error "Request too large" 413)
    else if r.err = some .other then some (.error "Internal Server Error" 500)
    else
      let buf := r.Body
      let clen : Int := if clen = 0 then buf.length else clen
      if clen < 0 then none
      else
        let clen := clen.toNat
        let outbuf := copy (List.replicate clen 0) buf
        let n := min clen buf.length
        if n < clen then
          -- `rand.Intn` panics without a positive bound
          if membuf.length ≤ clen - n then none
          else
            let start := random % (membuf.length - (clen - n))
            some (.memory (outbuf.take n ++ copy (outbuf.drop n) (membuf.drop start)))
        else some (.memory outbuf)

def MEMBUF_SIZE : Nat := 16 * 1024 * 1024

/-- `initMemBuf` with what `rand.Read` and `rand.Intn` return. -/
def initMemBuf (noise : Vector UInt8 MEMBUF_SIZE) (random : Nat → Nat) : Bytes :=
  (List.range 16).foldl (fun membuf i =>
    overwrite membuf (random i % (membuf.length - flag.length)) flag) noise.toList

/-- The length that the header declares. -/
def Request.declared (r : Request) : Int := (Atoi r.ContentLength).getD 0

/-- The length of the answer. -/
def Request.wanted (r : Request) : Int := if r.declared = 0 then r.Body.length else r.declared

/-- The request gets to the buffers. -/
structure Request.Accepted (r : Request) : Prop where
  post : r.Method = "POST"
  small : r.declared ≤ 1024 * 1024
  read : r.err ≠ some .other
  nonneg : 0 ≤ r.wanted

theorem copy_of_le {dst src : Bytes} (h : dst.length ≤ src.length) :
    copy dst src = src.take dst.length := by
  rw [copy, List.drop_eq_nil_of_le h, List.append_nil]

theorem copy_of_ge {dst src : Bytes} (h : src.length ≤ dst.length) :
    copy dst src = src ++ dst.drop src.length := by
  rw [copy, List.take_of_length_le h]

/-- An accepted request is answered by its body alone, or by its body and what follows a place in
the buffer. -/
theorem ServeHTTP_accepted (membuf : Bytes) (random : Nat) {r : Request} (h : r.Accepted) :
    ServeHTTP membuf random r =
      if r.wanted ≤ r.Body.length then some (.memory (r.Body.take r.wanted.toNat))
      else
        let k := r.wanted.toNat - r.Body.length
        if membuf.length ≤ k then none
        else some (.memory (r.Body ++ (membuf.drop (random % (membuf.length - k))).take k)) := by
  have hnonneg := h.nonneg
  have hclen : (if (Atoi r.ContentLength).getD 0 = 0 then (r.Body.length : Int)
      else (Atoi r.ContentLength).getD 0) = r.wanted := rfl
  have hsmall : ¬ (Atoi r.ContentLength).getD 0 > 1024 * 1024 := not_lt.mpr h.small
  simp only [ServeHTTP, h.post, ne_eq, not_true_eq_false, if_false, hsmall, h.read, hclen,
    not_lt.mpr hnonneg]
  by_cases hle : r.wanted ≤ r.Body.length
  · have hn : ¬ min r.wanted.toNat r.Body.length < r.wanted.toNat := by omega
    rw [if_neg hn, if_pos hle, copy_of_le (by rw [List.length_replicate]; omega),
      List.length_replicate]
  · have hn : min r.wanted.toNat r.Body.length = r.Body.length := by omega
    rw [hn, if_pos (by omega), if_neg hle]
    split
    · rfl
    · rename_i hlen
      have hmod := Nat.mod_lt random
        (show 0 < membuf.length - (r.wanted.toNat - r.Body.length) by omega)
      have hout : copy (List.replicate r.wanted.toNat 0) r.Body =
          r.Body ++ List.replicate (r.wanted.toNat - r.Body.length) 0 := by
        rw [copy_of_ge (by rw [List.length_replicate]; omega), List.drop_replicate]
      rw [hout, List.take_left, List.drop_left, copy_of_le, List.length_replicate]
      rw [List.length_replicate, List.length_drop]
      omega

theorem ServeHTTP_memory {membuf : Bytes} {random : Nat} {r : Request} {out : Bytes}
    (h : ServeHTTP membuf random r = some (.memory out)) : r.Accepted := by
  have hclen : (if (Atoi r.ContentLength).getD 0 = 0 then (r.Body.length : Int)
      else (Atoi r.ContentLength).getD 0) = r.wanted := rfl
  simp only [ServeHTTP, hclen] at h
  split at h
  · cases h
  rename_i hpost
  split at h
  · cases h
  rename_i hsmall
  split at h
  · cases h
  rename_i hread
  split at h
  · cases h
  rename_i hneg
  exact ⟨not_not.mp hpost, not_lt.mp hsmall, hread, not_lt.mp hneg⟩

/-- What can be sent: the body, cut where it is longer than declared, and where it is shorter any
piece of the buffer behind it, but for its end. -/
theorem memory_iff (membuf : Bytes) (r : Request) (out : Bytes) :
    (∃ random, ServeHTTP membuf random r = some (.memory out)) ↔ r.Accepted ∧
      ((r.wanted ≤ r.Body.length ∧ out = r.Body.take r.wanted.toNat) ∨
        ∃ pre piece post, membuf = pre ++ piece ++ post ∧ piece ≠ [] ∧ post ≠ [] ∧
          (piece.length : Int) = r.wanted - r.Body.length ∧ out = r.Body ++ piece) := by
  constructor
  · rintro ⟨random, h⟩
    have haccepted := ServeHTTP_memory h
    refine ⟨haccepted, ?_⟩
    rw [ServeHTTP_accepted membuf random haccepted] at h
    split at h
    · rename_i hle
      cases h
      exact .inl ⟨hle, rfl⟩
    · rename_i hle
      dsimp only at h
      split at h
      · cases h
      · rename_i hlen
        cases h
        right
        have hmod := Nat.mod_lt random
          (show 0 < membuf.length - (r.wanted.toNat - r.Body.length) by omega)
        generalize random % (membuf.length - (r.wanted.toNat - r.Body.length)) = start at hmod
        have hnonneg := haccepted.nonneg
        have hpiece : ((membuf.drop start).take (r.wanted.toNat - r.Body.length)).length =
            r.wanted.toNat - r.Body.length := by
          rw [List.length_take, List.length_drop]
          omega
        refine ⟨membuf.take start, (membuf.drop start).take (r.wanted.toNat - r.Body.length),
          (membuf.drop start).drop (r.wanted.toNat - r.Body.length), ?_, ?_, ?_, ?_, rfl⟩
        · rw [List.append_assoc, List.take_append_drop, List.take_append_drop]
        · apply List.ne_nil_of_length_pos
          omega
        · apply List.ne_nil_of_length_pos
          rw [List.length_drop, List.length_drop]
          omega
        · omega
  · rintro ⟨haccepted, ⟨hle, rfl⟩ | ⟨pre, piece, post, rfl, hpiece, hpost, hlen, rfl⟩⟩
    · exact ⟨0, by rw [ServeHTTP_accepted _ _ haccepted, if_pos hle]⟩
    · have hpos := List.length_pos_iff.mpr hpiece
      have hpos' := List.length_pos_iff.mpr hpost
      have hk : r.wanted.toNat - r.Body.length = piece.length := by omega
      refine ⟨pre.length, ?_⟩
      rw [ServeHTTP_accepted _ _ haccepted, if_neg (by omega)]
      dsimp only
      rw [hk, if_neg (by simp only [List.length_append]; omega), Nat.mod_eq_of_lt, List.append_assoc,
        List.drop_left, List.take_left]
      simp only [List.length_append]
      omega

theorem length_fill (random : Nat → Nat) (is : List Nat) {membuf : Bytes}
    (h : flag.length < membuf.length) :
    (is.foldl (fun membuf i =>
      overwrite membuf (random i % (membuf.length - flag.length)) flag) membuf).length =
        membuf.length := by
  induction is generalizing membuf with
  | nil => rfl
  | cons i is ih =>
    have hmod := Nat.mod_lt (random i) (Nat.sub_pos_of_lt h)
    have hlen : (overwrite membuf (random i % (membuf.length - flag.length)) flag).length =
        membuf.length := length_overwrite (by omega)
    rw [List.foldl_cons, ih (by rw [hlen]; exact h), hlen]

/-- The last copy of the flag stays, and it is not at the end. -/
theorem initMemBuf_split (noise : Vector UInt8 MEMBUF_SIZE) (random : Nat → Nat) :
    (initMemBuf noise random).length = MEMBUF_SIZE ∧
      ∃ pre post, initMemBuf noise random = pre ++ flag ++ post ∧ post ≠ [] := by
  have hflag : flag.length = 24 := by decide
  have hnoise : noise.toList.length = MEMBUF_SIZE := noise.length_toList
  have hsize : MEMBUF_SIZE = 16777216 := by decide
  have hall := @length_fill random (List.range 16) noise.toList (by omega)
  have hfirst := @length_fill random (List.range 15) noise.toList (by omega)
  refine ⟨by rw [initMemBuf, hall, hnoise], ?_⟩
  rw [initMemBuf, List.range_succ, List.foldl_append, List.foldl_cons, List.foldl_nil]
  generalize (List.range 15).foldl (fun membuf i =>
    overwrite membuf (random i % (membuf.length - flag.length)) flag) noise.toList = membuf at hfirst
  have hmod := Nat.mod_lt (random 15) (show 0 < membuf.length - flag.length by omega)
  refine ⟨_, _, rfl, ?_⟩
  apply List.ne_nil_of_length_pos
  rw [List.length_drop]
  omega

/-- The header alone brings the flag: whatever the buffer is filled with, a request that declares
enough more than it sends may be answered with the flag in it. -/
theorem flag_bleeds (noise : Vector UInt8 MEMBUF_SIZE) (places : Nat → Nat) {r : Request}
    (hpost : r.Method = "POST") (hread : r.err ≠ some .other) (hsmall : r.declared ≤ 1024 * 1024)
    (hmore : (r.Body.length + flag.length : Int) ≤ r.declared) :
    ∃ random out, ServeHTTP (initMemBuf noise places) random r = some (.memory out) ∧
      flag <:+: out := by
  obtain ⟨hsize, pre, post, hsplit, hend⟩ := initMemBuf_split noise places
  have hflag : flag.length = 24 := by decide
  have hMEM : MEMBUF_SIZE = 16777216 := by decide
  have hpos := List.length_pos_iff.mpr hend
  have hlength : pre.length + flag.length + post.length = MEMBUF_SIZE := by
    rw [← hsize, hsplit, List.length_append, List.length_append]
  have hwanted : r.wanted = r.declared := if_neg (by omega)
  have haccepted : r.Accepted := ⟨hpost, hsmall, hread, by omega⟩
  let k := r.wanted.toNat - r.Body.length
  have hk : flag.length ≤ k ∧ k < MEMBUF_SIZE := by omega
  -- the flag is at the place, or the last place is not far behind it
  let start := min pre.length (MEMBUF_SIZE - k - 1)
  have hmod : start % (MEMBUF_SIZE - k) = start := Nat.mod_eq_of_lt (by omega)
  refine ⟨start, r.Body ++ ((initMemBuf noise places).drop start).take k, ?_, ?_⟩
  · rw [ServeHTTP_accepted _ _ haccepted, if_neg (by omega)]
    dsimp only
    rw [hsize, if_neg (by omega), hmod]
  · have hdrop : (initMemBuf noise places).drop start = (pre.drop start ++ flag) ++ post := by
      rw [hsplit, List.append_assoc, List.drop_append_of_le_length (by omega), List.append_assoc]
    have hinside : (pre.drop start ++ flag).length ≤ k := by
      rw [List.length_append, List.length_drop]
      omega
    rw [hdrop, List.take_append, List.take_of_length_le hinside]
    exact ⟨r.Body ++ pre.drop start, post.take (k - (pre.drop start ++ flag).length), by simp⟩

theorem flag_bleeds_alone : ∃ random out,
    ServeHTTP (initMemBuf (Vector.replicate MEMBUF_SIZE 0) id) random
        ⟨"POST", "24".toList, [], none⟩ = some (.memory out) ∧ flag <:+: out :=
  flag_bleeds _ id rfl (by decide) (by decide) (by decide)

end CtfChallenges.Webbleed
