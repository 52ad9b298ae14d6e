import CtfChallenges.Framework.CString
import Mathlib.Data.Vector.Basic

/-!
# The hash of ruler

`hash_data` of `ruler.c`. The heap is read by addresses from the start of `rawbuf`, so the buffer is
what lies below `len`. The digest and its context belong to a library; what they are fed is noted.
-/

namespace CtfChallenges.Ruler
open Framework CString

def BLOCK_SIZE : Nat := 0x100

/-! The fields of `struct hash_info` by their offsets; `tmpbuf` is the first. -/

def hashbuf : Nat := BLOCK_SIZE
def cb : Nat := hashbuf + 256 / 8
def hout : Nat := cb + 8
def sizeofHashInfo : Nat := hout + 256 / 8

/-- Bytes that are read at one address. -/
structure Span where
  addr : Nat
  size : Nat

def Span.addrs (s : Span) : List Nat := List.range' s.addr s.size

def Span.read (heap : Nat → UInt8) (s : Span) : List UInt8 := s.addrs.map heap

/-- The variables of the loop, and what has been copied to `tmpbuf` and fed to the digest. -/
structure Hashing where
  info : List UInt8
  buf : Nat
  left : Nat
  copied : List Span
  digested : List Span

/-- The size of the next copy. The test is made with the structure and not with its first field. -/
def chunk (left : Nat) : Nat := if left < sizeofHashInfo then left else BLOCK_SIZE

def hashPass (heap : Nat → UInt8) (h : Hashing) : Hashing :=
  let info := overwrite h.info 0 (List.replicate BLOCK_SIZE 0)
  let source : Span := ⟨h.buf, chunk h.left⟩
  let info := overwrite info 0 (source.read heap)
  let buf := h.buf + chunk h.left
  { info := info
    buf := buf
    left := h.left - chunk h.left
    copied := h.copied ++ [source]
    digested := h.digested ++ [⟨buf, chunk h.left⟩] }

theorem chunk_cases (left : Nat) :
    left < 328 ∧ chunk left = left ∨ 328 ≤ left ∧ chunk left = 256 := by
  by_cases h : left < 328
  · exact .inl ⟨h, if_pos h⟩
  · exact .inr ⟨not_lt.mp h, if_neg h⟩

variable (heap : Nat → UInt8) (h : Hashing)

@[simp] theorem hashPass_buf : (hashPass heap h).buf = h.buf + chunk h.left := rfl

@[simp] theorem hashPass_left : (hashPass heap h).left = h.left - chunk h.left := rfl

@[simp] theorem hashPass_copied :
    (hashPass heap h).copied = h.copied ++ [⟨h.buf, chunk h.left⟩] := rfl

@[simp] theorem hashPass_digested :
    (hashPass heap h).digested = h.digested ++ [⟨h.buf + chunk h.left, chunk h.left⟩] := rfl

theorem hashPass_left_lt {heap : Nat → UInt8} {h : Hashing} (hleft : (hashPass heap h).left ≠ 0) :
    (hashPass heap h).left < h.left := by
  rw [hashPass_left] at hleft ⊢
  rcases chunk_cases h.left with ⟨-, heq⟩ | ⟨hle, heq⟩ <;> omega

def hashLoop (heap : Nat → UInt8) (h : Hashing) : Hashing :=
  if _hleft : (hashPass heap h).left ≠ 0 then hashLoop heap (hashPass heap h) else hashPass heap h
termination_by h.left
decreasing_by exact hashPass_left_lt _hleft

/-- What `hash_data` did: the state after the loop, the bytes of the function pointer that it calls,
and the value returned. -/
structure Hashed where
  loop : Hashing
  called : List UInt8
  returned : Nat

/-- `hash_data` with the block of two structures that `malloc` returns, and the bytes of the callback
on a machine of 64 bits. -/
def hash_data (sha256 : List UInt8 → Vector UInt8 (256 / 8)) (heap : Nat → UInt8) (len : Nat)
    (block : Vector UInt8 (2 * sizeofHashInfo)) (callback : Vector UInt8 8) : Hashed :=
  let info := overwrite block.toList cb callback.toList
  let h := hashLoop heap ⟨info, 0, len, [], []⟩
  let digest := sha256 (h.digested.flatMap (Span.read heap))
  let info := overwrite h.info hashbuf digest.toList
  ⟨h, (info.drop cb).take 8, len⟩

/-- Copies fit into `tmpbuf`, the digest gets the bytes of the buffer once and in order, nothing
outside of the buffer is read, and nothing is left. -/
structure HashesBuffer (len : Nat) (h : Hashing) : Prop where
  fits : ∀ s ∈ h.copied, s.size ≤ BLOCK_SIZE
  once : h.digested.flatMap Span.addrs = List.range len
  inside : ∀ s ∈ h.copied ++ h.digested, s.addr + s.size ≤ len
  ends : h.left = 0

theorem hashLoop_left (heap : Nat → UInt8) (h : Hashing) : (hashLoop heap h).left = 0 := by
  fun_induction hashLoop heap h with
  | case1 h _ ih => exact ih
  | case2 h hleft => exact not_not.mp hleft

/-- Only a copy of more than a block but less than a structure does not fit. -/
theorem copied_fit_iff (heap : Nat → UInt8) (h : Hashing) :
    (∀ s ∈ (hashLoop heap h).copied, s.size ≤ BLOCK_SIZE) ↔
      (∀ s ∈ h.copied, s.size ≤ BLOCK_SIZE) ∧
        ¬ (256 < h.left ∧ 1 ≤ h.left % 256 ∧ h.left % 256 ≤ 71) := by
  fun_induction hashLoop heap h with
  | case1 h hleft ih =>
    rw [ih]
    rw [hashPass_left] at hleft
    simp only [hashPass_copied, hashPass_left, List.forall_mem_append, List.forall_mem_singleton,
      and_assoc, BLOCK_SIZE]
    rcases chunk_cases h.left with ⟨-, heq⟩ | ⟨hle, heq⟩
    · omega
    · rw [heq]
      have hmod : (h.left - 256) % 256 = h.left % 256 := by omega
      rw [hmod, and_congr_right_iff]
      intro _
      omega
  | case2 h hleft =>
    rw [hashPass_left, not_not] at hleft
    simp only [hashPass_copied, List.forall_mem_append, List.forall_mem_singleton, BLOCK_SIZE]
    rw [and_congr_right_iff]
    intro _
    rcases chunk_cases h.left with ⟨hlt, heq⟩ | ⟨hle, heq⟩ <;> omega

/-- Copies are made of what is left, from the cursor on. -/
theorem copied_inside (heap : Nat → UInt8) (h : Hashing)
    (hinside : ∀ s ∈ h.copied, s.addr + s.size ≤ h.buf + h.left) :
    ∀ s ∈ (hashLoop heap h).copied, s.addr + s.size ≤ h.buf + h.left := by
  have hchunk : chunk h.left ≤ h.left := by
    rcases chunk_cases h.left with ⟨-, heq⟩ | ⟨hle, heq⟩ <;> omega
  fun_induction hashLoop heap h with
  | case1 h hleft ih =>
    have hnext : (hashPass heap h).buf + (hashPass heap h).left = h.buf + h.left := by
      rw [hashPass_buf, hashPass_left]
      omega
    rw [hnext] at ih
    apply ih
    · simp only [hashPass_copied, List.forall_mem_append, List.forall_mem_singleton]
      exact ⟨hinside, by omega⟩
    · rcases chunk_cases (hashPass heap h).left with ⟨-, heq⟩ | ⟨hle, heq⟩ <;> omega
  | case2 h hleft =>
    simp only [hashPass_copied, List.forall_mem_append, List.forall_mem_singleton]
    exact ⟨hinside, by omega⟩

/-- The digest is fed from behind the cursor, in the end from behind the buffer. -/
theorem digested_behind (heap : Nat → UInt8) (h : Hashing) (hleft : 0 < h.left) :
    ∃ s ∈ (hashLoop heap h).digested, 0 < s.size ∧ s.addr = h.buf + h.left := by
  fun_induction hashLoop heap h with
  | case1 h hnext ih =>
    obtain ⟨s, hs, hsize, haddr⟩ := ih (Nat.pos_of_ne_zero hnext)
    refine ⟨s, hs, hsize, ?_⟩
    rw [hashPass_left] at hnext
    rw [hashPass_buf, hashPass_left] at haddr
    omega
  | case2 h hnext =>
    rw [hashPass_left, not_not] at hnext
    have hchunk : chunk h.left = h.left := by
      rcases chunk_cases h.left with ⟨-, heq⟩ | ⟨hle, heq⟩ <;> omega
    refine ⟨⟨h.buf + h.left, h.left⟩, ?_, hleft, rfl⟩
    rw [hashPass_digested, hchunk]
    exact List.mem_append_right _ List.mem_cons_self

section
variable (sha256 : List UInt8 → Vector UInt8 (256 / 8)) (heap : Nat → UInt8) (len : Nat)
  (block : Vector UInt8 (2 * sizeofHashInfo)) (callback : Vector UInt8 8)

/-- Only the empty buffer is hashed as it should be. The loop always ends, and its copies stay in the
buffer, but they fit into `tmpbuf` only for some lengths, and the digest is fed the bytes after those
that were copied. -/
theorem hash_data_iff :
    (HashesBuffer len (hash_data sha256 heap len block callback).loop ↔ len = 0) ∧
      (hash_data sha256 heap len block callback).loop.left = 0 ∧
      (∀ s ∈ (hash_data sha256 heap len block callback).loop.copied, s.addr + s.size ≤ len) ∧
      ((∀ s ∈ (hash_data sha256 heap len block callback).loop.copied, s.size ≤ BLOCK_SIZE) ↔
        ¬ (256 < len ∧ 1 ≤ len % 256 ∧ len % 256 ≤ 71)) := by
  simp only [hash_data]
  generalize hinfo : overwrite block.toList cb callback.toList = info
  have hfit := copied_fit_iff heap ⟨info, 0, len, [], []⟩
  have hinside := copied_inside heap ⟨info, 0, len, [], []⟩ (by simp)
  rw [and_iff_right (by simp)] at hfit
  rw [Nat.zero_add] at hinside
  refine ⟨⟨fun h => ?_, ?_⟩, hashLoop_left heap _, hinside, hfit⟩
  · by_contra hne
    obtain ⟨s, hs, hsize, haddr⟩ :=
      digested_behind heap ⟨info, 0, len, [], []⟩ (Nat.pos_of_ne_zero hne)
    have hlast := h.inside s (List.mem_append_right _ hs)
    simp only [Nat.zero_add] at haddr
    omega
  · rintro rfl
    have hchunk : chunk 0 = 0 := rfl
    have hrun : hashLoop heap ⟨info, 0, 0, [], []⟩ = hashPass heap ⟨info, 0, 0, [], []⟩ := by
      rw [hashLoop, dif_neg (by simp)]
    rw [hrun]
    exact ⟨by simp [hchunk], by simp [hchunk, Span.addrs], by simp [hchunk], by simp⟩

end

/-- 300 bytes are copied in one pass, over the end of `tmpbuf`. -/
theorem hash_of_300 :
    ¬HashesBuffer 300 (hash_data (fun _ => Vector.replicate 32 0) (fun _ => 0) 300
      (Vector.replicate (2 * sizeofHashInfo) 0) (Vector.replicate 8 0)).loop := by
  intro h
  have hfit := (copied_fit_iff _ _).mp h.fits
  exact hfit.2 (by decide)

end CtfChallenges.Ruler
