import Mathlib.Data.List.TakeWhile
import Mathlib.Data.Nat.Notation

/-!
# Reading lines

`fgets` of a stream of bytes. A line that has room in the buffer is read with its newline; of a longer
one, the rest stays on the stream.
-/

namespace CtfChallenges.Framework.Stdio

def newline : UInt8 := 0x0a

/-- The bytes up to the first newline, with it. -/
def takeLine : List UInt8 → List UInt8
  | [] => []
  | c :: cs => if c = newline then [c] else c :: takeLine cs

/-- `fgets` with a buffer of `size` bytes: what it puts there before the terminator, and the rest of
the stream. There is no value at the end of the stream. -/
def fgets (size : Nat) (stream : List UInt8) : Option (List UInt8 × List UInt8) :=
  if stream = [] then none
  else
    let line := takeLine (stream.take (size - 1))
    some (line, stream.drop line.length)

variable {size : Nat} {line stream : List UInt8}

theorem takeLine_isPrefix (stream : List UInt8) : takeLine stream <+: stream := by
  induction stream with
  | nil => exact List.nil_prefix
  | cons c cs ih =>
    rw [takeLine]
    split
    · exact List.prefix_iff_eq_append.mpr rfl
    · exact List.cons_prefix_cons.mpr ⟨rfl, ih⟩

theorem takeLine_append_newline (hline : newline ∉ line) (rest : List UInt8) :
    takeLine (line ++ newline :: rest) = line ++ [newline] := by
  induction line with
  | nil => rfl
  | cons c cs ih =>
    rw [List.mem_cons, not_or] at hline
    rw [List.cons_append, takeLine, if_neg (Ne.symm hline.1), ih hline.2, List.cons_append]

theorem takeLine_eq_self (hline : newline ∉ line) : takeLine line = line := by
  induction line with
  | nil => rfl
  | cons c cs ih =>
    rw [List.mem_cons, not_or] at hline
    rw [takeLine, if_neg (Ne.symm hline.1), ih hline.2]

@[simp] theorem fgets_nil (size : Nat) : fgets size [] = none := rfl

theorem fgets_line (hline : newline ∉ line) (hlen : line.length + 1 < size) (rest : List UInt8) :
    fgets size (line ++ newline :: rest) = some (line ++ [newline], rest) := by
  have htake : takeLine ((line ++ newline :: rest).take (size - 1)) = line ++ [newline] := by
    rw [List.take_append, List.take_of_length_le (by omega)]
    obtain ⟨k, hk⟩ : ∃ k, size - 1 - line.length = k + 1 := ⟨size - 2 - line.length, by omega⟩
    rw [hk, List.take_succ_cons, takeLine_append_newline hline]
  have hdrop : (line ++ newline :: rest).drop (line ++ [newline]).length = rest := by
    rw [List.append_cons line newline rest, List.drop_left]
  simp only [fgets, htake, hdrop]
  rw [if_neg (by simp)]

/-- A line that fills the buffer: what is behind it stays on the stream. -/
theorem fgets_full (hline : newline ∉ line) (hne : line ≠ []) (hlen : line.length + 1 = size)
    (rest : List UInt8) : fgets size (line ++ rest) = some (line, rest) := by
  have htake : (line ++ rest).take (size - 1) = line := List.take_left' (by omega)
  simp only [fgets, htake, takeLine_eq_self hline, List.drop_left]
  rw [if_neg (by simp [hne])]

theorem fgets_append {rest : List UInt8} (h : fgets size stream = some (line, rest)) :
    stream = line ++ rest := by
  unfold fgets at h
  split at h
  · cases h
  · cases h
    have hfront : takeLine (stream.take (size - 1)) <+: stream :=
      (takeLine_isPrefix _).trans <| List.take_prefix _ _
    exact (List.prefix_iff_eq_append.mp hfront).symm

/-- One byte of the buffer is for the terminator. -/
theorem fgets_length_le {rest : List UInt8} (h : fgets size stream = some (line, rest)) :
    line.length ≤ size - 1 := by
  unfold fgets at h
  split at h
  · cases h
  · cases h
    exact (takeLine_isPrefix _).length_le.trans (List.length_take_le _ _)

/-- A buffer of more than one byte takes something. -/
theorem fgets_length_lt {rest : List UInt8} (hsize : 1 < size)
    (h : fgets size stream = some (line, rest)) : rest.length < stream.length := by
  have happend := fgets_append h
  have hne : line ≠ [] := by
    unfold fgets at h
    split at h
    · cases h
    · cases h
      cases stream with
      | nil => contradiction
      | cons c cs =>
        obtain ⟨k, hk⟩ : ∃ k, size - 1 = k + 1 := ⟨size - 2, by omega⟩
        rw [hk, List.take_succ_cons, takeLine]
        split <;> simp
  have hpos := List.length_pos_iff.mpr hne
  rw [happend, List.length_append]
  omega

end CtfChallenges.Framework.Stdio
