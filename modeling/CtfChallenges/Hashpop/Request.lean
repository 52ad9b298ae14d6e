import CtfChallenges.Framework.CString
import Mathlib.Data.List.DropRight

/-!
# Reading the request in hashpop

`main` of `hashpop.c` up to the parser: the body comes from the standard input into a buffer, gets a
terminator, and loses its line ends.
-/

namespace CtfChallenges.Hashpop
open Framework CString

def BUF_SIZE : Nat := 1 <<< 16

def isLineEnd (c : UInt8) : Bool := c = 0x0d || c = 0x0a

/-- The second loop of `rstrip`, with `s` at `b + k`. -/
def rstripLoop (mem : Mem) (b : Nat) : Nat → Option Mem
  | 0 => some mem
  | k + 1 => do
    let s := b + k
    let c ← mem[s]?
    if isLineEnd c then
      let mem ← store mem s 0
      rstripLoop mem b k
    else rstripLoop mem b k

/-- `rstrip`. The first loop stops behind the terminator. -/
def rstrip (mem : Mem) (b : Nat) : Option Mem := do
  let s ← cstr mem b
  rstripLoop mem b (s.length + 1)

/-- How the reading ends: `main` has left with a status, or goes on with the buffer. -/
inductive Read
  | exited (status : Nat)
  | request (buf : Mem)

/-- `main` until it calls `parse_request`, with the block that `malloc` returned. -/
def readRequest (buf : Vector UInt8 BUF_SIZE) (stdin : List UInt8) : Option Read :=
  let got := stdin.take BUF_SIZE
  if got.length = 0 then some (.exited 1)
  else do
    let buf := overwrite buf.toList 0 got
    let buf ← store buf got.length 0
    let buf ← rstrip buf 0
    return .request buf

/-- The text without the line ends at its end. -/
def stripped (s : List UInt8) : List UInt8 := s.rdropWhile isLineEnd

/-- `rstrip` removes the last line ends of the string at `b`, and leaves every byte before them. -/
def StripsEnd (mem : Mem) (b : Nat) (s : List UInt8) : Prop :=
  ∃ mem', rstrip mem b = some mem' ∧ StringAt mem' b (stripped s) ∧
    mem'.take (b + (stripped s).length) = mem.take (b + (stripped s).length)

/-- Reading stays in the buffer, and the string that is parsed is the input without its last line
ends. -/
def ReadsInput (buf : Vector UInt8 BUF_SIZE) (stdin : List UInt8) : Prop :=
  match readRequest buf stdin with
  | none => False
  | some (.exited _) => True
  | some (.request mem) => StringAt mem 0 (stripped stdin)

/-- What becomes of a byte. -/
def clear (c : UInt8) : UInt8 := if isLineEnd c then 0 else c

theorem rstripLoop_eq (front s rest : List UInt8) :
    rstripLoop (front ++ s ++ rest) front.length s.length =
      some (front ++ s.map clear ++ rest) := by
  induction s using List.reverseRecOn generalizing rest with
  | nil => rfl
  | append_singleton s c ih =>
    have hread : (front ++ (s ++ [c]) ++ rest)[front.length + s.length]? = some c := by simp
    rw [List.length_append, List.length_singleton, rstripLoop]
    simp only [hread, Option.bind_eq_bind, Option.bind_some]
    by_cases hc : isLineEnd c
    · have hstore : store (front ++ (s ++ [c]) ++ rest) (front.length + s.length) 0 =
          some (front ++ s ++ 0 :: rest) := by
        simp [store]
      rw [if_pos hc, hstore, Option.bind_some, ih]
      simp [clear, hc]
    · have hsplit : front ++ (s ++ [c]) ++ rest = front ++ s ++ c :: rest := by simp
      rw [if_neg hc, hsplit, ih]
      simp [clear, hc]

/-- The loop clears every line end, not only the last ones. -/
theorem rstrip_eq {mem : Mem} {b : Nat} {s : List UInt8} (h : StringAt mem b s) :
    rstrip mem b = some (overwrite mem b (s.map clear)) := by
  have hlen := h.length_lt
  have hcstr := cstr_eq_some h
  obtain ⟨-, rest, hdrop⟩ := h
  have hsplit : mem = mem.take b ++ (s ++ [0]) ++ rest := by
    rw [List.append_assoc, List.append_assoc, List.singleton_append, ← hdrop,
      List.take_append_drop]
  have hloop := rstripLoop_eq (mem.take b) (s ++ [0]) rest
  have htake : (mem.take b).length = b := by
    rw [List.length_take]
    omega
  have hrest : mem.drop (b + s.length) = 0 :: rest := by
    rw [← List.drop_drop, hdrop, List.drop_left]
  rw [← hsplit, htake, List.length_append, List.length_singleton] at hloop
  rw [rstrip, hcstr, Option.bind_eq_bind, Option.bind_some, hloop, overwrite, List.length_map, hrest]
  simp [clear, isLineEnd]

theorem stripped_append (s : List UInt8) :
    ∃ ends, s = stripped s ++ ends ∧ ∀ c ∈ ends, isLineEnd c = true := by
  refine ⟨s.rtakeWhile isLineEnd, ?_, fun c hc => List.mem_rtakeWhile_imp hc⟩
  rw [stripped, List.rdropWhile_append_rtakeWhile]

/-- The string that is left is the right one when there is no line end but at the end. -/
theorem stringAt_cleared_iff {mem : Mem} {b : Nat} {s : List UInt8} (h : StringAt mem b s) :
    StringAt (overwrite mem b (s.map clear)) b (stripped s) ↔
      ∀ c ∈ stripped s, isLineEnd c = false := by
  have hlen := h.length_lt
  obtain ⟨hnul, rest, hdrop⟩ := h
  obtain ⟨ends, hs, hends⟩ := stripped_append s
  have hcleared : (overwrite mem b (s.map clear)).drop b =
      (stripped s).map clear ++ ((ends.map clear) ++ 0 :: rest) := by
    rw [drop_overwrite_self (by omega), List.length_map, ← List.drop_drop, hdrop, List.drop_left,
      ← List.append_assoc, ← List.map_append, ← hs]
  rw [StringAt, hcleared]
  constructor
  · rintro ⟨hnul', rest', hprefix⟩ c hc
    have hsame : (stripped s).map clear = stripped s :=
      (List.append_inj hprefix (by simp)).1
    by_contra hline
    apply hnul'
    rw [← hsame]
    exact List.mem_map.mpr ⟨c, hc, by simp [clear, hline]⟩
  · intro hline
    have hsame : (stripped s).map clear = stripped s := by
      refine (List.map_congr_left fun c hc => ?_).trans (List.map_id _)
      simp [clear, hline c hc]
    refine ⟨fun hmem => hnul (hs ▸ List.mem_append_left _ hmem), ?_⟩
    rw [hsame]
    cases ends with
    | nil => exact ⟨rest, rfl⟩
    | cons c ends => exact ⟨ends.map clear ++ 0 :: rest, by simp [clear, hends c]⟩

theorem stripsEnd_iff {mem : Mem} {b : Nat} {s : List UInt8} (h : StringAt mem b s) :
    StripsEnd mem b s ↔ ∀ c ∈ stripped s, isLineEnd c = false := by
  rw [← stringAt_cleared_iff h]
  constructor
  · rintro ⟨mem', hrun, hstring, -⟩
    rw [rstrip_eq h, Option.some.injEq] at hrun
    rwa [hrun]
  · intro hstring
    refine ⟨_, rstrip_eq h, hstring, ?_⟩
    have hlen := h.length_lt
    obtain ⟨-, rest, hdrop⟩ := h
    obtain ⟨ends, hs, -⟩ := stripped_append s
    obtain ⟨-, rest', hdrop'⟩ := hstring
    have hfront : mem.drop b = stripped s ++ (ends ++ 0 :: rest) := by
      rw [hdrop, ← List.append_assoc, ← hs]
    rw [List.take_add, List.take_add, take_overwrite (by omega) le_rfl, hdrop', hfront,
      List.take_left, List.take_left]

/-- An input that leaves room for the terminator is read as a string up to its first zero. -/
theorem readRequest_eq (buf : Vector UInt8 BUF_SIZE) {stdin : List UInt8} (hne : stdin ≠ [])
    (hlt : stdin.length < BUF_SIZE) : ∃ mem, StringAt mem 0 (stdin.takeWhile (· ≠ 0)) ∧
      readRequest buf stdin =
        some (.request (overwrite mem 0 ((stdin.takeWhile (· ≠ 0)).map clear))) := by
  have hbuf : buf.toList.length = BUF_SIZE := Vector.length_toList
  have htake : stdin.take BUF_SIZE = stdin := List.take_of_length_le hlt.le
  have hstring : StringAt (overwrite buf.toList 0 (stdin ++ [0])) 0 (stdin.takeWhile (· ≠ 0)) := by
    have hdrop := drop_overwrite_self (Nat.zero_le buf.toList.length) (stdin ++ [0])
    rw [List.append_assoc] at hdrop
    exact stringAt_takeWhile hdrop
  refine ⟨overwrite buf.toList 0 (stdin ++ [0]), hstring, ?_⟩
  have hstore : store (overwrite buf.toList 0 stdin) stdin.length 0 =
      some (overwrite buf.toList 0 (stdin ++ [0])) := by
    rw [store_eq (by rw [length_overwrite (by omega)]; omega), overwrite_append (Nat.zero_le _),
      Nat.zero_add]
  simp only [readRequest, htake, List.length_eq_zero_iff, hne, if_false, hstore,
    Option.bind_eq_bind, Option.bind_some, rstrip_eq hstring]
  rfl

/-- `fread` that fills the buffer leaves no room for the terminator. -/
theorem readRequest_full (buf : Vector UInt8 BUF_SIZE) {stdin : List UInt8}
    (hle : BUF_SIZE ≤ stdin.length) : readRequest buf stdin = none := by
  have hbuf : buf.toList.length = BUF_SIZE := Vector.length_toList
  have hgot : (stdin.take BUF_SIZE).length = BUF_SIZE := by
    rw [List.length_take, Nat.min_eq_left hle]
  have hne : BUF_SIZE ≠ 0 := by decide
  have hlen : (overwrite buf.toList 0 (stdin.take BUF_SIZE)).length = BUF_SIZE := by
    rw [length_overwrite (by omega), hbuf]
  simp only [readRequest, hgot, if_neg hne, store, hlen, lt_irrefl, if_false, Option.bind_eq_bind,
    Option.bind_none]

theorem readsInput_iff (buf : Vector UInt8 BUF_SIZE) (stdin : List UInt8) :
    ReadsInput buf stdin ↔ stdin.length < BUF_SIZE ∧
      ∀ c ∈ stripped stdin, c ≠ 0 ∧ isLineEnd c = false := by
  by_cases hlt : stdin.length < BUF_SIZE
  · by_cases hne : stdin = []
    · subst hne
      have hpos : 0 < BUF_SIZE := hlt
      simp [ReadsInput, readRequest, stripped, hpos]
    · obtain ⟨mem, hstring, hread⟩ := readRequest_eq buf hne hlt
      have hwhole : 0 ∉ stripped stdin → stdin.takeWhile (· ≠ 0) = stdin := by
        intro hnul
        obtain ⟨ends, hs, hends⟩ := stripped_append stdin
        apply takeWhile_ne
        rw [hs, List.mem_append, not_or]
        refine ⟨hnul, fun hmem => ?_⟩
        have hzero := hends 0 hmem
        simp [isLineEnd] at hzero
      simp only [ReadsInput, hread, hlt, true_and]
      constructor
      · intro h
        have hnul := h.1
        have heq := hwhole hnul
        rw [heq] at hstring h
        have hline := (stringAt_cleared_iff hstring).mp h
        exact fun c hc => ⟨fun hzero => hnul (hzero ▸ hc), hline c hc⟩
      · intro h
        have heq := hwhole fun hmem => (h 0 hmem).1 rfl
        rw [heq] at hstring ⊢
        exact (stringAt_cleared_iff hstring).mpr fun c hc => (h c hc).2
  · simp [ReadsInput, readRequest_full buf (not_lt.mp hlt), hlt]

/-- `rstrip` does what it should for a string that has no line end but at its end. The request is
read as it should be when it leaves room for the terminator and, before its last line ends, has no
line end and no zero. -/
theorem request_read_iff (buf : Vector UInt8 BUF_SIZE) (stdin : List UInt8) :
    (∀ mem b s, StringAt mem b s →
      (StripsEnd mem b s ↔ ∀ c ∈ stripped s, isLineEnd c = false)) ∧
      (ReadsInput buf stdin ↔ stdin.length < BUF_SIZE ∧
        ∀ c ∈ stripped stdin, c ≠ 0 ∧ isLineEnd c = false) :=
  ⟨fun _ _ _ h => stripsEnd_iff h, readsInput_iff buf stdin⟩

/-- The request ends at its first line end. -/
theorem inner_line_end_cleared :
    ¬ ReadsInput (Vector.replicate BUF_SIZE 0) [0x61, 0x0a, 0x62] := by
  rw [readsInput_iff]
  rintro ⟨-, hall⟩
  have hline := hall 0x0a (by decide)
  simp [isLineEnd] at hline

end CtfChallenges.Hashpop
