import CtfChallenges.Framework.Json
import Mathlib.Data.Nat.Basic
import Mathlib.Logic.Function.Iterate
import Mathlib.Order.Basic
import Mathlib.Order.Monotone.Basic

/-!
# Slices and strings of the Go language

A slice is a window into a backing array. Appending to it writes into that array while there is
capacity left, whoever else looks at the array, and moves to a fresh array otherwise.

A string is any sequence of bytes. Ranging over it, or converting it to `[]rune`, takes a character
at a time, and U+FFFD for every byte that is no UTF-8; converting back encodes the characters.
-/

namespace CtfChallenges.Framework.Go

/-- The backing arrays by address. Addresses from `next` on are not in use. -/
structure Heap (α : Type) where
  cell : Nat → Nat → α
  next : Nat

structure Slice where
  arr : Nat
  len : Nat
  cap : Nat
  len_le : len ≤ cap
deriving DecidableEq

/-- The capacity of the array that replaces a full one. -/
structure GrowPolicy where
  grow : Nat → Nat
  lt_grow : ∀ c, c < grow c

variable {α : Type}

def nilSlice : Slice := ⟨0, 0, 0, le_rfl⟩

def Heap.empty [Inhabited α] : Heap α := ⟨fun _ _ => default, 0⟩

def Heap.write (h : Heap α) (a i : Nat) (x : α) : Heap α :=
  { h with cell := fun b j => if b = a ∧ j = i then x else h.cell b j }

/-- A fresh array that begins with the elements of `s`. -/
def Heap.copy [Inhabited α] (h : Heap α) (s : Slice) : Heap α where
  cell b j := if b = h.next then if j < s.len then h.cell s.arr j else default else h.cell b j
  next := h.next + 1

def append [Inhabited α] (g : GrowPolicy) (h : Heap α) (s : Slice) (x : α) : Slice × Heap α :=
  if hlt : s.len < s.cap then
    (⟨s.arr, s.len + 1, s.cap, hlt⟩, h.write s.arr s.len x)
  else
    (⟨h.next, s.len + 1, g.grow s.cap, s.len_le.trans_lt (g.lt_grow s.cap)⟩,
      (h.copy s).write h.next s.len x)

/-- The `k` cells of an array from position `n` on. -/
def Heap.segment (h : Heap α) (a n k : Nat) : List α := (List.range' n k).map (h.cell a)

def Heap.read (h : Heap α) (s : Slice) : List α := h.segment s.arr 0 s.len

@[simp] theorem segment_zero (h : Heap α) (a n : Nat) : h.segment a n 0 = [] := rfl

@[simp] theorem segment_succ (h : Heap α) (a n k : Nat) :
    h.segment a n (k + 1) = h.cell a n :: h.segment a (n + 1) k := rfl

theorem segment_add (h : Heap α) (a n k : Nat) :
    h.segment a 0 (n + k) = h.segment a 0 n ++ h.segment a n k := by
  unfold Heap.segment
  rw [← List.map_append, List.range'_append_1 (s := 0) (m := n) (n := k) |>.symm]
  simp

theorem segment_congr {h h' : Heap α} {a n k : Nat}
    (heq : ∀ i, n ≤ i → i < n + k → h'.cell a i = h.cell a i) :
    h'.segment a n k = h.segment a n k := by
  apply List.map_congr_left
  intro i hi
  rw [List.mem_range'_1] at hi
  exact heq i hi.1 hi.2

/-- From `h` to `h'` nothing changed but fresh arrays and the spare cells of `s`. -/
structure Frame (s : Slice) (h h' : Heap α) : Prop where
  next_le : h.next ≤ h'.next
  cell_eq : ∀ b i, b < h.next → (b = s.arr → s.len < s.cap → i < s.len) →
    h'.cell b i = h.cell b i

/-- The array of `s` is in use, if it has any. -/
def Slice.In (s : Slice) (h : Heap α) : Prop := 0 < s.cap → s.arr < h.next

theorem Frame.refl (s : Slice) (h : Heap α) : Frame s h h := ⟨le_rfl, fun _ _ _ _ => rfl⟩

theorem Frame.trans {s : Slice} {h h' h'' : Heap α} (h1 : Frame s h h') (h2 : Frame s h' h'') :
    Frame s h h'' where
  next_le := h1.next_le.trans h2.next_le
  cell_eq b i hb hspare :=
    (h2.cell_eq b i (hb.trans_le h1.next_le) hspare).trans (h1.cell_eq b i hb hspare)

theorem Slice.In.mono {s : Slice} {h h' : Heap α} (hs : s.In h) (hle : h.next ≤ h'.next) : s.In h' :=
  fun hcap => (hs hcap).trans_le hle

theorem In_nilSlice (h : Heap α) : nilSlice.In h := fun hcap => absurd hcap (lt_irrefl 0)

/-- The elements of a slice survive what happens to its spare cells. -/
theorem Frame.segment_eq {s : Slice} {h h' : Heap α} (hf : Frame s h h') (hs : s.In h) :
    h'.segment s.arr 0 s.len = h.segment s.arr 0 s.len := by
  apply segment_congr
  intro i _ hi
  have hlen : i < s.len := by omega
  exact hf.cell_eq s.arr i (hs (by have := s.len_le; omega)) fun _ _ => hlen

section Append
variable [Inhabited α] (g : GrowPolicy) (h : Heap α) (s : Slice) (x : α)

theorem append_len : (append g h s x).1.len = s.len + 1 := by
  unfold append
  split <;> rfl

theorem append_cap :
    (append g h s x).1.cap = if s.len < s.cap then s.cap else g.grow s.cap := by
  unfold append
  split <;> rfl

theorem append_arr :
    (append g h s x).1.arr = if s.len < s.cap then s.arr else h.next := by
  unfold append
  split <;> rfl

theorem append_next :
    (append g h s x).2.next = if s.len < s.cap then h.next else h.next + 1 := by
  unfold append
  split <;> rfl

theorem append_in (hs : s.In h) : (append g h s x).1.In (append g h s x).2 := by
  intro _
  rw [append_arr, append_next]
  split
  · exact hs (by omega)
  · omega

theorem append_frame : Frame s h (append g h s x).2 := by
  constructor
  · rw [append_next]
    split <;> omega
  · intro b i hb hspare
    unfold append
    split
    · rename_i hlt
      have hne : ¬ (b = s.arr ∧ i = s.len) := fun ⟨ha, hi⟩ => by
        have := hspare ha hlt
        omega
      simp only [Heap.write, hne, if_false]
    · have hne : b ≠ h.next := by omega
      simp only [Heap.write, Heap.copy, hne, false_and, if_false]

@[simp] theorem append_cell :
    (append g h s x).2.cell (append g h s x).1.arr s.len = x := by
  unfold append
  split <;> simp [Heap.write]

/-- The new slice has the old elements in front. -/
theorem append_segment :
    (append g h s x).2.segment (append g h s x).1.arr 0 s.len = h.segment s.arr 0 s.len := by
  apply List.map_congr_left
  intro i hi
  rw [List.mem_range'_1] at hi
  have hne : i ≠ s.len := by omega
  have hlt : i < s.len := by omega
  unfold append
  split <;> simp [Heap.write, Heap.copy, hne, hlt]

/-- A frame of the new slice is one of the old. -/
theorem Frame.of_append {h' : Heap α}
    (hf : Frame (append g h s x).1 (append g h s x).2 h') : Frame s h h' := by
  have hadd := append_frame g h s x
  refine ⟨hadd.next_le.trans hf.next_le, fun b i hb hspare => ?_⟩
  rw [← hadd.cell_eq b i hb hspare]
  apply hf.cell_eq b i (hb.trans_le hadd.next_le)
  intro harr _
  rw [append_arr] at harr
  rw [append_len]
  split at harr
  · rename_i hlt
    have := hspare harr hlt
    omega
  · omega

end Append

/-- The capacities of the arrays that appending to the nil slice goes through. -/
def GrowPolicy.IsCapacity (g : GrowPolicy) (l : Nat) : Prop := ∃ k, g.grow^[k] 0 = l

theorem GrowPolicy.isCapacity_zero (g : GrowPolicy) : g.IsCapacity 0 := ⟨0, rfl⟩

theorem GrowPolicy.IsCapacity.grow {g : GrowPolicy} {c : Nat} (h : g.IsCapacity c) :
    g.IsCapacity (g.grow c) := by
  obtain ⟨k, rfl⟩ := h
  exact ⟨k + 1, Function.iterate_succ_apply' g.grow k 0⟩

theorem GrowPolicy.iterate_strictMono (g : GrowPolicy) : StrictMono fun k => g.grow^[k] 0 := by
  apply strictMono_nat_of_lt_succ
  intro k
  rw [Function.iterate_succ_apply']
  exact g.lt_grow _

/-- No capacity lies strictly between a capacity and the next. -/
theorem GrowPolicy.IsCapacity.not_between {g : GrowPolicy} {c l : Nat} (h : g.IsCapacity c)
    (hcl : c < l) (hlt : l < g.grow c) : ¬ g.IsCapacity l := by
  rintro ⟨j, rfl⟩
  obtain ⟨k, rfl⟩ := h
  have hkj : k < j := g.iterate_strictMono.lt_iff_lt.mp hcl
  rw [← Function.iterate_succ_apply' g.grow k 0] at hlt
  have hjk : j < k + 1 := g.iterate_strictMono.lt_iff_lt.mp hlt
  omega

end CtfChallenges.Framework.Go

namespace CtfChallenges.Framework.Runes
open Json

/-- `[]rune(s)` -/
def runes : Bytes → List Char
  | [] => []
  | c :: s => (decodeRune (c :: s)).1 :: runes (s.drop ((decodeRune (c :: s)).2 - 1))
termination_by s => s.length
decreasing_by
  rw [List.length_drop, List.length_cons]
  omega

/-- `string(cs)` -/
def encode (cs : List Char) : Bytes := cs.flatMap String.utf8EncodeChar

@[simp] theorem runes_nil : runes [] = [] := by
  rw [runes]

@[simp] theorem runes_eq_nil {s : Bytes} : runes s = [] ↔ s = [] := by
  cases s with
  | nil => simp
  | cons c s => simp [runes]

@[simp] theorem encode_nil : encode [] = [] := rfl

theorem encode_cons (c : Char) (cs : List Char) :
    encode (c :: cs) = String.utf8EncodeChar c ++ encode cs := rfl

theorem exists_cons_encodeChar (c : Char) : ∃ b bs, String.utf8EncodeChar c = b :: bs := by
  apply List.exists_cons_of_length_pos
  rw [String.length_utf8EncodeChar]
  exact c.utf8Size_pos

@[simp] theorem encode_eq_nil {cs : List Char} : encode cs = [] ↔ cs = [] := by
  cases cs with
  | nil => simp
  | cons c cs =>
    obtain ⟨b, bs, hb⟩ := exists_cons_encodeChar c
    simp [encode_cons, hb]

theorem decodeRune_encode (c : Char) (s : Bytes) :
    decodeRune (String.utf8EncodeChar c ++ s) = (c, c.utf8Size) := by
  have htake : (String.utf8EncodeChar c ++ s).take 4 =
      String.utf8EncodeChar c ++ s.take (4 - c.utf8Size) := by
    have hlen : (String.utf8EncodeChar c).length ≤ 4 := by
      rw [String.length_utf8EncodeChar]
      exact c.utf8Size_le_four
    rw [List.take_append, List.take_of_length_le hlen, String.length_utf8EncodeChar]
  rw [decodeRune, htake, List.toByteArray_append, ByteArray.utf8DecodeChar?_utf8EncodeChar_append]

/-- Characters that were encoded are read back. -/
theorem runes_encode (cs : List Char) : runes (encode cs) = cs := by
  induction cs with
  | nil => simp
  | cons c cs ih =>
    obtain ⟨b, bs, hb⟩ := exists_cons_encodeChar c
    have hdecode := decodeRune_encode c (encode cs)
    have hsize : bs.length = c.utf8Size - 1 := by
      rw [← String.length_utf8EncodeChar c, hb, List.length_cons, Nat.add_sub_cancel]
    rw [hb, List.cons_append] at hdecode
    rw [encode_cons, hb, List.cons_append, runes, hdecode, ← hsize, List.drop_left, ih]

end CtfChallenges.Framework.Runes
