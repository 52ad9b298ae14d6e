import Mathlib.Algebra.Group.Nat.Defs
import Mathlib.Data.List.Flatten
import Mathlib.Data.Nat.Bitwise
import Mathlib.Tactic.Ring

/-!
# Texts of blocks of one length

A text that is put together from pieces of equal length, and its pieces again by their offsets; and
the numbers of four bytes that stand in front of such texts.

A number written out one bit after the other from the top, and read back by shifting each bit in
at the bottom.
-/

namespace CtfChallenges.Framework.Blocks

variable {α : Type*}

/-- `xs[i:j]` with bounds that are not negative. -/
def slice (xs : List α) (i j : Nat) : List α := (xs.take j).drop i

theorem length_flatten {w : Nat} {ls : List (List α)} (h : ∀ l ∈ ls, l.length = w) :
    ls.flatten.length = w * ls.length := by
  induction ls with
  | nil => rfl
  | cons l ls ih =>
    rw [List.forall_mem_cons] at h
    rw [List.flatten_cons, List.length_append, h.1, ih h.2, List.length_cons, Nat.mul_succ,
      Nat.add_comm]

theorem drop_flatten {w : Nat} {ls : List (List α)} (h : ∀ l ∈ ls, l.length = w) (i : Nat) :
    ls.flatten.drop (w * i) = (ls.drop i).flatten := by
  induction ls generalizing i with
  | nil => simp
  | cons l ls ih =>
    rw [List.forall_mem_cons] at h
    cases i with
    | zero => rfl
    | succ i =>
      rw [List.flatten_cons, List.drop_succ_cons, ← ih h.2 i, Nat.mul_succ, Nat.add_comm,
        ← List.drop_drop, List.drop_left' h.1]

/-- The pieces lie at the multiples of their length. -/
theorem slice_flatten {w : Nat} {ls : List (List α)} (h : ∀ l ∈ ls, l.length = w) {i : Nat}
    {l : List α} (hl : ls[i]? = some l) : slice ls.flatten (w * i) (w * (i + 1)) = l := by
  have hdrop : ls.drop i = l :: ls.drop (i + 1) := by
    obtain ⟨hi, rfl⟩ := List.getElem?_eq_some_iff.mp hl
    exact List.drop_eq_getElem_cons hi
  have hlength : l.length = w := h l (List.mem_of_getElem? hl)
  have hsub : w * (i + 1) - w * i = w := by rw [Nat.mul_succ, Nat.add_sub_cancel_left]
  rw [slice, List.drop_take, hsub, drop_flatten h, hdrop, List.flatten_cons,
    List.take_left' hlength]

/-- A list in pieces of `n`, the last of which may be shorter. -/
def chunks (n : Nat) (xs : List α) : List (List α) :=
  (List.range ((xs.length + (n - 1)) / n)).map fun i => (xs.drop (n * i)).take n

theorem chunks_append {n : Nat} (hn : 0 < n) {xs : List α} (hxs : xs.length = n) (ys : List α) :
    chunks n (xs ++ ys) = xs :: chunks n ys := by
  have hcount : ((xs ++ ys).length + (n - 1)) / n = (ys.length + (n - 1)) / n + 1 := by
    rw [List.length_append, hxs, Nat.add_assoc, Nat.add_div_left _ hn]
  have hdrop (i : Nat) : (xs ++ ys).drop (n * (i + 1)) = ys.drop (n * i) := by
    rw [Nat.mul_succ, Nat.add_comm, ← List.drop_drop, List.drop_left' hxs]
  rw [chunks, hcount, List.range_succ_eq_map]
  simp only [List.map_cons, List.map_map, Nat.mul_zero, List.drop_zero, List.take_left' hxs]
  simp only [Function.comp_def, Nat.succ_eq_add_one, hdrop, chunks]

theorem chunks_of_le {n : Nat} {xs : List α} (hne : xs ≠ []) (hxs : xs.length ≤ n) :
    chunks n xs = [xs] := by
  have hpos := List.length_pos_iff.mpr hne
  have hcount : (xs.length + (n - 1)) / n = 1 := by
    rw [Nat.div_eq_iff (by omega)]
    omega
  rw [chunks, hcount]
  simp [List.take_of_length_le hxs]

theorem chunks_map {β : Type*} (f : α → β) (n : Nat) (xs : List α) :
    chunks n (xs.map f) = (chunks n xs).map (List.map f) := by
  simp [chunks, List.map_take, List.map_drop]

/-- A fact about lists from the fact about short ones, one chunk at a time. -/
theorem chunks_induction {n : Nat} {P : List α → Prop} (hn : 0 < n)
    (hshort : ∀ xs, xs.length < n → P xs) (happend : ∀ xs ys, xs.length = n → P ys → P (xs ++ ys))
    (xs : List α) : P xs := by
  induction h : xs.length using Nat.strongRecOn generalizing xs with
  | ind len ih =>
    by_cases hlt : xs.length < n
    · exact hshort xs hlt
    · rw [← List.take_append_drop n xs]
      apply happend
      · rw [List.length_take]
        omega
      · exact ih (len - n) (by omega) _ (by rw [List.length_drop, h])

/-- The bytes of a number below `2 ^ 32`, the highest first. -/
def bigEndian (v : Nat) : List UInt8 :=
  [.ofNat (v / 2 ^ 24), .ofNat (v / 2 ^ 16), .ofNat (v / 2 ^ 8), .ofNat v]

/-- `struct.pack('>I', v)`, with no value for a number that does not fit. -/
def pack (v : Nat) : Option (List UInt8) := if v < 2 ^ 32 then some (bigEndian v) else none

/-- `struct.pack('<I', v)`: the same bytes, the lowest first. -/
def packLow (v : Nat) : Option (List UInt8) := (pack v).map List.reverse

/-- `struct.unpack('>I', bs)[0]`, with no value for any other number of bytes than four. -/
def unpack : List UInt8 → Option Nat
  | [a, b, c, d] => some (a.toNat * 2 ^ 24 + b.toNat * 2 ^ 16 + c.toNat * 2 ^ 8 + d.toNat)
  | _ => none

theorem unpack_bigEndian {v : Nat} (h : v < 2 ^ 32) : unpack (bigEndian v) = some v := by
  simp only [bigEndian, unpack, UInt8.toNat_ofNat', Option.some.injEq]
  omega

end CtfChallenges.Framework.Blocks

namespace CtfChallenges.Framework

/-- The bits `n - 1` to `0`. -/
def highFirst (v : Nat) : Nat → List Bool
  | 0 => []
  | n + 1 => v.testBit n :: highFirst v n

/-- `bits` shifted in behind `u`. -/
def shiftIn (u : Nat) (bits : List Bool) : Nat := bits.foldl (fun u b => u <<< 1 ||| b.toNat) u

@[simp] theorem highFirst_zero (v : Nat) : highFirst v 0 = [] := rfl

@[simp] theorem highFirst_succ (v n : Nat) :
    highFirst v (n + 1) = v.testBit n :: highFirst v n := rfl

theorem shift_or_bit (u : Nat) (b : Bool) : u <<< 1 ||| b.toNat = 2 * u + b.toNat := by
  rw [← Nat.shiftLeft_add_eq_or_of_lt (by cases b <;> decide), Nat.shiftLeft_eq]
  omega

private theorem mod_two_pow_succ (v n : Nat) :
    v % 2 ^ (n + 1) = v % 2 ^ n + 2 ^ n * (v.testBit n).toNat := by
  have hbit : (v.testBit n).toNat = v / 2 ^ n % 2 := by
    rw [Nat.testBit_eq_decide_div_mod_eq]
    rcases Nat.mod_two_eq_zero_or_one (v / 2 ^ n) with h | h <;> simp [h]
  rw [hbit, pow_succ, Nat.mod_mul]

theorem shiftIn_highFirst (v n u : Nat) : shiftIn u (highFirst v n) = u * 2 ^ n + v % 2 ^ n := by
  induction n generalizing u with
  | zero => simp [shiftIn, Nat.mod_one]
  | succ n ih =>
    have hstep : shiftIn u (highFirst v (n + 1)) =
        shiftIn (u <<< 1 ||| (v.testBit n).toNat) (highFirst v n) := rfl
    rw [hstep, ih, shift_or_bit, mod_two_pow_succ, pow_succ]
    ring

/-- Reading a number's bits gives the number back. -/
theorem shiftIn_highFirst_of_lt {v n : Nat} (h : v < 2 ^ n) : shiftIn 0 (highFirst v n) = v := by
  rw [shiftIn_highFirst, Nat.zero_mul, Nat.zero_add, Nat.mod_eq_of_lt h]

private theorem shiftIn_div (u : Nat) (bits : List Bool) :
    shiftIn u bits / 2 ^ bits.length = u := by
  induction bits generalizing u with
  | nil => simp [shiftIn]
  | cons b bits ih =>
    have hstep : shiftIn u (b :: bits) = shiftIn (u <<< 1 ||| b.toNat) bits := rfl
    have hb := b.toNat_le
    rw [hstep, List.length_cons, pow_succ, ← Nat.div_div_eq_div_mul, ih, shift_or_bit]
    omega

theorem shiftIn_lt (bits : List Bool) : shiftIn 0 bits < 2 ^ bits.length := by
  have hdiv := shiftIn_div 0 bits
  rwa [Nat.div_eq_zero_iff_lt (Nat.two_pow_pos _)] at hdiv

/-- Writing a number gives back the bits that were read. -/
theorem highFirst_shiftIn (u : Nat) (bits : List Bool) :
    highFirst (shiftIn u bits) bits.length = bits := by
  induction bits generalizing u with
  | nil => rfl
  | cons b bits ih =>
    have hstep : shiftIn u (b :: bits) = shiftIn (u <<< 1 ||| b.toNat) bits := rfl
    have htop : (shiftIn u (b :: bits)).testBit bits.length = b := by
      rw [Nat.testBit_eq_decide_div_mod_eq, hstep, shiftIn_div, shift_or_bit]
      cases b <;> simp
    rw [List.length_cons, highFirst_succ, htop, hstep, ih]

end CtfChallenges.Framework
