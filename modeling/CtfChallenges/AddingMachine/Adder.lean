import CtfChallenges.Framework.Run
import CtfChallenges.Framework.Stdio
import CtfChallenges.Framework.Strtol
import Mathlib.Algebra.Ring.Int.Defs
import Mathlib.Data.List.GetD
import Mathlib.Data.Vector.Basic

/-!
# The adding machine

`main`, `get_long`, `get_data` and `add_nums` of `adder.c`. What the program prints is left out, but
each call of `get_long` is one question. A `long` has 64 bits and wraps around, and a `char` is signed.
-/

namespace CtfChallenges.AddingMachine
open Framework Stdio

def CHAR_MAX : Nat := 127

/-- `long scratch[CHAR_MAX]`. -/
abbrev Scratch := Vector Int64 CHAR_MAX

def quit : List UInt8 := [0x71, 0x75, 0x69, 0x74]
def debug : List UInt8 := [0x64, 0x65, 0x62, 0x75, 0x67]
def localdebug : List UInt8 := [0x6c, 0x6f, 0x63, 0x61, 0x6c] ++ debug

/-- The string in `buf` after `buf[strcspn(buf, "\\n")] = '\\0'`. -/
def withoutNewline (line : List UInt8) : List UInt8 :=
  (line.takeWhile (· ≠ 0)).takeWhile (· ≠ newline)

/-- `get_long`, which asks again after a command that prints. There is no value where it exits. -/
def get_longLoop : Nat → List UInt8 → Option (Int64 × List UInt8)
  | 0, _ => none
  | fuel + 1, stdin => do
    let (line, stdin) ← fgets 32 stdin
    let buf := withoutNewline line
    if buf = quit then none
    else if buf = debug ∨ buf = localdebug then get_longLoop fuel stdin
    else some (Int64.ofInt (Strtol.atol buf), stdin)

/-- Every question takes something from the input. -/
def get_long (stdin : List UInt8) : Option (Int64 × List UInt8) :=
  get_longLoop (stdin.length + 1) stdin

theorem get_longLoop_fuel {fuel fuel' : Nat} {stdin : List UInt8} (h : stdin.length < fuel)
    (h' : stdin.length < fuel') : get_longLoop fuel stdin = get_longLoop fuel' stdin := by
  induction fuel generalizing fuel' stdin with
  | zero => cases h
  | succ fuel ih =>
    cases fuel' with
    | zero => cases h'
    | succ fuel' =>
      simp only [get_longLoop, Option.bind_eq_bind]
      cases hline : fgets 32 stdin with
      | none => rfl
      | some p =>
        have hlt := fgets_length_lt (by decide) hline
        simp only [Option.bind_some, ih (Nat.lt_of_lt_of_le hlt (Nat.le_of_lt_succ h))
          (Nat.lt_of_lt_of_le hlt (Nat.le_of_lt_succ h'))]

/-- The questions never run out before the input does. -/
theorem get_long_eq (stdin : List UInt8) : get_long stdin = (fgets 32 stdin).bind fun p =>
    if withoutNewline p.1 = quit then none
    else if withoutNewline p.1 = debug ∨ withoutNewline p.1 = localdebug then get_long p.2
    else some (Int64.ofInt (Strtol.atol (withoutNewline p.1)), p.2) := by
  rw [get_long, get_longLoop, Option.bind_eq_bind]
  cases hline : fgets 32 stdin with
  | none => rfl
  | some p =>
    have hlt := fgets_length_lt (by decide) hline
    simp only [Option.bind_some]
    rw [get_longLoop_fuel hlt (Nat.lt_succ_self p.2.length)]
    rfl

/-- How `get_data` may end before its loop does. -/
inductive Stop
  | exit (asked : Nat)
  | outOfBounds (index : Nat)
deriving DecidableEq, Repr

/-- The array, the rest of the input, and the numbers that have been entered. -/
structure Filling where
  array : Scratch
  stdin : List UInt8
  entered : List Int64

def dataPass (s : Filling) (i : Nat) : Except Stop Filling :=
  match get_long s.stdin with
  | none => .error (.exit (i + 1))
  | some (v, stdin) =>
    if h : i < CHAR_MAX then .ok ⟨s.array.set i v h, stdin, s.entered ++ [v]⟩
    else .error (.outOfBounds i)

def get_data (array : Scratch) (l : UInt8) (stdin : List UInt8) : Except Stop Filling :=
  (List.range l.toNat).foldlM dataPass ⟨array, stdin, []⟩

/-- There is no value where it reads behind the array. -/
def add_nums (array : Scratch) (l : UInt8) : Option Int64 :=
  (List.range l.toNat).foldlM (fun total i => array[i]?.map (total + ·)) 0

inductive Outcome
  | exit
  | tooMany
  | outOfBounds
  | total (v : Int64)
deriving DecidableEq, Repr

/-- `(unsigned char)num_ints`. -/
def toUnsignedChar (num_ints : Int64) : UInt8 := num_ints.toUInt64.toUInt8

/-- `main`, where `scratch` holds what was on the stack. -/
def main (scratch : Scratch) (stdin : List UInt8) : Outcome :=
  match get_long stdin with
  | none => .exit
  | some (num_ints, stdin) =>
    if num_ints.toInt > CHAR_MAX then .tooMany
    else match get_data scratch (toUnsignedChar num_ints) stdin with
      | .error (.exit _) => .exit
      | .error (.outOfBounds _) => .outOfBounds
      | .ok s => (add_nums s.array (toUnsignedChar num_ints)).elim .outOfBounds .total

/-- The numbers that questions one after the other get, and the input behind them. -/
inductive Answers (stdin : List UInt8) : List Int64 → List UInt8 → Prop where
  | none : Answers stdin [] stdin
  | more {vs : List Int64} {v : Int64} {mid rest : List UInt8} : Answers stdin vs mid →
      get_long mid = some (v, rest) → Answers stdin (vs ++ [v]) rest

/-- A run that is to ask for `n` numbers: it stores and adds those, or the user leaves it before. -/
def AsksFor (n : Nat) (num_ints : Int64) (scratch : Scratch) (stdin : List UInt8) : Prop :=
  match get_data scratch (toUnsignedChar num_ints) stdin with
  | .error (.outOfBounds _) => False
  | .error (.exit asked) => asked ≤ n ∧
      ∃ vs rest, Answers stdin vs rest ∧ vs.length + 1 = asked ∧ get_long rest = none
  | .ok s => s.entered.length = n ∧ Answers stdin s.entered s.stdin ∧
      (∀ i (hi : i < CHAR_MAX), s.array[i] = s.entered.getD i scratch[i]) ∧
      add_nums s.array (toUnsignedChar num_ints) =
        some (Int64.ofInt (s.entered.map Int64.toInt).sum)

/-- The loop of `get_data` after `l` passes. -/
structure Filled (scratch : Scratch) (stdin : List UInt8) (l : Nat) (s : Filling) : Prop where
  count : s.entered.length = l
  room : l ≤ CHAR_MAX
  answers : Answers stdin s.entered s.stdin
  array : ∀ i (hi : i < CHAR_MAX), s.array[i] = s.entered.getD i scratch[i]

/-- How the loop may end: done, left by the user, or with the array full. -/
def Ends (scratch : Scratch) (stdin : List UInt8) (l : Nat) : Except Stop Filling → Prop
  | .ok s => Filled scratch stdin l s
  | .error (.exit asked) => 0 < asked ∧ asked ≤ l ∧
      ∃ vs rest, Answers stdin vs rest ∧ vs.length + 1 = asked ∧ get_long rest = none
  | .error (.outOfBounds _) => CHAR_MAX < l

variable {scratch : Scratch} {stdin : List UInt8} {l : Nat} {s : Filling}

theorem Filled.pass (h : Filled scratch stdin l s) : Ends scratch stdin (l + 1) (dataPass s l) := by
  unfold dataPass
  cases hlong : get_long s.stdin with
  | none => exact ⟨Nat.succ_pos l, le_rfl, s.entered, s.stdin, h.answers, by rw [h.count], hlong⟩
  | some p =>
    by_cases hroom : l < CHAR_MAX
    · simp only [dif_pos hroom]
      refine ⟨by simp [h.count], hroom, .more h.answers hlong, ?_⟩
      intro i hi
      simp only [Vector.getElem_set]
      split
      · rename_i heq
        subst heq
        simp [List.getD_eq_getElem?_getD, ← h.count]
      · rename_i hne
        rw [h.array i hi]
        rcases Nat.lt_or_gt_of_ne hne with hlt | hgt
        · have hle : s.entered.length ≤ i := h.count ▸ Nat.le_of_lt hlt
          have hlen : (s.entered ++ [p.1]).length ≤ i := by
            rw [List.length_append, h.count]
            exact hlt
          rw [List.getD_eq_default _ _ hle, List.getD_eq_default _ _ hlen]
        · rw [List.getD_append _ _ _ _ (by rw [h.count]; exact hgt)]
    · simp only [dif_neg hroom]
      exact Nat.lt_succ_of_le (Nat.le_of_not_lt hroom)

theorem get_data_ends (scratch : Scratch) (stdin : List UInt8) (l : Nat) :
    Ends scratch stdin l ((List.range l).foldlM dataPass ⟨scratch, stdin, []⟩) := by
  induction l with
  | zero => exact ⟨rfl, Nat.zero_le _, .none, fun i hi => rfl⟩
  | succ l ih =>
    rw [List.range_succ, List.foldlM_append]
    cases hrun : (List.range l).foldlM dataPass ⟨scratch, stdin, []⟩ with
    | error stop =>
      rw [hrun] at ih
      cases stop with
      | exit asked => exact ⟨ih.1, Nat.le_succ_of_le ih.2.1, ih.2.2⟩
      | outOfBounds i => exact Nat.lt_succ_of_lt ih
    | ok s =>
      rw [hrun] at ih
      simp only [List.foldlM_cons, List.foldlM_nil, bind_pure]
      exact Filled.pass ih

theorem Filled.add_nums (h : Filled scratch stdin l s) :
    (List.range l).foldlM (fun total i => s.array[i]?.map (total + ·)) 0 =
      some (Int64.ofInt (s.entered.map Int64.toInt).sum) := by
  have hprefix : ∀ k ≤ l, (List.range k).foldlM (fun total i => s.array[i]?.map (total + ·)) 0 =
      some (Int64.ofInt ((s.entered.take k).map Int64.toInt).sum) := by
    intro k
    induction k with
    | zero => exact fun _ => rfl
    | succ k ih =>
      intro hk
      have hlen : k < s.entered.length := h.count ▸ hk
      have hcell : s.array[k]? = some s.entered[k] := by
        have hk' : k < CHAR_MAX := Nat.lt_of_lt_of_le hk h.room
        rw [Vector.getElem?_eq_getElem hk', h.array k hk', List.getD_eq_getElem _ _ hlen]
      rw [List.range_succ, List.foldlM_append, ih (Nat.le_of_succ_le hk),
        List.take_succ_eq_append_getElem hlen]
      simp only [List.foldlM_cons, List.foldlM_nil, bind_pure, Option.bind_eq_bind, Option.bind_some,
        hcell, Option.map_some, List.map_append, List.map_cons, List.map_nil, List.sum_append,
        List.sum_cons, List.sum_nil, add_zero, Int64.ofInt_add, Int64.ofInt_toInt]
  have hall := hprefix l le_rfl
  rwa [List.take_of_length_le h.count.le] at hall

theorem toUnsignedChar_toNat (num_ints : Int64) :
    ((toUnsignedChar num_ints).toNat : Int) = num_ints.toInt % 256 := by
  have hbits : (toUnsignedChar num_ints).toNat = num_ints.toBitVec.toNat % 256 := by
    simp only [toUnsignedChar, UInt64.toNat_toUInt8]
    rfl
  have hint : num_ints.toInt = num_ints.toBitVec.toInt := rfl
  rw [hbits, hint, BitVec.toInt_eq_toNat_cond]
  split <;> omega

/-- A count that the conversion keeps is asked for. -/
theorem asksFor_of_eq {num_ints : Int64} (h : (toUnsignedChar num_ints).toNat ≤ CHAR_MAX) :
    AsksFor (toUnsignedChar num_ints).toNat num_ints scratch stdin := by
  have hends := get_data_ends scratch stdin (toUnsignedChar num_ints).toNat
  unfold AsksFor get_data add_nums
  generalize (List.range (toUnsignedChar num_ints).toNat).foldlM dataPass _ = run at hends ⊢
  cases run with
  | error stop =>
    cases stop with
    | exit asked => exact ⟨hends.2.1, hends.2.2⟩
    | outOfBounds i => exact absurd hends (Nat.not_lt.mpr h)
  | ok s => exact ⟨hends.count, hends.answers, hends.array, Filled.add_nums hends⟩

/-- Where nothing is to be asked for, a count that the conversion makes positive asks. -/
theorem eq_zero_of_asksFor {num_ints : Int64} (h : AsksFor 0 num_ints scratch stdin) :
    (toUnsignedChar num_ints).toNat = 0 := by
  have hends := get_data_ends scratch stdin (toUnsignedChar num_ints).toNat
  unfold AsksFor get_data at h
  generalize (List.range (toUnsignedChar num_ints).toNat).foldlM dataPass _ = run at h hends
  cases run with
  | error stop =>
    cases stop with
    | exit asked => exact absurd hends.1 (Nat.not_lt.mpr h.1)
    | outOfBounds i => exact h.elim
  | ok s => exact hends.count.symm.trans h.1

/-- Behind the test of `main`, the conversion keeps the counts that are not negative and takes the
multiples of 256 to none. -/
theorem asks_for_count_iff (num_ints : Int64) (h : ¬num_ints.toInt > CHAR_MAX) (scratch : Scratch)
    (stdin : List UInt8) :
    AsksFor num_ints.toInt.toNat num_ints scratch stdin ↔
      0 ≤ num_ints.toInt ∨ 256 ∣ num_ints.toInt := by
  have hbyte := toUnsignedChar_toNat num_ints
  have hmax : CHAR_MAX = 127 := rfl
  constructor
  · intro hasks
    rcases Int.le_total 0 num_ints.toInt with hpos | hneg
    · exact .inl hpos
    · rw [Int.toNat_of_nonpos hneg] at hasks
      have hzero := eq_zero_of_asksFor hasks
      right
      omega
  · intro hcount
    have heq : num_ints.toInt.toNat = (toUnsignedChar num_ints).toNat := by omega
    rw [heq]
    apply asksFor_of_eq
    omega

theorem asks_for_count_iff_three : ¬(3 : Int64).toInt > CHAR_MAX ∧
    AsksFor 3 3 (Vector.replicate CHAR_MAX 7) [0x31, 0x0a, 0x32, 0x0a, 0x35, 0x0a] := by
  have h := asks_for_count_iff 3 (by decide) (Vector.replicate CHAR_MAX 7)
    [0x31, 0x0a, 0x32, 0x0a, 0x35, 0x0a]
  exact ⟨by decide, h.mpr (.inl (by decide))⟩

set_option maxRecDepth 4000 in
/-- The count -1, and 128 lines with a one on each of them. -/
theorem minus_one_overflows : ¬(-1 : Int64).toInt > CHAR_MAX ∧
    ¬AsksFor (-1 : Int64).toInt.toNat (-1) (Vector.replicate CHAR_MAX 0)
      (List.replicate 128 [0x31, 0x0a]).flatten ∧
    main (Vector.replicate CHAR_MAX 0)
      ([0x2d, 0x31, 0x0a] ++ (List.replicate 128 [0x31, 0x0a]).flatten) = .outOfBounds := by
  have hcount : (-1 : Int64).toInt.toNat = 0 := by decide
  have hbyte : (toUnsignedChar (-1)).toNat ≠ 0 := by decide
  refine ⟨by decide, ?_, by decide +kernel⟩
  rw [hcount]
  generalize (List.replicate 128 [0x31, 0x0a]).flatten = stdin
  exact fun h => hbyte (eq_zero_of_asksFor h)

end CtfChallenges.AddingMachine
