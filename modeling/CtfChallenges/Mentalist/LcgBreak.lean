import Mathlib.Data.List.Iterate
import CtfChallenges.Framework.Congruence
import CtfChallenges.Framework.Run
import CtfChallenges.Mentalist.Generator

/-!
# Breaking the generator of the Mentalist

The solution script takes consecutive outputs, finds the modulus as a gcd of determinants, solves
congruences for the multiplier and tries each solution. Its integers are unbounded, but the range
that lists the solutions of one congruence is counted in machine integers: the script dies where
one has more of them than that.
-/

namespace CtfChallenges.Mentalist
open Framework LinearCongruence

/-- The largest end of a range. -/
def IV_MAX : Int := 9223372036854775807

def IV_MIN : Int := -9223372036854775808

/-- `d = a * x + b * y` where `d` is the gcd. -/
def euclid_gcd (a b : Int) : Int × Int × Int :=
  if b = 0 then (a, 1, 0)
  else
    let (d2, x2, y2) := euclid_gcd b (a.fmod b)
    (d2, y2, x2 - a.fdiv b * y2)
termination_by b.natAbs
decreasing_by
  rename_i hb
  rcases lt_or_gt_of_ne hb with h | h
  · have hneg := Int.neg_fmod_neg a b
    have hnonneg := Int.fmod_nonneg_of_pos (-a) (Int.neg_pos_of_neg h)
    have hlt := Int.fmod_lt_of_pos (-a) (Int.neg_pos_of_neg h)
    omega
  · have hnonneg := Int.fmod_nonneg_of_pos a h
    have hlt := Int.fmod_lt_of_pos a h
    omega

/-- `a * x = b mod n`: the solutions go behind those in `s`. There is no value where the script
dies. -/
def solvelin (a b n : Int) (s : List Int) : Option (List Int) :=
  let (d, x2, _) := euclid_gcd a n
  if b.fmod d = 0 then
    -- `0 / 0` is not a number, and neither is what comes of it: no check lets such a root pass
    if d = 0 then some s
    -- "Range iterator outside integer range"
    else if d ≤ IV_MIN ∨ IV_MAX < d then none
    else
      let x0 := (x2 * b.fdiv d).fmod n
      some (s ++ (List.range (d + 1).toNat).map fun i : Nat => (x0 + i * n.fdiv d).fmod n)
  else some s

def matrix_det (a b c d : Int) : Int := (a * d - b * c).natAbs

/-- `$nums[$k]` -/
def num (nums : List Int) (k : Nat) : Int := nums.getD k 0

def dets (nums : List Int) : List Int :=
  (List.range' 1 (nums.length - 3)).flatMap fun i =>
    (List.range' (i + 1) (nums.length - 2 - i)).map fun j =>
      matrix_det (num nums i - num nums 0) (num nums (i + 1) - num nums 1)
        (num nums j - num nums 0) (num nums (j + 1) - num nums 1)

/-- The gcd of all determinants. -/
def modulus (nums : List Int) : Int :=
  match dets nums with
  | [] => 0
  | det :: dets => dets.foldl (fun gcd_sofar det => (euclid_gcd gcd_sofar det).1) det

/-- The congruence for the multiplier that the outputs from `i` on give. -/
def congruence (nums : List Int) (modulus : Int) (i : Nat) : Int × Int :=
  let diff1 := modulus - (num nums (i + 3) - num nums (i + 1)).fmod modulus
  let diff2 := (num nums (i + 1) - num nums (i + 3)).fmod modulus
  if num nums i - num nums (i + 2) > 0 then (num nums i - num nums (i + 2), diff1)
  else (modulus - (num nums (i + 2) - num nums i), diff2)

/-- `@a_sol` -/
def a_sol (nums : List Int) (modulus : Int) : Option (List Int) :=
  (List.range (nums.length - 3)).foldlM (fun s i =>
    let (a, b) := congruence nums modulus i
    solvelin a b modulus s) []

def lcg (a c m x : Int) : Int := (a * x + c).fmod m

def check_loop (a c m x : Int) : List Int → Bool
  | [] => true
  | num :: nums =>
    let x := lcg a c m x
    if x ≠ num then false else check_loop a c m x nums

def check_params (nums : List Int) (a c m : Int) : Bool :=
  check_loop a c m (num nums 0) nums.tail

/-- The increment that takes the output `i` to the next one. -/
def this_c (nums : List Int) (modulus this_a : Int) (i : Nat) : Int :=
  let mul := (num nums i * this_a).fmod modulus
  if num nums (i + 1) - mul > 0 then num nums (i + 1) - mul
  else modulus - (mul - num nums (i + 1))

/-- What the script prints: the parameters and the next two numbers. -/
structure Found where
  a : Int
  c : Int
  m : Int
  next1 : Int
  next2 : Int
deriving DecidableEq, Repr

def attempt (nums : List Int) (modulus this_a : Int) (i : Nat) : Option Found :=
  let c := this_c nums modulus this_a i
  if check_params nums this_a c modulus then
    let x := lcg this_a c modulus (nums.getLastD 0)
    some { a := this_a, c, m := modulus, next1 := x, next2 := lcg this_a c modulus x }
  else none

/-- The outer value is missing where the script dies, the inner one where it finds nothing. -/
def lcg_break (nums : List Int) : Option (Option Found) := do
  let m := modulus nums
  let a_sol ← a_sol nums m
  return a_sol.findSome? fun this_a =>
    (List.range (nums.length - 1)).findSome? (attempt nums m this_a)

/-- `N` consecutive outputs of the generator, the first of them the one after `x`. -/
def outputs (a c m x : Int) (N : Nat) : List Int :=
  List.iterate (LCG a c m) (LCG a c m x) N

/-- The parameters step from each number to the next. -/
def Reproduces (f : Found) (nums : List Int) : Prop :=
  nums = List.iterate (lcg f.a f.c f.m) (num nums 0) nums.length

/-- `solvelin` lists the solutions in `[0, n)`, and only these. -/
def Solves (a b n : Int) : Prop :=
  ∃ l, solvelin a b n [] = some l ∧ ∀ x, x ∈ l ↔ 0 ≤ x ∧ x < n ∧ a * x ≡ b [ZMOD n]

/-- The multiplier is among the candidates, and the script prints parameters that fit. -/
structure Broken (a m : Int) (nums : List Int) : Prop where
  candidate : ∃ l, a_sol nums m = some l ∧ a % m ∈ l
  printed : ∃ f, lcg_break nums = some (some f) ∧ f.m = m ∧ Reproduces f nums

theorem euclid_gcd_bezout (a b : Int) :
    a * (euclid_gcd a b).2.1 + b * (euclid_gcd a b).2.2 = (euclid_gcd a b).1 := by
  fun_induction euclid_gcd a b with
  | case1 a => simp
  | case2 a b hb d2 x2 y2 heq ih =>
    rw [heq] at ih
    calc
      a * y2 + b * (x2 - a.fdiv b * y2) = b * x2 + (a - b * a.fdiv b) * y2 := by ring
      _ = b * x2 + a.fmod b * y2 := by rw [Int.fmod_def]
      _ = d2 := ih

theorem euclid_gcd_fst {a b : Int} (ha : 0 ≤ a ∨ 0 < b) (hb : 0 ≤ b) :
    (euclid_gcd a b).1 = Int.gcd a b := by
  fun_induction euclid_gcd a b with
  | case1 a =>
    rw [Int.gcd_zero_right]
    exact (Int.natAbs_of_nonneg (by simpa using ha)).symm
  | case2 a b hne d2 x2 y2 heq ih =>
    have hpos : 0 < b := lt_of_le_of_ne hb (Ne.symm hne)
    have hmod := ih (.inl hb) (Int.fmod_nonneg_of_pos a hpos)
    rw [heq] at hmod
    rw [hmod, Int.fmod_eq_emod_of_nonneg a hb, Int.gcd_comm, Int.gcd_emod]

/-- The gcd and its coefficient of `a`, for a positive modulus. -/
theorem euclid_gcd_modulus (a : Int) {n : Int} (hn : 0 < n) :
    ∃ u v, euclid_gcd a n = (↑(Int.gcd a n), u, v) ∧ a * u ≡ Int.gcd a n [ZMOD n] := by
  have hfst := euclid_gcd_fst (.inr hn) hn.le (a := a)
  have hbezout := euclid_gcd_bezout a n
  rw [hfst] at hbezout
  refine ⟨(euclid_gcd a n).2.1, (euclid_gcd a n).2.2, Prod.ext hfst rfl, ?_⟩
  rw [Int.modEq_iff_dvd]
  exact ⟨(euclid_gcd a n).2.2, by rw [← hbezout]; ring⟩

/-- The listed roots are the solutions. The end of the range gives the first root again. -/
theorem mem_roots {a b n u : Int} (hn : 0 < n) (hu : a * u ≡ Int.gcd a n [ZMOD n])
    (hb : (Int.gcd a n : Int) ∣ b) (x : Int) :
    x ∈ (List.range (Int.gcd a n + 1 : Int).toNat).map (fun i : Nat =>
        ((u * b.fdiv (Int.gcd a n)).fmod n + i * n.fdiv (Int.gcd a n)).fmod n) ↔
      0 ≤ x ∧ x < n ∧ a * x ≡ b [ZMOD n] := by
  have hdn : (Int.gcd a n : Int) ∣ n := Int.gcd_dvd_right a n
  have hd : (0 : Int) < Int.gcd a n := by exact_mod_cast Int.gcd_pos_of_ne_zero_right a hn.ne'
  have hroot : a * (u * (b / Int.gcd a n) % n) ≡ b [ZMOD n] :=
    ((Int.mod_modEq _ n).mul_left a).trans (solution hu hb)
  simp only [List.mem_map, List.mem_range, Int.fmod_eq_emod_of_nonneg _ hn.le,
    Int.fdiv_eq_ediv_of_nonneg _ hd.le]
  constructor
  · intro ⟨i, _, hx⟩
    rw [← hx]
    refine ⟨Int.emod_nonneg _ hn.ne', Int.emod_lt_of_pos _ hn, ?_⟩
    apply ((Int.mod_modEq _ n).mul_left a).trans
    rw [solution_iff hn hroot]
    simp
  · intro ⟨h0, hlt, hx⟩
    rw [solution_iff hn hroot, modEq_div_iff hd hdn] at hx
    obtain ⟨i, hi, hx⟩ := hx
    refine ⟨i, by omega, ?_⟩
    rw [← hx.eq, Int.emod_eq_of_lt h0 hlt]

/-- One congruence: the script dies where it has more solutions than a range can count, and lists
them otherwise. -/
theorem solvelin_spec (a b : Int) {n : Int} (hn : 0 < n) (s : List Int) :
    if (Int.gcd a n : Int) ∣ b ∧ IV_MAX < Int.gcd a n then solvelin a b n s = none
    else ∃ l, solvelin a b n s = some (s ++ l) ∧
      ∀ x, x ∈ l ↔ 0 ≤ x ∧ x < n ∧ a * x ≡ b [ZMOD n] := by
  obtain ⟨u, v, hgcd, hu⟩ := euclid_gcd_modulus a hn
  have hd : (0 : Int) < Int.gcd a n := by exact_mod_cast Int.gcd_pos_of_ne_zero_right a hn.ne'
  have hmin : ¬ (Int.gcd a n : Int) ≤ IV_MIN := by unfold IV_MIN; omega
  simp only [solvelin, hgcd, ← Int.dvd_iff_fmod_eq_zero, hd.ne', hmin, false_or, if_false]
  by_cases hb : (Int.gcd a n : Int) ∣ b
  · by_cases hmax : IV_MAX < Int.gcd a n
    · simp [hb, hmax]
    · simp only [hb, hmax, if_false, if_true, and_false]
      exact ⟨_, rfl, mem_roots hn hu hb⟩
  · simp only [hb, if_false, false_and]
    refine ⟨[], by simp, fun x => ?_⟩
    simp only [List.not_mem_nil, false_iff, not_and]
    intro _ _ hx
    exact hb (gcd_dvd hx)

theorem solves_iff (a b : Int) {n : Int} (hn : 0 < n) :
    Solves a b n ↔ ((Int.gcd a n : Int) ∣ b → Int.gcd a n ≤ IV_MAX) := by
  have hspec := solvelin_spec a b hn []
  split at hspec
  · rename_i h
    simp [Solves, hspec, h]
  · rename_i h
    simp only [not_and, not_lt] at h
    exact iff_of_true hspec h

theorem foldl_euclid_gcd {ds : List Int} (hds : ∀ d ∈ ds, 0 ≤ d) {g : Int} (hg : 0 ≤ g) :
    ds.foldl (fun gcd_sofar det => (euclid_gcd gcd_sofar det).1) g =
      ds.foldl (fun g d => ↑(Int.gcd g d)) g := by
  induction ds generalizing g with
  | nil => rfl
  | cons d ds ih =>
    rw [List.forall_mem_cons] at hds
    rw [List.foldl_cons, List.foldl_cons, euclid_gcd_fst (.inl hg) hds.1]
    exact ih hds.2 (Int.natCast_nonneg _)

theorem dvd_foldl_gcd {m g : Int} (hg : m ∣ g) {ds : List Int} (hds : ∀ d ∈ ds, m ∣ d) :
    m ∣ ds.foldl (fun g d => ↑(Int.gcd g d)) g := by
  induction ds generalizing g with
  | nil => exact hg
  | cons d ds ih =>
    rw [List.forall_mem_cons] at hds
    exact ih (Int.dvd_coe_gcd hg hds.1) hds.2

variable {a c m : Int} {N : Nat} {nums : List Int}

theorem mem_dets {d : Int} (h : d ∈ dets nums) :
    ∃ i j, i + 1 < nums.length ∧ j + 1 < nums.length ∧
      d = matrix_det (num nums i - num nums 0) (num nums (i + 1) - num nums 1)
        (num nums j - num nums 0) (num nums (j + 1) - num nums 1) := by
  simp only [dets, List.mem_flatMap, List.mem_map, List.mem_range'_1] at h
  obtain ⟨i, hi, j, hj, rfl⟩ := h
  exact ⟨i, j, by omega, by omega, rfl⟩

theorem modulus_eq_gcd (nums : List Int) :
    modulus nums = (dets nums).foldl (fun g d => ↑(Int.gcd g d)) 0 := by
  have hdets : ∀ d ∈ dets nums, 0 ≤ d := by
    intro d hd
    obtain ⟨i, j, -, -, rfl⟩ := mem_dets hd
    exact Int.natCast_nonneg _
  unfold modulus
  cases hcases : dets nums with
  | nil => rfl
  | cons d ds =>
    rw [hcases, List.forall_mem_cons] at hdets
    rw [List.foldl_cons, Int.gcd_zero_left, Int.natAbs_of_nonneg hdets.1]
    exact foldl_euclid_gcd hdets.2 hdets.1

theorem dvd_modulus (h : Steps a c m nums.length (num nums)) : m ∣ modulus nums := by
  rw [modulus_eq_gcd]
  apply dvd_foldl_gcd (dvd_zero m)
  intro d hd
  obtain ⟨i, j, hi, hj, rfl⟩ := mem_dets hd
  exact Int.dvd_natAbs.mpr (h.dvd_det hi hj (by omega))

/-- In both cases of signs the congruence is that of the differences two apart. -/
theorem congruence_modEq (hm : 0 < m) (nums : List Int) (i : Nat) :
    (congruence nums m i).1 ≡ num nums i - num nums (i + 2) [ZMOD m] ∧
      (congruence nums m i).2 ≡ num nums (i + 1) - num nums (i + 3) [ZMOD m] := by
  simp only [congruence, Int.fmod_eq_emod_of_nonneg _ hm.le]
  split
  · refine ⟨rfl, ?_⟩
    have hmod := Int.mod_modEq (num nums (i + 3) - num nums (i + 1)) m
    simpa using Int.modulus_modEq_zero.sub hmod
  · refine ⟨?_, Int.mod_modEq _ m⟩
    simpa using Int.modulus_modEq_zero.sub_right (num nums (i + 2) - num nums i)

/-- A congruence of the script has the multiplier as a solution, and so its gcd divides the right
side. -/
theorem congruence_solution (hm : 0 < m) (h : Steps a c m nums.length (num nums)) {i : Nat}
    (hi : i + 3 < nums.length) :
    (congruence nums m i).1 * a ≡ (congruence nums m i).2 [ZMOD m] := by
  obtain ⟨hleft, hright⟩ := congruence_modEq hm nums i
  have hsub := h.sub (i := i) (j := i + 2) (by omega) (by omega)
  rw [mul_comm] at hsub
  exact ((hleft.mul_right a).trans hsub).trans hright.symm

theorem gcd_congruence (hm : 0 < m) (nums : List Int) (i : Nat) :
    Int.gcd (congruence nums m i).1 m = Int.gcd (num nums i - num nums (i + 2)) m := by
  have hleft := (congruence_modEq hm nums i).1
  rw [← Int.gcd_emod, hleft.eq, Int.gcd_emod]

/-- No two outputs that are two apart agree modulo so large a divisor of the modulus that the range
of the roots cannot be counted. -/
def RootsCounted (m : Int) (nums : List Int) : Prop :=
  ∀ i, i + 3 < nums.length → Int.gcd (num nums i - num nums (i + 2)) m ≤ IV_MAX

theorem a_sol_of_counted (hm : 0 < m) (h : Steps a c m nums.length (num nums))
    (hlen : 4 ≤ nums.length) (hcount : RootsCounted m nums) :
    ∃ l, a_sol nums m = some l ∧ a % m ∈ l := by
  have hstep : ∀ s i, i + 3 < nums.length →
      ∃ s', (let (a, b) := congruence nums m i; solvelin a b m s) = some s' ∧ a % m ∈ s' ∧
        ∀ _ : Nat, a % m ∈ s → a % m ∈ s' := by
    intro s i hi
    have hspec := solvelin_spec (congruence nums m i).1 (congruence nums m i).2 hm s
    rw [gcd_congruence hm, if_neg (by have := hcount i hi; omega)] at hspec
    obtain ⟨l, hl, hroots⟩ := hspec
    refine ⟨s ++ l, hl, ?_, fun _ hmem => List.mem_append_left l hmem⟩
    apply List.mem_append_right
    rw [hroots]
    refine ⟨Int.emod_nonneg a hm.ne', Int.emod_lt_of_pos a hm, ?_⟩
    exact ((Int.mod_modEq a m).mul_left _).trans (congruence_solution hm h hi)
  have hpasses : ∀ i ∈ List.range (nums.length - 3), i + 3 < nums.length := by
    intro i hi
    rw [List.mem_range] at hi
    omega
  obtain ⟨l, hl, hmem, -⟩ := foldlM_establishes (P := fun _ s => a % m ∈ s) hstep _ hpasses []
  exact ⟨l, hl, hmem 0 (List.mem_range.mpr (by omega))⟩

theorem a_sol_of_not_counted (hm : 0 < m) (h : Steps a c m nums.length (num nums))
    (hcount : ¬ RootsCounted m nums) : a_sol nums m = none := by
  simp only [RootsCounted, not_forall, not_le] at hcount
  obtain ⟨i, hi, hlarge⟩ := hcount
  apply foldlM_eq_none (List.mem_range.mpr (show i < nums.length - 3 by omega))
  intro s
  have hspec := solvelin_spec (congruence nums m i).1 (congruence nums m i).2 hm s
  have hdvd := gcd_dvd (congruence_solution hm h hi)
  rw [gcd_congruence hm] at hdvd hspec
  rwa [if_pos ⟨hdvd, hlarge⟩] at hspec

theorem check_loop_iff (a c m x : Int) (nums : List Int) :
    check_loop a c m x nums = true ↔
      x :: nums = List.iterate (lcg a c m) x (nums.length + 1) := by
  induction nums generalizing x with
  | nil => simp [check_loop]
  | cons y nums ih =>
    by_cases hy : lcg a c m x = y
    · simpa [check_loop, hy, List.iterate] using ih y
    · simp [check_loop, hy, List.iterate, Ne.symm hy]

theorem check_params_iff (hnums : nums ≠ []) (a c m : Int) :
    check_params nums a c m = true ↔
      nums = List.iterate (lcg a c m) (num nums 0) nums.length := by
  cases nums with
  | nil => exact absurd rfl hnums
  | cons x nums => simpa [check_params, num] using check_loop_iff a c m x nums

theorem this_c_modEq (hm : 0 < m) (nums : List Int) (this_a : Int) (i : Nat) :
    this_c nums m this_a i ≡ num nums (i + 1) - num nums i * this_a [ZMOD m] := by
  have hmul := Int.mod_modEq (num nums i * this_a) m
  simp only [this_c, Int.fmod_eq_emod_of_nonneg _ hm.le]
  split
  · exact hmul.sub_left _
  · simpa using Int.modulus_modEq_zero.sub (hmul.sub_right (num nums (i + 1)))

/-- Parameters that agree modulo `m` give one generator. -/
theorem lcg_eq_LCG (hm : 0 < m) {a' c' : Int} (ha : a' ≡ a [ZMOD m]) (hc : c' ≡ c [ZMOD m]) :
    lcg a' c' m = LCG a c m := by
  funext x
  rw [lcg, LCG, Int.fmod_eq_emod_of_nonneg _ hm.le, mul_comm a']
  exact ((ha.mul_left x).add hc).eq

theorem attempt_eq_some {this_a : Int} {i : Nat} {f : Found}
    (h : attempt nums m this_a i = some f) :
    f.m = m ∧ check_params nums f.a f.c f.m = true := by
  simp only [attempt] at h
  split at h
  · rename_i hcheck
    cases h
    exact ⟨rfl, hcheck⟩
  · cases h

/-- The script finds parameters when one candidate passes with the first increment. -/
theorem lcg_break_found (hnums : 2 ≤ nums.length) {l : List Int}
    (hl : a_sol nums (modulus nums) = some l) {this_a : Int} (ha : this_a ∈ l)
    (hcheck : check_params nums this_a (this_c nums (modulus nums) this_a 0) (modulus nums) = true) :
    ∃ f, lcg_break nums = some (some f) ∧ f.m = modulus nums ∧ Reproduces f nums := by
  have hsome : (l.findSome? fun this_a =>
      (List.range (nums.length - 1)).findSome? (attempt nums (modulus nums) this_a)).isSome := by
    rw [List.findSome?_isSome_iff]
    refine ⟨this_a, ha, ?_⟩
    rw [List.findSome?_isSome_iff]
    exact ⟨0, List.mem_range.mpr (by omega), by simp [attempt, hcheck]⟩
  obtain ⟨f, hf⟩ := Option.isSome_iff_exists.mp hsome
  obtain ⟨b, -, hb⟩ := List.exists_of_findSome?_eq_some hf
  obtain ⟨i, -, hi⟩ := List.exists_of_findSome?_eq_some hb
  obtain ⟨hfm, hpass⟩ := attempt_eq_some hi
  refine ⟨f, by simp [lcg_break, hl, hf], hfm, ?_⟩
  exact (check_params_iff (List.ne_nil_of_length_pos (by omega)) _ _ _).mp hpass

@[simp] theorem length_outputs (a c m x : Int) (N : Nat) : (outputs a c m x N).length = N :=
  List.length_iterate _ _ _

theorem num_outputs (a c m x : Int) {k : Nat} (hk : k < N) :
    num (outputs a c m x N) k = (LCG a c m)^[k] (LCG a c m x) := by
  rw [num, outputs, List.getD_eq_getElem?_getD, List.getElem?_iterate _ _ _ _ hk, Option.getD_some]

theorem steps_outputs (a c m x : Int) (N : Nat) :
    Steps a c m (outputs a c m x N).length (num (outputs a c m x N)) := by
  intro k hk
  rw [length_outputs] at hk
  rw [num_outputs a c m x hk, num_outputs a c m x (Nat.lt_of_succ_lt hk),
    Function.iterate_succ_apply', LCG, mul_comm a]
  exact Int.mod_modEq _ m

theorem check_params_outputs (hm : 0 < m) (a c x : Int) (hN : 2 ≤ N) :
    check_params (outputs a c m x N) (a % m) (this_c (outputs a c m x N) m (a % m) 0) m = true := by
  have ha := Int.mod_modEq a m
  have hc : this_c (outputs a c m x N) m (a % m) 0 ≡ c [ZMOD m] := by
    apply (this_c_modEq hm _ _ 0).trans
    have hstep := steps_outputs a c m x N 0 (by rw [length_outputs]; omega)
    have hsub := hstep.sub (ha.mul_left (num (outputs a c m x N) 0))
    rwa [mul_comm a, add_sub_cancel_left] at hsub
  rw [check_params_iff, lcg_eq_LCG hm ha hc, num_outputs a c m x (by omega), length_outputs]
  · rfl
  · apply List.ne_nil_of_length_pos
    rw [length_outputs]
    omega

/-- Where the gcd is the modulus, the script breaks the generator just when it can count the
roots. -/
theorem broken_iff (hm : 0 < m) (a c x : Int) (hN : 4 ≤ N)
    (hmod : modulus (outputs a c m x N) = m) :
    Broken a m (outputs a c m x N) ↔ RootsCounted m (outputs a c m x N) := by
  have hsteps := steps_outputs a c m x N
  have hlen : 4 ≤ (outputs a c m x N).length := by rwa [length_outputs]
  constructor
  · intro hbroken
    by_contra hcount
    obtain ⟨l, hl, -⟩ := hbroken.candidate
    rw [a_sol_of_not_counted hm hsteps hcount] at hl
    cases hl
  · intro hcount
    obtain ⟨l, hl, hmem⟩ := a_sol_of_counted hm hsteps hlen hcount
    refine ⟨⟨l, hl, hmem⟩, ?_⟩
    have hcheck := check_params_outputs hm a c x (N := N) (by omega)
    have hlen2 : 2 ≤ (outputs a c m x N).length := by omega
    have hfound := lcg_break_found hlen2 (by rwa [hmod]) hmem (by rwa [hmod])
    rwa [hmod] at hfound

/-- The gcd is a multiple of the modulus; one congruence is solved unless it has more solutions
than a range can count; and where the gcd is the modulus, the script breaks the generator unless
that happens. -/
theorem lcg_break_iff (hm : 0 < m) (a c x : Int) (hN : 5 ≤ N) :
    m ∣ modulus (outputs a c m x N) ∧
    (∀ A B n : Int, 0 < n → (Solves A B n ↔ ((Int.gcd A n : Int) ∣ B → Int.gcd A n ≤ IV_MAX))) ∧
    (modulus (outputs a c m x N) = m →
      (Broken a m (outputs a c m x N) ↔
        ∀ i, i + 3 < N →
          Int.gcd (num (outputs a c m x N) i - num (outputs a c m x N) (i + 2)) m ≤ IV_MAX)) := by
  refine ⟨dvd_modulus (steps_outputs a c m x N), fun A B n hn => solves_iff A B hn, ?_⟩
  intro hmod
  rw [broken_iff hm a c x (by omega) hmod, RootsCounted, length_outputs]

/-- Five outputs with two congruences of several roots. -/
theorem lcg_break_iff_eight :
    outputs 3 3 8 1 5 = [6, 5, 2, 1, 6] ∧ Broken 3 8 (outputs 3 3 8 1 5) := by
  have hmod : modulus (outputs 3 3 8 1 5) = 8 := by
    rw [modulus_eq_gcd]
    decide +kernel
  refine ⟨rfl, ((lcg_break_iff (by decide) 3 3 1 (by decide)).2.2 hmod).mpr fun i hi => ?_⟩
  have hi2 : i < 2 := by omega
  interval_cases i <;> decide +kernel

/-- Two outputs differ by half the modulus, and the script dies on the range of that many roots. -/
theorem half_modulus_dies :
    outputs 9223372036854775807 1 18446744073709551616 0 5 =
      [1, 9223372036854775808, 9223372036854775809, 0, 1] ∧
    modulus [1, 9223372036854775808, 9223372036854775809, 0, 1] = 18446744073709551616 ∧
    lcg_break [1, 9223372036854775808, 9223372036854775809, 0, 1] = none ∧
    ¬ Broken 9223372036854775807 18446744073709551616
      [1, 9223372036854775808, 9223372036854775809, 0, 1] := by
  have houts : outputs 9223372036854775807 1 18446744073709551616 0 5 =
      [1, 9223372036854775808, 9223372036854775809, 0, 1] := by decide +kernel
  have hmod : modulus [1, 9223372036854775808, 9223372036854775809, 0, 1] =
      18446744073709551616 := by
    rw [modulus_eq_gcd]
    decide +kernel
  have hsteps := steps_outputs 9223372036854775807 1 18446744073709551616 0 5
  rw [houts] at hsteps
  have hdies := a_sol_of_not_counted (by decide) hsteps fun hcount => by
    have hzero := hcount 0 (by decide)
    revert hzero
    decide +kernel
  refine ⟨houts, hmod, by simp [lcg_break, hmod, hdies], fun hbroken => ?_⟩
  obtain ⟨l, hl, -⟩ := hbroken.candidate
  rw [hdies] at hl
  cases hl

end CtfChallenges.Mentalist
