import CtfChallenges.Framework.SmoothWindow
import CtfChallenges.Mentalist.Generator

/-!
# How large the numbers of the Mentalist get

The modulus is the first product of primes that reaches a target of up to a thirteenth of `UB` and a
little more. One product of primes below the largest target is so close to it that a factor of
thirteen takes the modulus past `UB`.
-/

namespace CtfChallenges.Mentalist
open Framework SmoothWindow

/-- The numbers that are thought of in a game, from the first guess on. -/
def thought (k : Params) (n : Nat) : Int := (LCG k.PA k.PC k.PM)^[n + 1] k.PS

/-- What the game says to a guess that it does not compare with its number. -/
def refusal (g : Int) : Option (List String) :=
  if g < 0 then
    some ["I only think positively and you should too. Come back when you're ready."]
  else if g > UB then
    some ["What sort of cheater do you take me for?",
      "I never think of numbers greater than " ++ toString UB]
  else none

/-- `2 ^ 7 * 3 ^ 6 * 7 ^ 8 * 11 * 13` -/
def lastSmooth : Nat := 76923290860416

/-- The loop goes on at this product and draws thirteen. -/
def Overshoots (iB : List (Fin 6)) : Prop :=
  ∃ front, iB = front ++ [Fin.last 5] ∧ (front.map prime).prod = lastSmooth

theorem drawPM_of_generate {d : Draws} {k : Params} (h : generate d = some k) :
    drawPM d.t d.iB = some k.PM ∧ d.lF < (k.PM - 1) / primes.foldl (· * ·) 4 - 1 := by
  simp only [generate, Option.bind_eq_bind, Option.bind_eq_some_iff, cryptorInt_eq_some,
    Option.pure_def, Option.some.injEq] at h
  obtain ⟨t, ⟨rfl, ht⟩, PM, hgrow, lF, ⟨rfl, -, hlt⟩, PC, -, PS, -, rfl⟩ := h
  refine ⟨?_, hlt⟩
  rw [drawPM, Option.bind_eq_bind, Option.bind_eq_some_iff]
  exact ⟨d.t, cryptorInt_eq_some.mpr ⟨rfl, ht⟩, hgrow⟩

/-- The product before the last draw is below the target. -/
theorem growPM_last {t : Int} {is : List (Fin 6)} {PM PM' : Int} (h : growPM t PM is = some PM')
    (hPM : PM < t) : ∃ front i, is = front ++ [i] ∧ PM * ((front.map prime).prod : Nat) < t := by
  induction is generalizing PM with
  | nil =>
    rw [growPM, if_pos hPM] at h
    cases h
  | cons i is ih =>
    rw [growPM, if_pos hPM] at h
    by_cases hnext : PM * primes.get i < t
    · obtain ⟨front, j, rfl, hlt⟩ := ih h hnext
      refine ⟨i :: front, j, rfl, ?_⟩
      rw [List.map_cons, List.prod_cons, Nat.cast_mul, natCast_prime, ← mul_assoc]
      exact hlt
    · cases is with
      | nil => exact ⟨[], i, rfl, by simpa using hPM⟩
      | cons j is =>
        rw [growPM, if_neg hnext] at h
        cases h

private theorem smooth_table : search 76923076923078 76923999999998 (· == lastSmooth) 40
    [13, 11, 7, 5, 3] 1 = true := by
  decide +kernel

/-- There is one product of the primes between a thirteenth of the bound and the largest target. -/
theorem smooth_unique {is : List (Fin 6)} (hlow : 76923076923078 ≤ (is.map prime).prod)
    (hhigh : (is.map prime).prod ≤ 76923999999998) : (is.map prime).prod = lastSmooth := by
  have hfactors : ∀ f ∈ is.map prime, f = 2 ∨ f ∈ [13, 11, 7, 5, 3] := by
    intro f hf
    obtain ⟨i, -, rfl⟩ := List.mem_map.mp hf
    fin_cases i <;> decide
  have hallowed := search_sound (by decide) (by decide) Nat.one_pos smooth_table hfactors
    (by rwa [Nat.one_mul]) (by rwa [Nat.one_mul])
  rw [Nat.one_mul] at hallowed
  exact eq_of_beq hallowed

theorem prime_le (i : Fin 6) : prime i ≤ 13 ∧ (i ≠ 5 → prime i ≤ 11) := by
  fin_cases i <;> decide

section
variable {t PM : Int} {iB : List (Fin 6)}

theorem drawPM_spec (h : drawPM t iB = some PM) : PM = ((iB.map prime).prod : Nat) ∧ LB ≤ PM ∧
    ∃ front i, iB = front ++ [i] ∧ (front.map prime).prod ≤ 76923999999998 := by
  rw [drawPM, Option.bind_eq_bind, Option.bind_eq_some_iff] at h
  obtain ⟨t', ht, hgrow⟩ := h
  obtain ⟨rfl, ht0, htlt⟩ := cryptorInt_eq_some.mp ht
  have hmax : (UB - LB) / primes.back = 76923000000000 := by decide
  rw [hmax] at htlt
  obtain ⟨hPM, hge⟩ := growPM_eq hgrow
  have hLB : LB = 1000000000 := rfl
  obtain ⟨front, i, rfl, hlt⟩ := growPM_last hgrow (by omega)
  rw [one_mul] at hPM hlt
  exact ⟨hPM, by omega, front, i, rfl, by omega⟩

theorem overshoots_iff (h : drawPM t iB = some PM) : UB < PM - 1 ↔ Overshoots iB := by
  obtain ⟨hPM, -, front, i, rfl, hfront⟩ := drawPM_spec h
  have hUB : UB = 1000000000000000 := rfl
  rw [List.map_append, List.prod_append, List.map_singleton, List.prod_singleton] at hPM
  constructor
  · intro hlt
    obtain ⟨hthirteen, heleven⟩ := prime_le i
    have hi : i = 5 := by
      by_contra hne
      have hle := Nat.mul_le_mul_left (front.map prime).prod (heleven hne)
      omega
    subst hi
    have hprime : prime 5 = 13 := rfl
    rw [hprime] at hPM
    exact ⟨front, rfl, smooth_unique (by omega) hfront⟩
  · rintro ⟨front', heq, hprod⟩
    obtain ⟨rfl, hi⟩ := List.append_inj' heq rfl
    cases hi
    have hprime : prime (Fin.last 5) = 13 := rfl
    rw [hprod, hprime, lastSmooth] at hPM
    omega

theorem bound_pos (hLB : LB ≤ PM) : 0 < (PM - 1) / primes.foldl (· * ·) 4 - 1 := by
  have hPA : primes.foldl (· * ·) 4 = 120120 := rfl
  have hlow : LB = 1000000000 := rfl
  rw [hPA]
  omega

end

theorem PA_lt {d : Draws} {k : Params} (h : generate d = some k) : k.PA < k.PM := by
  obtain ⟨-, hlF⟩ := drawPM_of_generate h
  obtain ⟨-, -, h0, hPA, -⟩ := generate_spec h
  have hbase : primes.foldl (· * ·) 4 = 120120 := rfl
  rw [hbase] at hlF
  omega

theorem thought_mem {k : Params} (hPM : 0 < k.PM) (n : Nat) :
    0 ≤ thought k n ∧ thought k n < k.PM := by
  rw [thought, Function.iterate_succ_apply', LCG]
  exact ⟨Int.emod_nonneg _ (by omega), Int.emod_lt_of_pos _ hPM⟩

theorem refusal_eq_none {g : Int} (h0 : 0 ≤ g) (hUB : g ≤ UB) : refusal g = none := by
  rw [refusal, if_neg (by omega), if_neg (by omega)]

/-- What the draws of the target and of the modulus mean for the rest of the program. -/
structure WithinBounds (t : Int) (iB : List (Fin 6)) (PM : Int) : Prop where
  le_UB : PM - 1 ≤ UB
  LB_le : LB ≤ PM
  bound_pos : 0 < (PM - 1) / primes.foldl (· * ·) 4 - 1
  game : ∀ d k, d.t = t → d.iB = iB → generate d = some k →
    k.PM = PM ∧ k.PA < PM ∧ ∀ n, thought k n ≤ UB ∧ refusal (thought k n) = none

/-- All is within its bounds unless the modulus is drawn as the one product past `UB`. -/
theorem within_bounds_iff {t PM : Int} {iB : List (Fin 6)} (h : drawPM t iB = some PM) :
    WithinBounds t iB PM ↔ ¬ Overshoots iB := by
  rw [← overshoots_iff h, Int.not_lt]
  constructor
  · exact WithinBounds.le_UB
  · intro hUB
    obtain ⟨-, hLB, -⟩ := drawPM_spec h
    refine ⟨hUB, hLB, bound_pos hLB, ?_⟩
    rintro d k rfl rfl hk
    obtain ⟨hdraw, -⟩ := drawPM_of_generate hk
    obtain rfl : PM = k.PM := Option.some.inj (h.symm.trans hdraw)
    have hpos : 0 < k.PM := by
      have hlow : LB = 1000000000 := rfl
      omega
    refine ⟨rfl, PA_lt hk, fun n => ?_⟩
    obtain ⟨h0, hlt⟩ := thought_mem hpos n
    exact ⟨by omega, refusal_eq_none h0 (by omega)⟩

/-- With the least target and thirty twos. -/
theorem within_bounds_twos :
    WithinBounds 0 (List.replicate 30 0) (2 ^ 30) ↔ ¬ Overshoots (List.replicate 30 0) :=
  within_bounds_iff (by decide +kernel)

/-- With the target right above the product the modulus is over `UB`. -/
theorem modulus_past_UB :
    drawPM 76922290860417 pastUB = some 1000002781185408 ∧
      ¬ WithinBounds 76922290860417 pastUB 1000002781185408 := by
  refine ⟨by decide +kernel, fun h => ?_⟩
  have hle := h.le_UB
  revert hle
  decide

end CtfChallenges.Mentalist
