import Mathlib.Data.Int.ModEq
import Mathlib.FieldTheory.Finite.Basic
import Mathlib.Tactic.Ring

/-!
# Congruences

All solutions of `a x ≡ b` modulo `n`, from one of them: they are `n / gcd a n` apart. One solution
comes from a coefficient of the gcd. Sequences that an affine map steps through modulo `m` give such
congruences for its multiplier, and determinants that `m` divides.

Textbook RSA: exponents that are inverse modulo `(p-1)(q-1)` cancel on every message, also on
those that share a factor with the modulus.
-/

namespace CtfChallenges.Framework.LinearCongruence

variable {a b c m n : Int}

theorem gcd_dvd {x : Int} (h : a * x ≡ b [ZMOD n]) : (Int.gcd a n : Int) ∣ b := by
  have ha : (Int.gcd a n : Int) ∣ a * x := (Int.gcd_dvd_left a n).mul_right x
  exact (h.of_dvd (Int.gcd_dvd_right a n)).dvd_iff.mp ha

/-- The coefficient of `a` in the gcd, times what the gcd leaves of `b`. -/
theorem solution {u : Int} (hu : a * u ≡ Int.gcd a n [ZMOD n]) (hb : (Int.gcd a n : Int) ∣ b) :
    a * (u * (b / Int.gcd a n)) ≡ b [ZMOD n] := by
  have h := hu.mul_right (b / Int.gcd a n)
  rwa [Int.mul_ediv_cancel' hb, mul_assoc] at h

/-- Two solutions differ by a multiple of `n / gcd a n`. -/
theorem solution_iff (hn : 0 < n) {x y : Int} (h : a * x ≡ b [ZMOD n]) :
    a * y ≡ b [ZMOD n] ↔ x ≡ y [ZMOD n / Int.gcd a n] := by
  constructor
  · intro hy
    rw [Int.gcd_comm]
    exact (h.trans hy.symm).cancel_left_div_gcd hn
  · intro hxy
    have hmul := hxy.mul_left' (c := a)
    have hdvd : n ∣ a * (n / Int.gcd a n) := by
      rw [← Int.mul_ediv_assoc _ (Int.gcd_dvd_right a n), mul_comm,
        Int.mul_ediv_assoc _ (Int.gcd_dvd_left a n)]
      exact dvd_mul_right n _
    exact (hmul.of_dvd hdvd).symm.trans h

/-- What is equal modulo `n / d` is equal modulo `n` up to fewer than `d` steps of `n / d`. -/
theorem modEq_div_iff {d x y : Int} (hd : 0 < d) (hdn : d ∣ n) :
    x ≡ y [ZMOD n / d] ↔ ∃ i : Nat, (i : Int) < d ∧ y ≡ x + i * (n / d) [ZMOD n] := by
  constructor
  · intro h
    obtain ⟨k, hk⟩ := h.dvd
    refine ⟨(k % d).toNat, ?_, ?_⟩
    · rw [Int.toNat_of_nonneg (Int.emod_nonneg k hd.ne')]
      exact Int.emod_lt_of_pos k hd
    · rw [Int.toNat_of_nonneg (Int.emod_nonneg k hd.ne')]
      have hstep := (Int.mod_modEq k d).mul_right' (c := n / d)
      rw [Int.mul_ediv_cancel' hdn] at hstep
      have hy : y = x + k * (n / d) := by rw [mul_comm k, ← hk]; ring
      rw [hy]
      exact hstep.symm.add_left x
  · intro ⟨i, _, h⟩
    have hmod := h.of_dvd (Int.ediv_dvd_of_dvd hdn)
    have hi : (i : Int) * (n / d) ≡ 0 [ZMOD n / d] := Int.modEq_zero_iff_dvd.mpr (dvd_mul_left _ _)
    simpa using ((hi.add_left x).symm.trans hmod.symm)

/-- The first `N` terms are steps of `x ↦ a x + c` modulo `m`. -/
def Steps (a c m : Int) (N : Nat) (x : Nat → Int) : Prop :=
  ∀ k, k + 1 < N → x (k + 1) ≡ a * x k + c [ZMOD m]

variable {N : Nat} {x : Nat → Int}

/-- The multiplier takes a difference to the difference of the terms after. -/
theorem Steps.sub (h : Steps a c m N x) {i j : Nat} (hi : i + 1 < N) (hj : j + 1 < N) :
    a * (x i - x j) ≡ x (i + 1) - x (j + 1) [ZMOD m] := by
  have hsub := (h i hi).sub (h j hj)
  rw [add_sub_add_right_eq_sub, ← mul_sub] at hsub
  exact hsub.symm

/-- Differences with one term and those of the terms after are dependent. -/
theorem Steps.dvd_det (h : Steps a c m N x) {i j k : Nat} (hi : i + 1 < N) (hj : j + 1 < N)
    (hk : k + 1 < N) :
    m ∣ (x i - x k) * (x (j + 1) - x (k + 1)) - (x (i + 1) - x (k + 1)) * (x j - x k) := by
  have hleft := (h.sub hj hk).mul_left (x i - x k)
  have hright := (h.sub hi hk).mul_right (x j - x k)
  have heq : (x i - x k) * (a * (x j - x k)) = a * (x i - x k) * (x j - x k) := by ring
  rw [heq] at hleft
  exact (hright.symm.trans hleft).dvd

/-- An affine map that makes three terms follow each other makes all terms follow each other. -/
theorem Steps.forever {a' c' : Int} (h : ∀ N, Steps a c m N x) (h' : Steps a' c' m 3 x) :
    ∀ N, Steps a' c' m N x := by
  have hagree : ∀ k, (a' - a) * x k + (c' - c) ≡ 0 [ZMOD m] ∧
      (a' - a) * x (k + 1) + (c' - c) ≡ 0 [ZMOD m] := by
    have hterm : ∀ k, k + 1 < 3 → (a' - a) * x k + (c' - c) ≡ 0 [ZMOD m] := by
      intro k hk
      have hdiff := (h' k hk).symm.sub ((h 3) k hk).symm
      rw [sub_self] at hdiff
      convert hdiff using 1
      ring
    intro k
    induction k with
    | zero => exact ⟨hterm 0 (by decide), hterm 1 (by decide)⟩
    | succ k ih =>
      refine ⟨ih.2, ?_⟩
      -- the difference of the next two terms is `a` times the one that the maps agree on
      have hsub := (h (k + 3)).sub (i := k + 1) (j := k) (by omega) (by omega)
      have hzero := ih.2.sub ih.1
      rw [add_sub_add_right_eq_sub, ← mul_sub, sub_self] at hzero
      calc
        (a' - a) * x (k + 1 + 1) + (c' - c)
          = (a' - a) * (x (k + 1 + 1) - x (k + 1)) + ((a' - a) * x (k + 1) + (c' - c)) := by ring
        _ ≡ (a' - a) * (a * (x (k + 1) - x k)) + 0 [ZMOD m] := (hsub.symm.mul_left _).add ih.2
        _ = a * ((a' - a) * (x (k + 1) - x k)) := by ring
        _ ≡ a * 0 [ZMOD m] := hzero.mul_left a
        _ = 0 := mul_zero a
  intro N k hk
  have hsum := (h N k hk).add (hagree k).1.symm
  convert hsum using 1
  · ring
  · ring

end CtfChallenges.Framework.LinearCongruence

namespace CtfChallenges.Framework.Rsa

/-- Fermat's theorem on all residues: an exponent that is one modulo `p - 1` does nothing. -/
theorem pow_modEq_of_prime {p k : Nat} (hp : p.Prime) (hk : 0 < k) (h : k ≡ 1 [MOD p - 1])
    (m : Int) : m ^ k ≡ m [ZMOD p] := by
  have : Fact p.Prime := ⟨hp⟩
  rw [← ZMod.intCast_eq_intCast_iff, Int.cast_pow]
  obtain ⟨t, ht⟩ : p - 1 ∣ k - 1 := (Nat.modEq_iff_dvd' hk).mp h.symm
  have hsplit : k = 1 + (p - 1) * t := by omega
  by_cases hm : (m : ZMod p) = 0
  · rw [hm, zero_pow hk.ne']
  · rw [hsplit, pow_add, pow_one, pow_mul, ZMod.pow_card_sub_one_eq_one hm, one_pow, mul_one]

/-- Inverse exponents cancel modulo the product. -/
theorem pow_pow_modEq {p q e d : Nat} (hp : p.Prime) (hq : q.Prime) (hne : p ≠ q)
    (hpos : 0 < e * d) (h : e * d ≡ 1 [MOD (p - 1) * (q - 1)]) (m : Int) :
    (m ^ e) ^ d ≡ m [ZMOD (p * q : Nat)] := by
  have hmodp : e * d ≡ 1 [MOD p - 1] := h.of_mul_right _
  have hmodq : e * d ≡ 1 [MOD q - 1] := h.of_mul_left _
  have hcop : (p : Int).natAbs.Coprime (q : Int).natAbs := (Nat.coprime_primes hp hq).mpr hne
  rw [← pow_mul, Nat.cast_mul, ← Int.modEq_and_modEq_iff_modEq_mul hcop]
  exact ⟨pow_modEq_of_prime hp hpos hmodp m, pow_modEq_of_prime hq hpos hmodq m⟩

end CtfChallenges.Framework.Rsa
