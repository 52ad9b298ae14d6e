import Mathlib.NumberTheory.Multiplicity
import Mathlib.RingTheory.Coprime.Lemmas
import Mathlib.Order.Interval.Finset.Nat
import Mathlib.Order.Interval.Set.Defs
import Mathlib.Data.Int.ConditionallyCompleteOrder
import Mathlib.Data.Int.Interval
import Mathlib.Data.Nat.Factorization.Basic

/-!
# The period of a linear congruential generator

The Hull-Dobell conditions on `x ↦ (a x + c) mod m` and the theorem that under them every
start visits all residues before it repeats. The argument counts the factors of each prime in
the geometric sums of `a` by lifting the exponent.
-/

namespace CtfChallenges.Framework.Lcg
open Finset

def next (a c m x : Int) : Int := (a * x + c) % m

structure HullDobell (a c m : Int) : Prop where
  increment : IsCoprime c m
  multiplier : ∀ p : Nat, p.Prime → (p : Int) ∣ m → (p : Int) ∣ a - 1
  four : 4 ∣ m → 4 ∣ a - 1

/-- From every start the first `m` numbers are the residues modulo `m`, each once. -/
def FullPeriod (a c m : Int) : Prop :=
  ∀ x, 0 ≤ x → x < m →
    Set.BijOn (fun k => (next a c m)^[k] x) (Set.Iio m.toNat) (Set.Ico 0 m)

private theorem geom_sum_modEq {a p : Int} (h : p ∣ a - 1) (n : Nat) :
    ∑ i ∈ range n, a ^ i ≡ n [ZMOD p] := by
  have ha : a ≡ 1 [ZMOD p] := (Int.modEq_iff_dvd.mpr h).symm
  induction n with
  | zero => rfl
  | succ n ih =>
    rw [sum_range_succ, Nat.cast_succ]
    have hpow := ha.pow n
    rw [one_pow] at hpow
    exact ih.add hpow

private theorem prime_pow_dvd_geom_sum_iff {p : Nat} (hp : p.Prime) {a : Int}
    (h : (p : Int) ∣ a - 1) (htwo : p = 2 → 4 ∣ a - 1) (n k : Nat) :
    (p : Int) ^ k ∣ ∑ i ∈ range n, a ^ i ↔ (p : Int) ^ k ∣ n := by
  by_cases ha : a = 1
  · simp [ha]
  have hpi : Prime (p : Int) := Nat.prime_iff_prime_int.mp hp
  have hna : ¬ (p : Int) ∣ a := fun hd => hpi.not_dvd_one ((Int.dvd_iff_dvd_of_dvd_sub h).mp hd)
  have hlift : emultiplicity (p : Int) (a ^ n - 1 ^ n) =
      emultiplicity (p : Int) (a - 1) + emultiplicity (p : Int) n := by
    rcases hp.eq_two_or_odd' with rfl | hodd
    · exact Int.two_pow_sub_pow' n (htwo rfl) hna
    · rw [Int.emultiplicity_pow_sub_pow hp hodd h hna n, Int.natCast_emultiplicity]
  have hmul : emultiplicity (p : Int) (a ^ n - 1 ^ n) =
      emultiplicity (p : Int) (a - 1) + emultiplicity (p : Int) (∑ i ∈ range n, a ^ i) := by
    rw [one_pow, ← geom_sum_mul, emultiplicity_mul hpi, add_comm]
  have hfin : emultiplicity (p : Int) (a - 1) ≠ ⊤ := by
    rw [← finiteMultiplicity_iff_emultiplicity_ne_top]
    exact Int.finiteMultiplicity_iff.mpr ⟨by simpa using hp.ne_one, sub_ne_zero.mpr ha⟩
  have hcancel := WithTop.add_left_cancel hfin (hmul.symm.trans hlift)
  rw [pow_dvd_iff_le_emultiplicity, pow_dvd_iff_le_emultiplicity, hcancel]

/-- Modulo `m` the sum of `n` powers vanishes exactly when `n` does. -/
theorem dvd_geom_sum_iff {a m : Int} (hmult : ∀ p : Nat, p.Prime → (p : Int) ∣ m → (p : Int) ∣ a - 1)
    (hfour : 4 ∣ m → 4 ∣ a - 1) (n : Nat) :
    m ∣ ∑ i ∈ range n, a ^ i ↔ m ∣ n := by
  rw [← Int.natAbs_dvd_natAbs, ← Int.natAbs_dvd_natAbs, Nat.dvd_iff_prime_pow_dvd_dvd,
    Nat.dvd_iff_prime_pow_dvd_dvd]
  refine forall₂_congr fun p k => forall₂_congr fun hp hm => ?_
  rw [← Int.natCast_dvd, ← Int.natCast_dvd, Nat.cast_pow]
  rcases Nat.eq_zero_or_pos k with rfl | hk
  · simp
  have hpm : (p : Int) ^ k ∣ m := by
    rw [← Nat.cast_pow]
    exact Int.natCast_dvd.mpr hm
  have hpa := hmult p hp ((dvd_pow_self _ hk.ne').trans hpm)
  by_cases htwo : p = 2 → 4 ∣ a - 1
  · exact prime_pow_dvd_geom_sum_iff hp hpa htwo n k
  · -- here `m` is even but no multiple of four, so only parity is left
    obtain ⟨rfl, hnot⟩ := Classical.not_imp.mp htwo
    have hk1 : k = 1 := by
      by_contra hne
      refine hnot (hfour ((pow_dvd_pow (2 : Int) (show 2 ≤ k by omega)).trans ?_))
      exact_mod_cast hpm
    rw [hk1, pow_one]
    exact Int.ModEq.dvd_iff (geom_sum_modEq hpa n)

/-- After `k` steps the start has moved by the `k`-th geometric sum of its first step. -/
theorem iterate_modEq (a c m x : Int) (k : Nat) :
    (next a c m)^[k] x ≡ x + (∑ i ∈ range k, a ^ i) * ((a - 1) * x + c) [ZMOD m] := by
  induction k with
  | zero => simp
  | succ k ih =>
    rw [Function.iterate_succ_apply', geom_sum_succ]
    have hstep : a * (next a c m)^[k] x + c ≡
        a * (x + (∑ i ∈ range k, a ^ i) * ((a - 1) * x + c)) + c [ZMOD m] :=
      (ih.mul_left a).add_right c
    refine (Int.mod_modEq _ _).trans (hstep.trans ?_)
    rw [show a * (x + (∑ i ∈ range k, a ^ i) * ((a - 1) * x + c)) + c =
      x + (a * ∑ i ∈ range k, a ^ i + 1) * ((a - 1) * x + c) by ring]

private theorem iterate_mem {a c m x : Int} (h0 : 0 ≤ x) (hm : x < m) (k : Nat) :
    (next a c m)^[k] x ∈ Set.Ico 0 m := by
  cases k with
  | zero => exact ⟨h0, hm⟩
  | succ k =>
    rw [Function.iterate_succ_apply']
    exact ⟨Int.emod_nonneg _ (by omega), Int.emod_lt_of_pos _ (by omega)⟩

private theorem isCoprime_of_prime {t m : Int}
    (h : ∀ p : Nat, p.Prime → (p : Int) ∣ m → ¬ (p : Int) ∣ t) : IsCoprime t m := by
  rw [Int.isCoprime_iff_gcd_eq_one]
  by_contra hne
  obtain ⟨p, hp, hdvd⟩ := Nat.exists_prime_and_dvd hne
  have hgcd : (p : Int) ∣ Int.gcd t m := Int.natCast_dvd_natCast.mpr hdvd
  exact h p hp (hgcd.trans (Int.gcd_dvd_right _ _)) (hgcd.trans (Int.gcd_dvd_left _ _))

private theorem HullDobell.isCoprime_step {a c m : Int} (h : HullDobell a c m)
    (x : Int) : IsCoprime ((a - 1) * x + c) m := by
  apply isCoprime_of_prime
  intro p hp hpm hpt
  have hpc : (p : Int) ∣ c :=
    (dvd_add_right ((h.multiplier p hp hpm).mul_right x)).mp hpt
  exact (Nat.prime_iff_prime_int.mp hp).not_isUnit (h.increment.isUnit_of_dvd' hpc hpm)

private theorem HullDobell.isCoprime_multiplier {a c m : Int} (h : HullDobell a c m) :
    IsCoprime a m := by
  apply isCoprime_of_prime
  intro p hp hpm hpa
  have hone : (p : Int) ∣ 1 := by simpa using dvd_sub hpa (h.multiplier p hp hpm)
  exact (Nat.prime_iff_prime_int.mp hp).not_dvd_one hone

private theorem HullDobell.dvd_of_iterate_eq {a c m : Int} (h : HullDobell a c m)
    (x : Int) (i d : Nat) (heq : (next a c m)^[i + d] x = (next a c m)^[i] x) : m ∣ d := by
  have hi := iterate_modEq a c m x i
  have hj := iterate_modEq a c m x (i + d)
  rw [heq] at hj
  have hdiff := (hi.symm.trans hj).dvd
  have hsum : ∑ l ∈ range (i + d), a ^ l =
      ∑ l ∈ range i, a ^ l + a ^ i * ∑ l ∈ range d, a ^ l := by
    rw [sum_range_add, mul_sum]
    simp only [pow_add]
  rw [hsum, show x + (∑ l ∈ range i, a ^ l + a ^ i * ∑ l ∈ range d, a ^ l) * ((a - 1) * x + c) -
    (x + (∑ l ∈ range i, a ^ l) * ((a - 1) * x + c)) =
    a ^ i * ((∑ l ∈ range d, a ^ l) * ((a - 1) * x + c)) by ring] at hdiff
  have hpow : IsCoprime m (a ^ i) := (h.isCoprime_multiplier).symm.pow_right
  have hstep := (hpow.dvd_of_dvd_mul_left hdiff)
  have hgeom := (h.isCoprime_step x).symm.dvd_of_dvd_mul_right hstep
  exact (dvd_geom_sum_iff h.multiplier h.four d).mp hgeom

/-- The Hull-Dobell theorem. -/
theorem HullDobell.fullPeriod {a c m : Int} (h : HullDobell a c m) (hm : 0 < m) :
    FullPeriod a c m := by
  intro x h0 hxm
  have hmaps : Set.MapsTo (fun k => (next a c m)^[k] x) (Set.Iio m.toNat) (Set.Ico 0 m) :=
    fun k _ => iterate_mem h0 hxm k
  have hlt {i j : Nat} (hij : i < j) (hj : j < m.toNat) :
      (next a c m)^[j] x ≠ (next a c m)^[i] x := by
    intro heq
    obtain ⟨d, rfl⟩ := Nat.exists_eq_add_of_le hij.le
    have hle := Int.le_of_dvd (by omega) (h.dvd_of_iterate_eq x i d heq)
    omega
  have hinj : Set.InjOn (fun k => (next a c m)^[k] x) (Set.Iio m.toNat) := by
    intro i hi j hj heq
    rcases lt_trichotomy i j with hlt' | heq' | hgt
    · exact absurd heq.symm (hlt hlt' hj)
    · exact heq'
    · exact absurd heq (hlt hgt hi)
  refine ⟨hmaps, hinj, ?_⟩
  have hcard : (Finset.Ico 0 m).card ≤ (range m.toNat).card := by simp
  have hsurj := surjOn_of_injOn_of_card_le (s := range m.toNat) (t := Finset.Ico 0 m)
    (fun k => (next a c m)^[k] x) (fun k _ => by simpa using iterate_mem h0 hxm k)
    (by simpa using hinj) hcard
  simpa using hsurj

/-- An increment that shares a factor with the modulus keeps the run from zero among the
multiples of that factor. -/
theorem FullPeriod.isCoprime {a c m : Int} (h : FullPeriod a c m) (hm : 0 < m) : IsCoprime c m := by
  apply isCoprime_of_prime
  intro p hp hpm hpc
  have hone : 1 < m := by
    have hle := Int.le_of_dvd hm hpm
    have := hp.one_lt
    omega
  obtain ⟨k, -, hk⟩ := (h 0 le_rfl hm).surjOn (show (1 : Int) ∈ Set.Ico 0 m from ⟨by omega, hone⟩)
  have hmod := (iterate_modEq a c m 0 k).of_dvd hpm
  have hk' : (next a c m)^[k] 0 = 1 := hk
  rw [hk', mul_zero, zero_add, zero_add] at hmod
  have hdvd := (Int.ModEq.dvd_iff hmod).mpr (hpc.mul_left _)
  exact (Nat.prime_iff_prime_int.mp hp).not_dvd_one hdvd

/-- Dividing `c` once by its greatest common divisor with `m` makes it coprime to `m` exactly when
`c` has no prime of `m` more often than `m` has it. -/
theorem coprime_div_gcd_iff {c m : Nat} (hc : c ≠ 0) (hm : m ≠ 0) :
    (c / c.gcd m).Coprime m ↔
      ∀ p, p.Prime → p ∣ m → ¬ p ^ (m.factorization p + 1) ∣ c := by
  have hdvd : c.gcd m ∣ c := Nat.gcd_dvd_left c m
  have hquot : c / c.gcd m ≠ 0 :=
    (Nat.div_pos (Nat.le_of_dvd (Nat.pos_of_ne_zero hc) hdvd) (Nat.gcd_pos_of_pos_left m
      (Nat.pos_of_ne_zero hc))).ne'
  have hstep (p : Nat) (hp : p.Prime) :
      p ∣ c / c.gcd m ↔ p ^ (m.factorization p + 1) ∣ c := by
    rw [hp.pow_dvd_iff_le_factorization hc, hp.dvd_iff_one_le_factorization hquot,
      Nat.factorization_div hdvd, Nat.factorization_gcd hc hm, Finsupp.tsub_apply,
      Finsupp.inf_apply]
    omega
  constructor
  · intro hcop p hp hpm hpow
    exact Nat.not_coprime_of_dvd_of_dvd hp.one_lt ((hstep p hp).mpr hpow) hpm hcop
  · intro h
    by_contra hne
    obtain ⟨p, hp, hpc, hpm⟩ := Nat.Prime.not_coprime_iff_dvd.mp hne
    exact h p hp hpm ((hstep p hp).mp hpc)

end CtfChallenges.Framework.Lcg
