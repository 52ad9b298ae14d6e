import CtfChallenges.Framework.HullDobell
import CtfChallenges.Mentalist.Generator

/-!
# The period of the Mentalist's generator

The multiplier always meets its Hull-Dobell conditions. The increment is divided once by its
greatest common divisor with the modulus, and this leaves a shared factor when the increment was
drawn with more factors of one of the primes than the modulus has.
-/

namespace CtfChallenges.Mentalist
open Framework

/-- Of no prime of the modulus does the drawn increment have more factors than the modulus. -/
def Draws.IncrementClears (d : Draws) : Prop :=
  ∀ i ∈ d.iB, ¬ prime i ^ (d.iB.count i + 1) ∣ (d.pc + 1).toNat

instance (d : Draws) : Decidable d.IncrementClears := by
  unfold Draws.IncrementClears
  infer_instance

theorem LCG_eq_next (a c m : Int) : LCG a c m = Lcg.next a c m := by
  funext x
  rw [LCG, Lcg.next, mul_comm]

theorem multiplier_conditions {d : Draws} {k : Params} (h : generate d = some k) :
    (∀ p : Nat, p.Prime → (p : Int) ∣ k.PM → (p : Int) ∣ k.PA - 1) ∧ 4 ∣ k.PA - 1 := by
  obtain ⟨hgrow, -, -, hPA, -⟩ := generate_spec h
  have hsub : k.PA - 1 = 120120 * (d.lF + 1) := by omega
  constructor
  · intro p hp hdvd
    rw [(growPM_eq hgrow).1, one_mul, Int.natCast_dvd_natCast] at hdvd
    obtain ⟨i, -, rfl⟩ := exists_prime_of_dvd hp hdvd
    have hi : (prime i : Int) ∣ 120120 := by
      exact_mod_cast (prime_dvd i).trans (by decide : 30030 ∣ 120120)
    rw [hsub]
    exact hi.mul_right _
  · omega

theorem increment_iff {d : Draws} {k : Params} (h : generate d = some k) :
    IsCoprime k.PC k.PM ↔ d.IncrementClears := by
  obtain ⟨hgrow, ht0, -, -, hc0, -, hPC, -⟩ := generate_spec h
  have hPM : k.PM = ((d.iB.map prime).prod : Nat) := by
    rw [(growPM_eq hgrow).1, one_mul]
  have hpos : 0 < k.PM := by
    have hge := (growPM_eq hgrow).2
    unfold LB at hge
    omega
  obtain ⟨c, hc⟩ := Int.eq_ofNat_of_zero_le (show 0 ≤ d.pc + 1 by omega)
  have hm0 : (d.iB.map prime).prod ≠ 0 := by omega
  rw [hPC, hPM, hc, BigInt.gcd, Int.gcd_natCast_natCast, ← Int.natCast_ediv,
    Int.isCoprime_iff_gcd_eq_one, Int.gcd_natCast_natCast, ← Nat.coprime_iff_gcd_eq_one,
    Lcg.coprime_div_gcd_iff (by omega) hm0, Draws.IncrementClears, hc, Int.toNat_natCast]
  constructor
  · intro hall i hi
    rw [← factorization_prod_prime]
    exact hall _ (prime_prime i) (List.dvd_prod (List.mem_map_of_mem hi))
  · intro hall p hp hdvd
    obtain ⟨i, hi, rfl⟩ := exists_prime_of_dvd hp hdvd
    rw [factorization_prod_prime]
    exact hall i hi

/-- The generator meets the Hull-Dobell conditions, and its numbers run through all residues from
every start, exactly when the drawn increment has no prime of the modulus more often than the
modulus has it. -/
theorem full_period_iff (d : Draws) (k : Params) (h : generate d = some k) :
    (Lcg.HullDobell k.PA k.PC k.PM ↔ d.IncrementClears) ∧
      ((∀ x, 0 ≤ x → x < k.PM →
        Set.BijOn (fun n => (LCG k.PA k.PC k.PM)^[n] x) (Set.Iio k.PM.toNat) (Set.Ico 0 k.PM)) ↔
          d.IncrementClears) := by
  obtain ⟨hgrow, ht0, -⟩ := generate_spec h
  have hpos : 0 < k.PM := by
    have hge := (growPM_eq hgrow).2
    unfold LB at hge
    omega
  obtain ⟨hmult, hfour⟩ := multiplier_conditions h
  have hiff := increment_iff h
  have hhull : Lcg.HullDobell k.PA k.PC k.PM ↔ d.IncrementClears :=
    ⟨fun hd => hiff.mp hd.increment, fun hc => ⟨hiff.mpr hc, hmult, fun _ => hfour⟩⟩
  refine ⟨hhull, ?_⟩
  rw [LCG_eq_next]
  constructor
  · intro hfull
    exact hiff.mp (Lcg.FullPeriod.isCoprime hfull hpos)
  · intro hc
    exact (hhull.mpr hc).fullPeriod hpos

theorem full_period_leastDraws :
    generate leastDraws = some ⟨120121, 2 ^ 30, 1, 0⟩ ∧
      (Lcg.HullDobell 120121 1 (2 ^ 30) ↔ leastDraws.IncrementClears) :=
  ⟨by decide +kernel, (full_period_iff leastDraws ⟨120121, 2 ^ 30, 1, 0⟩ (by decide +kernel)).1⟩

/-- With `2 * 3 ^ 19` as modulus the increment `4` is left at `2`. -/
theorem sharedDraws_not_coprime :
    generate sharedDraws = some ⟨120121, 2 * 3 ^ 19, 2, 0⟩ ∧
      ¬ Lcg.HullDobell 120121 2 (2 * 3 ^ 19) ∧ ¬ Lcg.FullPeriod 120121 2 (2 * 3 ^ 19) := by
  have hcop : ¬ IsCoprime (2 : Int) (2 * 3 ^ 19) := by
    rw [Int.isCoprime_iff_gcd_eq_one]
    decide +kernel
  exact ⟨by decide +kernel, fun h => hcop h.increment, fun h => hcop (h.isCoprime (by decide))⟩

end CtfChallenges.Mentalist
