import CtfChallenges.Framework.BigInt
import Mathlib.Data.Nat.Factorization.Basic
import Mathlib.Tactic.FinCases

/-!
# The parameters of the Mentalist's generator

`mentalist.go` draws the target of the modulus, the primes of the modulus, the multiplier's
factor, the increment and the start, in this order. Here the draws are given beforehand, and
`generate` has no value on draws that `cryptor.Int` cannot return or that its loop does not ask
for.
-/

namespace CtfChallenges.Mentalist
open Framework

def primes : Vector Int 6 := #v[2, 3, 5, 7, 11, 13]

def UB : Int := 1000000000000000
def LB : Int := 1000000000

/-- `cryptor.Int(cryptor.Reader, max)` with the outcome `draw`. -/
def cryptorInt (max draw : Int) : Option Int :=
  if 0 ≤ draw ∧ draw < max then some draw else none

/-- The loop that multiplies drawn primes onto `PM` until it has reached the target. -/
def growPM (t : Int) : Int → List (Fin 6) → Option Int
  | PM, [] => if PM < t then none else some PM
  | PM, iB :: iBs => if PM < t then growPM t (PM * primes.get iB) iBs else none

structure Draws where
  t : Int
  iB : List (Fin 6)
  lF : Int
  pc : Int
  ps : Int

structure Params where
  PA : Int
  PM : Int
  PC : Int
  PS : Int
deriving DecidableEq, Repr

def generate (d : Draws) : Option Params := do
  let r := (UB - LB) / primes.back
  let t ← cryptorInt r d.t
  let t := t + LB
  let PM ← growPM t 1 d.iB
  let PA := primes.foldl (· * ·) 4
  let l := (PM - 1) / PA - 1
  let lF ← cryptorInt l d.lF
  let PA := PA * (lF + 1) + 1
  let lC := PM - 1
  let PC ← cryptorInt lC d.pc
  let PC := PC + 1
  let PC := PC / BigInt.gcd PC PM
  let PS ← cryptorInt PM d.ps
  return { PA, PM, PC, PS }

/-- The first two steps of `generate`: the target and the modulus. -/
def drawPM (t : Int) (iB : List (Fin 6)) : Option Int := do
  let t ← cryptorInt ((UB - LB) / primes.back) t
  growPM (t + LB) 1 iB

def LCG (a c m x : Int) : Int := (x * a + c) % m

/-- The draws for `2 ^ 30`, with the least multiplier, increment and start. -/
def leastDraws : Draws := ⟨0, List.replicate 30 0, 0, 0, 0⟩

/-- The draws for `2 * 3 ^ 19` with an increment drawn as `4`. -/
def sharedDraws : Draws := ⟨0, 0 :: List.replicate 19 1, 0, 3, 0⟩

/-- The primes of a modulus past `UB`: `2 ^ 7 * 3 ^ 6 * 7 ^ 8 * 11 * 13` and then `13` again. -/
def pastUB : List (Fin 6) :=
  List.replicate 7 0 ++ List.replicate 6 1 ++ List.replicate 8 3 ++ [4, 5, 5]

theorem cryptorInt_eq_some {max draw v : Int} :
    cryptorInt max draw = some v ↔ v = draw ∧ 0 ≤ draw ∧ draw < max := by
  unfold cryptorInt
  split
  · rename_i h
    simp [h, eq_comm]
  · rename_i h
    simp [h]

theorem generate_spec {d : Draws} {k : Params} (h : generate d = some k) :
    growPM (d.t + LB) 1 d.iB = some k.PM ∧ 0 ≤ d.t ∧ 0 ≤ d.lF ∧
      k.PA = 120120 * (d.lF + 1) + 1 ∧ 0 ≤ d.pc ∧ d.pc + 1 < k.PM ∧
      k.PC = (d.pc + 1) / BigInt.gcd (d.pc + 1) k.PM ∧ 0 ≤ k.PS ∧ k.PS < k.PM := by
  simp only [generate, Option.bind_eq_bind, Option.bind_eq_some_iff, cryptorInt_eq_some,
    Option.pure_def, Option.some.injEq] at h
  obtain ⟨t, ⟨rfl, ht0, -⟩, PM, hgrow, lF, ⟨rfl, hl0, -⟩, PC, ⟨rfl, hc0, hc1⟩, PS,
    ⟨rfl, hs0, hs1⟩, rfl⟩ := h
  have hPA : primes.foldl (· * ·) 4 = 120120 := rfl
  exact ⟨hgrow, ht0, hl0, by rw [hPA], hc0, add_lt_of_lt_sub_right hc1, rfl, hs0, hs1⟩

/-- The primes of the modulus, as natural numbers. -/
def prime (i : Fin 6) : Nat := (primes.get i).toNat

@[simp] theorem natCast_prime (i : Fin 6) : (prime i : Int) = primes.get i := by
  fin_cases i <;> rfl

theorem prime_prime : ∀ i, (prime i).Prime := by decide +kernel

theorem prime_injective : Function.Injective prime := by decide

theorem prime_dvd (i : Fin 6) : prime i ∣ 30030 := by
  fin_cases i <;> decide

private theorem prod_prime_ne_zero (is : List (Fin 6)) : (is.map prime).prod ≠ 0 := by
  apply List.prod_ne_zero
  intro hzero
  obtain ⟨i, -, hi⟩ := List.mem_map.mp hzero
  exact (prime_prime i).ne_zero hi

/-- The loop ends with the product of the drawn primes. -/
theorem growPM_eq {t : Int} {is : List (Fin 6)} {PM PM' : Int} (h : growPM t PM is = some PM') :
    PM' = PM * ((is.map prime).prod : Nat) ∧ t ≤ PM' := by
  induction is generalizing PM with
  | nil =>
    unfold growPM at h
    split at h
    · cases h
    · rename_i hge
      cases h
      exact ⟨by simp, by omega⟩
  | cons i is ih =>
    unfold growPM at h
    split at h
    · obtain ⟨hprod, hge⟩ := ih h
      refine ⟨?_, hge⟩
      rw [hprod, List.map_cons, List.prod_cons, Nat.cast_mul, natCast_prime, mul_assoc]
    · cases h

/-- Whatever is drawn, the loop comes to an end. -/
theorem growPM_terminates (t : Int) (draw : Nat → Fin 6) {PM : Int} (h : 0 < PM) :
    ∃ n PM', growPM t PM (List.ofFn fun i : Fin n => draw i) = some PM' := by
  induction hgap : (t - PM).toNat using Nat.strong_induction_on generalizing PM draw with
  | _ gap ih =>
    by_cases hlt : PM < t
    · have htwo : 2 ≤ primes.get (draw 0) := by
        rw [← natCast_prime]
        exact_mod_cast (prime_prime (draw 0)).two_le
      have hgrow : 2 * PM ≤ PM * primes.get (draw 0) := by
        rw [mul_comm 2 PM]
        exact mul_le_mul_of_nonneg_left htwo h.le
      obtain ⟨n, PM', hn⟩ := ih (t - PM * primes.get (draw 0)).toNat (by omega)
        (fun i => draw (i + 1)) (by omega) rfl
      refine ⟨n + 1, PM', ?_⟩
      rw [List.ofFn_succ, growPM, if_pos hlt]
      simpa using hn
    · exact ⟨0, PM, by rw [List.ofFn_zero, growPM, if_neg hlt]⟩

theorem factorization_prod_prime (is : List (Fin 6)) (i : Fin 6) :
    (is.map prime).prod.factorization (prime i) = is.count i := by
  induction is with
  | nil => simp
  | cons j is ih =>
    rw [List.map_cons, List.prod_cons,
      Nat.factorization_mul (prime_prime j).ne_zero (prod_prime_ne_zero is), Finsupp.add_apply, ih,
      (prime_prime j).factorization, List.count_cons, Finsupp.single_apply, add_comm]
    simp [prime_injective.eq_iff]

/-- The primes that divide the modulus are the drawn ones. -/
theorem exists_prime_of_dvd {p : Nat} (hp : p.Prime) {is : List (Fin 6)}
    (h : p ∣ (is.map prime).prod) : ∃ i ∈ is, p = prime i := by
  obtain ⟨q, hq, hpq⟩ := (Nat.Prime.prime hp).dvd_prod_iff.mp h
  obtain ⟨i, hi, rfl⟩ := List.mem_map.mp hq
  exact ⟨i, hi, (Nat.prime_dvd_prime_iff_eq hp (prime_prime i)).mp hpq⟩

end CtfChallenges.Mentalist
