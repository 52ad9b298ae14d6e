import Mathlib.Algebra.BigOperators.Group.List.Basic
import Mathlib.Algebra.Order.Ring.Nat
import Mathlib.Data.Nat.Log

/-!
# Smooth numbers in a window

A search through the products of given bases and powers of two that lie in a window. The window ends
before twice its start, so that at most one power of two takes a number into it.
-/

namespace CtfChallenges.Framework.SmoothWindow

/-- Of the products of `m` with the bases and powers of two, those in the window are allowed. There is
nothing to look for where `m` has no multiple in the window at all. -/
def search (low high : Nat) (allowed : Nat → Bool) : Nat → List Nat → Nat → Bool
  | 0, _, _ => false
  | _ + 1, [], m =>
    let n := m <<< Nat.log2 (high / m)
    Nat.blt n low || allowed n
  | fuel + 1, p :: ps, m =>
    Nat.blt (m * (high / m)) low ||
      (search low high allowed fuel ps m && search low high allowed fuel (p :: ps) (m * p))

variable {low high : Nat} {allowed : Nat → Bool}

/-- Only the largest power of two that stays below the end of the window can reach its start. -/
theorem allowed_of_power (hwindow : high < 2 * low) {m k : Nat} (hm : 0 < m) (hlow : low ≤ m * 2 ^ k)
    (hhigh : m * 2 ^ k ≤ high)
    (h : Nat.blt (m <<< Nat.log2 (high / m)) low = true ∨
      allowed (m <<< Nat.log2 (high / m)) = true) : allowed (m * 2 ^ k) = true := by
  have hle : 2 ^ k ≤ high / m := (Nat.le_div_iff_mul_le hm).mpr (by rwa [Nat.mul_comm])
  have hne : high / m ≠ 0 := Nat.ne_of_gt (Nat.lt_of_lt_of_le (Nat.two_pow_pos k) hle)
  have hk : k ≤ Nat.log2 (high / m) := (Nat.le_log2 hne).mpr hle
  have hlog : 2 ^ Nat.log2 (high / m) ≤ high / m := Nat.log2_self_le hne
  have htop : m * 2 ^ Nat.log2 (high / m) ≤ high :=
    (Nat.mul_le_mul_left m hlog).trans (Nat.mul_div_le high m)
  have hsame : k = Nat.log2 (high / m) := by
    by_contra hdiff
    have hlt : k + 1 ≤ Nat.log2 (high / m) := by omega
    have hdouble : m * 2 ^ (k + 1) ≤ high :=
      (Nat.mul_le_mul_left m (Nat.pow_le_pow_right (by decide) hlt)).trans htop
    rw [Nat.pow_succ, ← Nat.mul_assoc] at hdouble
    omega
  rw [Nat.shiftLeft_eq, ← hsame] at h
  obtain h | h := h
  · rw [Nat.blt_eq] at h
    omega
  · exact h

theorem search_sound (hwindow : high < 2 * low) {fuel : Nat} {ps : List Nat} (hps : ∀ p ∈ ps, 0 < p)
    {m : Nat} (hm : 0 < m) (h : search low high allowed fuel ps m = true) {fs : List Nat}
    (hfs : ∀ f ∈ fs, f = 2 ∨ f ∈ ps) (hlow : low ≤ m * fs.prod) (hhigh : m * fs.prod ≤ high) :
    allowed (m * fs.prod) = true := by
  induction fuel generalizing ps m fs with
  | zero => cases h
  | succ fuel ih =>
    cases ps with
    | nil =>
      have htwo : fs.prod = 2 ^ fs.length := by
        apply List.prod_eq_pow_card
        intro f hf
        simpa using hfs f hf
      rw [search, Bool.or_eq_true] at h
      rw [htwo] at hlow hhigh ⊢
      exact allowed_of_power hwindow hm hlow hhigh h
    | cons p ps =>
      have hmultiple : Nat.blt (m * (high / m)) low = false := by
        have hle : m * fs.prod ≤ m * (high / m) :=
          Nat.mul_le_mul_left m ((Nat.le_div_iff_mul_le hm).mpr (by rwa [Nat.mul_comm]))
        rw [Bool.eq_false_iff, Ne, Nat.blt_eq]
        omega
      rw [search, hmultiple, Bool.false_or, Bool.and_eq_true] at h
      by_cases hp : p ∈ fs
      · have hprod : p * (fs.erase p).prod = fs.prod := List.prod_erase hp
        rw [← hprod, ← Nat.mul_assoc] at hlow hhigh ⊢
        exact ih hps (Nat.mul_pos hm (hps p List.mem_cons_self)) h.2
          (fun f hf => hfs f (List.mem_of_mem_erase hf)) hlow hhigh
      · refine ih (fun q hq => hps q (List.mem_cons_of_mem p hq)) hm h.1 ?_ hlow hhigh
        intro f hf
        obtain htwo | hmem := hfs f hf
        · exact .inl htwo
        · obtain rfl | hmem := List.mem_cons.mp hmem
          · exact absurd hf hp
          · exact .inr hmem

end CtfChallenges.Framework.SmoothWindow
