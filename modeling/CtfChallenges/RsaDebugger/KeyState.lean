import CtfChallenges.RsaDebugger.Key
import CtfChallenges.Framework.Congruence
import Mathlib.Tactic.Linarith

/-!
# The key stays consistent

A command leaves a usable private exponent only beside the primes, modulus and public exponent
it was computed from. The exponent -1 is a legal argument of `sete` and then looks unset, so
the invariant speaks of `d` alone.
-/

namespace CtfChallenges.RsaDebugger
open Framework BigInt

/-- The private exponent inverts the public one modulo the totient. -/
structure Inverse (e d φ : Int) : Prop where
  coprime : IsCoprime e φ
  nonneg : 0 ≤ d
  modEq : e * d ≡ 1 [ZMOD φ]

/-- The primes, and the modulus derived from them. -/
structure Factored (k : Key) (p q : Nat) : Prop where
  p_eq : k.p = p
  q_eq : k.q = q
  p_prime : p.Prime
  q_prime : q.Prime
  ne : p ≠ q
  n_eq : k.n = k.p * k.q

structure Consistent (k : Key) : Prop where
  p_prime : k.p = -1 ∨ ∃ p : Nat, k.p = p ∧ p.Prime
  unset : k.q = -1 → k.n = -1 ∧ k.e = -1 ∧ k.d = -1
  factored : k.q ≠ -1 → ∃ p q, Factored k p q
  inverse : k.d ≠ -1 → Inverse k.e k.d ((k.p - 1) * (k.q - 1))

theorem unset_consistent : Consistent Key.unset :=
  ⟨.inl rfl, fun _ => ⟨rfl, rfl, rfl⟩, fun h => absurd rfl h, fun h => absurd rfl h⟩

theorem Factored.with_exponents {k : Key} {p q : Nat} (h : Factored k p q) (e d : Int) :
    Factored { k with e := e, d := d } p q :=
  ⟨h.p_eq, h.q_eq, h.p_prime, h.q_prime, h.ne, h.n_eq⟩

private theorem Consistent.drop_exponents {k : Key} (h : Consistent k) :
    Consistent { k with e := -1, d := -1 } := by
  refine ⟨h.p_prime, fun hq => ⟨(h.unset hq).1, rfl, rfl⟩, fun hq => ?_, fun hd => absurd rfl hd⟩
  obtain ⟨p, q, hf⟩ := h.factored hq
  exact ⟨p, q, hf.with_exponents _ _⟩

private theorem unset_for_p_consistent {k : Key} (h : Consistent k) :
    Consistent (unset_for_p k).2 ∧ (unset_for_p k).2.q = -1 := by
  unfold unset_for_p
  split_ifs with hq
  · exact ⟨⟨h.p_prime, fun _ => ⟨rfl, rfl, rfl⟩, fun hne => absurd rfl hne,
      fun hne => absurd rfl hne⟩, rfl⟩
  · exact ⟨h, not_not.mp hq⟩

private theorem unset_for_q_consistent {k : Key} (h : Consistent k) :
    Consistent (unset_for_q k).2 ∧ (unset_for_q k).2.p = k.p ∧ (unset_for_q k).2.d = -1 := by
  unfold unset_for_q
  split_ifs with hq
  · exact ⟨h.drop_exponents, rfl, rfl⟩
  · exact ⟨h, rfl, (h.unset (not_not.mp hq)).2.2⟩

private theorem unset_for_e_consistent {k : Key} (h : Consistent k) :
    Consistent (unset_for_e k).2 ∧ (unset_for_e k).2.q = k.q := by
  unfold unset_for_e
  split_ifs with he
  · exact ⟨h.drop_exponents, rfl⟩
  · exact ⟨h, rfl⟩

private theorem set_p_consistent (t : List (List UInt8)) {k : Key} (h : Consistent k) :
    Consistent (set_p t k).2 := by
  unfold set_p
  split
  · obtain ⟨hc, hq⟩ := unset_for_p_consistent h
    dsimp only
    split_ifs with hok hprime
    · exact hc
    · exact hc
    · obtain ⟨hn, he, hd⟩ := hc.unset hq
      exact ⟨.inr ((probablyPrime_iff _).mp (by simpa using hprime)), fun _ => ⟨hn, he, hd⟩,
        fun hne => absurd hq hne, fun hne => absurd hd hne⟩
  · exact h

private theorem set_q_consistent (t : List (List UInt8)) {k : Key} (h : Consistent k) :
    Consistent (set_q t k).2 := by
  unfold set_q
  split
  · rename_i arg
    obtain ⟨hc, hp, hd⟩ := unset_for_q_consistent h
    dsimp only
    split_ifs with hset hok hprime hgcd
    · exact h
    · exact hc
    · exact hc
    · exact hc
    · obtain ⟨p, hpeq, hpp⟩ := hc.p_prime.resolve_left (hp ▸ hset)
      obtain ⟨q, hqeq, hqp⟩ := (probablyPrime_iff _).mp (by simpa using hprime)
      have hne : p ≠ q := by
        rintro rfl
        have hself := (gcd_eq_one_iff _ _).mp (not_not.mp hgcd)
        rw [hqeq, hpeq, isCoprime_self, Int.isUnit_iff] at hself
        have hone := hpp.one_lt
        omega
      refine ⟨hc.p_prime, fun hq => ?_, fun _ => ⟨p, q, hpeq, hqeq, hpp, hqp, hne, rfl⟩,
        fun hne => absurd hd hne⟩
      dsimp only at hq
      omega
  · exact h

/-- The totient of distinct primes is at least two. -/
theorem two_le_totient {p q : Nat} (hp : p.Prime) (hq : q.Prime) (hne : p ≠ q) :
    2 ≤ ((p : Int) - 1) * (q - 1) := by
  have h1 := hp.two_le
  have h2 := hq.two_le
  rcases Nat.lt_or_gt_of_ne hne with hlt | hlt
  · nlinarith
  · nlinarith

private theorem set_e_consistent (t : List (List UInt8)) {k : Key} (h : Consistent k) :
    Consistent (set_e t k).2 := by
  unfold set_e
  split
  · rename_i arg
    obtain ⟨hc, hq⟩ := unset_for_e_consistent h
    dsimp only
    split_ifs with hsetp hsetq hok hgp hgq hlt
    · exact h
    · exact h
    · exact hc
    · exact hc
    · exact hc
    · exact hc
    · obtain ⟨p, q, hf⟩ := hc.factored (hq ▸ hsetq)
      have hcop : IsCoprime (setString arg 10).1
          (((unset_for_e k).2.p - 1) * ((unset_for_e k).2.q - 1)) :=
        ((gcd_eq_one_iff _ _).mp (not_not.mp hgp)).mul_right
          ((gcd_eq_one_iff _ _).mp (not_not.mp hgq))
      have hpos : 2 ≤ ((unset_for_e k).2.p - 1) * ((unset_for_e k).2.q - 1) := by
        rw [hf.p_eq, hf.q_eq]
        exact two_le_totient hf.p_prime hf.q_prime hf.ne
      obtain ⟨d, hd, hd0, -, hed⟩ := modInverse_spec hcop (by omega)
      rw [show (modInverse (setString arg 10).1
        (((unset_for_e k).2.p + -1) * ((unset_for_e k).2.q + -1))).getD 0 = d from
        congrArg (Option.getD · 0) hd]
      exact ⟨hc.p_prime, fun hunset => absurd hunset (hq ▸ hsetq),
        fun _ => ⟨p, q, hf.with_exponents _ _⟩, fun _ => ⟨hcop, hd0, hed⟩⟩
  · exact h

theorem execute_consistent {k : Key} (c : Command) (h : Consistent k) :
    Consistent (execute k c).2 := by
  cases c with
  | setp t => exact set_p_consistent t h
  | setq t => exact set_q_consistent t h
  | sete t => exact set_e_consistent t h
  | resetkey => exact unset_consistent

theorem keyAfter_consistent (cs : List Command) : Consistent (keyAfter cs) :=
  List.foldlRecOn cs _ unset_consistent fun _ hk c _ => execute_consistent c hk

/-- With a consistent key, decryption undoes encryption on every message below the modulus. -/
theorem Consistent.decrypt {k : Key} (h : Consistent k) (hd : k.d ≠ -1) (he : 1 ≤ k.e) {m : Int}
    (hm : 0 ≤ m) (hmn : m < k.n) :
    ∃ c, exp m k.e k.n = some c ∧ decrypt_msg k c = ([], some m) := by
  have hq : k.q ≠ -1 := fun hq => hd (h.unset hq).2.2
  obtain ⟨p, q, hf⟩ := h.factored hq
  obtain ⟨-, hd0, hed⟩ := h.inverse hd
  have hn : k.n = ((p * q : Nat) : Int) := by rw [hf.n_eq, hf.p_eq, hf.q_eq, Nat.cast_mul]
  have hn0 : k.n ≠ 0 := by omega
  have hc0 : 0 ≤ m ^ k.e.toNat % k.n := Int.emod_nonneg _ hn0
  refine ⟨m ^ k.e.toNat % k.n, by simp [exp, hn0, show ¬ k.e < 0 by omega], ?_⟩
  have hc : m ^ k.e.toNat % k.n ≠ -1 := by omega
  simp only [decrypt_msg, hd, hc, if_false, exp, hn0, show ¬ k.d < 0 by omega, Option.getD_some,
    Prod.mk.injEq, Option.some.injEq, true_and]
  -- the exponents as naturals
  have hp1 := hf.p_prime.one_lt
  have hq1 := hf.q_prime.one_lt
  have hmod : k.e.toNat * k.d.toNat ≡ 1 [MOD (p - 1) * (q - 1)] := by
    rw [← Int.natCast_modEq_iff]
    push_cast [Int.toNat_of_nonneg hd0, Int.toNat_of_nonneg (show 0 ≤ k.e by omega),
      Nat.cast_sub hp1.le, Nat.cast_sub hq1.le]
    rw [← hf.p_eq, ← hf.q_eq]
    exact hed
  have hdpos : k.d ≠ 0 := by
    intro hzero
    rw [hzero, mul_zero, hf.p_eq, hf.q_eq] at hed
    have htwo := two_le_totient hf.p_prime hf.q_prime hf.ne
    have hle := Int.le_of_dvd one_pos (by simpa using Int.modEq_iff_dvd.mp hed)
    omega
  have hpos : 0 < k.e.toNat * k.d.toNat := Nat.mul_pos (by omega) (by omega)
  have hback := Rsa.pow_pow_modEq hf.p_prime hf.q_prime hf.ne hpos hmod m
  rw [← hn] at hback
  have hpow : (m ^ k.e.toNat % k.n) ^ k.d.toNat ≡ m [ZMOD k.n] :=
    ((Int.mod_modEq _ _).pow _).trans hback
  rw [hpow, Int.emod_eq_of_lt hm hmn]

/-- In every reachable state: without `q` nothing derived is set; a private exponent stands
beside the distinct primes, the modulus and the public exponent it inverts; and it decrypts. -/
theorem key_state (cs : List Command) :
    let k := keyAfter cs
    (k.q = -1 → k.n = -1 ∧ k.e = -1 ∧ k.d = -1) ∧
    (k.d ≠ -1 →
      (∃ p q : Nat, k.p = p ∧ k.q = q ∧ p.Prime ∧ q.Prime ∧ p ≠ q ∧ k.n = k.p * k.q) ∧
      Int.gcd k.e ((k.p - 1) * (k.q - 1)) = 1 ∧
      k.e * k.d ≡ 1 [ZMOD (k.p - 1) * (k.q - 1)] ∧
      (1 ≤ k.e → ∀ m, 0 ≤ m → m < k.n →
        ∃ c, exp m k.e k.n = some c ∧ decrypt_msg k c = ([], some m))) := by
  intro k
  have h := keyAfter_consistent cs
  refine ⟨h.unset, fun hd => ?_⟩
  obtain ⟨p, q, hf⟩ := h.factored fun hq => hd (h.unset hq).2.2
  have hinv := h.inverse hd
  exact ⟨⟨p, q, hf.p_eq, hf.q_eq, hf.p_prime, hf.q_prime, hf.ne, hf.n_eq⟩,
    Int.isCoprime_iff_gcd_eq_one.mp hinv.coprime, hinv.modEq,
    fun he m hm hmn => h.decrypt hd he hm hmn⟩

end CtfChallenges.RsaDebugger
