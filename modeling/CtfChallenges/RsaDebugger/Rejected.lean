import CtfChallenges.RsaDebugger.Key

/-!
# Commands that are rejected

A command clears what depends on its parameter before it has looked at the argument, so that an
argument which is rejected can cost parts of the key.
-/

namespace CtfChallenges.RsaDebugger
open Framework BigInt

/-- The line reports an error. -/
def isError (line : String) : Bool := "Error: ".toList.isPrefixOf line.toList

/-- A command that prints an error. -/
def Rejected (out : List String) : Prop := ∃ line ∈ out, isError line

instance (out : List String) : Decidable (Rejected out) := inferInstanceAs (Decidable (∃ _ ∈ _, _))

/-- A command that is rejected without a change: its arguments are not counted right, something it
needs is not set, or it has nothing to clear. -/
def ClearsNothing (k : Key) : Command → Prop
  | .setp t => t.length ≠ 2 ∨ k.q = -1
  | .setq t => t.length ≠ 2 ∨ k.p = -1 ∨ k.q = -1 ∨ k.e = -1 ∧ k.d = -1
  | .sete t => t.length ≠ 2 ∨ k.p = -1 ∨ k.q = -1 ∨ k.e = -1
  | .resetkey => True

theorem not_rejected_nil : ¬ Rejected [] := by
  rintro ⟨line, hline, -⟩
  cases hline

theorem not_rejected_unset : ¬ Rejected ["Unsetting q, n, e, d\n"] ∧
    ¬ Rejected ["Unsetting e, d\n"] ∧ ¬ Rejected ["Unsetting previous e, d\n"] ∧
    ¬ Rejected ["Key parameters reset.\n"] := by
  decide

/-- The three first parts print no error. -/
theorem unset_not_rejected (k : Key) : ¬ Rejected (unset_for_p k).1 ∧ ¬ Rejected (unset_for_q k).1 ∧
    ¬ Rejected (unset_for_e k).1 := by
  obtain ⟨hp, hq, he, -⟩ := not_rejected_unset
  refine ⟨?_, ?_, ?_⟩
  · rw [unset_for_p]
    split
    · exact hp
    · exact not_rejected_nil
  · rw [unset_for_q]
    split
    · exact hq
    · exact not_rejected_nil
  · rw [unset_for_e]
    split
    · exact he
    · exact not_rejected_nil

theorem unset_for_p_eq_self (k : Key) : (unset_for_p k).2 = k ↔ k.q = -1 := by
  rw [unset_for_p]
  split
  · rename_i hq
    simp only [Key.ext_iff, hq, iff_false]
    exact fun h => hq h.2.1.symm
  · rename_i hq
    simpa using hq

theorem unset_for_q_eq_self (k : Key) :
    (unset_for_q k).2 = k ↔ k.q = -1 ∨ k.e = -1 ∧ k.d = -1 := by
  rw [unset_for_q]
  split
  · rename_i hq
    simp [Key.ext_iff, hq, eq_comm]
  · rename_i hq
    simp [not_not.mp hq]

theorem unset_for_e_eq_self (k : Key) : (unset_for_e k).2 = k ↔ k.e = -1 := by
  rw [unset_for_e]
  split
  · rename_i he
    simp only [Key.ext_iff, he, iff_false]
    exact fun h => he h.2.2.2.1.symm
  · rename_i he
    simpa using he

section
variable {t : List (List UInt8)} {k : Key} {name arg : List UInt8}

theorem set_p_count (hlen : t.length ≠ 2) : (set_p t k).2 = k := by
  unfold set_p
  split
  · exact absurd rfl hlen
  · rfl

theorem set_q_count (hlen : t.length ≠ 2) : (set_q t k).2 = k := by
  unfold set_q
  split
  · exact absurd rfl hlen
  · rfl

theorem set_e_count (hlen : t.length ≠ 2) : (set_e t k).2 = k := by
  unfold set_e
  split
  · exact absurd rfl hlen
  · rfl

theorem set_p_rejected (h : Rejected (set_p [name, arg] k).1) :
    (set_p [name, arg] k).2 = (unset_for_p k).2 := by
  simp only [set_p] at h ⊢
  split_ifs at h ⊢
  · rfl
  · rfl
  · exact absurd h (unset_not_rejected k).1

theorem set_q_rejected (hp : k.p ≠ -1) (h : Rejected (set_q [name, arg] k).1) :
    (set_q [name, arg] k).2 = (unset_for_q k).2 := by
  simp only [set_q, if_neg hp] at h ⊢
  split_ifs at h ⊢
  · rfl
  · rfl
  · rfl
  · exact absurd h (unset_not_rejected k).2.1

theorem set_e_rejected (hp : k.p ≠ -1) (hq : k.q ≠ -1) (h : Rejected (set_e [name, arg] k).1) :
    (set_e [name, arg] k).2 = (unset_for_e k).2 := by
  simp only [set_e, if_neg hp, if_neg hq] at h ⊢
  split_ifs at h ⊢
  · rfl
  · rfl
  · rfl
  · rfl
  · exact absurd h (unset_not_rejected k).2.2

end

/-- When the command is rejected, it has not changed the key. -/
def RejectsCleanly (k : Key) (c : Command) : Prop :=
  Rejected (execute k c).1 → (execute k c).2 = k

private theorem setp_cleanly (k : Key) (t : List (List UInt8)) (h : Rejected (set_p t k).1) :
    (set_p t k).2 = k ↔ t.length ≠ 2 ∨ k.q = -1 := by
  by_cases hlen : t.length = 2
  · obtain ⟨name, arg, rfl⟩ := List.length_eq_two.mp hlen
    rw [set_p_rejected h, unset_for_p_eq_self]
    simp
  · simp [set_p_count hlen, hlen]

private theorem setq_cleanly (k : Key) (t : List (List UInt8)) (h : Rejected (set_q t k).1) :
    (set_q t k).2 = k ↔ t.length ≠ 2 ∨ k.p = -1 ∨ k.q = -1 ∨ k.e = -1 ∧ k.d = -1 := by
  by_cases hlen : t.length = 2
  · obtain ⟨name, arg, rfl⟩ := List.length_eq_two.mp hlen
    by_cases hp : k.p = -1
    · simp [set_q, hp]
    · rw [set_q_rejected hp h, unset_for_q_eq_self]
      simp [hp]
  · simp [set_q_count hlen, hlen]

private theorem sete_cleanly (k : Key) (t : List (List UInt8)) (h : Rejected (set_e t k).1) :
    (set_e t k).2 = k ↔ t.length ≠ 2 ∨ k.p = -1 ∨ k.q = -1 ∨ k.e = -1 := by
  by_cases hlen : t.length = 2
  · obtain ⟨name, arg, rfl⟩ := List.length_eq_two.mp hlen
    by_cases hp : k.p = -1
    · simp [set_e, hp]
    by_cases hq : k.q = -1
    · simp [set_e, hp, hq]
    · rw [set_e_rejected hp hq h, unset_for_e_eq_self]
      simp [hp, hq]
  · simp [set_e_count hlen, hlen]

/-- A command that is rejected changes the key unless it has nothing to clear. -/
theorem rejects_cleanly_iff (k : Key) (c : Command) :
    RejectsCleanly k c ↔ (Rejected (execute k c).1 → ClearsNothing k c) := by
  apply forall_congr'
  intro h
  cases c with
  | setp t => exact setp_cleanly k t h
  | setq t => exact setq_cleanly k t h
  | sete t => exact sete_cleanly k t h
  | resetkey => exact absurd h not_rejected_unset.2.2.2

/-- In a run every command that is rejected leaves the key as it is. -/
def RunRejectsCleanly (cs : List Command) : Prop :=
  ∀ before c after, cs = before ++ c :: after → RejectsCleanly (keyAfter before) c

private theorem threeFive_key :
    keyAfter [.setp [[0x73], [0x33]], .setq [[0x73], [0x35]]] = ⟨3, 5, 15, -1, -1⟩ := by
  have hthree : setString [0x33] 10 = (3, true) := by decide
  have hfive : setString [0x35] 10 = (5, true) := by decide
  have hp : probablyPrime 3 = true := decide_eq_true Nat.prime_three
  have hq : probablyPrime 5 = true := decide_eq_true Nat.prime_five
  have hset : set_p [[0x73], [0x33]] Key.unset = ([], ⟨3, -1, -1, -1, -1⟩) := by
    simp [set_p, unset_for_p, Key.unset, hthree, hp]
  have hset' : set_q [[0x73], [0x35]] ⟨3, -1, -1, -1, -1⟩ = ([], ⟨3, 5, 15, -1, -1⟩) := by
    have hcoprime : BigInt.gcd 5 3 = 1 := by decide
    simp [set_q, unset_for_q, hfive, hq, hcoprime]
  simp only [keyAfter, List.foldl_cons, List.foldl_nil, execute, hset, hset']

end CtfChallenges.RsaDebugger
