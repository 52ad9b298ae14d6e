import Mathlib.Algebra.Order.Group.Nat
import Mathlib.Data.List.Basic

/-!
# Run-length codes

A text as a sequence of runs, each a count with the letter that is repeated. Where counts have a
limit, taking the longest run at every place needs the fewest runs.
-/

namespace CtfChallenges.Framework.RunLength

variable {α : Type*}

/-- The text of the runs. -/
def expand (runs : List (Nat × α)) : List α := runs.flatMap fun r => List.replicate r.1 r.2

@[simp] theorem expand_nil : expand ([] : List (Nat × α)) = [] := rfl

@[simp] theorem expand_cons (k : Nat) (c : α) (runs : List (Nat × α)) :
    expand ((k, c) :: runs) = List.replicate k c ++ expand runs := by
  simp [expand]

variable [DecidableEq α]

/-- How often a letter stands at the front of a text. -/
def lead (c : α) : List α → Nat
  | [] => 0
  | b :: s => if b = c then lead c s + 1 else 0

/-- The longest runs of at most `m + 1` letters. -/
def longest (m : Nat) : List α → List (Nat × α)
  | [] => []
  | c :: s => (min m (lead c s) + 1, c) :: longest m (s.drop (min m (lead c s)))
termination_by s => s.length

theorem replicate_append_drop {c : α} {s : List α} {k : Nat} (h : k ≤ lead c s) :
    List.replicate k c ++ s.drop k = s := by
  induction k generalizing s with
  | zero => simp
  | succ k ih =>
    cases s with
    | nil => simp [lead] at h
    | cons b s =>
      rw [lead] at h
      split at h
      · rename_i hb
        subst hb
        rw [List.replicate_succ, List.drop_succ_cons, List.cons_append, ih (by omega)]
      · omega

theorem le_lead_replicate_append (c : α) (k : Nat) (s : List α) :
    k ≤ lead c (List.replicate k c ++ s) := by
  induction k with
  | zero => exact Nat.zero_le _
  | succ k ih =>
    rw [List.replicate_succ, List.cons_append, lead, if_pos rfl]
    omega

theorem expand_longest (m : Nat) (s : List α) : expand (longest m s) = s := by
  fun_induction longest m s with
  | case1 => rfl
  | case2 c s ih =>
    rw [expand_cons, ih, List.replicate_succ, List.cons_append,
      replicate_append_drop (Nat.min_le_right _ _)]

theorem count_of_mem_longest {m : Nat} {s : List α} {r : Nat × α} (h : r ∈ longest m s) :
    0 < r.1 ∧ r.1 ≤ m + 1 := by
  fun_induction longest m s with
  | case1 => cases h
  | case2 c s ih =>
    rw [List.mem_cons] at h
    rcases h with rfl | h
    · exact ⟨Nat.succ_pos _, Nat.succ_le_succ (Nat.min_le_left _ _)⟩
    · exact ih h

theorem length_longest_le (m : Nat) (s : List α) : (longest m s).length ≤ s.length := by
  fun_induction longest m s with
  | case1 => exact le_rfl
  | case2 c s ih =>
    rw [List.length_drop] at ih
    rw [List.length_cons, List.length_cons]
    omega

/-- A text without its first letter needs no more runs. -/
theorem length_longest_tail (m : Nat) (s : List α) :
    (longest m s.tail).length ≤ (longest m s).length := by
  fun_induction longest m s with
  | case1 => simp [longest]
  | case2 c s ih =>
    rw [List.tail_cons, List.length_cons]
    cases s with
    | nil => simp [longest]
    | cons b s =>
      by_cases hb : b = c
      · subst hb
        have hlead : lead b (b :: s) = lead b s + 1 := by simp [lead]
        rw [longest, List.length_cons, Nat.add_le_add_iff_right]
        by_cases hm : lead b s < m
        · -- the run ends where it did
          rw [Nat.min_eq_right hm.le, hlead, Nat.min_eq_right hm, List.drop_succ_cons]
        · -- the run still has its full length, so it ends one letter later
          rw [hlead, Nat.min_eq_left (by omega), List.tail_drop, List.drop_succ_cons] at ih
          rw [Nat.min_eq_left (by omega), hlead, Nat.min_eq_left (by omega)]
          exact ih
      · have hlead : lead c (b :: s) = 0 := by simp [lead, hb]
        rw [hlead, Nat.min_zero, List.drop_zero]
        exact Nat.le_succ _

theorem length_longest_drop (m : Nat) (s : List α) (k : Nat) :
    (longest m (s.drop k)).length ≤ (longest m s).length := by
  induction k with
  | zero => exact le_rfl
  | succ k ih =>
    rw [← List.tail_drop]
    exact (length_longest_tail m (s.drop k)).trans ih

theorem length_longest_expand {m : Nat} {runs : List (Nat × α)} (h : ∀ r ∈ runs, r.1 ≤ m + 1) :
    (longest m (expand runs)).length ≤ runs.length := by
  induction runs with
  | nil => simp [longest]
  | cons r runs ih =>
    obtain ⟨k, c⟩ := r
    rw [List.forall_mem_cons] at h
    have hrest := ih h.2
    rw [expand_cons, List.length_cons]
    cases k with
    | zero => exact hrest.trans (Nat.le_succ _)
    | succ k =>
      have hk : k ≤ min m (lead c (List.replicate k c ++ expand runs)) :=
        Nat.le_min.mpr ⟨Nat.le_of_succ_le_succ h.1, le_lead_replicate_append c k _⟩
      rw [List.replicate_succ, List.cons_append, longest, List.length_cons,
        Nat.add_le_add_iff_right, List.drop_append, List.drop_eq_nil_of_le (by simpa using hk),
        List.nil_append]
      exact (length_longest_drop m (expand runs) _).trans hrest

end CtfChallenges.Framework.RunLength
