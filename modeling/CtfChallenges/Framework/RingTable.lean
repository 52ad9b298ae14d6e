import Mathlib.Algebra.Order.Group.Nat
import Mathlib.Data.List.Rotate
import Mathlib.Data.Vector.Basic

/-!
# Tables written in turn

A list of fixed length, written at an index that goes round: read from the index on, it holds the
last entries, the oldest first.

A sequence in which each term comes from the term `N` places back, the one after that, and the one
`N - M` places back. A table of `N` cells is enough to go on with it: the cells are replaced in their
order, and each takes what it needs from cells that are replaced already or not yet.
-/

namespace CtfChallenges.Framework.RingLog

variable {α : Type*}

/-- The last `n` entries of a log that `n` blank ones come before. -/
def lastEntries (n : Nat) (blank : α) (log : List α) : List α :=
  (List.replicate n blank ++ log).drop log.length

/-- A new entry comes last, and the first one is lost. -/
theorem lastEntries_append {n : Nat} (hn : 0 < n) (blank : α) (log : List α) (a : α) :
    lastEntries n blank (log ++ [a]) = (lastEntries n blank log).tail ++ [a] := by
  have hlen : log.length + 1 ≤ (List.replicate n blank ++ log).length := by
    simp
    omega
  rw [lastEntries, lastEntries, List.tail_drop, List.length_append, List.length_singleton,
    ← List.append_assoc, List.drop_append_of_le_length hlen]

theorem rotate_eq_cons {ring : List α} {idx : Nat} (h : idx < ring.length) :
    ring.rotate idx = ring[idx] :: (ring.drop (idx + 1) ++ ring.take idx) := by
  rw [List.rotate_eq_drop_append_take h.le, List.drop_eq_getElem_cons h, List.cons_append]

/-- A new entry takes its place, and comes last from the next index on. -/
theorem rotate_set {ring : List α} {idx : Nat} (h : idx < ring.length) (a : α) :
    (ring.set idx a).rotate ((idx + 1) % ring.length) =
      ring.drop (idx + 1) ++ ring.take idx ++ [a] := by
  have hfront : (ring.take idx ++ [a]).length = idx + 1 := by
    rw [List.length_append, List.length_take, Nat.min_eq_left h.le, List.length_singleton]
  have hset : ring.set idx a = (ring.take idx ++ [a]) ++ ring.drop (idx + 1) := by
    rw [List.set_eq_take_append_cons_drop, if_pos h, List.append_assoc, List.singleton_append]
  have hnext : (ring.set idx a).rotate (idx + 1) = ring.drop (idx + 1) ++ (ring.take idx ++ [a]) := by
    rw [hset, ← hfront, List.rotate_append_length_eq, hfront]
  have hmod := List.rotate_mod (ring.set idx a) (idx + 1)
  rw [List.length_set] at hmod
  rw [hmod, hnext, List.append_assoc]

end CtfChallenges.Framework.RingLog

namespace CtfChallenges.Framework.LaggedTable

variable {α : Type*} {N M : Nat}

/-- The recurrence: a step takes the oldest term, the one after it, and the lagged one. -/
def Recurs (f : α → α → α → α) (N M : Nat) (x : Nat → α) : Prop :=
  ∀ k, x (k + N) = f (x k) (x (k + 1)) (x (k + M))

/-- The table holds the terms from `b` on, and its first `k` cells have been replaced. -/
def Holds (x : Nat → α) (b k : Nat) (mt : Vector α N) : Prop :=
  ∀ i (hi : i < N), mt[i] = if i < k then x (b + i + N) else x (b + i)

variable {f : α → α → α → α} {x : Nat → α} {b k : Nat} {mt : Vector α N}

theorem Holds.replaced (h : Holds x b k mt) {i : Nat} (hi : i < N) (hik : i < k) :
    mt[i] = x (b + i + N) := by
  rw [h i hi, if_pos hik]

theorem Holds.kept (h : Holds x b k mt) {i : Nat} (hi : i < N) (hki : k ≤ i) : mt[i] = x (b + i) := by
  rw [h i hi, if_neg (Nat.not_lt.mpr hki)]

/-- When all cells have been replaced, the table holds the next terms. -/
theorem Holds.next (h : Holds x b N mt) : Holds x (b + N) 0 mt := by
  intro i hi
  rw [h.replaced hi hi, if_neg (Nat.not_lt_zero i), Nat.add_right_comm]

theorem Holds.set (h : Holds x b k mt) (hk : k < N) :
    Holds x b (k + 1) (mt.set k (x (b + k + N))) := by
  intro i hi
  rw [Vector.getElem_set]
  by_cases hik : k = i
  · subst hik
    rw [if_pos rfl, if_pos (Nat.lt_succ_self k)]
  · rw [if_neg hik, h i hi]
    have hiff : i < k ↔ i < k + 1 := by omega
    simp only [hiff]

/-- The step replaces a cell. The two other cells it reads lie behind it, or in front of it where the
table ends. -/
theorem Holds.step (h : Holds x b k mt) (hx : Recurs f N M x) (hN : 1 < N) (hM : M < N) (hk : k < N)
    {i j : Nat} (hi : i < N) (hj : j < N) (hnext : i = k + 1 ∨ i + N = k + 1)
    (hlag : j = k + M ∨ j + N = k + M) : Holds x b (k + 1) (mt.set k (f mt[k] mt[i] mt[j])) := by
  have hi' : mt[i] = x (b + k + 1) := by
    rcases hnext with rfl | hwrap
    · exact h.kept hi (Nat.le_succ k)
    · rw [h.replaced hi (by omega), Nat.add_assoc, hwrap, Nat.add_assoc]
  have hj' : mt[j] = x (b + k + M) := by
    rcases hlag with rfl | hwrap
    · rw [h.kept hj (Nat.le_add_right k M), Nat.add_assoc]
    · rw [h.replaced hj (by omega), Nat.add_assoc, hwrap, Nat.add_assoc]
  rw [h.kept hk le_rfl, hi', hj', ← hx (b + k)]
  exact h.set hk

end CtfChallenges.Framework.LaggedTable
