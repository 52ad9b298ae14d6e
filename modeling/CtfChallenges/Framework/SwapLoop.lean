import Mathlib.Data.List.FinRange
import Mathlib.Data.Vector.Basic

/-!
# Swap loops

A loop whose every pass exchanges two cells of an array only rearranges it. Shuffles and
cipher key schedules have this form, with other loop variables beside the array.
-/

namespace CtfChallenges.Framework

variable {α σ ι : Type*} {n : Nat}

/-- The array of a loop state, when each pass leaves a rearrangement of it. -/
theorem foldl_vector_perm (array : σ → Vector α n) (pass : σ → ι → σ)
    (h : ∀ s i, (array (pass s i)).Perm (array s)) (is : List ι) (s : σ) :
    (array (is.foldl pass s)).Perm (array s) := by
  induction is generalizing s with
  | nil => exact Vector.Perm.rfl
  | cons i is ih => exact (ih (pass s i)).trans (h s i)

/-- For each cell how far behind it the cell lies that it is exchanged with. -/
abbrev Offsets (n : Nat) := (i : Fin n) → Fin (n - i)

/-- The cell that a pass exchanges with the one it fixes. -/
def Offsets.partner (r : Offsets n) (i : Fin n) : Fin n := ⟨i + r i, by omega⟩

/-- The pass of a shuffle that fixes one cell. -/
def exchangePass (r : Offsets n) (v : Vector α n) (i : Fin n) : Vector α n :=
  v.swap i (r.partner i) i.isLt (r.partner i).isLt

/-- The array after the first `k` passes. -/
def shuffled (r : Offsets n) (v : Vector α n) (k : Nat) : Vector α n :=
  ((List.finRange n).take k).foldl (exchangePass r) v

theorem shuffled_succ (r : Offsets n) (v : Vector α n) (i : Fin n) :
    shuffled r v (i + 1) = exchangePass r (shuffled r v i) i := by
  rw [shuffled, List.take_succ_eq_append_getElem (by simp), List.foldl_append]
  simp [shuffled]

theorem shuffled_perm (r : Offsets n) (v : Vector α n) (k : Nat) : (shuffled r v k).Perm v := by
  apply foldl_vector_perm id
  intro s i
  exact Vector.swap_perm i.isLt (r.partner i).isLt

/-- A pass brings the cell it was exchanged with to its place. -/
theorem shuffled_get (r : Offsets n) (v : Vector α n) (i : Fin n) :
    (shuffled r v (i + 1)).get i = (shuffled r v i).get (r.partner i) := by
  rw [shuffled_succ, exchangePass]
  exact Vector.getElem_swap_left i.isLt (r.partner i).isLt

theorem shuffled_get_of_lt (r : Offsets n) (v : Vector α n) (i : Fin n) {k : Nat} (hik : i < k)
    (hk : k ≤ n) : (shuffled r v k).get i = (shuffled r v (i + 1)).get i := by
  induction k, hik using Nat.le_induction with
  | base => rfl
  | succ k hik ih =>
    have hi : i.val ≠ k := by omega
    have hi' : i.val ≠ (r.partner ⟨k, hk⟩).val := by
      simp only [Offsets.partner]
      omega
    rw [← ih (by omega), shuffled_succ r v ⟨k, hk⟩, exchangePass]
    exact Vector.getElem_swap_of_ne hi hi'

/-- The passes before a cell do not depend on the offset for it. -/
theorem shuffled_congr {r r' : Offsets n} (v : Vector α n) {k : Nat} (hk : k ≤ n)
    (h : ∀ i : Fin n, i < k → r i = r' i) : shuffled r v k = shuffled r' v k := by
  induction k with
  | zero => rfl
  | succ k ih =>
    have hpartner : r.partner ⟨k, hk⟩ = r'.partner ⟨k, hk⟩ := by
      simp only [Offsets.partner, h ⟨k, hk⟩ (Nat.lt_succ_self k)]
    rw [shuffled_succ r v ⟨k, hk⟩, shuffled_succ r' v ⟨k, hk⟩]
    simp only [exchangePass, hpartner, ih (by omega) fun i hi => h i (by omega)]

private theorem eq_of_get_eq {v : Vector α n} (hnd : v.toList.Nodup) {i j : Fin n}
    (h : v.get i = v.get j) : i = j := by
  have hi : i.val < v.toList.length := by simp
  have hj : j.val < v.toList.length := by simp
  have hsame : v.toList[i.val] = v.toList[j.val] := by
    rw [Vector.getElem_toList, Vector.getElem_toList]
    exact h
  exact Fin.ext (hnd.getElem_inj_iff.mp hsame)

/-- Different offsets rearrange an array of distinct cells differently. -/
theorem shuffled_inj {r r' : Offsets n} {v : Vector α n} (hnd : v.toList.Nodup)
    (h : shuffled r v n = shuffled r' v n) : r = r' := by
  have hsame : ∀ k, ∀ i : Fin n, i.val = k → r i = r' i := by
    intro k
    induction k using Nat.strong_induction_on with
    | _ k ih =>
      rintro i rfl
      have hbefore : shuffled r v i = shuffled r' v i := by
        apply shuffled_congr v i.isLt.le
        intro j hj
        exact ih j hj j rfl
      have hcell : (shuffled r v i).get (r.partner i) = (shuffled r v i).get (r'.partner i) := by
        rw [← shuffled_get, ← shuffled_get_of_lt r v i i.isLt le_rfl, h,
          shuffled_get_of_lt r' v i i.isLt le_rfl, shuffled_get, hbefore]
      have hnd' : (shuffled r v i).toList.Nodup := (shuffled_perm r v i).toList.nodup_iff.mpr hnd
      have hpartner := congrArg Fin.val (eq_of_get_eq hnd' hcell)
      apply Fin.ext
      simpa [Offsets.partner] using hpartner
  funext i
  exact hsame i i rfl

/-- Offsets that bring the cells of a rearrangement to their places, one after the other. -/
theorem exists_shuffled {v t : Vector α n} (hnd : v.toList.Nodup) (hperm : t.Perm v) (k : Nat)
    (hk : k ≤ n) : ∃ r : Offsets n, ∀ i : Fin n, i < k → (shuffled r v k).get i = t.get i := by
  induction k with
  | zero => exact ⟨fun i => ⟨0, by omega⟩, fun i hi => absurd hi (Nat.not_lt_zero _)⟩
  | succ k ih =>
    obtain ⟨r, hr⟩ := ih (by omega)
    have hsame : (shuffled r v k).Perm t := (shuffled_perm r v k).trans hperm.symm
    have htnd : t.toList.Nodup := hperm.toList.nodup_iff.mpr hnd
    have hmem : t[k] ∈ shuffled r v k := hsame.mem_iff.mpr (Vector.getElem_mem hk)
    obtain ⟨p, hp, hcell⟩ := Vector.mem_iff_getElem.mp hmem
    -- the cells in front hold other values already
    have hkp : k ≤ p := by
      by_contra hlt
      have hfront := hr ⟨p, hp⟩ (not_le.mp hlt)
      have heq : (⟨k, hk⟩ : Fin n) = ⟨p, hp⟩ := eq_of_get_eq htnd (hcell.symm.trans hfront)
      simp only [Fin.mk.injEq] at heq
      omega
    let r' : Offsets n := Function.update r ⟨k, hk⟩ ⟨p - k, by simp only; omega⟩
    have hbefore : shuffled r' v k = shuffled r v k := by
      apply shuffled_congr v (by omega)
      intro i hi
      exact Function.update_of_ne (Fin.ne_of_lt hi) _ _
    have hpartner : r'.partner ⟨k, hk⟩ = ⟨p, hp⟩ := by
      simp [Offsets.partner, r', Nat.add_sub_cancel' hkp]
    refine ⟨r', fun i hi => ?_⟩
    rcases Nat.lt_succ_iff_lt_or_eq.mp hi with hi | rfl
    · rw [shuffled_get_of_lt r' v i (by omega) hk, ← shuffled_get_of_lt r' v i hi (by omega),
        hbefore, hr i hi]
    · rw [shuffled_get]
      simp only [hpartner, hbefore]
      exact hcell

/-- A shuffle reaches every rearrangement of an array of distinct cells, each with one choice of
offsets. -/
theorem exists_unique_offsets {v t : Vector α n} (hnd : v.toList.Nodup) (hperm : t.Perm v) :
    ∃! r : Offsets n, (List.finRange n).foldl (exchangePass r) v = t := by
  have hall : ∀ r : Offsets n, (List.finRange n).foldl (exchangePass r) v = shuffled r v n := by
    intro r
    rw [shuffled, List.take_of_length_le (by simp)]
  simp only [hall]
  obtain ⟨r, hr⟩ := exists_shuffled hnd hperm n le_rfl
  have hreach : shuffled r v n = t := by
    ext i hi
    exact hr ⟨i, hi⟩ hi
  refine ⟨r, hreach, fun r' hr' => ?_⟩
  exact shuffled_inj hnd (hr'.trans hreach.symm)

end CtfChallenges.Framework
