import Mathlib.Data.List.Basic

/-!
# Patterns anchored at lines

A sequence of one or more character classes between `^` and `$`, in the dialects where these match
at the borders of lines. The match may begin anywhere.
-/

namespace CtfChallenges.Framework.LineMatch

variable {α : Type*}

/-- What follows a string of the classes. -/
def eat : List (α → Bool) → List α → Option (List α)
  | [], s => some s
  | _ :: _, [] => none
  | p :: ps, c :: s => if p c then eat ps s else none

private theorem mem_of_mem_eat {ps : List (α → Bool)} {s rest : List α} (h : eat ps s = some rest)
    {c : α} (hc : c ∈ rest) : c ∈ s := by
  induction ps generalizing s with
  | nil => exact Option.some.inj h ▸ hc
  | cons p ps ih =>
    cases s with
    | nil => cases h
    | cons d s =>
      rw [eat] at h
      split at h
      · exact List.mem_cons_of_mem d (ih h)
      · cases h

variable [DecidableEq α]

/-- A match at the beginning of a line that has this rest of the text. -/
def matchAt (newline : α) (classes : List (α → Bool)) (s : List α) : Bool :=
  (eat classes s).any fun rest => rest.head?.all (· == newline)

/-- A match in the rest of a text, at the beginning of a line or inside. -/
def search (newline : α) (classes : List (α → Bool)) : Bool → List α → Bool
  | start, [] => start && matchAt newline classes []
  | start, c :: s =>
    start && matchAt newline classes (c :: s) || search newline classes (c == newline) s

/-- `text =~ /^classes$/` -/
def matchesLine (newline : α) (classes : List (α → Bool)) (text : List α) : Bool :=
  search newline classes true text

/-- The text is a string of the classes and nothing else. -/
def fits (classes : List (α → Bool)) (text : List α) : Bool := eat classes text == some []

theorem fits_cons (p : α → Bool) (ps : List (α → Bool)) (c : α) (s : List α) :
    fits (p :: ps) (c :: s) = (p c && fits ps s) := by
  rw [fits, eat, fits]
  cases p c <;> rfl

theorem fits_replicate (p : α → Bool) (s : List α) (n : Nat) :
    fits (List.replicate n p) s = true ↔ s.length = n ∧ ∀ c ∈ s, p c = true := by
  induction n generalizing s with
  | zero => cases s <;> simp [fits, eat]
  | succ n ih =>
    cases s with
    | nil => simp [fits, eat, List.replicate_succ]
    | cons c s =>
      rw [List.replicate_succ, fits_cons, Bool.and_eq_true, ih, List.length_cons,
        Nat.add_right_cancel_iff, List.forall_mem_cons]
      tauto

variable {newline : α} {classes : List (α → Bool)}

theorem length_of_fits {text : List α} (h : fits classes text = true) :
    text.length = classes.length := by
  induction classes generalizing text with
  | nil =>
    cases text with
    | nil => rfl
    | cons c s => simp [fits, eat] at h
  | cons p ps ih =>
    cases text with
    | nil => simp [fits, eat] at h
    | cons c s =>
      rw [fits_cons, Bool.and_eq_true] at h
      rw [List.length_cons, List.length_cons, ih h.2]

/-- A string of classes without the newline has no newline. -/
theorem newline_not_mem_of_fits (hclasses : ∀ p ∈ classes, p newline = false) {text : List α}
    (h : fits classes text = true) : newline ∉ text := by
  induction classes generalizing text with
  | nil =>
    cases text with
    | nil => exact List.not_mem_nil
    | cons c s => simp [fits, eat] at h
  | cons p ps ih =>
    rw [List.forall_mem_cons] at hclasses
    cases text with
    | nil => exact List.not_mem_nil
    | cons c s =>
      rw [fits_cons, Bool.and_eq_true] at h
      rw [List.mem_cons, not_or]
      refine ⟨?_, ih hclasses.2 h.2⟩
      rintro rfl
      rw [hclasses.1] at h
      cases h.1

theorem matchesLine_of_fits {text : List α} (h : fits classes text = true) :
    matchesLine newline classes text = true := by
  rw [fits, beq_iff_eq] at h
  have hat : matchAt newline classes text = true := by
    rw [matchAt, h]
    rfl
  cases text <;> simp [matchesLine, search, hat]

/-- In a text of one line only the whole text can match. -/
theorem fits_of_matchesLine {text : List α} (hline : newline ∉ text)
    (h : matchesLine newline classes text = true) : fits classes text = true := by
  have hinside : ∀ s : List α, newline ∉ s → search newline classes false s = false := by
    intro s hs
    induction s with
    | nil => rfl
    | cons c s ih =>
      rw [List.mem_cons, not_or] at hs
      rw [search, Bool.false_and, Bool.false_or, beq_false_of_ne (Ne.symm hs.1), ih hs.2]
  have hat : matchAt newline classes text = true := by
    cases text with
    | nil => simpa [matchesLine, search] using h
    | cons c s =>
      rw [List.mem_cons, not_or] at hline
      rw [matchesLine, search, beq_false_of_ne (Ne.symm hline.1), hinside s hline.2,
        Bool.or_false, Bool.true_and] at h
      exact h
  obtain ⟨rest, heat, hrest⟩ := (Option.any_eq_true _ _).mp hat
  cases rest with
  | nil => rw [fits, heat, BEq.rfl]
  | cons c rest =>
    have hc : c = newline := by simpa using hrest
    exact absurd (mem_of_mem_eat heat (hc ▸ List.mem_cons_self)) hline

/-- A text with a matching line is a string of the classes exactly when it has no other line. -/
theorem fits_iff_of_matchesLine (hclasses : ∀ p ∈ classes, p newline = false) {text : List α}
    (h : matchesLine newline classes text = true) : fits classes text = true ↔ newline ∉ text :=
  ⟨newline_not_mem_of_fits hclasses, fun hline => fits_of_matchesLine hline h⟩

end CtfChallenges.Framework.LineMatch
