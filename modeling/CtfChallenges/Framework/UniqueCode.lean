import Mathlib.Data.List.Basic

/-!
# Texts of code words

A text that is put together from the code words of symbols tells the symbols, when a separator
stands between the words or when the beginning of a word tells where it ends.
-/

namespace CtfChallenges.Framework.UniqueCode

variable {α β : Type*}

/-- Words without a character, before and after which nothing or that character stands. -/
theorem append_inj_of_not_mem {c : β} {u v x y : List β} (hu : c ∉ u) (hv : c ∉ v)
    (hx : ∀ d ∈ x.head?, d = c) (hy : ∀ d ∈ y.head?, d = c) (h : u ++ x = v ++ y) :
    u = v ∧ x = y := by
  induction u generalizing v with
  | nil =>
    cases v with
    | nil => exact ⟨rfl, h⟩
    | cons b v =>
      have hb : b = c := hx b (by rw [List.nil_append] at h; rw [h]; rfl)
      exact absurd (hb ▸ List.mem_cons_self) hv
  | cons a u ih =>
    cases v with
    | nil =>
      have ha : a = c := hy a (by rw [List.nil_append] at h; rw [← h]; rfl)
      exact absurd (ha ▸ List.mem_cons_self) hu
    | cons b v =>
      rw [List.cons_append, List.cons_append, List.cons.injEq] at h
      rw [List.mem_cons, not_or] at hu hv
      obtain ⟨rfl, hrest⟩ := ih hu.2 hv.2 h.2
      exact ⟨by rw [h.1], hrest⟩

/-- Code words with a separator between them. -/
def joined (separator : List β) (code : α → List β) (symbols : List α) : List β :=
  separator.intercalate (symbols.map code)

/-- What follows the first word in a joined text. -/
private def tail (separator : List β) (code : α → List β) (symbols : List α) : List β :=
  if symbols = [] then [] else separator ++ joined separator code symbols

private theorem joined_cons (separator : List β) (code : α → List β) (a : α) (symbols : List α) :
    joined separator code (a :: symbols) = code a ++ tail separator code symbols := by
  cases symbols with
  | nil => simp [joined, tail]
  | cons b symbols => simp [joined, tail]

/-- The words of these symbols are different, not empty, and without the character. -/
structure Words (P : α → Prop) (c : β) (code : α → List β) : Prop where
  ne_nil : ∀ a, P a → code a ≠ []
  not_mem : ∀ a, P a → c ∉ code a
  inj : ∀ a b, P a → P b → code a = code b → a = b

/-- Words without the first character of the separator tell the symbols. -/
theorem joined_inj {P : α → Prop} {c : β} {code : α → List β} (hwords : Words P c code)
    {separator : List β} (hseparator : separator.head? = some c) {l l' : List α}
    (hl : ∀ a ∈ l, P a) (hl' : ∀ a ∈ l', P a)
    (h : joined separator code l = joined separator code l') : l = l' := by
  have htail : ∀ l : List α, ∀ d ∈ (tail separator code l).head?, d = c := by
    intro l d hd
    unfold tail at hd
    split at hd
    · cases hd
    · rw [List.head?_append, hseparator] at hd
      exact (Option.some.inj hd).symm
  have hne : separator ≠ [] := by
    rintro rfl
    cases hseparator
  induction l generalizing l' with
  | nil =>
    cases l' with
    | nil => rfl
    | cons b l' =>
      rw [joined_cons] at h
      exact absurd (List.append_eq_nil_iff.mp h.symm).1 (hwords.ne_nil b (hl' b List.mem_cons_self))
  | cons a l ih =>
    rw [List.forall_mem_cons] at hl
    cases l' with
    | nil =>
      rw [joined_cons] at h
      exact absurd (List.append_eq_nil_iff.mp h).1 (hwords.ne_nil a hl.1)
    | cons b l' =>
      rw [List.forall_mem_cons] at hl'
      rw [joined_cons, joined_cons] at h
      obtain ⟨hword, hrest⟩ := append_inj_of_not_mem (hwords.not_mem a hl.1)
        (hwords.not_mem b hl'.1) (htail l) (htail l') h
      rw [hwords.inj a b hl.1 hl'.1 hword]
      congr 1
      unfold tail at hrest
      split at hrest
      · rename_i hnil
        split at hrest
        · rename_i hnil'
          rw [hnil, hnil']
        · exact absurd (List.append_eq_nil_iff.mp hrest.symm).1 hne
      · split at hrest
        · exact absurd (List.append_eq_nil_iff.mp hrest).1 hne
        · exact ih hl.2 hl'.2 (List.append_cancel_left hrest)

/-- Words of which the beginning tells the symbol make a text that tells the symbols. -/
theorem flatMap_inj {P : α → Prop} {code : α → List β} (hne : ∀ a, P a → code a ≠ [])
    (htells : ∀ a b x y, P a → P b → code a ++ x = code b ++ y → a = b) {l l' : List α}
    (hl : ∀ a ∈ l, P a) (hl' : ∀ a ∈ l', P a) (h : l.flatMap code = l'.flatMap code) : l = l' := by
  induction l generalizing l' with
  | nil =>
    cases l' with
    | nil => rfl
    | cons b l' =>
      rw [List.flatMap_cons] at h
      exact absurd (List.append_eq_nil_iff.mp h.symm).1 (hne b (hl' b List.mem_cons_self))
  | cons a l ih =>
    rw [List.forall_mem_cons] at hl
    cases l' with
    | nil =>
      rw [List.flatMap_cons] at h
      exact absurd (List.append_eq_nil_iff.mp h).1 (hne a hl.1)
    | cons b l' =>
      rw [List.forall_mem_cons] at hl'
      rw [List.flatMap_cons, List.flatMap_cons] at h
      obtain rfl := htells a b _ _ hl.1 hl'.1 h
      rw [ih hl.2 hl'.2 (List.append_cancel_left h)]

end CtfChallenges.Framework.UniqueCode
