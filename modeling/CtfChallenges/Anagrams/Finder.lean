import CtfChallenges.Framework.Go
import Mathlib.Data.List.Perm.Basic
import Mathlib.Algebra.GroupWithZero.Nat
import Mathlib.Data.List.Basic

/-!
# The anagram finder

The functions of `anagrams.go`. A string is the list of its characters, or of its bytes where the
test for a word is given for them. The slices of words live in a heap of backing arrays, and the
lines are read from the heap that the search leaves behind. The recursion of `finder` has fuel, for
a dictionary with an empty word sends it down for ever.
-/

namespace CtfChallenges.Anagrams
open Framework.Go

section
variable {α : Type} [DecidableEq α] (wordInString : List α → List α → Bool × List α)

/-- The body of the loop over the dictionary, with the recursive call as an argument. -/
def tryWordOn (g : GrowPolicy)
    (finder : List α → Slice → Heap (List α) → Option (List Slice × Heap (List α)))
    (buf : List α) (pre : Slice) :
    List Slice × Heap (List α) → List α → Option (List Slice × Heap (List α))
  | (res, h), w =>
    match wordInString w buf with
    | (false, _) => some (res, h)
    | (true, left) =>
      let (s, h) := append g h pre w
      if left ≠ [] then do
        let (found, h) ← finder left s h
        return (res ++ found, h)
      else some (res ++ [s], h)

/-- The recursion, to a depth of at most `fuel`. -/
def finderOn (g : GrowPolicy) (dict : List (List α)) :
    Nat → List α → Slice → Heap (List α) → Option (List Slice × Heap (List α))
  | 0, _, _, _ => none
  | fuel + 1, buf, pre, h =>
    dict.foldlM (tryWordOn wordInString g (finderOn g dict fuel) buf pre) ([], h)

/-- The word sequences that the slices of the search hold once it is over. -/
def foundWordsOn (g : GrowPolicy) (fuel : Nat) (buf : List α) (dict : List (List α)) :
    Option (List (List (List α))) := do
  let (res, h) ← finderOn wordInString g dict fuel buf nilSlice Heap.empty
  return res.map h.read

end

abbrev Str := List Char

/-- The length of a string in bytes. -/
def len (s : Str) : Nat := (s.map Char.utf8Size).sum

/-- One round of the loop over the letters of the word. -/
def removeRune (charset : Str) (c : Char) : Option Str :=
  match charset.findIdx? (· == c) with
  | none => none
  | some foundC => some (charset.take foundC ++ charset.drop (foundC + 1))

def wordInString (word buf : Str) : Bool × Str :=
  if len buf < len word then (false, buf)
  else
    match word.foldlM removeRune buf with
    | none => (false, buf)
    | some charset => (true, charset)

def tryWord (g : GrowPolicy) (finder : Str → Slice → Heap Str → Option (List Slice × Heap Str))
    (buf : Str) (pre : Slice) (found : List Slice × Heap Str) (w : Str) :
    Option (List Slice × Heap Str) :=
  tryWordOn wordInString g finder buf pre found w

def finder (g : GrowPolicy) (dict : List Str) (fuel : Nat) (buf : Str) (pre : Slice) (h : Heap Str) :
    Option (List Slice × Heap Str) :=
  finderOn wordInString g dict fuel buf pre h

def foundWords (g : GrowPolicy) (fuel : Nat) (buf : Str) (dict : List Str) :
    Option (List (List Str)) :=
  foundWordsOn wordInString g fuel buf dict

def findAnagrams (g : GrowPolicy) (fuel : Nat) (buf : Str) (dict : List Str) :
    Option (List Str) :=
  (foundWords g fuel buf dict).map fun results => results.map ([' '].intercalate)

/-- Whether a word fits into a string. -/
def Fits (w buf : Str) : Prop := (wordInString w buf).1 = true

instance (w buf : Str) : Decidable (Fits w buf) := inferInstanceAs (Decidable (_ = _))

theorem removeRune_eq_some {charset charset' : Str} {c : Char}
    (h : removeRune charset c = some charset') : charset.Perm (c :: charset') := by
  unfold removeRune at h
  split at h
  · cases h
  · rename_i i hi
    rw [List.findIdx?_eq_some_iff_getElem] at hi
    obtain ⟨hlt, hc, -⟩ := hi
    cases h
    rw [beq_iff_eq] at hc
    calc charset = charset.take i ++ charset[i] :: charset.drop (i + 1) := by
          rw [List.getElem_cons_drop, List.take_append_drop]
      _ = charset.take i ++ c :: charset.drop (i + 1) := by rw [hc]
      List.Perm _ (c :: (charset.take i ++ charset.drop (i + 1))) := List.perm_middle

theorem removeRune_of_mem {charset : Str} {c : Char} (h : c ∈ charset) :
    ∃ charset', removeRune charset c = some charset' := by
  unfold removeRune
  split
  · rename_i hnone
    rw [List.findIdx?_eq_none_iff] at hnone
    exact absurd (hnone c h) (by simp)
  · exact ⟨_, rfl⟩

theorem foldlM_removeRune_perm {w buf left : Str}
    (h : w.foldlM removeRune buf = some left) : buf.Perm (w ++ left) := by
  induction w generalizing buf with
  | nil =>
    cases h
    exact List.Perm.refl _
  | cons c w ih =>
    rw [List.foldlM_cons, Option.bind_eq_bind, Option.bind_eq_some_iff] at h
    obtain ⟨charset, hc, hrest⟩ := h
    exact (removeRune_eq_some hc).trans ((ih hrest).cons c)

theorem foldlM_removeRune_of_perm {w buf left : Str} (h : buf.Perm (w ++ left)) :
    ∃ left', w.foldlM removeRune buf = some left' := by
  induction w generalizing buf with
  | nil => exact ⟨buf, rfl⟩
  | cons c w ih =>
    obtain ⟨charset, hc⟩ := removeRune_of_mem (h.mem_iff.mpr List.mem_cons_self)
    have hperm : charset.Perm (w ++ left) :=
      ((removeRune_eq_some hc).symm.trans h).cons_inv
    obtain ⟨left', hleft⟩ := ih hperm
    exact ⟨left', by rw [List.foldlM_cons, hc]; exact hleft⟩

theorem len_perm {s s' : Str} (h : s.Perm s') : len s = len s' := (h.map _).sum_nat

theorem len_append (s s' : Str) : len (s ++ s') = len s + len s' := by
  rw [len, List.map_append, List.sum_append, len, len]

/-- What is left of the string are the letters that the word does not use. -/
theorem perm_of_wordInString {w buf left : Str} (h : wordInString w buf = (true, left)) :
    buf.Perm (w ++ left) := by
  unfold wordInString at h
  split at h
  · cases h
  · split at h
    · cases h
    · rename_i hfold
      cases h
      exact foldlM_removeRune_perm hfold

theorem wordInString_of_perm {w buf left : Str} (h : buf.Perm (w ++ left)) :
    ∃ left', wordInString w buf = (true, left') ∧ left'.Perm left := by
  obtain ⟨left', hfold⟩ := foldlM_removeRune_of_perm h
  have hlen : ¬ len buf < len w := by
    rw [len_perm h, len_append]
    omega
  refine ⟨left', by rw [wordInString, if_neg hlen, hfold], ?_⟩
  exact (List.perm_append_left_iff w).mp ((foldlM_removeRune_perm hfold).symm.trans h)

end CtfChallenges.Anagrams
