import CtfChallenges.Anagrams.Finder
import CtfChallenges.Framework.Run
import CtfChallenges.Framework.Go
import Mathlib.Logic.Relation

/-!
# The recursion of the anagram finder

`anagrams.go` on strings of any bytes, with the lines of the dictionary as the scanner hands them
on. An empty line takes no letter away, and the search never comes back from it.
-/

namespace CtfChallenges.Anagrams.OnBytes
open Framework Framework.Go Framework.Runes

abbrev Bytes := List UInt8

/-- `bufio.MaxScanTokenSize` -/
def MaxScanTokenSize : Nat := 64 * 1024

/-- `dropCR` of package `bufio`. -/
def dropCR (line : Bytes) : Bytes := if line.getLast? = some 0x0d then line.dropLast else line

/-- The lines that the scanner of `loadDictionary` returns. A line that fills the buffer ends the
scan, and nothing asks for the error. -/
def loadDictionary : Bytes → List Bytes
  | [] => []
  | c :: s =>
    let line := (c :: s).takeWhile (· ≠ 0x0a)
    if line.length ≥ MaxScanTokenSize then []
    else dropCR line :: loadDictionary (s.drop line.length)
termination_by file => file.length
decreasing_by
  rw [List.length_drop, List.length_cons]
  omega

def wordInString (word buf : Bytes) : Bool × Bytes :=
  if word.length > buf.length then (false, buf)
  else
    match (runes word).foldlM removeRune (runes buf) with
    | none => (false, buf)
    | some charset => (true, encode charset)

def tryWord (g : GrowPolicy)
    (finder : Bytes → Slice → Heap Bytes → Option (List Slice × Heap Bytes)) (buf : Bytes)
    (pre : Slice) (found : List Slice × Heap Bytes) (w : Bytes) :
    Option (List Slice × Heap Bytes) :=
  tryWordOn wordInString g finder buf pre found w

def finder (g : GrowPolicy) (dict : List Bytes) (fuel : Nat) (buf : Bytes) (pre : Slice)
    (h : Heap Bytes) : Option (List Slice × Heap Bytes) :=
  finderOn wordInString g dict fuel buf pre h

theorem finder_succ (g : GrowPolicy) (dict : List Bytes) (fuel : Nat) (buf : Bytes) (pre : Slice)
    (h : Heap Bytes) : finder g dict (fuel + 1) buf pre h =
      dict.foldlM (tryWord g (finder g dict fuel) buf pre) ([], h) := rfl

def findAnagrams (g : GrowPolicy) (fuel : Nat) (buf : Bytes) (dict : List Bytes) :
    Option (List Bytes) :=
  (foundWordsOn wordInString g fuel buf dict).map fun results => results.map ([0x20].intercalate)

/-- What `main` does with the file and the arguments; there is at least one argument. -/
def main (g : GrowPolicy) (fuel : Nat) (file : Bytes) (args : List Bytes) : Option (List Bytes) :=
  findAnagrams g fuel args.flatten (loadDictionary file)

/-- A call of `finder` with `buf` calls it with `left`. -/
def Calls (dict : List Bytes) (buf left : Bytes) : Prop :=
  ∃ w ∈ dict, wordInString w buf = (true, left) ∧ left ≠ []

/-- The number of letters. -/
def letters (s : Bytes) : Nat := (runes s).length

theorem letters_wordInString {w buf left : Bytes} (h : wordInString w buf = (true, left)) :
    letters buf = letters w + letters left := by
  unfold wordInString at h
  split at h
  · cases h
  · split at h
    · cases h
    · rename_i charset hfold
      cases h
      have hperm := foldlM_removeRune_perm hfold
      rw [letters, letters, letters, runes_encode, ← List.length_append]
      exact hperm.length_eq

theorem letters_eq_zero {s : Bytes} : letters s = 0 ↔ s = [] := by
  rw [letters, List.length_eq_zero_iff, runes_eq_nil]

theorem letters_lt {dict : List Bytes} (hdict : [] ∉ dict) {buf left : Bytes}
    (h : Calls dict buf left) : letters left < letters buf := by
  obtain ⟨w, hw, hword, -⟩ := h
  have hpos : letters w ≠ 0 := fun hzero => hdict (letters_eq_zero.mp hzero ▸ hw)
  have hsum := letters_wordInString hword
  omega

/-- On an empty string the search does not go deeper. -/
theorem not_calls_nil (dict : List Bytes) (left : Bytes) : ¬ Calls dict [] left := by
  rintro ⟨w, -, hword, hne⟩
  have hsum := letters_wordInString hword
  rw [letters_eq_zero.mpr rfl] at hsum
  exact hne (letters_eq_zero.mp (by omega))

/-- The empty word is in every string and leaves all of its letters. -/
theorem wordInString_nil (buf : Bytes) : wordInString [] buf = (true, encode (runes buf)) := by
  simp [wordInString]

theorem calls_of_blank {dict : List Bytes} (hdict : [] ∈ dict) {buf : Bytes} (hbuf : buf ≠ []) :
    Calls dict buf (encode (runes buf)) :=
  ⟨[], hdict, wordInString_nil buf, by simpa using hbuf⟩

theorem letters_blank (buf : Bytes) : letters (encode (runes buf)) = letters buf := by
  rw [letters, runes_encode, letters]

section
variable (g : GrowPolicy) {dict : List Bytes} {fuel : Nat} {buf : Bytes}

/-- A call returns when all that it makes return. -/
theorem finder_isSome (h : ∀ left, Calls dict buf left → ∀ pre heap,
    (finder g dict fuel left pre heap).isSome) (pre : Slice) (heap : Heap Bytes) :
    (finder g dict (fuel + 1) buf pre heap).isSome := by
  rw [finder_succ]
  apply foldlM_isSome
  rintro w hw ⟨res, heap⟩
  rw [tryWord, tryWordOn]
  split
  · rfl
  · rename_i left hword
    dsimp only
    split
    · rename_i hne
      obtain ⟨found, hfound⟩ := Option.isSome_iff_exists.mp
        (h left ⟨w, hw, hword, hne⟩ (append g heap pre w).1 (append g heap pre w).2)
      rw [hfound]
      rfl
    · rfl

/-- Without a blank line the recursion is no deeper than the letters are many. -/
theorem finder_returns (hdict : [] ∉ dict) (hfuel : letters buf < fuel) (pre : Slice)
    (heap : Heap Bytes) : (finder g dict fuel buf pre heap).isSome := by
  induction fuel generalizing buf pre heap with
  | zero => cases hfuel
  | succ fuel ih =>
    apply finder_isSome
    intro left hcall
    exact ih (Nat.lt_of_lt_of_le (letters_lt hdict hcall) (Nat.le_of_lt_succ hfuel))

/-- With a blank line it has no bound. -/
theorem finder_never_returns (hdict : [] ∈ dict) (hbuf : buf ≠ []) (pre : Slice)
    (heap : Heap Bytes) : finder g dict fuel buf pre heap = none := by
  induction fuel generalizing buf pre heap with
  | zero => rfl
  | succ fuel ih =>
    rw [finder_succ]
    apply foldlM_eq_none hdict
    rintro ⟨res, heap⟩
    have hleft : encode (runes buf) ≠ [] := by simpa using hbuf
    rw [tryWord, tryWordOn, wordInString_nil]
    dsimp only
    rw [if_pos hleft, ih hleft]
    rfl

end

/-- Every call of the search has fewer letters than its caller, and so the search returns. -/
structure SearchEnds (g : GrowPolicy) (file : Bytes) (args : List Bytes) : Prop where
  decreases : ∀ caller left, Relation.ReflTransGen (Calls (loadDictionary file)) args.flatten caller →
    Calls (loadDictionary file) caller left → letters left < letters caller
  returns : ∀ fuel, letters args.flatten < fuel → (main g fuel file args).isSome

section
variable (g : GrowPolicy) {file : Bytes} {args : List Bytes}

private theorem findAnagrams_isSome {fuel : Nat} {buf : Bytes} {dict : List Bytes}
    (h : (finder g dict fuel buf nilSlice Heap.empty).isSome) :
    (findAnagrams g fuel buf dict).isSome := by
  obtain ⟨found, hfound⟩ := Option.isSome_iff_exists.mp h
  rw [finder] at hfound
  simp [findAnagrams, foundWordsOn, hfound]

theorem searchEnds_of_no_blank (hdict : [] ∉ loadDictionary file) : SearchEnds g file args := by
  constructor
  · intro caller left _ hcall
    exact letters_lt hdict hcall
  · intro fuel hfuel
    exact findAnagrams_isSome g (finder_returns g hdict hfuel _ _)

theorem searchEnds_of_empty (hbuf : args.flatten = []) : SearchEnds g file args := by
  constructor
  · intro caller left hcalled hcall
    rw [hbuf] at hcalled
    obtain rfl | ⟨next, hfirst, -⟩ := hcalled.cases_head
    · exact absurd hcall (not_calls_nil _ _)
    · exact absurd hfirst (not_calls_nil _ _)
  · intro fuel hfuel
    obtain ⟨fuel, rfl⟩ := Nat.exists_eq_succ_of_ne_zero (Nat.ne_of_gt (Nat.zero_lt_of_lt hfuel))
    rw [main, hbuf]
    exact findAnagrams_isSome g
      (finder_isSome g (fun left hcall => absurd hcall (not_calls_nil _ left)) _ _)

end

/-- Only a blank line keeps the search from ending, unless there is nothing to search; and then it
does not end at all. -/
theorem search_ends_iff (g : GrowPolicy) (file : Bytes) (args : List Bytes) :
    (SearchEnds g file args ↔ [] ∉ loadDictionary file ∨ args.flatten = []) ∧
      ([] ∈ loadDictionary file → args.flatten ≠ [] → ∀ fuel, main g fuel file args = none) := by
  constructor
  · constructor
    · intro h
      by_contra hnot
      rw [not_or, not_not] at hnot
      have hlt := h.decreases _ _ .refl (calls_of_blank hnot.1 hnot.2)
      rw [letters_blank] at hlt
      exact Nat.lt_irrefl _ hlt
    · intro h
      obtain hdict | hbuf := h
      · exact searchEnds_of_no_blank g hdict
      · exact searchEnds_of_empty g hbuf
  · intro hdict hbuf fuel
    rw [main, findAnagrams, foundWordsOn, ← finder, finder_never_returns g hdict hbuf]
    rfl

/-- Short lines reach the dictionary as they are, the blank ones too. -/
theorem loadDictionary_lines (lines : List Bytes)
    (h : ∀ line ∈ lines, (0x0a : UInt8) ∉ line ∧ line.length < MaxScanTokenSize) :
    loadDictionary (lines.flatMap (· ++ [0x0a])) = lines.map dropCR := by
  induction lines with
  | nil => simp [loadDictionary]
  | cons line lines ih =>
    rw [List.forall_mem_cons] at h
    obtain ⟨⟨hnewline, hlen⟩, h⟩ := h
    obtain ⟨c, s, hfile⟩ : ∃ c s, (line :: lines).flatMap (· ++ [0x0a]) = c :: s := by
      apply List.exists_cons_of_length_pos
      simp
    have hsplit : c :: s = line ++ 0x0a :: lines.flatMap (· ++ [0x0a]) := by
      rw [← hfile, List.flatMap_cons, List.append_assoc, List.singleton_append]
    have hline : (c :: s).takeWhile (· ≠ 0x0a) = line := by
      rw [hsplit, List.takeWhile_append_of_pos, List.takeWhile_cons_of_neg (by simp), List.append_nil]
      intro d hd
      have hne : d ≠ 0x0a := fun heq => hnewline (heq ▸ hd)
      simpa using hne
    have hrest : s.drop line.length = lines.flatMap (· ++ [0x0a]) := by
      have hdrop := congrArg (List.drop (line.length + 1)) hsplit
      rw [List.drop_succ_cons] at hdrop
      rw [hdrop, ← List.singleton_append, ← List.append_assoc, List.drop_left' (by simp)]
    rw [hfile, loadDictionary, hline, if_neg (Nat.not_le.mpr hlen), hrest, ih h, List.map_cons]

theorem length_encode (cs : Str) : (encode cs).length = len cs := by
  induction cs with
  | nil => rfl
  | cons c cs ih =>
    rw [encode_cons, List.length_append, String.length_utf8EncodeChar, ih]
    simp [len]

/-- On strings of characters the bytes and the characters say the same. -/
theorem wordInString_encode (w buf : Str) : wordInString (encode w) (encode buf) =
    ((Anagrams.wordInString w buf).1, encode (Anagrams.wordInString w buf).2) := by
  simp only [wordInString, Anagrams.wordInString, length_encode, runes_encode, gt_iff_lt]
  split
  · rfl
  · cases w.foldlM removeRune buf <;> rfl

/-- With the growth of the first slices: a dictionary of a blank line and `a`, and the argument `a`. -/
theorem blank_line_never_ends :
    ¬ SearchEnds ⟨fun c => 2 * c + 1, fun c => by omega⟩ [0x0a, 0x61, 0x0a] [[0x61]] := by
  intro h
  have hlines : loadDictionary [0x0a, 0x61, 0x0a] = [[], [0x61]] := by
    exact loadDictionary_lines [[], [0x61]] (by decide)
  have hblank : [] ∈ loadDictionary [0x0a, 0x61, 0x0a] := by
    rw [hlines]
    exact List.mem_cons_self
  have hlt := h.decreases _ _ .refl (calls_of_blank hblank (by decide))
  rw [letters_blank] at hlt
  exact Nat.lt_irrefl _ hlt

end CtfChallenges.Anagrams.OnBytes
