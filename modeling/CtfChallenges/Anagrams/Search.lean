import CtfChallenges.Anagrams.Finder
import Mathlib.Data.List.Lex
import Mathlib.Data.List.Nodup

/-!
# The anagrams of a string

What the search is for: all sequences of dictionary words with exactly the letters of the input,
in dictionary order. `search` finds them by the recursion of `finder` on plain lists.
-/

namespace CtfChallenges.Anagrams

/-- Dictionary order of word sequences. -/
def Before (dict : List Str) : List Str → List Str → Prop :=
  List.Lex fun v w => dict.idxOf v < dict.idxOf w

/-- `lines` are the anagrams of `buf`, each once, in dictionary order. -/
structure IsAnagramList (dict : List Str) (buf : Str) (lines : List (List Str)) : Prop where
  mem_iff : ∀ ws, ws ∈ lines ↔ (∀ w ∈ ws, w ∈ dict) ∧ ws.flatten.Perm buf
  sorted : lines.Pairwise (Before dict)

def branch (search : Str → List (List Str)) (buf w : Str) : List (List Str) :=
  match wordInString w buf with
  | (false, _) => []
  | (true, left) => if left ≠ [] then (search left).map (w :: ·) else [[w]]

def search (dict : List Str) : Nat → Str → List (List Str)
  | 0, _ => []
  | fuel + 1, buf => dict.flatMap (branch (search dict fuel) buf)

theorem exists_of_mem_branch {f : Str → List (List Str)} {buf w : Str} {ws : List Str}
    (h : ws ∈ branch f buf w) : ∃ ws', ws = w :: ws' := by
  unfold branch at h
  split at h
  · cases h
  · split at h
    · obtain ⟨ws', -, rfl⟩ := List.mem_map.mp h
      exact ⟨ws', rfl⟩
    · exact ⟨[], List.mem_singleton.mp h⟩

variable {dict : List Str} (hne : ∀ w ∈ dict, w ≠ [])
include hne

theorem length_lt_of_fits {w buf left : Str} (hw : w ∈ dict)
    (h : wordInString w buf = (true, left)) : left.length < buf.length := by
  have hlen := (perm_of_wordInString h).length_eq
  have hpos := List.length_pos_of_ne_nil (hne w hw)
  rw [List.length_append] at hlen
  omega

private theorem mem_branch_iff {fuel : Nat} {buf w : Str} (hw : w ∈ dict)
    (hfuel : buf.length < fuel + 1)
    (ih : ∀ {left ws}, left ≠ [] → left.length < fuel → (ws ∈ search dict fuel left ↔
      (∀ w ∈ ws, w ∈ dict) ∧ ws.flatten.Perm left)) (ws : List Str) :
    ws ∈ branch (search dict fuel) buf w ↔
      ∃ ws', ws = w :: ws' ∧ (∀ w ∈ ws', w ∈ dict) ∧ (w ++ ws'.flatten).Perm buf := by
  unfold branch
  split
  · rename_i left hfalse
    apply iff_of_false List.not_mem_nil
    rintro ⟨ws', -, -, hperm⟩
    obtain ⟨left', htrue, -⟩ := wordInString_of_perm hperm.symm
    rw [hfalse] at htrue
    cases htrue
  · rename_i left htrue
    have hbuf := perm_of_wordInString htrue
    have hlt := length_lt_of_fits hne hw htrue
    have hsplit (ws' : List Str) : (w ++ ws'.flatten).Perm buf ↔ ws'.flatten.Perm left := by
      constructor
      · exact fun hp => (List.perm_append_left_iff w).mp (hp.trans hbuf)
      · exact fun hp => (hp.append_left w).trans hbuf.symm
    simp only [hsplit]
    split
    · rename_i hleft
      rw [List.mem_map]
      constructor
      · rintro ⟨ws', hmem, rfl⟩
        exact ⟨ws', rfl, (ih hleft (by omega)).mp hmem⟩
      · rintro ⟨ws', rfl, hmem⟩
        exact ⟨ws', (ih hleft (by omega)).mpr hmem, rfl⟩
    · rename_i hleft
      obtain rfl := not_not.mp hleft
      rw [List.mem_singleton]
      constructor
      · rintro rfl
        exact ⟨[], rfl, fun _ h => absurd h List.not_mem_nil, List.Perm.refl _⟩
      · rintro ⟨ws', rfl, hdict, hperm⟩
        cases ws' with
        | nil => rfl
        | cons v ws' =>
          refine absurd ?_ (hne v (hdict v List.mem_cons_self))
          have hnil := hperm.eq_nil
          rw [List.flatten_cons, List.append_eq_nil_iff] at hnil
          exact hnil.1

theorem mem_search_iff {fuel : Nat} {buf : Str} (hbuf : buf ≠ []) (hfuel : buf.length < fuel)
    (ws : List Str) :
    ws ∈ search dict fuel buf ↔ (∀ w ∈ ws, w ∈ dict) ∧ ws.flatten.Perm buf := by
  induction fuel generalizing buf ws with
  | zero => omega
  | succ fuel ih =>
    have hbranch {w : Str} (hw : w ∈ dict) := mem_branch_iff hne hw hfuel
      (fun hleft hlt => ih hleft hlt _) ws
    rw [search, List.mem_flatMap]
    constructor
    · rintro ⟨w, hw, hmem⟩
      obtain ⟨ws', rfl, hdict, hperm⟩ := (hbranch hw).mp hmem
      exact ⟨List.forall_mem_cons.mpr ⟨hw, hdict⟩, hperm⟩
    · rintro ⟨hdict, hperm⟩
      cases ws with
      | nil => exact absurd hperm.symm.eq_nil hbuf
      | cons w ws =>
        rw [List.forall_mem_cons] at hdict
        exact ⟨w, hdict.1, (hbranch hdict.1).mpr ⟨ws, rfl, hdict.2, hperm⟩⟩

omit hne

private theorem pairwise_idxOf {dict : List Str} (hnd : dict.Nodup) :
    dict.Pairwise fun v w => dict.idxOf v < dict.idxOf w := by
  rw [List.pairwise_iff_getElem]
  intro i j hi hj hij
  rw [hnd.idxOf_getElem, hnd.idxOf_getElem]
  exact hij

theorem search_sorted (hnd : dict.Nodup) (fuel : Nat) (buf : Str) :
    (search dict fuel buf).Pairwise (Before dict) := by
  induction fuel generalizing buf with
  | zero => exact List.Pairwise.nil
  | succ fuel ih =>
    rw [search, List.pairwise_flatMap]
    constructor
    · intro w _
      unfold branch
      split
      · exact List.Pairwise.nil
      · split
        · exact List.Pairwise.map _ (fun _ _ h => List.Lex.cons h) (ih _)
        · exact List.pairwise_singleton _ _
    · refine (pairwise_idxOf hnd).imp fun hlt ws hws vs hvs => ?_
      obtain ⟨ws', rfl⟩ := exists_of_mem_branch hws
      obtain ⟨vs', rfl⟩ := exists_of_mem_branch hvs
      exact List.Lex.rel hlt

theorem isAnagramList_search (hnd : dict.Nodup) (hne : ∀ w ∈ dict, w ≠ []) {buf : Str}
    (hbuf : buf ≠ []) {fuel : Nat} (hfuel : buf.length < fuel) :
    IsAnagramList dict buf (search dict fuel buf) :=
  ⟨fun ws => mem_search_iff hne hbuf hfuel ws, search_sorted hnd fuel buf⟩

private theorem not_before_self (dict : List Str) (ws : List Str) : ¬ Before dict ws ws := by
  intro h
  induction ws with
  | nil => cases h
  | cons w ws ih =>
    cases h with
    | cons h => exact ih h
    | rel h => omega

private theorem before_asymm (dict : List Str) {vs ws : List Str} (h : Before dict vs ws) :
    ¬ Before dict ws vs := by
  induction vs generalizing ws with
  | nil => intro h'; cases h'
  | cons v vs ih =>
    intro h'
    cases h with
    | cons h =>
      cases h' with
      | cons h' => exact ih h h'
      | rel h' => omega
    | rel h =>
      cases h' with
      | cons h' => omega
      | rel h' => omega

theorem IsAnagramList.unique {buf : Str} {l l' : List (List Str)} (h : IsAnagramList dict buf l)
    (h' : IsAnagramList dict buf l') : l = l' := by
  have hnodup {k : List (List Str)} (hk : IsAnagramList dict buf k) : k.Nodup := by
    refine List.Pairwise.imp ?_ hk.sorted
    rintro ws vs hb rfl
    exact not_before_self dict ws hb
  have hperm : l.Perm l' := by
    rw [List.perm_ext_iff_of_nodup (hnodup h) (hnodup h')]
    intro ws
    rw [h.mem_iff, h'.mem_iff]
  exact hperm.eq_of_pairwise (fun vs ws _ _ hvw hwv => absurd hwv (before_asymm dict hvw))
    h.sorted h'.sorted

end CtfChallenges.Anagrams
