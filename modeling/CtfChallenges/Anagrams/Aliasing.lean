import CtfChallenges.Anagrams.Search
import Mathlib.Data.List.Forall2
import Mathlib.Data.List.Induction

/-!
# Anagrams in shared arrays

The words of a line sit in an array that the lines of sibling branches share. A word that was
written into spare capacity stays there only when no later word of the dictionary fits in its
place. `Holds` says this of one call of `finder`, its results and the heaps around it.
-/

namespace CtfChallenges.Anagrams
open Framework.Go

/-- The last of the words that fits into the string. -/
def lastFit (words : List Str) (buf : Str) : Option Str :=
  (words.filter fun w => (wordInString w buf).1).getLast?

/-- Whether a call of `finder` on a slice of length `n` and capacity `c`, looping over `words`,
leaves in place the words it appended. -/
def KeptAmong (g : GrowPolicy) (dict : List Str) :
    List Str → Nat → Nat → Str → List Str → Prop
  | _, _, _, _, [] => True
  | words, n, c, buf, w :: ws =>
    (n < c → n + (ws.length + 1) ≤ c → lastFit words buf = some w) ∧
      KeptAmong g dict dict (n + 1) (if n < c then c else g.grow c) (wordInString w buf).2 ws

/-- The slice `r` is the result of a call for the word sequence `ws`. -/
structure Holds (g : GrowPolicy) (dict words : List Str) (buf : Str) (pre : Slice)
    (h₀ h : Heap Str) (r : Slice) (ws : List Str) : Prop where
  len : r.len = pre.len + ws.length
  shared : r.len ≤ pre.cap → r.arr = pre.arr
  fresh : pre.cap < r.len → h₀.next ≤ r.arr ∧ r.arr < h.next ∧
    h.segment r.arr 0 pre.len = h₀.segment pre.arr 0 pre.len
  kept : h.segment r.arr pre.len ws.length = ws ↔
    KeptAmong g dict words pre.len pre.cap buf ws

private theorem lastFit_append_singleton (words : List Str) (w buf : Str) :
    lastFit (words ++ [w]) buf = if Fits w buf then some w else lastFit words buf := by
  unfold lastFit Fits
  rw [List.filter_append]
  by_cases hfits : (wordInString w buf).1 = true <;> simp [hfits]

private theorem KeptAmong.congr {g : GrowPolicy} {dict words words' : List Str} {n c : Nat}
    {buf : Str} (heq : lastFit words buf = lastFit words' buf) (ws : List Str) :
    KeptAmong g dict words n c buf ws ↔ KeptAmong g dict words' n c buf ws := by
  cases ws with
  | nil => exact Iff.rfl
  | cons w ws => rw [KeptAmong, KeptAmong, heq]

variable {g : GrowPolicy} {dict words : List Str} {buf w left : Str} {pre r : Slice}
  {h₀ h h' : Heap Str} {ws : List Str}

private theorem Holds.nil : Holds g dict words buf pre h h pre [] where
  len := rfl
  shared _ := rfl
  fresh hlt := absurd hlt (Nat.not_lt.mpr pre.len_le)
  kept := by simp [KeptAmong]

private theorem Holds.segment_eq (hr : Holds g dict words buf pre h₀ h r ws)
    (hf : Frame pre h₀ h) (hpre : pre.In h₀) :
    h.segment r.arr 0 pre.len = h₀.segment pre.arr 0 pre.len := by
  rcases Nat.lt_or_ge pre.cap r.len with hlt | hge
  · exact (hr.fresh hlt).2.2
  · rw [hr.shared hge]
    exact hf.segment_eq hpre

private theorem Holds.cons (hw : wordInString w buf = (true, left)) (hpre : pre.In h)
    (hf : Frame (append g h pre w).1 (append g h pre w).2 h')
    (hr : Holds g dict dict left (append g h pre w).1 (append g h pre w).2 h' r ws) :
    Holds g dict [w] buf pre h h' r (w :: ws) := by
  have hsegment := hr.segment_eq hf (append_in g h pre w hpre)
  rw [append_len, segment_add, segment_add, append_segment] at hsegment
  obtain ⟨hbefore, hcell⟩ := List.append_inj' hsegment rfl
  simp only [segment_succ, segment_zero, append_cell, List.cons.injEq, and_true] at hcell
  have hlen : r.len = pre.len + (ws.length + 1) := by
    rw [hr.len, append_len]
    omega
  have hnext := hf.next_le
  rw [append_next] at hnext
  have hshared := hr.shared
  have hfresh := hr.fresh
  rw [append_cap, append_arr] at hshared
  rw [append_cap, append_next] at hfresh
  refine ⟨hlen, fun hle => ?_, fun hlt => ?_, ?_⟩
  · have hspare : pre.len < pre.cap := by omega
    rw [if_pos hspare, if_pos hspare] at hshared
    exact hshared hle
  · refine ⟨?_, ?_, hbefore⟩
    · by_cases hspare : pre.len < pre.cap
      · rw [if_pos hspare, if_pos hspare] at hfresh
        exact (hfresh hlt).1
      · rw [if_neg hspare, if_neg hspare] at hfresh hshared
        rcases Nat.lt_or_ge (g.grow pre.cap) r.len with hlt' | hge'
        · exact (Nat.le_succ _).trans (hfresh hlt').1
        · exact (hshared hge').ge
    · by_cases hspare : pre.len < pre.cap
      · rw [if_pos hspare] at hfresh
        exact (hfresh hlt).2.1
      · rw [if_neg hspare, if_neg hspare] at hshared
        rw [if_neg hspare] at hfresh hnext
        rcases Nat.lt_or_ge (g.grow pre.cap) r.len with hlt' | hge'
        · exact (hfresh hlt').2.1
        · rw [hshared hge']
          omega
  · have hlast : lastFit [w] buf = some w := by
      have hfits : Fits w buf := by rw [Fits, hw]
      simpa [hfits] using lastFit_append_singleton [] w buf
    have hkept := hr.kept
    rw [append_len, append_cap] at hkept
    rw [List.length_cons, segment_succ, hcell, List.cons.injEq, eq_self, true_and, hkept,
      KeptAmong, hlast, hw]
    simp

private theorem Holds.of_frame (hf : Frame pre h₀ h) (hpre : pre.In h₀)
    (hr : Holds g dict words buf pre h h' r ws) : Holds g dict words buf pre h₀ h' r ws where
  len := hr.len
  shared := hr.shared
  fresh hlt := by
    obtain ⟨hge, hlt', hseg⟩ := hr.fresh hlt
    exact ⟨hf.next_le.trans hge, hlt', hseg.trans (hf.segment_eq hpre)⟩
  kept := hr.kept

private theorem Holds.congr {words' : List Str} (heq : lastFit words buf = lastFit words' buf)
    (hr : Holds g dict words buf pre h₀ h r ws) : Holds g dict words' buf pre h₀ h r ws :=
  ⟨hr.len, hr.shared, hr.fresh, hr.kept.trans (KeptAmong.congr heq ws)⟩

/-- What a later word that fits does to the results before it: those in the shared array lose
their word, the others stay as they are. -/
private theorem Holds.later (hpre : pre.In h₀) (hf : Frame pre h h')
    (hfits : Fits w buf) (hcell : pre.len < pre.cap → h'.cell pre.arr pre.len = w)
    {v : Str} (hv : v ≠ w) (hr : Holds g dict words buf pre h₀ h r (v :: ws)) :
    Holds g dict (words ++ [w]) buf pre h₀ h' r (v :: ws) := by
  have hlast : lastFit (words ++ [w]) buf = some w := by
    rw [lastFit_append_singleton, if_pos hfits]
  have hlen := hr.len
  rw [List.length_cons] at hlen
  rcases Nat.lt_or_ge pre.cap r.len with hlt | hge
  · obtain ⟨hge, hlt', hseg⟩ := hr.fresh hlt
    have hframe (n k : Nat) : h'.segment r.arr n k = h.segment r.arr n k := by
      refine segment_congr fun i _ _ => hf.cell_eq _ _ hlt' fun harr hspare => ?_
      have := hpre (by omega)
      omega
    refine ⟨hr.len, hr.shared, fun _ => ⟨hge, hlt'.trans_le hf.next_le, ?_⟩, ?_⟩
    · rw [hframe, hseg]
    · rw [hframe, hr.kept, KeptAmong, KeptAmong]
      have houtside : ¬ pre.len + (ws.length + 1) ≤ pre.cap := by omega
      simp [houtside]
  · refine ⟨hr.len, hr.shared, fun hlt => by omega, ?_⟩
    have hspare : pre.len < pre.cap := by omega
    rw [hr.shared hge, List.length_cons, segment_succ, hcell hspare, KeptAmong, hlast]
    refine iff_of_false (fun heq => hv (List.cons.inj heq).1.symm) fun hkept => ?_
    exact hv (Option.some.inj (hkept.1 hspare (by omega))).symm

private theorem tryWord_spec {fuel : Nat} (hpre : pre.In h) (res : List Slice)
    (hw : wordInString w buf = (true, left))
    (hrec : left ≠ [] → ∀ {s : Slice} {h : Heap Str}, s.In h → ∃ res h',
      finder g dict fuel left s h = some (res, h') ∧ Frame s h h' ∧
        List.Forall₂ (Holds g dict dict left s h h') res (search dict fuel left)) :
    ∃ new h', tryWord g (finder g dict fuel) buf pre (res, h) w = some (res ++ new, h') ∧
      Frame pre h h' ∧ (pre.len < pre.cap → h'.cell pre.arr pre.len = w) ∧
      List.Forall₂ (Holds g dict [w] buf pre h h') new (branch (search dict fuel) buf w) := by
  have hcell {h' : Heap Str} (hf : Frame (append g h pre w).1 (append g h pre w).2 h')
      (hspare : pre.len < pre.cap) : h'.cell pre.arr pre.len = w := by
    have harr : (append g h pre w).1.arr = pre.arr := by rw [append_arr, if_pos hspare]
    rw [← harr, hf.cell_eq _ _ (append_in g h pre w hpre ?_) fun _ _ => ?_, append_cell]
    · rw [append_cap, if_pos hspare]
      omega
    · rw [append_len]
      omega
  rw [tryWord, tryWordOn, branch, hw]
  by_cases hleft : left = []
  · have hf := Frame.refl (append g h pre w).1 (append g h pre w).2
    refine ⟨[(append g h pre w).1], (append g h pre w).2, ?_, append_frame g h pre w, hcell hf, ?_⟩
    · simp [hleft]
    · simp only [hleft, ne_eq, not_true_eq_false, if_false]
      exact List.Forall₂.cons (Holds.cons hw hpre hf Holds.nil) List.Forall₂.nil
  · obtain ⟨new, h', hfound, hf, hres⟩ := hrec hleft (append_in g h pre w hpre)
    refine ⟨new, h', ?_, hf.of_append, hcell hf, ?_⟩
    · simp [hleft, hfound]
    · simp only [ne_eq, hleft, not_false_eq_true, if_true, List.forall₂_map_right_iff]
      exact hres.imp fun r ws hr => hr.cons hw hpre hf

/-- What a call of `finder` returns and leaves in the heap. -/
theorem finder_spec (hnd : dict.Nodup) (hne : ∀ w ∈ dict, w ≠ []) {fuel : Nat}
    (hfuel : buf.length < fuel) (hpre : pre.In h) :
    ∃ res h', finder g dict fuel buf pre h = some (res, h') ∧ Frame pre h h' ∧
      List.Forall₂ (Holds g dict dict buf pre h h') res (search dict fuel buf) := by
  induction fuel generalizing buf pre h with
  | zero => omega
  | succ fuel ih =>
    -- the loop, over a first part of the dictionary
    suffices hloop : ∀ words, words.Nodup → (∀ w ∈ words, w ∈ dict) → ∃ res h',
        words.foldlM (tryWord g (finder g dict fuel) buf pre) ([], h) = some (res, h') ∧
          Frame pre h h' ∧ List.Forall₂ (Holds g dict words buf pre h h') res
            (words.flatMap (branch (search dict fuel) buf)) from
      hloop dict hnd fun _ hw => hw
    intro words
    induction words using List.reverseRecOn with
    | nil => exact fun _ _ => ⟨[], h, rfl, Frame.refl pre h, List.Forall₂.nil⟩
    | append_singleton words w ihw =>
      intro hwords hdict
      rw [List.nodup_append] at hwords
      obtain ⟨hwords, -, hnotin⟩ := hwords
      obtain ⟨res, h₁, hfold, hf₁, hres⟩ :=
        ihw hwords fun v hv => hdict v (List.mem_append_left _ hv)
      have hwdict : w ∈ dict := hdict w (List.mem_append_right _ List.mem_cons_self)
      rw [List.foldlM_append, hfold, List.flatMap_append, List.flatMap_singleton]
      simp only [List.foldlM_cons, List.foldlM_nil, Option.bind_eq_bind, Option.bind_some,
        Option.pure_def, Option.bind_fun_some]
      rcases hw : wordInString w buf with ⟨_ | _, left⟩
      · have hlast : lastFit words buf = lastFit (words ++ [w]) buf := by
          rw [lastFit_append_singleton, if_neg (by rw [Fits, hw]; exact Bool.false_ne_true)]
        refine ⟨res, h₁, by rw [tryWord, tryWordOn, hw], hf₁, ?_⟩
        rw [branch, hw, List.append_nil]
        exact hres.imp fun r ws hr => hr.congr hlast
      · have hfits : Fits w buf := by rw [Fits, hw]
        have hshort : left.length < fuel := by
          have := length_lt_of_fits hne hwdict hw
          omega
        obtain ⟨new, h₂, hnew, hf₂, hcell, hnewres⟩ :=
          tryWord_spec (hpre.mono hf₁.next_le) res hw fun _ _ _ hs => ih hshort hs
        refine ⟨res ++ new, h₂, hnew, hf₁.trans hf₂, List.rel_append ?_ ?_⟩
        · -- words of the first part are other words than `w`
          have hhead : ∀ ws ∈ words.flatMap (branch (search dict fuel) buf),
              ∃ v ws', ws = v :: ws' ∧ v ≠ w := by
            intro ws hws
            obtain ⟨v, hv, hmem⟩ := List.mem_flatMap.mp hws
            obtain ⟨ws', rfl⟩ := exists_of_mem_branch hmem
            exact ⟨v, ws', rfl, hnotin v hv w List.mem_cons_self⟩
          refine List.Forall₂.imp ?_ ((List.forall₂_and_left _ _).mpr ⟨hhead, hres.flip⟩).flip
          rintro r _ ⟨⟨v, ws', rfl, hv⟩, hr⟩
          exact hr.later hpre hf₂ hfits hcell hv
        · refine hnewres.imp fun r ws hr => (hr.of_frame hf₁ hpre).congr ?_
          rw [lastFit_append_singleton, if_pos hfits]
          simpa [hfits] using lastFit_append_singleton [] w buf

end CtfChallenges.Anagrams
