import CtfChallenges.Anagrams.Aliasing

/-!
# When the lines are the anagrams

The lines are right as long as every word that shares its array with other lines is the last one
of the dictionary that fits in its place.
-/

namespace CtfChallenges.Anagrams
open Framework.Go

/-- What is left of a string once the words are taken out of it. -/
def remaining (buf : Str) (ws : List Str) : Str :=
  ws.foldl (fun left w => (wordInString w left).2) buf

/-- In every anagram, a word is the last of the dictionary that fits in its place, unless an array
fills up in front of it or later in the line. -/
def NothingOverwritten (g : GrowPolicy) (dict : List Str) (buf : Str) : Prop :=
  ∀ ws : List Str, (∀ w ∈ ws, w ∈ dict) → ws.flatten.Perm buf → ∀ d < ws.length,
    (∀ l, d ≤ l → l < ws.length → ¬ g.IsCapacity l) →
      lastFit dict (remaining buf (ws.take d)) = ws[d]?

/-- The search returns, and the slices it returns hold the anagrams. -/
def FindsWords (g : GrowPolicy) (dict : List Str) (buf : Str) : Prop :=
  ∃ lines, IsAnagramList dict buf lines ∧
    ∀ fuel, buf.length < fuel → foundWords g fuel buf dict = some lines

/-- `findAnagrams` returns, and its lines are the anagrams. -/
def FindsLines (g : GrowPolicy) (dict : List Str) (buf : Str) : Prop :=
  ∃ lines, IsAnagramList dict buf lines ∧
    ∀ fuel, buf.length < fuel →
      findAnagrams g fuel buf dict = some (lines.map ([' '].intercalate))

private theorem keptAmong_iff {g : GrowPolicy} (dict : List Str) (ws : List Str) {n c : Nat}
    (buf : Str) (hcap : g.IsCapacity c) (hle : n ≤ c)
    (hfree : ∀ l, n ≤ l → l < c → ¬ g.IsCapacity l) :
    KeptAmong g dict dict n c buf ws ↔ ∀ d < ws.length,
      (∀ l, n + d ≤ l → l < n + ws.length → ¬ g.IsCapacity l) →
        lastFit dict (remaining buf (ws.take d)) = ws[d]? := by
  induction ws generalizing n c buf with
  | nil => exact iff_of_true trivial fun d hd => absurd hd (Nat.not_lt_zero d)
  | cons w ws ih =>
    have hnext : KeptAmong g dict dict (n + 1) (if n < c then c else g.grow c)
        (wordInString w buf).2 ws ↔ ∀ d < ws.length,
          (∀ l, n + 1 + d ≤ l → l < n + 1 + ws.length → ¬ g.IsCapacity l) →
            lastFit dict (remaining (wordInString w buf).2 (ws.take d)) = ws[d]? := by
      split
      · rename_i hlt
        exact ih _ hcap hlt fun l hl => hfree l (by omega)
      · have hlt := g.lt_grow c
        exact ih _ hcap.grow (by omega) fun l hl hlg => hcap.not_between (by omega) hlg
    have hhead : (n < c → n + (ws.length + 1) ≤ c → lastFit dict buf = some w) ↔
        ((∀ l, n ≤ l → l < n + (ws.length + 1) → ¬ g.IsCapacity l) →
          lastFit dict buf = some w) := by
      constructor
      · intro h hnone
        have hlt : n < c := by
          by_contra hge
          obtain rfl : n = c := by omega
          exact hnone n le_rfl (by omega) hcap
        apply h hlt
        by_contra hover
        exact hnone c hle (by omega) hcap
      · intro h _ hfit
        exact h fun l hl hlt => hfree l hl (by omega)
    rw [KeptAmong, hnext, hhead, List.length_cons, Nat.forall_lt_succ_left]
    refine and_congr Iff.rfl (forall₂_congr fun d _ => ?_)
    simp only [remaining, List.take_succ_cons, List.foldl_cons, List.getElem?_cons_succ]
    rw [show n + 1 + d = n + (d + 1) by omega, show n + 1 + ws.length = n + (ws.length + 1) by omega]

private def NoSpace (h : Heap Str) : Prop := ∀ a i, ' ' ∉ h.cell a i

private theorem append_noSpace {g : GrowPolicy} {h : Heap Str} (hh : NoSpace h) (s : Slice)
    {w : Str} (hw : ' ' ∉ w) : NoSpace (append g h s w).2 := by
  intro a i
  unfold append
  split
  · simp only [Heap.write]
    split
    · exact hw
    · exact hh a i
  · simp only [Heap.write, Heap.copy]
    split
    · exact hw
    · split
      · split
        · exact hh _ _
        · exact List.not_mem_nil
      · exact hh a i

private theorem finder_noSpace {g : GrowPolicy} {dict : List Str} (hdict : ∀ w ∈ dict, ' ' ∉ w)
    {fuel : Nat} {buf : Str} {pre : Slice} {h h' : Heap Str} {res : List Slice}
    (hh : NoSpace h) (hrun : finder g dict fuel buf pre h = some (res, h')) : NoSpace h' := by
  induction fuel generalizing buf pre h res h' with
  | zero => cases hrun
  | succ fuel ih =>
    have hstep {w : Str} {res res' : List Slice} {h h' : Heap Str} (hw : ' ' ∉ w)
        (hh : NoSpace h)
        (hword : tryWord g (finder g dict fuel) buf pre (res, h) w = some (res', h')) :
        NoSpace h' := by
      rw [tryWord, tryWordOn] at hword
      rcases hfit : wordInString w buf with ⟨_ | _, left⟩ <;> rw [hfit] at hword
      · cases hword
        exact hh
      · dsimp only at hword
        split at hword
        · simp only [Option.bind_eq_bind, Option.bind_eq_some_iff, Option.pure_def] at hword
          obtain ⟨⟨found, h₁⟩, hfound, heq⟩ := hword
          cases heq
          exact ih (append_noSpace hh pre hw) hfound
        · cases hword
          exact append_noSpace hh pre hw
    have hloop : ∀ words : List Str, (∀ w ∈ words, ' ' ∉ w) → ∀ {res res' : List Slice} {h h' : Heap Str},
        NoSpace h → words.foldlM (tryWord g (finder g dict fuel) buf pre) (res, h) =
          some (res', h') → NoSpace h' := by
      intro words hwords
      induction words with
      | nil =>
        rintro _ _ _ _ hh ⟨⟩
        exact hh
      | cons w words ihw =>
        intro _ _ _ _ hh hfold
        rw [List.forall_mem_cons] at hwords
        rw [List.foldlM_cons, Option.bind_eq_bind, Option.bind_eq_some_iff] at hfold
        obtain ⟨⟨res₁, h₁⟩, hword, hrest⟩ := hfold
        exact ihw hwords.2 (hstep hwords.1 hh hword) hrest
    exact hloop dict hdict hh hrun

private theorem forall_of_forall₂ {α β : Type} {R : α → β → Prop} {P : α → Prop} {l : List α}
    {l' : List β} (h : List.Forall₂ R l l') (hp : ∀ a, ∀ b ∈ l', R a b → P a) :
    ∀ a ∈ l, P a := by
  induction h with
  | nil => exact fun _ ha => absurd ha List.not_mem_nil
  | cons hab _ ih =>
    refine List.forall_mem_cons.mpr ⟨hp _ _ List.mem_cons_self hab, ih fun a b hb => ?_⟩
    exact hp a b (List.mem_cons_of_mem _ hb)

private theorem map_eq_iff_of_forall₂ {α β : Type} {f : α → β} {P : β → Prop} {l : List α}
    {l' : List β} (h : List.Forall₂ (fun a b => f a = b ↔ P b) l l') :
    l.map f = l' ↔ ∀ b ∈ l', P b := by
  induction h with
  | nil => simp
  | cons hab _ ih => simp [hab, ih]

variable {g : GrowPolicy} {dict : List Str} (hnd : dict.Nodup) (hne : ∀ w ∈ dict, w ≠ [])
  {buf : Str} (hbuf : buf ≠ [])
include hnd hne

private theorem foundWords_spec {fuel : Nat} (hfuel : buf.length < fuel) :
    ∃ found, foundWords g fuel buf dict = some found ∧
      (found = search dict fuel buf ↔
        ∀ ws ∈ search dict fuel buf, KeptAmong g dict dict 0 0 buf ws) ∧
      List.Forall₂ (fun ws ws' => ws.length = ws'.length) found (search dict fuel buf) ∧
      ((∀ w ∈ dict, ' ' ∉ w) → ∀ ws ∈ found, ∀ w ∈ ws, ' ' ∉ w) := by
  obtain ⟨res, h, hfind, -, hres⟩ :=
    finder_spec (g := g) hnd hne hfuel (In_nilSlice Heap.empty)
  have hlen (r : Slice) (ws : List Str) (hr : Holds g dict dict buf nilSlice Heap.empty h r ws) :
      r.len = ws.length := hr.len.trans (Nat.zero_add _)
  refine ⟨res.map h.read, by rw [foundWords, foundWordsOn, ← finder, hfind]; rfl, ?_, ?_, ?_⟩
  · refine map_eq_iff_of_forall₂ (hres.imp fun r ws hr => ?_)
    rw [Heap.read, hlen r ws hr]
    exact hr.kept
  · rw [List.forall₂_map_left_iff]
    refine hres.imp fun r ws hr => ?_
    rw [Heap.read, Heap.segment, List.length_map, List.length_range', hlen r ws hr]
  · intro hdict ws hws w hw
    obtain ⟨r, -, rfl⟩ := List.mem_map.mp hws
    obtain ⟨i, -, rfl⟩ := List.mem_map.mp hw
    exact finder_noSpace hdict (fun _ _ => List.not_mem_nil) hfind _ i

include hbuf

private theorem nothingOverwritten_iff {fuel : Nat} (hfuel : buf.length < fuel) :
    NothingOverwritten g dict buf ↔
      ∀ ws ∈ search dict fuel buf, KeptAmong g dict dict 0 0 buf ws := by
  have hmem := (isAnagramList_search hnd hne hbuf hfuel).mem_iff
  have hkept (ws : List Str) := keptAmong_iff (g := g) dict ws buf g.isCapacity_zero
    (Nat.le_refl 0) fun l _ hl => absurd hl (Nat.not_lt_zero l)
  simp only [Nat.zero_add] at hkept
  constructor
  · intro h ws hws
    obtain ⟨hdict, hperm⟩ := (hmem ws).mp hws
    exact (hkept ws).mpr (h ws hdict hperm)
  · intro h ws hdict hperm
    exact (hkept ws).mp (h ws ((hmem ws).mpr ⟨hdict, hperm⟩))

private theorem findsWords_iff : FindsWords g dict buf ↔ NothingOverwritten g dict buf := by
  constructor
  · rintro ⟨lines, hlines, hfound⟩
    have hfuel := Nat.lt_succ_self buf.length
    obtain ⟨found, hrun, hiff, -⟩ := foundWords_spec (g := g) hnd hne hfuel
    rw [nothingOverwritten_iff hnd hne hbuf hfuel, ← hiff]
    rw [hfound _ hfuel, Option.some.injEq] at hrun
    exact hrun ▸ hlines.unique (isAnagramList_search hnd hne hbuf hfuel)
  · intro h
    refine ⟨_, isAnagramList_search hnd hne hbuf (Nat.lt_succ_self _), fun fuel hfuel => ?_⟩
    obtain ⟨found, hrun, hiff, -⟩ := foundWords_spec (g := g) hnd hne hfuel
    rw [hrun, hiff.mpr ((nothingOverwritten_iff hnd hne hbuf hfuel).mp h),
      (isAnagramList_search hnd hne hbuf hfuel).unique
        (isAnagramList_search hnd hne hbuf (Nat.lt_succ_self _))]

omit hnd hne hbuf in
private theorem FindsWords.findsLines (h : FindsWords g dict buf) : FindsLines g dict buf := by
  obtain ⟨lines, hlines, hfound⟩ := h
  exact ⟨lines, hlines, fun fuel hfuel => by rw [findAnagrams, hfound fuel hfuel]; rfl⟩

omit hnd hne hbuf in
private theorem eq_of_map_intercalate {l l' : List (List Str)}
    (hl : ∀ ws ∈ l, ws ≠ [] ∧ ∀ w ∈ ws, ' ' ∉ w) (hl' : ∀ ws ∈ l', ws ≠ [] ∧ ∀ w ∈ ws, ' ' ∉ w)
    (heq : l.map ([' '].intercalate) = l'.map ([' '].intercalate)) : l = l' := by
  have hsplit {k : List (List Str)} (hk : ∀ ws ∈ k, ws ≠ [] ∧ ∀ w ∈ ws, ' ' ∉ w) :
      (k.map ([' '].intercalate)).map (List.splitOn ' ') = k := by
    rw [List.map_map]
    exact (List.map_congr_left fun ws hws =>
      List.splitOn_intercalate ' ' (hk ws hws).2 (hk ws hws).1).trans (List.map_id k)
  rw [← hsplit hl, heq, hsplit hl']

private theorem findsWords_of_findsLines (hspace : ∀ w ∈ dict, ' ' ∉ w)
    (h : FindsLines g dict buf) : FindsWords g dict buf := by
  obtain ⟨lines, hlines, hout⟩ := h
  refine ⟨lines, hlines, fun fuel hfuel => ?_⟩
  obtain ⟨found, hrun, -, hlen, hclean⟩ := foundWords_spec (g := g) hnd hne hfuel
  obtain rfl := hlines.unique (isAnagramList_search hnd hne hbuf hfuel)
  have hmap := hout fuel hfuel
  rw [findAnagrams, hrun, Option.map_some, Option.some.injEq] at hmap
  have hnonempty : ∀ ws ∈ search dict fuel buf, ws ≠ [] := by
    rintro _ hws rfl
    exact hbuf ((hlines.mem_iff []).mp hws).2.symm.eq_nil
  rw [hrun]
  have hfound : ∀ ws ∈ found, ws ≠ [] := by
    refine forall_of_forall₂ hlen fun vs vs' hvs' hl hnil => hnonempty vs' hvs' ?_
    rw [← List.length_eq_zero_iff, ← hl, hnil, List.length_nil]
  refine congrArg some (eq_of_map_intercalate (fun ws hws => ⟨hfound ws hws, hclean hspace ws hws⟩)
    (fun ws hws => ⟨hnonempty ws hws, fun w hw => ?_⟩) hmap)
  exact hspace w (((hlines.mem_iff ws).mp hws).1 w hw)

omit hnd hne hbuf

/-- The capacities of a growing slice of strings, up to 1024 elements. -/
def doubling : GrowPolicy where
  grow c := if c = 0 then 1 else 2 * c
  lt_grow c := by split <;> omega

end CtfChallenges.Anagrams
