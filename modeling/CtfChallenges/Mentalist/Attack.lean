import CtfChallenges.Mentalist.Game
import CtfChallenges.Mentalist.LcgBreak

/-!
# Reading the Mentalist's mind

Parameters that the solution script prints need not be those of the game. If their modulus is the
game's, and they fit the numbers that were given away, they fit all numbers after these.
-/

namespace CtfChallenges.Mentalist
open Framework BigInt LinearCongruence

/-- What the script is fed with: the numbers that the game gives away for wrong guesses. -/
def told (said : List Said) : List Int := (said.filterMap Said.failure).map Prod.snd

variable {k : Params} {N : Nat} {f : Found}

theorem thought_succ (k : Params) (n : Nat) :
    thought k (n + 1) = LCG k.PA k.PC k.PM (thought k n) :=
  Function.iterate_succ_apply' _ _ _

theorem outputs_eq_thought (k : Params) (N : Nat) :
    outputs k.PA k.PC k.PM k.PS N = (List.range N).map (thought k) := by
  apply List.ext_getElem?
  intro i
  by_cases hi : i < N
  · rw [outputs, List.getElem?_iterate _ _ _ _ hi]
    simp [hi, thought]
  · simp [outputs, hi]

theorem num_map_range (x : Nat → Int) {i : Nat} (hi : i < N) : num ((List.range N).map x) i = x i := by
  simp [num, List.getD_eq_getElem?_getD, hi]

theorem told_play {lines : List (List UInt8)} (hN : N ≤ 10)
    (hmissed : missed (thought k) (guesses lines) = N) :
    told (play k (.start k) lines) = outputs k.PA k.PC k.PM k.PS N := by
  obtain ⟨hfailures, -⟩ := failures_failed k (Nat.zero_le 10) k.PS lines
  have hcount : min (10 - 0) (missed (ahead k k.PS) (guesses lines)) = N := by
    rw [show ahead k k.PS = thought k from rfl, hmissed]
    omega
  rw [told, Mind.start, hfailures, hcount, outputs_eq_thought, List.map_map]
  rfl

theorem steps_thought (k : Params) (N : Nat) : Steps k.PA k.PC k.PM N (thought k) := by
  intro n _
  rw [thought_succ, LCG, mul_comm k.PA]
  exact Int.mod_modEq _ _

/-- Parameters with the game's modulus that fit three numbers fit all. -/
theorem lcg_thought (hPM : 0 < k.PM) (hm : f.m = k.PM) (hN : 3 ≤ N)
    (hfits : Reproduces f ((List.range N).map (thought k))) (n : Nat) :
    lcg f.a f.c f.m (thought k n) = thought k (n + 1) := by
  have hterm : ∀ i < N, thought k i = (lcg f.a f.c f.m)^[i] (thought k 0) := by
    intro i hi
    have hget := congrArg (fun l => l[i]?) hfits
    simp only [List.length_map, List.length_range] at hget
    rw [List.getElem?_iterate _ _ _ _ hi, num_map_range _ (by omega)] at hget
    simpa [hi] using hget
  have hthree : Steps f.a f.c k.PM 3 (thought k) := by
    intro i hi
    rw [hterm (i + 1) (by omega), Function.iterate_succ_apply', ← hterm i (by omega), lcg, hm,
      Int.fmod_eq_emod_of_nonneg _ hPM.le]
    exact Int.mod_modEq _ _
  have hnext := Steps.forever (steps_thought k) hthree (n + 2) n (by omega)
  obtain ⟨h0, hlt⟩ := thought_mem hPM (n + 1)
  rw [lcg, hm, Int.fmod_eq_emod_of_nonneg _ hPM.le, ← hnext.eq]
  exact Int.emod_eq_of_lt h0 hlt

/-- The two numbers that the script prints are the next ones of its parameters. -/
theorem next_of_lcg_break {nums : List Int} (h : lcg_break nums = some (some f)) :
    f.next1 = lcg f.a f.c f.m (nums.getLastD 0) ∧ f.next2 = lcg f.a f.c f.m f.next1 := by
  simp only [lcg_break, Option.bind_eq_bind, Option.bind_eq_some_iff, Option.pure_def,
    Option.some.injEq] at h
  obtain ⟨l, -, hfind⟩ := h
  obtain ⟨a, -, ha⟩ := List.exists_of_findSome?_eq_some hfind
  obtain ⟨i, -, hi⟩ := List.exists_of_findSome?_eq_some ha
  simp only [attempt] at hi
  split at hi
  · cases hi
    exact ⟨rfl, rfl⟩
  · cases hi

/-- Numbers that the script prints for what the game has given away are the game's next two. -/
theorem next_eq_thought (hPM : 0 < k.PM) (hN : 3 ≤ N) (hm : f.m = k.PM)
    (hbreak : lcg_break (outputs k.PA k.PC k.PM k.PS N) = some (some f))
    (hfits : Reproduces f (outputs k.PA k.PC k.PM k.PS N)) :
    f.next1 = thought k N ∧ f.next2 = thought k (N + 1) := by
  obtain ⟨h1, h2⟩ := next_of_lcg_break hbreak
  rw [outputs_eq_thought] at hfits h1
  obtain ⟨n, rfl⟩ := Nat.exists_eq_add_of_lt (show 0 < N by omega)
  have hlast : ((List.range (0 + n + 1)).map (thought k)).getLastD 0 = thought k n := by
    simp [List.range_succ]
  rw [hlast, lcg_thought hPM hm hN hfits] at h1
  rw [h1, lcg_thought hPM hm hN hfits] at h2
  rw [Nat.zero_add]
  exact ⟨h1, h2⟩

/-- After guesses that all miss, the next two are the ones that count. -/
theorem foretold_append {x : Nat → Int} {n : Nat} {gs : List (Option Int)}
    (hmissed : missed x gs = gs.length) (g1 g2 : Option Int) :
    Foretold x n (gs ++ [g1, g2]) ↔
      n = gs.length ∧ g1 = some (x n) ∧ g2 = some (x (n + 1)) := by
  induction gs generalizing x n with
  | nil =>
    cases n with
    | zero => simp [foretold_zero]
    | succ n =>
      simp only [List.nil_append, foretold_succ, List.length_nil, Nat.add_eq_zero_iff,
        Nat.one_ne_zero, and_false, false_and, iff_false]
      rintro ⟨_, h⟩
      simpa using h.second
  | cons g gs ih =>
    rw [missed] at hmissed
    split at hmissed
    · rename_i hmiss
      cases n with
      | zero =>
        obtain ⟨v, rfl, hv⟩ := hmiss
        simp [foretold_zero, hv]
      | succ n =>
        rw [List.cons_append, foretold_succ, ih (Nat.succ.inj hmissed)]
        simp [hmiss]
    · simp at hmissed

theorem guessed_text {x : Int} (hx : 0 ≤ x) (y : Int) :
    guessed (text x 10) = some y ↔ x = y ∧ x ≤ UB := by
  rw [guessed_eq_some, setString_text hx (by decide) (by decide)]
  constructor
  · rintro ⟨hset, href⟩
    cases hset
    refine ⟨rfl, ?_⟩
    by_contra hUB
    rw [refusal, if_neg (not_lt.mpr hx), if_pos (not_le.mp hUB)] at href
    cases href
  · rintro ⟨hxy, hUB⟩
    rw [← hxy]
    exact ⟨rfl, refusal_eq_none hx hUB⟩

theorem guesses_append_texts (lines : List (List UInt8)) {x y : Int} (hx : 0 ≤ x) (hy : 0 ≤ y) :
    guesses (lines ++ [text x 10, text y 10]) =
      guesses lines ++ [guessed (text x 10), guessed (text y 10)] := by
  have hne : ∀ {z : Int}, 0 ≤ z → text z 10 ≠ [] := by
    intro z hz hnil
    have hset : setString (text z 10) 10 = (z, true) := setString_text hz (by decide) (by decide)
    rw [hnil] at hset
    simp [setString, scanDigits] at hset
  simp [guesses, hne hx, hne hy]

/-- A drawn modulus is so small that the roots of every congruence can be counted. -/
theorem rootsCounted_of_drawPM {t PM : Int} {iB : List (Fin 6)} (h : drawPM t iB = some PM)
    (nums : List Int) : RootsCounted PM nums := by
  obtain ⟨hprod, hLB, front, i, rfl, hfront⟩ := drawPM_spec h
  rw [List.map_append, List.prod_append, List.map_singleton, List.prod_singleton] at hprod
  have hle := Nat.mul_le_mul hfront (prime_le i).1
  have hlow : LB = 1000000000 := rfl
  have hmax : IV_MAX = 9223372036854775807 := rfl
  intro j _
  have hgcd := Int.le_of_dvd (by omega)
    (Int.gcd_dvd_right (num nums j - num nums (j + 2)) PM)
  omega

/-- After five to ten wrong guesses whose numbers have the modulus as the gcd of their determinants,
the script finds parameters, and entering its two numbers prints the flag unless the game never
thinks of numbers that large. -/
theorem mind_read {d : Draws} (h : generate d = some k) {lines : List (List UInt8)}
    (hlow : 5 ≤ (guesses lines).length) (hhigh : (guesses lines).length ≤ 10)
    (hmissed : missed (thought k) (guesses lines) = (guesses lines).length)
    (hmod : modulus (told (play k (.start k) lines)) = k.PM) :
    ∃ f, lcg_break (told (play k (.start k) lines)) = some (some f) ∧
      (.knowledge ∈ play k (.start k) (lines ++ [text f.next1 10, text f.next2 10]) ↔
        f.next1 ≤ UB ∧ f.next2 ≤ UB) := by
  obtain ⟨hdraw, -⟩ := drawPM_of_generate h
  have hPM : 0 < k.PM := lt_of_lt_of_le (by decide) (drawPM_spec hdraw).2.1
  rw [told_play hhigh hmissed] at hmod ⊢
  obtain ⟨f, hbreak, hm, hfits⟩ :=
    ((broken_iff hPM k.PA k.PC k.PS (by omega) hmod).mpr (rootsCounted_of_drawPM hdraw _)).printed
  obtain ⟨h1, h2⟩ := next_eq_thought hPM (by omega) hm hbreak hfits
  refine ⟨f, hbreak, ?_⟩
  have hflag : ∀ lines, .knowledge ∈ play k (.start k) lines ↔
      ∃ n, 0 + n ≤ 10 ∧ Foretold (thought k) n (guesses lines) :=
    knowledge_mem_failed (Nat.zero_le 10)
  rw [h1, h2, hflag, guesses_append_texts _ (thought_mem hPM _).1 (thought_mem hPM _).1]
  simp only [foretold_append hmissed, guessed_text (thought_mem hPM _).1]
  constructor
  · rintro ⟨n, _, hn, hfirst, hsecond⟩
    exact ⟨hfirst.2, hsecond.2⟩
  · rintro ⟨hfirst, hsecond⟩
    exact ⟨_, by omega, rfl, ⟨rfl, hfirst⟩, ⟨rfl, hsecond⟩⟩

/-- The draws for `2 ^ 30` with the start `1`: zero is guessed five times. -/
theorem mind_read_zeros :
    ∃ f, lcg_break (told (play ⟨120121, 1073741824, 1, 1⟩ (.start ⟨120121, 1073741824, 1, 1⟩)
        (List.replicate 5 [0x30]))) = some (some f) ∧
      (.knowledge ∈ play ⟨120121, 1073741824, 1, 1⟩ (.start ⟨120121, 1073741824, 1, 1⟩)
          (List.replicate 5 [0x30] ++ [text f.next1 10, text f.next2 10]) ↔
        f.next1 ≤ UB ∧ f.next2 ≤ UB) := by
  have hmissed : missed (thought ⟨120121, 1073741824, 1, 1⟩)
      (guesses (List.replicate 5 [0x30])) = 5 := by decide +kernel
  have hgenerate : generate ⟨0, List.replicate 30 0, 0, 0, 1⟩ =
      some ⟨120121, 1073741824, 1, 1⟩ := by decide +kernel
  apply mind_read hgenerate (by decide) (by decide) hmissed
  rw [told_play (by decide) hmissed, modulus_eq_gcd]
  decide +kernel

end CtfChallenges.Mentalist
