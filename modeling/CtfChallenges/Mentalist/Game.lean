import CtfChallenges.Mentalist.Range

/-!
# The guesses of the Mentalist

After ten wrong guesses the program gives one more chance. It tells its number after each wrong
guess, and the flag after two right ones in a row; a wrong guess after a right one ends the game.
-/

namespace CtfChallenges.Mentalist
open Framework BigInt

/-- The texts of a wrong guess, before and after the number. -/
def fail : Vector (String × String) 10 := #v[
  ("Actually I was thinking of ", ", try again"),
  ("No I'm sorry, I was thinking of ", ""),
  ("Hmmm no. My number was ", ", are you sure you're okay?"),
  ("I'm getting worried. I was thinking of ", "; you're not doing so well."),
  ("I grow tired of your failures. My number was ", ""),
  ("Nope. ", " Perhaps you aren't the one I was waiting for?"),
  ("WRONG! It was ", ""),
  ("My patience thins... ", " was my number"),
  ("You're getting on my nerves. It was ", ""),
  ("I'm only going to give you one more chance. I was thinking of ", "")]

/-- What the program prints at a time. -/
inductive Said
  | prompt
  | waste
  | noGuess
  | gibberish
  | refused (lines : List String)
  | lucky
  | failed (failc : Fin 10) (curg : Int)
  | late (curg : Int)
  | again
  | knowledge
deriving DecidableEq

def Said.text (k : Params) (flag : String) : Said → String
  | prompt => "\nWhat number am I thinking of? "
  | waste => "\nIf you are going to waste my time we're through here.\n"
  | noGuess => "I'm sorry but that's not a guess.\n"
  | gibberish => "That was gibberish. Goodbye!\n"
  | refused lines => String.join (lines.map (· ++ "\n"))
  | lucky => "It seems you got lucky. Too bad for me.\n"
  | failed failc curg => (fail.get failc).1 ++ toString curg ++ (fail.get failc).2
  | late curg =>
    "I see now that you aren't who I was looking for.\n" ++
    "It's too late now but I was thinking of " ++ toString curg ++ "\n" ++
    "In case you were wondering how I was thinking of these numbers,\n" ++
    "they were for the form x_n+1 = x_n * " ++ toString k.PA ++ " + " ++ toString k.PC ++ " % " ++
    toString k.PM ++ "\n" ++ "And my initial seed x_0 was " ++ toString k.PS ++ "\n" ++
    "With this you can verify that I wasn't cheating.\n" ++
    "Good luck in your future endeavors!\n"
  | again => "Incredible! I WAS thinking of that number! But can you do it again?"
  | knowledge =>
    "You really are the one that was foretold. Please accept this knowldege:\n" ++ flag ++ "\n"

/-- The loop's variables. -/
structure Mind where
  failc : Nat
  passc : Nat
  curg : Int

def Mind.start (k : Params) : Mind := ⟨0, 0, k.PS⟩

/-- One line of the input. There is no next state where the loop is left. -/
def guess (k : Params) (s : Mind) (text : List UInt8) : Said × Option Mind :=
  if text.length = 0 then (.noGuess, some s)
  else
    let (g, ok) := setString text 10
    if !ok then (.gibberish, none)
    else
      match refusal g with
      | some lines => (.refused lines, none)
      | none =>
        let curg := LCG k.PA k.PC k.PM s.curg
        if g ≠ curg then
          if h : s.failc < 10 then
            if s.passc > 0 then (.lucky, none)
            else (.failed ⟨s.failc, h⟩ curg, some { s with failc := s.failc + 1, curg := curg })
          else (.late curg, none)
        else if s.passc = 0 then (.again, some { s with passc := s.passc + 1, curg := curg })
        else (.knowledge, none)

/-- All that is printed when the scanner yields these lines and no more. -/
def play (k : Params) : Mind → List (List UInt8) → List Said
  | _, [] => [.prompt, .waste]
  | s, text :: lines =>
    let (said, next) := guess k s text
    .prompt :: said :: next.elim [] fun s' => play k s' lines

/-- The number that a line guesses, where it is one that the game compares with its own. -/
def guessed (text : List UInt8) : Option Int :=
  let (g, ok) := setString text 10
  if ok && (refusal g).isNone then some g else none

/-- What the lines guess, without the empty ones. -/
def guesses (lines : List (List UInt8)) : List (Option Int) :=
  (lines.filter fun text => text.length ≠ 0).map guessed

/-- A wrong guess. -/
def Misses (x : Int) (g : Option Int) : Prop := ∃ v, g = some v ∧ v ≠ x

/-- After `n` misses, two numbers in a row are foretold. -/
structure Foretold (x : Nat → Int) (n : Nat) (gs : List (Option Int)) : Prop where
  misses : ∀ i < n, ∃ g, gs[i]? = some g ∧ Misses (x i) g
  first : gs[n]? = some (some (x n))
  second : gs[n + 1]? = some (some (x (n + 1)))

instance (x : Int) : (g : Option Int) → Decidable (Misses x g)
  | none => isFalse (by simp [Misses])
  | some v => decidable_of_iff (v ≠ x) (by simp [Misses])

/-- How many guesses miss before one that does not. -/
def missed (x : Nat → Int) : List (Option Int) → Nat
  | [] => 0
  | g :: gs => if Misses (x 0) g then missed (fun i => x (i + 1)) gs + 1 else 0

/-- A failure, by its place and the number given away. -/
def Said.failure : Said → Option (Nat × Int)
  | failed failc curg => some (failc, curg)
  | _ => none

/-- The numbers thought of after `curg`. -/
def ahead (k : Params) (curg : Int) (n : Nat) : Int := (LCG k.PA k.PC k.PM)^[n + 1] curg

theorem failures_cons (said : Said) (rest : List Said) :
    (Said.prompt :: said :: rest).filterMap Said.failure =
      said.failure.toList ++ rest.filterMap Said.failure := by
  rw [List.filterMap_cons_none rfl]
  cases h : said.failure <;> simp [h]

variable {k : Params} {s : Mind} {text : List UInt8} {lines : List (List UInt8)} {g : Int}

theorem guessed_eq_some : guessed text = some g ↔ setString text 10 = (g, true) ∧ refusal g = none := by
  unfold guessed
  obtain ⟨v, ok⟩ := setString text 10
  cases ok <;> by_cases hr : (refusal v).isNone <;> simp_all <;> aesop

theorem guess_empty (h : text.length = 0) : guess k s text = (.noGuess, some s) := by
  rw [guess, if_pos h]

/-- A line that is no guess ends the game, and gives nothing away. -/
theorem guess_refused (hne : text.length ≠ 0) (h : guessed text = none) :
    ∃ said, guess k s text = (said, none) ∧ said ≠ .knowledge ∧ said.failure = none ∧
      ∀ x, said ≠ .late x := by
  rw [guess, if_neg hne]
  rcases hset : setString text 10 with ⟨g, ok⟩
  rw [guessed, hset] at h
  cases ok with
  | false => exact ⟨.gibberish, by simp [Said.failure]⟩
  | true =>
    cases hr : refusal g with
    | none => simp [hr] at h
    | some lines => exact ⟨.refused lines, by simp [hr, Said.failure]⟩

theorem guess_compared (hne : text.length ≠ 0) (h : guessed text = some g) :
    guess k s text =
      if g ≠ LCG k.PA k.PC k.PM s.curg then
        if h : s.failc < 10 then
          if s.passc > 0 then (.lucky, none)
          else (.failed ⟨s.failc, h⟩ (LCG k.PA k.PC k.PM s.curg),
            some { s with failc := s.failc + 1, curg := LCG k.PA k.PC k.PM s.curg })
        else (.late (LCG k.PA k.PC k.PM s.curg), none)
      else if s.passc = 0 then
        (.again, some { s with passc := s.passc + 1, curg := LCG k.PA k.PC k.PM s.curg })
      else (.knowledge, none) := by
  obtain ⟨hset, href⟩ := guessed_eq_some.mp h
  simp [guess, hne, hset, href]

theorem play_cons (k : Params) (s : Mind) (text : List UInt8) (lines : List (List UInt8)) :
    play k s (text :: lines) =
      .prompt :: (guess k s text).1 :: (guess k s text).2.elim [] fun s' => play k s' lines := rfl

theorem guesses_cons (text : List UInt8) (lines : List (List UInt8)) :
    guesses (text :: lines) =
      if text.length = 0 then guesses lines else guessed text :: guesses lines := by
  cases text <;> simp [guesses]

@[simp] theorem ahead_zero (k : Params) (curg : Int) : ahead k curg 0 = LCG k.PA k.PC k.PM curg := rfl

theorem ahead_LCG (k : Params) (curg : Int) (n : Nat) :
    ahead k (LCG k.PA k.PC k.PM curg) n = ahead k curg (n + 1) := rfl

theorem foretold_zero {x : Nat → Int} {v : Option Int} {gs : List (Option Int)} :
    Foretold x 0 (v :: gs) ↔ v = some (x 0) ∧ gs.head? = some (some (x 1)) := by
  constructor
  · intro h
    exact ⟨Option.some.inj h.first, by simpa [List.head?_eq_getElem?] using h.second⟩
  · rintro ⟨hv, hgs⟩
    exact ⟨fun i hi => absurd hi (Nat.not_lt_zero i), congrArg some hv,
      by simpa [List.head?_eq_getElem?] using hgs⟩

theorem foretold_succ {x : Nat → Int} {n : Nat} {v : Option Int} {gs : List (Option Int)} :
    Foretold x (n + 1) (v :: gs) ↔ Misses (x 0) v ∧ Foretold (fun i => x (i + 1)) n gs := by
  constructor
  · intro h
    obtain ⟨w, hw, hmiss⟩ := h.misses 0 (Nat.succ_pos n)
    cases hw
    exact ⟨hmiss, fun i hi => h.misses (i + 1) (Nat.succ_lt_succ hi), h.first, h.second⟩
  · rintro ⟨hmiss, h⟩
    refine ⟨fun i hi => ?_, h.first, h.second⟩
    cases i with
    | zero => exact ⟨v, rfl, hmiss⟩
    | succ i => exact h.misses i (Nat.lt_of_succ_lt_succ hi)

theorem knowledge_mem_passed {failc : Nat} {curg : Int} (lines : List (List UInt8)) :
    .knowledge ∈ play k ⟨failc, 1, curg⟩ lines ↔
      (guesses lines).head? = some (some (ahead k curg 0)) := by
  induction lines with
  | nil => simp [play, guesses]
  | cons text lines ih =>
    rw [play_cons, guesses_cons]
    by_cases hne : text.length = 0
    · simpa [guess_empty hne, hne] using ih
    · cases hg : guessed text with
      | none =>
        obtain ⟨said, hsaid, hknow, -, -⟩ := guess_refused (k := k) (s := ⟨failc, 1, curg⟩) hne hg
        simp [hsaid, hne, hknow.symm]
      | some g =>
        rw [guess_compared hne hg]
        by_cases hhit : g = LCG k.PA k.PC k.PM curg
        · simp [hhit, hne]
        · by_cases hfail : failc < 10 <;> simp [hhit, hne, hfail]

/-- Before a right guess, some more misses come before the two numbers. -/
theorem knowledge_mem_failed {failc : Nat} (hfail : failc ≤ 10) {curg : Int}
    (lines : List (List UInt8)) :
    .knowledge ∈ play k ⟨failc, 0, curg⟩ lines ↔
      ∃ n, failc + n ≤ 10 ∧ Foretold (ahead k curg) n (guesses lines) := by
  induction lines generalizing failc curg with
  | nil =>
    simp only [play, List.mem_cons, reduceCtorEq, List.not_mem_nil, or_self, false_iff]
    rintro ⟨n, _, h⟩
    simpa [guesses] using h.first
  | cons text lines ih =>
    rw [play_cons, guesses_cons]
    by_cases hne : text.length = 0
    · simpa [guess_empty hne, hne] using ih hfail
    rw [if_neg hne]
    cases hg : guessed text with
    | none =>
      obtain ⟨said, hsaid, hknow, -, -⟩ := guess_refused (k := k) (s := ⟨failc, 0, curg⟩) hne hg
      have hnone : ∀ n, ¬ Foretold (ahead k curg) n (none :: guesses lines) := by
        intro n h
        cases n with
        | zero => cases (foretold_zero.mp h).1
        | succ n =>
          obtain ⟨v, hv, -⟩ := (foretold_succ.mp h).1
          cases hv
      simp [hsaid, hknow.symm, hnone]
    | some g =>
      rw [guess_compared hne hg]
      by_cases hhit : g = LCG k.PA k.PC k.PM curg
      · simp only [hhit, ne_eq, not_true_eq_false, if_false, if_true, List.mem_cons, reduceCtorEq,
          false_or, Option.elim_some]
        rw [knowledge_mem_passed, ahead_LCG]
        constructor
        · intro h
          exact ⟨0, hfail, foretold_zero.mpr ⟨rfl, h⟩⟩
        · rintro ⟨n, _, h⟩
          cases n with
          | zero => exact (foretold_zero.mp h).2
          | succ n =>
            obtain ⟨v, hv, hmiss⟩ := (foretold_succ.mp h).1
            cases hv
            exact absurd rfl hmiss
      · have hzero : ¬ Foretold (ahead k curg) 0 (some g :: guesses lines) := by
          intro h
          exact hhit (Option.some.inj (foretold_zero.mp h).1)
        by_cases hlt : failc < 10
        · simp only [hhit, ne_eq, not_false_eq_true, if_true, hlt, dif_pos, Nat.lt_irrefl, gt_iff_lt,
            if_false, List.mem_cons, reduceCtorEq, false_or, Option.elim_some]
          rw [ih (by omega)]
          constructor
          · rintro ⟨n, hn, h⟩
            exact ⟨n + 1, by omega, foretold_succ.mpr ⟨⟨g, rfl, hhit⟩, h⟩⟩
          · rintro ⟨n, hn, h⟩
            cases n with
            | zero => exact absurd h hzero
            | succ n => exact ⟨n, by omega, (foretold_succ.mp h).2⟩
        · simp only [hhit, ne_eq, not_false_eq_true, if_true, hlt, dif_neg, List.mem_cons,
            reduceCtorEq, Option.elim_none, List.not_mem_nil, or_self, false_iff]
          rintro ⟨n, hn, h⟩
          cases n with
          | zero => exact hzero h
          | succ n => omega

/-- The flag is printed just when two right guesses in a row come after at most ten wrong ones, and
nothing but empty lines is between them. -/
theorem knowledge_iff (k : Params) (lines : List (List UInt8)) :
    .knowledge ∈ play k (.start k) lines ↔ ∃ n ≤ 10, Foretold (thought k) n (guesses lines) := by
  have h : .knowledge ∈ play k (.start k) lines ↔
      ∃ n, 0 + n ≤ 10 ∧ Foretold (thought k) n (guesses lines) :=
    knowledge_mem_failed (Nat.zero_le 10) lines
  simpa only [Nat.zero_add] using h

/-- After a right guess, nothing more is given away but by the last text. -/
theorem failures_passed (k : Params) (failc : Nat) (curg : Int) (lines : List (List UInt8)) :
    (play k ⟨failc, 1, curg⟩ lines).filterMap Said.failure = [] ∧
      ∀ x, .late x ∈ play k ⟨failc, 1, curg⟩ lines → ¬ failc < 10 ∧ x = ahead k curg 0 := by
  induction lines with
  | nil => simp [play, Said.failure]
  | cons text lines ih =>
    rw [play_cons, failures_cons]
    by_cases hne : text.length = 0
    · simpa [guess_empty hne, Said.failure] using ih
    · cases hg : guessed text with
      | none =>
        obtain ⟨said, hsaid, -, hfailure, hlate⟩ :=
          guess_refused (k := k) (s := ⟨failc, 1, curg⟩) hne hg
        have hnot : ∀ x, Said.late x ≠ said := fun x h => hlate x h.symm
        simp [hsaid, hfailure, hnot]
      | some g =>
        rw [guess_compared hne hg]
        by_cases hhit : g = LCG k.PA k.PC k.PM curg
        · simp [hhit, Said.failure]
        · by_cases hlt : failc < 10
          · simp [hhit, hlt, Said.failure]
          · simp [hhit, hlt, Said.failure]

theorem failures_failed (k : Params) {failc : Nat} (hfail : failc ≤ 10) (curg : Int)
    (lines : List (List UInt8)) :
    (play k ⟨failc, 0, curg⟩ lines).filterMap Said.failure =
        (List.range (min (10 - failc) (missed (ahead k curg) (guesses lines)))).map
          (fun i => (failc + i, ahead k curg i)) ∧
      ∀ x, .late x ∈ play k ⟨failc, 0, curg⟩ lines →
        x = ahead k curg (10 - failc) ∨ x = ahead k curg (11 - failc) := by
  induction lines generalizing failc curg with
  | nil => simp [play, guesses, missed, Said.failure]
  | cons text lines ih =>
    rw [play_cons, guesses_cons, failures_cons]
    by_cases hne : text.length = 0
    · simpa [guess_empty hne, hne, Said.failure] using ih hfail curg
    rw [if_neg hne]
    cases hg : guessed text with
    | none =>
      obtain ⟨said, hsaid, -, hfailure, hlate⟩ :=
        guess_refused (k := k) (s := ⟨failc, 0, curg⟩) hne hg
      have hnot : ∀ x, Said.late x ≠ said := fun x h => hlate x h.symm
      simp [hsaid, hfailure, hnot, missed, Misses]
    | some g =>
      rw [guess_compared hne hg]
      by_cases hhit : g = LCG k.PA k.PC k.PM curg
      · obtain ⟨hnone, hlate⟩ := failures_passed k failc (LCG k.PA k.PC k.PM curg) lines
        simp only [hhit, ne_eq, not_true_eq_false, if_false, if_true]
        refine ⟨by simpa [Said.failure, missed, Misses] using hnone, fun x hx => ?_⟩
        obtain ⟨hge, rfl⟩ := hlate x (by simpa using hx)
        right
        rw [ahead_LCG, show failc = 10 by omega]
      · by_cases hlt : failc < 10
        · have hmiss : Misses (ahead k curg 0) (some g) := ⟨g, rfl, hhit⟩
          obtain ⟨hrest, hlate⟩ := ih hlt (LCG k.PA k.PC k.PM curg)
          have hcount : min (10 - failc) (missed (ahead k curg) (some g :: guesses lines)) =
              min (10 - (failc + 1)) (missed (ahead k (LCG k.PA k.PC k.PM curg)) (guesses lines)) +
                1 := by
            rw [missed, if_pos hmiss, show (fun i => ahead k curg (i + 1)) =
              ahead k (LCG k.PA k.PC k.PM curg) from rfl]
            omega
          simp only [hhit, ne_eq, not_false_eq_true, if_true, hlt, dif_pos, Nat.lt_irrefl, gt_iff_lt,
            if_false, Option.elim_some]
          refine ⟨?_, fun x hx => ?_⟩
          · rw [hcount, List.range_succ_eq_map, List.map_cons, List.map_map, hrest]
            apply congrArg (_ :: ·)
            apply List.map_congr_left
            intro i _
            exact Prod.ext (by simp only [Function.comp_apply]; omega) rfl
          · have hx' := hlate x (by simpa using hx)
            rw [ahead_LCG, ahead_LCG] at hx'
            rw [show 10 - failc = 10 - (failc + 1) + 1 by omega,
              show 11 - failc = 11 - (failc + 1) + 1 by omega]
            exact hx'
        · simp [hhit, hlt, Said.failure, show 10 - failc = 0 by omega]

/-- The wrong guesses before the first right one are answered by the numbers in their order, each
with the text of its place, and a number told too late is the eleventh or the twelfth. -/
theorem given_away (k : Params) (lines : List (List UInt8)) :
    (play k (.start k) lines).filterMap Said.failure =
        (List.range (min 10 (missed (thought k) (guesses lines)))).map (fun i => (i, thought k i)) ∧
      ∀ x, .late x ∈ play k (.start k) lines → x = thought k 10 ∨ x = thought k 11 := by
  obtain ⟨hfailures, hlate⟩ := failures_failed k (Nat.zero_le 10) k.PS lines
  refine ⟨?_, hlate⟩
  rw [Mind.start, hfailures]
  simp only [Nat.zero_add]
  rfl

end CtfChallenges.Mentalist
