import CtfChallenges.Gman.Containment

/-!
# Lives

A death takes one life, in eight bits with a sign, and the game is over when none is left below
zero. The password sets the byte, and the least value of it has nothing below.
-/

namespace CtfChallenges.Gman
open Framework

/-- The least number of lives. -/
def leastLives : Int8 := -128

private theorem toInt_pred {lives : Int8} (h : lives ≠ leastLives) :
    (lives - 1).toInt = lives.toInt - 1 := by
  have hlow := lives.minValue_le_toInt
  have hhigh := lives.toInt_le
  have hne : lives.toInt ≠ -128 := fun heq => h (Int8.toInt_inj.mp heq)
  have hmin : Int8.minValue.toInt = -128 := rfl
  have hmax : Int8.maxValue.toInt = 127 := rfl
  have hone : (1 : Int8).toInt = 1 := rfl
  rw [Int8.toInt_sub, hone]
  apply Int.bmod_eq_of_le
  · omega
  · omega

def Outcome.dies : Outcome → Bool
  | .die _ | .over => true
  | _ => false

variable {R : Type} (rng : Rand R)

/-- What a pass does to the lives. -/
structure Spent (outcome : Outcome) (lives lives' : Int8) : Prop where
  alive : outcome.dies = false → lives' = lives
  dead : outcome.dies = true → lives' = lives - 1
  goesOn : outcome.dies = true → outcome.final = false → 0 ≤ lives'.toInt

private theorem spent_alive {outcome : Outcome} (h : outcome.dies = false) (lives : Int8) :
    Spent outcome lives lives where
  alive _ := rfl
  dead hdies := absurd (h.symm.trans hdies) Bool.false_ne_true
  goesOn hdies := absurd (h.symm.trans hdies) Bool.false_ne_true

private theorem spent_dead {outcome : Outcome} (h : outcome.dies = true) {lives : Int8}
    (hgo : outcome.final = false → 0 ≤ (lives - 1).toInt) : Spent outcome lives (lives - 1) where
  alive halive := absurd (halive.symm.trans h) Bool.false_ne_true
  dead _ := rfl
  goesOn _ := hgo

private theorem settle_spent (result : RoundResult) (m : Machine R) :
    Spent (settle rng result m).1 m.state.lives (settle rng result m).2.state.lives := by
  cases result with
  | NONE => exact spent_alive rfl _
  | WIN => exact spent_alive rfl _
  | DIE =>
    rw [settle]
    by_cases hlives : m.state.lives - 1 < 0
    · rw [if_pos hlives]
      exact spent_dead rfl fun hfinal => absurd hfinal.symm Bool.false_ne_true
    · rw [if_neg hlives]
      rw [Int8.lt_iff_toInt_lt, not_lt] at hlives
      exact spent_dead rfl fun _ => hlives

theorem play_round_spent {m m' : Machine R} {input : Input} {outcome : Outcome}
    (h : InPlace m.state) (hround : play_round rng m input = some (outcome, m')) :
    Spent outcome m.state.lives m'.state.lives := by
  by_cases hq : Quits input
  · rw [play_round_quits rng hq] at hround
    cases hround
    exact ⟨fun _ => rfl, nofun, nofun⟩
  · by_cases hl : m.state.level.toNat < MAX_LEVELS
    · obtain ⟨s, result, t, r, hplayed⟩ := play_round_spec rng h hl hq
      rw [hplayed.round, Option.some.injEq] at hround
      have hspent := settle_spent rng result ⟨t, r⟩
      rw [hround] at hspent
      dsimp only at hspent
      rw [hplayed.ticked.lives] at hspent
      exact hspent
    · rw [play_round_beyond rng (Nat.le_of_not_lt hl) hq] at hround
      cases hround

/-- The pass is a death, the last one or not. -/
def dies (p : Machine R × Input) : Bool := (play_round rng p.1 p.2).any fun q => q.1.dies

def deaths (passes : List (Machine R × Input)) : Nat := passes.countP (dies rng)

/-- No pass adds a life, and the game is over after one death more than there are lives. -/
structure LivesHeld (m : Machine R) (inputs : List Input) : Prop where
  falls : ∀ p ∈ visited (play rng) inputs m, ∀ outcome m',
    play_round rng p.1 p.2 = some (outcome, m') → m'.state.lives ≤ p.1.state.lives
  bounded : (deaths rng (visited (play rng) inputs m) : Int) ≤ max m.state.lives.toInt 0 + 1
  goesOn : ∀ m', run (play rng) inputs m = some m' →
    (deaths rng (visited (play rng) inputs m) : Int) < max m.state.lives.toInt 0 + 1

private theorem dies_eq {m m' : Machine R} {input : Input} {outcome : Outcome}
    (hround : play_round rng m input = some (outcome, m')) :
    dies rng (m, input) = outcome.dies := by
  simp only [dies, hround, Option.any_some]

private theorem visited_play {m m' : Machine R} {input : Input} (inputs : List Input)
    {outcome : Outcome} (hround : play_round rng m input = some (outcome, m'))
    (hgo : outcome.final = false) :
    play rng m input = some m' ∧
      visited (play rng) (input :: inputs) m = (m, input) :: visited (play rng) inputs m' := by
  have hplay : play rng m input = some m' := by
    simp only [play, hround, Option.bind_eq_bind, Option.bind_some, hgo]
    rfl
  refine ⟨hplay, ?_⟩
  rw [visited, hplay, Option.elim_some]

private theorem visited_last {m : Machine R} {input : Input} (inputs : List Input)
    (hlast : ∀ outcome m', play_round rng m input = some (outcome, m') → outcome.final = true) :
    play rng m input = none ∧ visited (play rng) (input :: inputs) m = [(m, input)] := by
  have hplay : play rng m input = none := by
    cases hround : play_round rng m input with
    | none => simp only [play, hround, Option.bind_eq_bind, Option.bind_none]
    | some q =>
      obtain ⟨outcome, m'⟩ := q
      simp only [play, hround, Option.bind_eq_bind, Option.bind_some, hlast _ _ hround, if_true]
  refine ⟨hplay, ?_⟩
  rw [visited, hplay, Option.elim_none]

private theorem play_round_cases (m : Machine R) (input : Input) :
    (∃ outcome m', play_round rng m input = some (outcome, m') ∧ outcome.final = false) ∨
      ∀ outcome m', play_round rng m input = some (outcome, m') → outcome.final = true := by
  cases hround : play_round rng m input with
  | none => exact .inr nofun
  | some q =>
    obtain ⟨outcome, m'⟩ := q
    cases hfinal : outcome.final with
    | false => exact .inl ⟨outcome, m', rfl, hfinal⟩
    | true =>
      refine .inr ?_
      rintro _ _ ⟨⟩
      exact hfinal

private theorem falls_of_ne {outcome : Outcome} {lives lives' : Int8}
    (h : Spent outcome lives lives') (hne : lives ≠ leastLives) :
    lives'.toInt = lives.toInt - (if outcome.dies then 1 else 0) := by
  cases hdies : outcome.dies with
  | false =>
    rw [h.alive hdies]
    exact (Int.sub_zero _).symm
  | true =>
    rw [h.dead hdies]
    exact toInt_pred hne

private theorem room_of_ne {outcome : Outcome} {lives lives' : Int8}
    (h : Spent outcome lives lives') (hne : lives ≠ leastLives) (hgo : outcome.final = false) :
    lives' ≠ leastLives ∧
      max lives'.toInt 0 + (if outcome.dies then 1 else 0) ≤ max lives.toInt 0 := by
  have hlives := falls_of_ne h hne
  cases hdies : outcome.dies with
  | false =>
    rw [h.alive hdies]
    exact ⟨hne, (Int.add_zero _).le⟩
  | true =>
    have hlow := h.goesOn hdies hgo
    rw [hdies, if_pos rfl] at hlives
    refine ⟨?_, ?_⟩
    · rintro rfl
      revert hlow
      decide
    · rw [if_pos rfl]
      omega

private theorem le_of_ne {m m' : Machine R} {input : Input} {outcome : Outcome}
    (h : InPlace m.state) (hne : m.state.lives ≠ leastLives)
    (hround : play_round rng m input = some (outcome, m')) : m'.state.lives ≤ m.state.lives := by
  have hlives := falls_of_ne (play_round_spent rng h hround) hne
  rw [Int8.le_iff_toInt_le]
  split at hlives <;> omega

private theorem livesHeld_of_ne (inputs : List Input) {m : Machine R} (h : InPlace m.state)
    (hne : m.state.lives ≠ leastLives) : LivesHeld rng m inputs := by
  induction inputs generalizing m with
  | nil =>
    refine ⟨by simp [visited], ?_, fun _ _ => ?_⟩
    · simp only [visited, deaths, List.countP_nil]
      omega
    · simp only [visited, deaths, List.countP_nil]
      omega
  | cons input inputs ih =>
    obtain ⟨outcome, m', hround, hgo⟩ | hlast := play_round_cases rng m input
    · obtain ⟨hplay, hvisited⟩ := visited_play rng inputs hround hgo
      obtain ⟨hne', hroom⟩ := room_of_ne (play_round_spent rng h hround) hne hgo
      have hrest := ih (play_inPlace rng h hplay) hne'
      have hcount : (deaths rng (visited (play rng) (input :: inputs) m) : Int) =
          deaths rng (visited (play rng) inputs m') + if outcome.dies then 1 else 0 := by
        rw [hvisited, deaths, List.countP_cons, dies_eq rng hround]
        push_cast
        rfl
      refine ⟨?_, ?_, ?_⟩
      · rw [hvisited, List.forall_mem_cons]
        exact ⟨fun _ _ => le_of_ne rng h hne, hrest.falls⟩
      · have hbounded := hrest.bounded
        omega
      · intro m'' hrun
        rw [run_cons, hplay, Option.bind_some] at hrun
        have hover := hrest.goesOn m'' hrun
        omega
    · obtain ⟨hplay, hvisited⟩ := visited_last rng inputs hlast
      refine ⟨?_, ?_, ?_⟩
      · rw [hvisited, List.forall_mem_singleton]
        exact fun _ _ => le_of_ne rng h hne
      · have hone : deaths rng (visited (play rng) (input :: inputs) m) ≤ 1 := by
          rw [hvisited]
          exact List.countP_le_length
        omega
      · intro m'' hrun
        rw [run_cons, hplay] at hrun
        cases hrun

private theorem livesHeld_least_iff (inputs : List Input) {m : Machine R} (h : InPlace m.state)
    (hleast : m.state.lives = leastLives) :
    LivesHeld rng m inputs ↔ ∀ p ∈ visited (play rng) inputs m, dies rng p = false := by
  have hwraps : ¬ leastLives - 1 ≤ leastLives := by decide
  constructor
  · intro hheld
    have hfalls := hheld.falls
    clear hheld
    induction inputs generalizing m with
    | nil => simp [visited]
    | cons input inputs ih =>
      have halive : ∀ outcome m', play_round rng m input = some (outcome, m') →
          outcome.dies = false := by
        intro outcome m' hround
        by_contra hdies
        have hle := hfalls (m, input) List.mem_cons_self outcome m' hround
        rw [(play_round_spent rng h hround).dead (Bool.eq_true_of_not_eq_false hdies),
          hleast] at hle
        exact hwraps hle
      obtain ⟨outcome, m', hround, hgo⟩ | hlast := play_round_cases rng m input
      · obtain ⟨hplay, hvisited⟩ := visited_play rng inputs hround hgo
        rw [hvisited, List.forall_mem_cons] at hfalls ⊢
        have hlives := (play_round_spent rng h hround).alive (halive _ _ hround)
        refine ⟨?_, ih (play_inPlace rng h hplay) (hlives.trans hleast) hfalls.2⟩
        rw [dies_eq rng hround, halive _ _ hround]
      · obtain ⟨-, hvisited⟩ := visited_last rng inputs hlast
        rw [hvisited, List.forall_mem_singleton]
        cases hround : play_round rng m input with
        | none => simp only [dies, hround, Option.any_none]
        | some q => rw [dies_eq rng hround, halive _ _ hround]
  · intro halive
    have hzero : deaths rng (visited (play rng) inputs m) = 0 := by
      rw [deaths, List.countP_eq_zero]
      intro p hp
      rw [halive p hp]
      decide
    refine ⟨?_, ?_, fun _ _ => ?_⟩
    · intro p hp outcome m' hround
      obtain ⟨js, -, hrun⟩ := exists_prefix_of_mem_visited hp
      have hstep : ∀ (m : Machine R) (input : Input) (m' : Machine R), InPlace m.state →
          play rng m input = some m' → InPlace m'.state := fun _ _ _ => play_inPlace rng
      have hplace := run_invariant hstep js h hrun
      have hlives := (play_round_spent rng hplace hround).alive
        ((dies_eq rng hround).symm.trans (halive p hp))
      rw [hlives]
      exact Int8.le_refl _
    · omega
    · omega

/-- From any point of any game: no pass adds a life and the game ends in time, exactly when the
lives are not the least value of the byte or nobody dies. -/
theorem lives_held_iff (g : Running rng) (inputs : List Input) :
    LivesHeld rng g.machine inputs ↔
      g.machine.state.lives ≠ leastLives ∨
        ∀ p ∈ visited (play rng) inputs g.machine, dies rng p = false := by
  have hplace := running_inPlace rng g
  by_cases hleast : g.machine.state.lives = leastLives
  · rw [livesHeld_least_iff rng inputs hplace hleast]
    simp [hleast]
  · simp [hleast, livesHeld_of_ne rng inputs hplace hleast]

/-- The last ghost goes to where gman waits; the others stay. -/
def meetingDraws : List Nat :=
  [99, 99, 99, 0, 99, 0, 99, 99, 99, 99, 99, 99, 0, 0, 0, 99, 99, 99, 99, 99, 99, 0, 99, 0,
    99, 99, 99, 0, 0, 0, 99, 99, 99]

/-- Gman goes left and then up. -/
def meetingInputs : List Input :=
  [⟨some (.char 'a'), []⟩, ⟨none, []⟩, ⟨some (.char 'w'), []⟩, ⟨none, []⟩, ⟨none, []⟩, ⟨none, []⟩]

private theorem meeting_run : ((run (play (Rand.script meetingDraws)) meetingInputs
    ⟨freshStart 99 (UInt8.toInt8 128), meetingDraws⟩).any fun m => m.state.lives == -128 &&
      (play_round (Rand.script meetingDraws) m ⟨none, []⟩).any fun q =>
        q.2.state.lives == 127) = true := by
  decide +kernel

/-- The byte of the password can be the least one, and then a death adds lives. -/
theorem death_adds_lives : ¬ ∀ (g : Running (Rand.script meetingDraws)) (inputs : List Input),
    LivesHeld (Rand.script meetingDraws) g.machine inputs := by
  intro hheld
  obtain ⟨m, hrun, hm⟩ := (Option.any_eq_true _ _).mp meeting_run
  rw [Bool.and_eq_true, beq_iff_eq, Option.any_eq_true] at hm
  obtain ⟨hlives, ⟨outcome, n⟩, hround, hn⟩ := hm
  rw [beq_iff_eq] at hn
  obtain ⟨g, hstep⟩ := exists_running (Rand.script meetingDraws) 99 128 0 hrun
  have hrel := play_round_rel (Rand.script meetingDraws) hstep ⟨none, []⟩
  rw [hround] at hrel
  generalize hreal : play_round (Rand.script meetingDraws) g.machine ⟨none, []⟩ = p at hrel
  cases hrel with
  | @some p _ hp =>
    have hfalls := (hheld g [⟨none, []⟩]).falls _ List.mem_cons_self p.1 p.2 hreal
    rw [hp.2.lock.agree.lives, hn, hstep.lock.agree.lives, hlives] at hfalls
    exact absurd hfalls (by decide)

end CtfChallenges.Gman
