import CtfChallenges.Gman.Containment

/-!
# The levels that have a board

Nothing bounds the level: a password can name any level up to 255, and a win of the last one leads
to the next. The other passes stay where there is a board.
-/

namespace CtfChallenges.Gman
open Framework

variable {R : Type} (rng : Rand R)

/-- At the last level, gman is about to eat the only pellet left. -/
def WinsLast (p : Machine R × Input) : Prop :=
  p.1.state.level.toNat + 1 = MAX_LEVELS ∧ EatsLast p.1.state p.2

/-- The passes of a run start at a level with a board and do not go on after winning the last
one; at most the player quits there. -/
def LevelsInRange (passes : List (Machine R × Input)) : Prop :=
  (∀ p ∈ passes.head?, Quits p.2 ∨ p.1.state.level.toNat < MAX_LEVELS) ∧
    passes.IsChain fun p q => WinsLast p → Quits q.2

/-- `current_board`, which every pass but a quitting one evaluates, stays inside the boards, and
the pass has a value. -/
def BoardsInRange (p : Machine R × Input) : Prop :=
  (¬ Quits p.2 → p.1.state.level.toNat < MAX_LEVELS) ∧
    ∃ result, play_round rng p.1 p.2 = some result

private theorem boardsInRange_iff {m : Machine R} (h : InPlace m.state) (input : Input) :
    BoardsInRange rng (m, input) ↔ Quits input ∨ m.state.level.toNat < MAX_LEVELS := by
  constructor
  · intro hrange
    by_cases hq : Quits input
    · exact .inl hq
    · exact .inr (hrange.1 hq)
  · intro hor
    by_cases hq : Quits input
    · exact ⟨fun hn => absurd hq hn, _, play_round_quits rng hq⟩
    · have hl := hor.resolve_left hq
      obtain ⟨s, result, t, r, hplayed⟩ := play_round_spec rng h hl hq
      exact ⟨fun _ => hl, _, hplayed.round⟩

private theorem next_level_iff {m m' : Machine R} {input : Input} (h : InPlace m.state)
    (hplay : play rng m input = some m') :
    m'.state.level.toNat < MAX_LEVELS ↔ ¬ WinsLast (m, input) := by
  obtain ⟨-, hl, s, result, t, r, hplayed, -, rfl⟩ := play_cases rng h hplay
  rw [WinsLast, ← hplayed.win, settle_level, hplayed.ticked.level]
  by_cases hwin : result = .WIN
  · rw [if_pos hwin, level_succ hl]
    simp only [hwin, and_true]
    omega
  · rw [if_neg hwin]
    simp only [hwin, and_false, not_false_eq_true, iff_true]
    exact hl

private theorem boardsInRange_visited (inputs : List Input) {m : Machine R}
    (h : InPlace m.state) :
    (∀ p ∈ visited (play rng) inputs m, BoardsInRange rng p) ↔
      LevelsInRange (visited (play rng) inputs m) := by
  induction inputs generalizing m with
  | nil => simp [visited, LevelsInRange]
  | cons input inputs ih =>
    cases hplay : play rng m input with
    | none =>
      simp only [visited, hplay, Option.elim_none, List.forall_mem_singleton, LevelsInRange,
        List.head?_cons, Option.mem_some_iff, forall_eq', List.isChain_singleton, and_true]
      exact boardsInRange_iff rng h input
    | some m' =>
      have hrest := ih (play_inPlace rng h hplay)
      obtain ⟨hq, hl, -⟩ := play_cases rng h hplay
      have hnext : (∀ p ∈ (visited (play rng) inputs m').head?,
            WinsLast (m, input) → Quits p.2) ↔
          ∀ p ∈ (visited (play rng) inputs m').head?,
            Quits p.2 ∨ p.1.state.level.toNat < MAX_LEVELS := by
        apply forall₂_congr
        intro p hp
        rw [fst_of_mem_head?_visited hp, next_level_iff rng h hplay]
        tauto
      simp only [visited, hplay, Option.elim_some, List.forall_mem_cons, hrest, LevelsInRange,
        boardsInRange_iff rng h, List.head?_cons, Option.mem_some_iff, forall_eq',
        List.isChain_cons, hnext]

/-- In a game from any start, every evaluation of `current_board` is inside the boards exactly
when the level of the menu has a board and the game does not go on after a win of the last. -/
theorem boards_in_range_iff {memory : State} {time : Nat} {keys rest : List Key} {m : Machine R}
    (h : start rng memory time keys = some (m, rest)) (inputs : List Input) :
    (∀ p ∈ visited (play rng) inputs m, BoardsInRange rng p) ↔
      LevelsInRange (visited (play rng) inputs m) :=
  boardsInRange_visited rng inputs (start_inPlace rng h)

/-- The keys of a short game. -/
def shortInputs : List Input := rightInputs ++ [⟨some (.char 'a'), []⟩, ⟨some (.char 'q'), []⟩]

private theorem short_levels : ((visited (play Rand.zero) shortInputs ⟨freshStart 0 3, ()⟩).all
    fun p => p.1.state.level == 0) = true := by
  decide +kernel

/-- A new game in which gman goes right and left until the player leaves stays in range. -/
theorem boards_in_range_short :
    ∃ m, start Rand.zero State.zero 0 [.char '1'] = some (m, []) ∧
      ∀ p ∈ visited (play Rand.zero) shortInputs m, BoardsInRange Rand.zero p := by
  obtain ⟨m, hnew⟩ := exists_new_game Rand.zero State.zero 0
  have hstart := start_new_game Rand.zero hnew []
  have hlevel : ∀ p ∈ visited (play Rand.zero) shortInputs m, p.1.state.level = 0 := by
    intro p hp
    obtain ⟨u, hu, hstep⟩ := visited_rel (fun _ _ i h => play_rel Rand.zero h i)
      (new_game_inStep Rand.zero hnew) hp
    exact hstep.lock.agree.level.trans (beq_iff_eq.mp (List.all_eq_true.mp short_levels _ hu))
  refine ⟨m, hstart, (boards_in_range_iff Rand.zero hstart _).mpr ⟨?_, ?_⟩⟩
  · intro p hp
    rw [hlevel p (List.mem_of_mem_head? hp)]
    exact .inr (by decide)
  · rw [List.isChain_iff_forall_rel_of_append_cons_cons]
    intro p q before after hsplit hlast
    obtain ⟨hlast, -⟩ := hlast
    rw [hlevel p (by simp [hsplit])] at hlast
    cases hlast

/-- The cells of the grid for level 100, with 85 lives and the seed 85. -/
def cellsOfLevel100 : List Spot :=
  (triangle ++ triangle.map mirror).filter fun p =>
    [(0, 2), (0, 3), (1, 0), (5, 6), (6, 3), (6, 4)].contains (p.1.val, p.2.val)

/-- The grid is accepted, and the first pass after it has no board. -/
theorem level_100_out_of_range :
    ∃ m, start Rand.zero State.zero 0
        (.char '2' :: (cellsOfLevel100.flatMap toggleKeys ++ [.char '\n'])) = some (m, []) ∧
      ¬ ∀ p ∈ visited (play Rand.zero) [⟨none, []⟩] m, BoardsInRange Rand.zero p := by
  have htyped : typed (cellsOfLevel100.flatMap toggleKeys) = some (print_password 100 85 85) := by
    decide +kernel
  obtain ⟨s, -, hlevel, -, hstart⟩ := start_typed Rand.zero htyped State.zero 0 []
  refine ⟨_, hstart, ?_⟩
  intro hall
  have hrange := hall (_, ⟨none, []⟩) List.mem_cons_self
  have hstay : ¬ Quits ⟨none, []⟩ := by
    unfold Quits
    decide
  have hl := hrange.1 hstay
  change s.level.toNat < MAX_LEVELS at hl
  rw [hlevel] at hl
  revert hl
  decide

end CtfChallenges.Gman
