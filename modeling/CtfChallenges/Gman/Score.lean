import CtfChallenges.Gman.Containment

/-!
# What the score counts

In a new game the score is the pellets eaten and the bonuses of the levels won, and far from the
end of 32 bits.
-/

namespace CtfChallenges.Gman
open Framework

/-- The number of floor cells of a board. -/
def floor_cells (b : Nat) : Nat := cells.countP fun cell => floor b cell.1 cell.2

/-- The pellets and the bonuses of the first levels. -/
def earned : Nat → Nat
  | 0 => 0
  | l + 1 => earned l + (100 * floor_cells (l % BOARD_COUNT) + 10000 * (l + 1))

private theorem floor_cells_mod (b : Nat) : floor_cells (b % BOARD_COUNT) = floor_cells b := by
  simp only [floor_cells, floor, drawn, Nat.mod_mod]

private theorem floor_cells_le (b : Nat) : floor_cells b ≤ 567 := by
  have hlen : cells.length = 567 := by decide +kernel
  rw [← hlen]
  exact List.countP_le_length

private theorem earned_le {l : Nat} (hl : l ≤ MAX_LEVELS) : earned l ≤ l * 1056700 := by
  induction l with
  | zero => exact Nat.le_refl _
  | succ l ih =>
    have hrest := ih (by omega)
    have hcells := floor_cells_le (l % BOARD_COUNT)
    simp only [MAX_LEVELS] at hl
    rw [earned]
    omega

private theorem earned_lt {l : Nat} (hl : l < MAX_LEVELS) :
    earned l + 100 * floor_cells (l % BOARD_COUNT) + 10000 * (l + 1) < 2 ^ 32 := by
  have hle : earned (l + 1) ≤ (l + 1) * 1056700 := earned_le hl
  simp only [MAX_LEVELS] at hl
  rw [earned] at hle
  omega

theorem Pristine.pellets_left {b : Nat} {board : Board} (h : Pristine b board) :
    pellets_left board = floor_cells (b % BOARD_COUNT) := by
  rw [floor_cells_mod]
  apply List.countP_congr
  intro cell hcell
  rw [pellet, (h _ _ (mem_cells.mp hcell)).2, floor]
  simp

theorem Walled.pellets_left_le {b : Nat} {board : Board} (h : Walled b board) :
    pellets_left board ≤ floor_cells (b % BOARD_COUNT) := by
  rw [floor_cells_mod]
  apply List.countP_mono_left
  intro cell hcell hpellet
  exact h.pellets _ _ (mem_cells.mp hcell) (eq_of_beq hpellet)

/-- The score is what the levels behind gave and the pellets eaten on this one. -/
structure Accounted (s : State) : Prop where
  score : ∀ l : Fin MAX_LEVELS, s.level.toNat = l → s.score.toNat =
    earned l + 100 * (floor_cells (l % BOARD_COUNT) - pellets_left (s.boards.get l))
  ahead : ∀ l : Fin MAX_LEVELS, s.level.toNat < l → Pristine l (s.boards.get l)

private theorem toNat_add_points {score : UInt32} {n : Nat} (h : score.toNat + n < 2 ^ 32) :
    (score + UInt32.ofNat n).toNat = score.toNat + n := by
  rw [UInt32.toNat_add, UInt32.toNat_ofNat', Nat.add_mod_mod, Nat.mod_eq_of_lt h]

theorem Eats.accounted {s t : State} (h : Eats s t) (hplace : InPlace s) (hs : Accounted s)
    (hlevel : t.level = s.level) : Accounted t := by
  constructor
  · intro l hl
    rw [hlevel] at hl
    have hscore := hs.score l hl
    have hhere := h.here l hl
    have hle := (hplace.boards l).pellets_left_le
    have hlt := earned_lt l.isLt
    have hadd : t.score.toNat = s.score.toNat + 100 := by
      rw [h.score]
      exact toNat_add_points (n := 100) (by omega)
    omega
  · intro l hl
    rw [hlevel] at hl
    rw [h.elsewhere l (Nat.ne_of_lt hl)]
    exact hs.ahead l hl

theorem Ticked.accounted {s t : State} {result : RoundResult} (h : Ticked s result t)
    (hplace : InPlace s) (hs : Accounted s) : Accounted t := by
  obtain ⟨hscore, hboards, -⟩ | ⟨heats, -⟩ := h.scored
  · constructor
    · intro l hl
      rw [h.level] at hl
      rw [hscore, hboards]
      exact hs.score l hl
    · intro l hl
      rw [h.level] at hl
      rw [hboards]
      exact hs.ahead l hl
  · exact heats.accounted hplace hs h.level

variable {R : Type} (rng : Rand R)

theorem new_game_accounted {memory : State} {time : Nat} {m : Machine R}
    (h : new_game rng memory time = some m) : Accounted m.state := by
  obtain ⟨hlevel, hscore, hboards, -⟩ := new_game_unplayed rng h
  constructor
  · intro l hl
    have hzero : (l : Nat) = 0 := by rw [← hl, hlevel]; rfl
    rw [hscore, (hboards l).pellets_left, hzero, Nat.sub_self]
    rfl
  · intro l _
    exact hboards l

private theorem do_win_score {m : Machine R} {l : Fin MAX_LEVELS}
    (hl : m.state.level.toNat = l) (hs : Accounted m.state)
    (hnone : pellets_left (m.state.boards.get l) = 0) :
    (do_win rng m).2.state.score.toNat = earned (l + 1) := by
  have hlt := earned_lt l.isLt
  have hscore := hs.score l hl
  change (m.state.score + UInt32.ofNat ((m.state.level.toNat + 1) * 10000)).toNat = _
  rw [hl, toNat_add_points (by omega), hscore, hnone, earned]
  omega

theorem settle_accounted {s : State} {result : RoundResult} {m : Machine R}
    (h : Ticked s result m.state) (hl : s.level.toNat < MAX_LEVELS) (hs : Accounted m.state) :
    Accounted (settle rng result m).2.state := by
  have hlevel := settle_level rng result m
  cases result with
  | NONE => exact hs
  | DIE =>
    have hsame : (settle rng .DIE m).2.state.score = m.state.score ∧
        (settle rng .DIE m).2.state.boards = m.state.boards := by
      simp only [settle]
      split <;> exact ⟨rfl, rfl⟩
    rw [if_neg (by decide)] at hlevel
    constructor
    · rw [hlevel, hsame.1, hsame.2]
      exact hs.score
    · rw [hlevel, hsame.2]
      exact hs.ahead
  | WIN =>
    rw [if_pos rfl, h.level] at hlevel
    have hl' : m.state.level.toNat = (⟨s.level.toNat, hl⟩ : Fin MAX_LEVELS) := by rw [h.level]
    have hnone : pellets_left (m.state.boards.get ⟨s.level.toNat, hl⟩) = 0 := by
      obtain ⟨-, -, hresult⟩ | ⟨-, hwin⟩ := h.scored
      · exact absurd rfl hresult
      · exact hwin.mp rfl _ rfl
    have hscore := do_win_score rng hl' hs hnone
    have hpristine : ∀ l : Fin MAX_LEVELS, s.level.toNat < l →
        Pristine l ((settle rng .WIN m).2.state.boards.get l) := by
      intro l hlt
      apply hs.ahead
      rw [h.level]
      exact hlt
    constructor
    · intro l hnext
      rw [hlevel, level_succ hl] at hnext
      rw [(hpristine l (by omega)).pellets_left, Nat.sub_self, ← hnext]
      exact hscore
    · intro l hlt
      rw [hlevel, level_succ hl] at hlt
      exact hpristine l (by omega)

/-- A machine that passes of the main loop lead to from a new game. -/
structure NewGameRun where
  machine : Machine R
  reached : ∃ memory time m inputs,
    new_game rng memory time = some m ∧ run (play rng) inputs m = some machine

private theorem play_accounted {m m' : Machine R} {input : Input}
    (h : InPlace m.state ∧ Accounted m.state) (hplay : play rng m input = some m') :
    InPlace m'.state ∧ Accounted m'.state := by
  refine ⟨play_inPlace rng h.1 hplay, ?_⟩
  obtain ⟨-, hl, s, result, t, r, hplayed, -, rfl⟩ := play_cases rng h.1 hplay
  exact settle_accounted rng (m := ⟨t, r⟩) hplayed.ticked hl (hplayed.ticked.accounted h.1 h.2)

private theorem run_accounted (g : NewGameRun rng) :
    InPlace g.machine.state ∧ Accounted g.machine.state := by
  obtain ⟨memory, time, m, inputs, hnew, hrun⟩ := g.reached
  obtain ⟨-, -, -, hplace⟩ := new_game_unplayed rng hnew
  have hstep : ∀ (m : Machine R) (input : Input) (m' : Machine R),
      InPlace m.state ∧ Accounted m.state → play rng m input = some m' →
        InPlace m'.state ∧ Accounted m'.state := fun _ _ _ => play_accounted rng
  exact run_invariant hstep inputs ⟨hplace, new_game_accounted rng hnew⟩ hrun

/-- The pellet bits that are set on the current board. -/
def remaining (s : State) : Nat := (current_board s).elim 0 pellets_left

/-- The score is that of the levels behind and of the pellets eaten. -/
def Balanced (s : State) : Prop :=
  remaining s ≤ floor_cells (s.level.toNat % BOARD_COUNT) ∧
    s.score.toNat = earned s.level.toNat +
      100 * (floor_cells (s.level.toNat % BOARD_COUNT) - remaining s)

private theorem remaining_eq {s : State} {l : Fin MAX_LEVELS} (hl : s.level.toNat = l) :
    remaining s = pellets_left (s.boards.get l) := by
  have hlt : s.level.toNat < MAX_LEVELS := hl ▸ l.isLt
  have hsame : (⟨s.level.toNat, hlt⟩ : Fin MAX_LEVELS) = l := Fin.ext hl
  rw [remaining, current_board_get hlt, hsame]
  rfl

theorem Accounted.balanced {s : State} (h : Accounted s) (hplace : InPlace s)
    (hl : s.level.toNat < MAX_LEVELS) : Balanced s := by
  rw [Balanced, remaining_eq (l := ⟨s.level.toNat, hl⟩) rfl]
  exact ⟨(hplace.boards ⟨s.level.toNat, hl⟩).pellets_left_le, h.score ⟨s.level.toNat, hl⟩ rfl⟩

private theorem Ticked.win_iff {s t : State} {result : RoundResult} (h : Ticked s result t)
    (hl : s.level.toNat < MAX_LEVELS) :
    result = .WIN ↔ 0 < remaining s ∧ remaining t = 0 := by
  have hlevel : t.level.toNat = (⟨s.level.toNat, hl⟩ : Fin MAX_LEVELS) := by rw [h.level]
  rw [remaining_eq (s := s) (l := ⟨s.level.toNat, hl⟩) rfl, remaining_eq hlevel]
  obtain ⟨-, hboards, hresult⟩ | ⟨heats, hwin⟩ := h.scored
  · rw [hboards]
    constructor
    · intro heq
      exact absurd heq hresult
    · intro hboth
      omega
  · have hhere := heats.here ⟨s.level.toNat, hl⟩ rfl
    rw [hwin]
    constructor
    · intro hzero
      exact ⟨by omega, hzero _ rfl⟩
    · intro hboth l hsame
      rw [show l = ⟨s.level.toNat, hl⟩ from Fin.ext hsame.symm]
      exact hboth.2

/-- In every game from "New game", at a level with a board: the score is balanced before a pass and
after its moves; the moves win exactly when the last pellet is eaten; a win then adds the bonus in
full, and a death or an ordinary pass changes neither the score nor a board. -/
theorem score_balanced (g : NewGameRun rng) (hl : g.machine.state.level.toNat < MAX_LEVELS)
    (input : Input) :
    Balanced g.machine.state ∧
    (Quits input ∨ ∃ s result t r outcome m,
      handle_input g.machine.state input = some (s, false) ∧
      tick rng s g.machine.rand = some (result, t, r) ∧
      play_round rng g.machine input = some (outcome, m) ∧
      Balanced t ∧
      (result = .WIN ↔ 0 < remaining s ∧ remaining t = 0) ∧
      (result = .WIN →
        m.state.score.toNat = t.score.toNat + 10000 * (g.machine.state.level.toNat + 1)) ∧
      (result ≠ .WIN → m.state.score = t.score ∧ m.state.boards = t.boards)) := by
  obtain ⟨hplace, haccount⟩ := run_accounted rng g
  refine ⟨haccount.balanced hplace hl, ?_⟩
  by_cases hq : Quits input
  · exact .inl hq
  · obtain ⟨s, result, t, r, hinput, hturned, htick, hticked, -, hround⟩ :=
      play_round_spec rng hplace hl hq
    have hl' : t.level.toNat < MAX_LEVELS := by rw [hticked.level]; exact hl
    have haccount' := hticked.accounted hplace haccount
    have hbalanced := haccount'.balanced hticked.inPlace hl'
    refine .inr ⟨s, result, t, r, _, _, hinput, htick, hround, hbalanced, ?_, ?_, ?_⟩
    · have hwin := hticked.win_iff hl
      obtain ⟨d, d', rfl⟩ := hturned
      exact hwin
    · intro hwin
      subst hwin
      have hnone : remaining t = 0 := ((hticked.win_iff hl).mp rfl).2
      have hlevel : t.level.toNat = (⟨g.machine.state.level.toNat, hl⟩ : Fin MAX_LEVELS) := by
        rw [hticked.level]
      rw [remaining_eq hlevel] at hnone
      have hscore := do_win_score rng (m := ⟨t, r⟩) hlevel haccount' hnone
      have hold := haccount'.score _ hlevel
      rw [hnone] at hold
      change (do_win rng ⟨t, r⟩).2.state.score.toNat = _
      rw [hscore, hold]
      dsimp only [earned]
      omega
    · intro hlost
      cases result with
      | NONE => exact ⟨rfl, rfl⟩
      | WIN => exact absurd rfl hlost
      | DIE =>
        simp only
        split <;> exact ⟨rfl, rfl⟩

/-- After two steps of a new game. -/
theorem score_balanced_moved :
    ∃ g : NewGameRun Rand.zero, g.machine.state.level.toNat < MAX_LEVELS ∧
      g.machine.state.x = 13 ∧ Balanced g.machine.state := by
  obtain ⟨m, m', hnew, hrun, hlevel, hx⟩ := exists_new_game_moved
  let g : NewGameRun Rand.zero := ⟨m', State.zero, 0, m, rightInputs, hnew, hrun⟩
  have hl : g.machine.state.level.toNat < MAX_LEVELS := by
    change m'.state.level.toNat < MAX_LEVELS
    rw [hlevel]
    decide
  exact ⟨g, hl, hx, (score_balanced Rand.zero g hl ⟨none, []⟩).1⟩

end CtfChallenges.Gman
