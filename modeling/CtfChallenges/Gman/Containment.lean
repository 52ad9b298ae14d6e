import CtfChallenges.Gman.Replay

/-!
# Nobody leaves the floor

What holds in every game that a menu and a list of inputs lead to, as long as its level has a
board.
-/

namespace CtfChallenges.Gman
open Framework

variable {R : Type} (rng : Rand R)

/-- The machine after a password has been accepted. -/
def continued (m : Machine R) (level lives seed : UInt8) : Machine R where
  state := reset { m.state with
    level := level
    lives := lives.toInt8
    score := if level > 0 then UInt32.ofNat (10000 * (level.toNat * (level.toNat + 1)) / 2) else 0 }
  rand := rng.srand seed.toNat

theorem main_menu_cases {m m' : Machine R} {keys rest : List Key}
    (h : main_menu rng m keys = some (m', rest)) :
    m' = m ∨ ∃ level lives seed, m' = continued rng m level lives seed := by
  fun_induction main_menu rng m keys with
  | case1 => cases h
  | case2 keys =>
    cases h
    exact .inl rfl
  | case3 keys m₁ rest₁ hget =>
    cases h
    rw [get_password] at hget
    cases hread : read_password keys with
    | accepted level lives seed rest' =>
      simp only [hread, Option.some.injEq, Prod.mk.injEq] at hget
      exact .inr ⟨level, lives, seed, hget.1.symm⟩
    | refused rest' => simp [hread] at hget
    | waiting => simp [hread] at hget
  | case4 keys rest₁ hget ih => exact ih h
  | case5 => cases h
  | case6 key keys _ _ ih => exact ih h

theorem start_inPlace {memory : State} {time : Nat} {keys rest : List Key} {m : Machine R}
    (h : start rng memory time keys = some (m, rest)) : InPlace m.state := by
  rw [start_eq] at h
  obtain ⟨m₀, hnew, hmenu⟩ := Option.bind_eq_some_iff.mp h
  obtain ⟨-, -, -, hplace⟩ := new_game_unplayed rng hnew
  obtain rfl | ⟨level, lives, seed, rfl⟩ := main_menu_cases rng hmenu
  · exact hplace
  · exact reset_inPlace hplace.boards

theorem play_inPlace {m m' : Machine R} {input : Input} (h : InPlace m.state)
    (hplay : play rng m input = some m') : InPlace m'.state := by
  obtain ⟨-, -, s, result, t, r, hplayed, -, rfl⟩ := play_cases rng h hplay
  exact settle_inPlace rng hplayed.ticked.inPlace

theorem running_inPlace (g : Running rng) : InPlace g.machine.state := by
  obtain ⟨memory, time, keys, m, rest, inputs, hstart, hrun⟩ := g.reached
  have hstep : ∀ (m : Machine R) (input : Input) (m' : Machine R), InPlace m.state →
      play rng m input = some m' → InPlace m'.state := fun _ _ _ => play_inPlace rng
  exact run_invariant hstep inputs (start_inPlace rng hstart) hrun

/-- Gman and the ghosts are on cells of the current board that are not walls, and no board has a
pellet on a wall. -/
def Contained (s : State) : Prop :=
  ∃ board, current_board s = some board ∧
    (OnBoard s.x.toNat s.y.toNat ∧ get_bit board.walls s.x.toNat s.y.toNat = some false) ∧
    (∀ i : Fin GHOST_COUNT, OnBoard (s.ghosts.get i).x.toNat (s.ghosts.get i).y.toNat ∧
      get_bit board.walls (s.ghosts.get i).x.toNat (s.ghosts.get i).y.toNat = some false) ∧
    ∀ (l : Fin MAX_LEVELS) (x y : Nat), OnBoard x y →
      get_bit (s.boards.get l).pellets x y = some true →
        get_bit (s.boards.get l).walls x y = some false

theorem InPlace.contained {s : State} (h : InPlace s) (hl : s.level.toNat < MAX_LEVELS) :
    Contained s := by
  have hwalls := (h.boards ⟨s.level.toNat, hl⟩).walls
  refine ⟨_, current_board_get hl, ⟨h.gman.1, ?_⟩, fun i => ⟨(h.ghosts i).1, ?_⟩, ?_⟩
  · rw [hwalls _ _ h.gman.1]
    exact congrArg (fun v => some (!v)) h.gman.2
  · rw [hwalls _ _ (h.ghosts i).1]
    exact congrArg (fun v => some (!v)) (h.ghosts i).2
  · intro l x y hxy hpellet
    rw [(h.boards l).walls x y hxy, (h.boards l).pellets x y hxy hpellet]
    rfl

theorem draw_board_spec {s : State} (hl : s.level.toNat < MAX_LEVELS) :
    ∃ glyphs, draw_board s = some glyphs := by
  simp only [draw_board, current_board_get hl, Option.bind_eq_bind, Option.bind_some]
  apply mapM_isSome
  intro cell hcell
  obtain ⟨wall, hwall⟩ := Option.isSome_iff_exists.mp
    (get_bit_isSome (mem_cells.mp hcell) (s.boards.get ⟨s.level.toNat, hl⟩).walls)
  obtain ⟨dot, hdot⟩ := Option.isSome_iff_exists.mp
    (get_bit_isSome (mem_cells.mp hcell) (s.boards.get ⟨s.level.toNat, hl⟩).pellets)
  simp only [draw_cell, hwall, hdot, Option.bind_eq_bind, Option.bind_some]
  split
  · exact ⟨_, rfl⟩
  · cases wall <;> exact ⟨_, rfl⟩

/-- In every game at a level with a board, whatever is typed and drawn at random: everybody is
contained, before a pass, after the keys, after the moves and after the pass, and no bit is read
or written outside a bitmap, which would leave the board or the pass without a value. -/
theorem game_contained (g : Running rng) (hl : g.machine.state.level.toNat < MAX_LEVELS)
    (input : Input) :
    Contained g.machine.state ∧
    (∃ glyphs, draw_board g.machine.state = some glyphs) ∧
    (∃ s quit, handle_input g.machine.state input = some (s, quit) ∧ Contained s ∧
      (quit = false → ∃ result t r, tick rng s g.machine.rand = some (result, t, r) ∧
        Contained t)) ∧
    ∃ outcome m, play_round rng g.machine input = some (outcome, m) ∧
      (m.state.level.toNat < MAX_LEVELS → Contained m.state) := by
  have hplace := running_inPlace rng g
  refine ⟨hplace.contained hl, draw_board_spec hl, ?_⟩
  by_cases hq : Quits input
  · refine ⟨⟨_, _, handle_input_quits hq _, hplace.contained hl, fun h => by cases h⟩, ?_⟩
    exact ⟨_, _, play_round_quits rng hq, hplace.contained⟩
  · obtain ⟨s, result, t, r, hplayed⟩ := play_round_spec rng hplace hl hq
    have hs : Contained s := by
      have hs' := hplace.turned hplayed.turned
      obtain ⟨d, d', rfl⟩ := hplayed.turned
      exact hs'.contained hl
    have ht : Contained t := hplayed.ticked.inPlace.contained (by rw [hplayed.ticked.level]; exact hl)
    refine ⟨⟨s, false, hplayed.keys, hs, fun _ => ⟨result, t, r, hplayed.tick, ht⟩⟩, ?_⟩
    exact ⟨_, _, hplayed.round,
      (settle_inPlace rng (m := ⟨t, r⟩) hplayed.ticked.inPlace).contained⟩

/-- Gman has started to the right. -/
theorem game_contained_moved :
    ∃ g : Running Rand.zero, g.machine.state.level.toNat < MAX_LEVELS ∧ g.machine.state.x = 13 ∧
      Contained g.machine.state ∧
      ∃ outcome m, play_round Rand.zero g.machine ⟨some (.char 'a'), []⟩ = some (outcome, m) ∧
        (m.state.level.toNat < MAX_LEVELS → Contained m.state) := by
  obtain ⟨m, m', hnew, hrun, hstep⟩ := exists_new_game_moved
  let g : Running Rand.zero :=
    ⟨m', State.zero, 0, [.char '1'], m, [], rightInputs, start_new_game Rand.zero hnew [], hrun⟩
  have hl : g.machine.state.level.toNat < MAX_LEVELS := by
    change m'.state.level.toNat < MAX_LEVELS
    rw [hstep.1]
    decide
  obtain ⟨hcontained, -, -, hround⟩ := game_contained Rand.zero g hl ⟨some (.char 'a'), []⟩
  exact ⟨g, hl, hstep.2, hcontained, hround⟩

end CtfChallenges.Gman
