import CtfChallenges.Gman.Codec
import CtfChallenges.Gman.Lockstep

/-!
# Passwords restore the game

The password shown after a level takes a new process to the same game: only the score and the
boards of the levels behind can differ, and no later input tells the two games apart.
-/

namespace CtfChallenges.Gman
open Framework

variable {R : Type} (rng : Rand R)

/-- Two machines in lockstep. -/
structure InStep (m m' : Machine R) : Prop where
  lock : Lock m.state m'.state
  rand : m.rand = m'.rand

theorem get_reset_ghosts (s : State) (i : Fin GHOST_COUNT) :
    (reset s).ghosts.get i =
      { x := UInt8.ofNat (GHOST_START_X + i % 2)
        y := UInt8.ofNat (GHOST_START_Y + i / 2)
        direction := .NONE } := by
  change (reset_ghosts s).ghosts[i.val] = _
  simp only [reset_ghosts, Vector.getElem_ofFn]

private theorem reset_onBoard (s : State) :
    OnBoard (reset s).x.toNat (reset s).y.toNat ∧
      ∀ i : Fin GHOST_COUNT,
        OnBoard ((reset s).ghosts.get i).x.toNat ((reset s).ghosts.get i).y.toNat := by
  have hstart : START_X.toNat < COLS ∧ START_Y.toNat < ROWS := by decide
  refine ⟨hstart, ?_⟩
  intro i
  have hi : (i : Nat) < 4 := i.isLt
  simp only [get_reset_ghosts, OnBoard, COLS, ROWS, GHOST_START_X, GHOST_START_Y,
    UInt8.toNat_ofNat']
  omega

theorem Lock.reset {s t : State} (h : Lock s t) : Lock (Gman.reset s) (Gman.reset t) := by
  obtain ⟨hgman, hghosts⟩ := reset_onBoard s
  exact ⟨⟨h.agree.lives, h.agree.level, rfl, rfl, rfl, rfl, rfl, h.agree.boards⟩,
    ⟨hgman, hghosts, h.inv.ahead⟩⟩

theorem show_password_rel {m n : Machine R} (h : InStep m n) :
    (show_password rng m).1 = (show_password rng n).1 ∧
      InStep (show_password rng m).2 (show_password rng n).2 := by
  simp only [show_password, h.rand, h.lock.agree.level, h.lock.agree.lives, true_and]
  exact ⟨h.lock, rfl⟩

theorem level_succ {s : State} (h : s.level.toNat < MAX_LEVELS) :
    (s.level + 1).toNat = s.level.toNat + 1 := by
  simp only [MAX_LEVELS] at h
  rw [UInt8.toNat_add]
  simp only [UInt8.reduceToNat]
  omega

private theorem LockIn.next_level {s t : State} (h : LockIn s t) (a b : UInt32) :
    Lock { s with score := a, level := s.level + 1 } { t with score := b, level := t.level + 1 } := by
  have hsucc := level_succ h.level_lt
  refine ⟨{ h.agree with level := by rw [h.agree.level], boards := ?_ },
    { h.inv with ahead := ?_ }⟩
  · intro l hl
    exact h.agree.boards l (by simp only [hsucc] at hl; omega)
  · intro l hl
    exact h.inv.ahead l (by simp only [hsucc] at hl; omega)

theorem do_win_rel {m n : Machine R} (h : LockIn m.state n.state) (hrand : m.rand = n.rand) :
    (do_win rng m).1 = (do_win rng n).1 ∧ InStep (do_win rng m).2 (do_win rng n).2 := by
  obtain ⟨hgrid, hstep⟩ := show_password_rel rng
    (m := { m with state := { m.state with
      score := m.state.score + UInt32.ofNat ((m.state.level.toNat + 1) * 10000)
      level := m.state.level + 1 } })
    (n := { n with state := { n.state with
      score := n.state.score + UInt32.ofNat ((n.state.level.toNat + 1) * 10000)
      level := n.state.level + 1 } })
    ⟨h.next_level _ _, hrand⟩
  exact ⟨hgrid, hstep.lock.reset, hstep.rand⟩

/-- One pass of the main loop keeps two games in lockstep. -/
theorem play_round_rel {m m' : Machine R} (h : InStep m m') (input : Input) :
    Option.Rel (fun p q => p.1 = q.1 ∧ InStep p.2 q.2) (play_round rng m input)
      (play_round rng m' input) := by
  simp only [play_round, Option.bind_eq_bind, ← h.rand]
  apply rel_bind (handle_input_rel h.lock input)
  rintro ⟨s, quit⟩ ⟨t, _⟩ ⟨hlock, rfl⟩
  cases quit with
  | true => exact .some ⟨rfl, hlock, rfl⟩
  | false =>
    apply rel_bind (tick_rel rng hlock m.rand)
    rintro ⟨result, s, r⟩ ⟨_, t, _⟩ ⟨rfl, hin, rfl⟩
    change LockIn s t at hin
    cases result with
    | NONE => exact .some ⟨rfl, hin.toLock, rfl⟩
    | WIN =>
      obtain ⟨hgrid, hstep⟩ := do_win_rel rng (m := ⟨s, r⟩) (n := ⟨t, r⟩) hin rfl
      exact .some ⟨congrArg Outcome.win hgrid, hstep⟩
    | DIE =>
      have hlives : Lock { s with lives := s.lives - 1 } { t with lives := s.lives - 1 } :=
        ⟨{ hin.agree with lives := rfl }, { hin.inv with }⟩
      simp only [← hin.agree.lives]
      split
      · exact .some ⟨rfl, hlives, rfl⟩
      · obtain ⟨hgrid, hstep⟩ := show_password_rel rng
          (m := ⟨{ s with lives := s.lives - 1 }, r⟩) (n := ⟨{ t with lives := s.lives - 1 }, r⟩)
          ⟨hlives, rfl⟩
        exact .some ⟨congrArg Outcome.die hgrid, hstep.lock.reset, hstep.rand⟩

/-- No pellet of any level has been eaten. -/
def Unplayed (s : State) : Prop := ∀ l : Fin MAX_LEVELS, Pristine l (s.boards.get l)

private theorem reset_inv {s : State} (h : Unplayed s) : Inv (reset s) := by
  obtain ⟨hgman, hghosts⟩ := reset_onBoard s
  exact ⟨hgman, hghosts, fun l _ => h l⟩

private theorem get_password_inv {m m' : Machine R} {keys rest : List Key}
    (h : get_password rng m keys = some (some m', rest)) (hboards : Unplayed m.state) :
    Unplayed m'.state ∧ Inv m'.state := by
  rw [get_password] at h
  cases hread : read_password keys with
  | accepted level lives seed rest' =>
    simp only [hread, Option.some.injEq, Prod.mk.injEq] at h
    obtain ⟨rfl, -⟩ := h
    exact ⟨hboards, reset_inv hboards⟩
  | refused rest' => simp [hread] at h
  | waiting => simp [hread] at h

private theorem main_menu_inv {m m' : Machine R} {keys rest : List Key}
    (h : main_menu rng m keys = some (m', rest)) (hboards : Unplayed m.state)
    (hinv : Inv m.state) : Unplayed m'.state ∧ Inv m'.state := by
  fun_induction main_menu rng m keys with
  | case1 => cases h
  | case2 keys =>
    cases h
    exact ⟨hboards, hinv⟩
  | case3 keys m₁ rest₁ hget =>
    cases h
    exact get_password_inv rng hget hboards
  | case4 keys rest₁ hget ih => exact ih h
  | case5 => cases h
  | case6 key keys _ _ ih => exact ih h

theorem start_inv {memory : State} {time : Nat} {keys rest : List Key} {m : Machine R}
    (h : start rng memory time keys = some (m, rest)) : Unplayed m.state ∧ Inv m.state := by
  obtain ⟨boards, hinit, hboards⟩ := initialize_boards_pristine memory.boards
  simp only [start, hinit, Option.bind_eq_bind, Option.bind_some] at h
  exact main_menu_inv rng h hboards (reset_inv hboards)

theorem InStep.refl {m : Machine R} (h : Inv m.state) : InStep m m :=
  ⟨⟨Agree.refl m.state, h⟩, rfl⟩

private theorem play_inv {m m' : Machine R} {input : Input} (h : Inv m.state)
    (hplay : play rng m input = some m') : Inv m'.state := by
  simp only [play, Option.bind_eq_bind, Option.bind_eq_some_iff] at hplay
  obtain ⟨⟨outcome, m₁⟩, hround, hfinal⟩ := hplay
  have hstep := rel_self (play_round_rel rng (InStep.refl h) input) hround
  split at hfinal
  · cases hfinal
  · cases hfinal
    exact hstep.2.lock.inv

/-- Whatever keys were pressed, the boards ahead are still as they were drawn. -/
theorem running_inv (g : Running rng) : Inv g.machine.state := by
  obtain ⟨memory, time, keys, m, rest, inputs, hstart, hrun⟩ := g.reached
  have hstep (m : Machine R) (input : Input) (m' : Machine R) (h : Inv m.state)
      (hplay : play rng m input = some m') : Inv m'.state := play_inv rng h hplay
  have hinv := run_invariant hstep inputs (start_inv rng hstart).2 hrun
  exact hinv

/-- What the player sees move. -/
structure View where
  x : UInt8
  y : UInt8
  direction : Direction
  next_direction : Direction
  ghosts : Vector Ghost GHOST_COUNT
  lives : Int8
  level : UInt8

def Machine.view (m : Machine R) : View where
  x := m.state.x
  y := m.state.y
  direction := m.state.direction
  next_direction := m.state.next_direction
  ghosts := m.state.ghosts
  lives := m.state.lives
  level := m.state.level

private theorem view_eq {m m' : Machine R} (h : InStep m m') : m.view = m'.view := by
  obtain ⟨⟨h, -⟩, -⟩ := h
  simp only [Machine.view, h.x, h.y, h.direction, h.next_direction, h.ghosts, h.lives, h.level]

/-- The grid can be typed, and typing it into a new process gives a machine that agrees with `m`
and plays the same game on all later inputs. -/
def Restores (grid : Grid) (m : Machine R) : Prop :=
  (∃ keys, typed keys = some grid) ∧
    ∀ keys, typed keys = some grid → ∀ memory time rest, ∃ m',
      start rng memory time (.char '2' :: (keys ++ .char '\n' :: rest)) = some (m', rest) ∧
        Agree m.state m'.state ∧ m.rand = m'.rand ∧
          ∀ inputs, trace (play_round rng) Outcome.final Machine.view inputs m =
            trace (play_round rng) Outcome.final Machine.view inputs m'

/-- A new process that reads a grid starts where the grid says. -/
theorem start_typed {keys : List Key} {level lives seed : UInt8}
    (h : typed keys = some (print_password level lives seed)) (memory : State) (time : Nat)
    (rest : List Key) :
    ∃ s : State, Unplayed s ∧ s.level = level ∧ s.lives = lives.toInt8 ∧
      start rng memory time (.char '2' :: (keys ++ .char '\n' :: rest)) =
        some ({ state := reset s, rand := rng.srand seed.toNat }, rest) := by
  obtain ⟨boards, hinit, hboards⟩ := initialize_boards_pristine memory.boards
  have hread := read_password_typed h (validate_print_password level lives seed) rest
  refine ⟨{ reset { memory with boards := boards, score := 0, lives := 3, level := 0 } with
      level := level
      lives := lives.toInt8
      score :=
        if level > 0 then UInt32.ofNat (10000 * (level.toNat * (level.toNat + 1)) / 2) else 0 },
    hboards, rfl, rfl, ?_⟩
  simp only [start, hinit, Option.bind_eq_bind, Option.bind_some]
  rw [main_menu, get_password, hread]

private theorem win_cases {m m' : Machine R} {input : Input} {grid : Grid} (hinv : Inv m.state)
    (h : play_round rng m input = some (.win grid, m')) :
    ∃ (s : State) (r : R), LockIn s s ∧ do_win rng { state := s, rand := r } = (grid, m') := by
  simp only [play_round, Option.bind_eq_bind, Option.bind_eq_some_iff] at h
  obtain ⟨⟨s, quit⟩, hinput, h⟩ := h
  have hlock := rel_self (handle_input_rel (InStep.refl hinv).lock input) hinput
  cases quit with
  | true => cases h
  | false =>
    obtain ⟨⟨result, s, r⟩, htick, h⟩ := Option.bind_eq_some_iff.mp h
    have hin := rel_self (tick_rel rng hlock.1 m.rand) htick
    cases result with
    | NONE => cases h
    | WIN =>
      refine ⟨s, r, hin.2.1, ?_⟩
      simp only [Option.pure_def, Option.some.injEq, Prod.mk.injEq, Outcome.win.injEq] at h
      exact Prod.ext h.1 h.2
    | DIE =>
      dsimp only at h
      split at h <;> cases h

/-- The state after a won level agrees with a state that has its level and lives and in which
nothing has been played. -/
private theorem won_agree {s t : State} (h : LockIn s s) (hboards : Unplayed t)
    (hlevel : t.level = s.level + 1) (hlives : t.lives = s.lives.toUInt8.toInt8) (score : UInt32) :
    Agree (reset { s with score := score, level := s.level + 1 }) (reset t) where
  lives := by rw [Int8.toInt8_toUInt8] at hlives; exact hlives.symm
  level := hlevel.symm
  x := rfl
  y := rfl
  direction := rfl
  next_direction := rfl
  ghosts := rfl
  boards := by
    intro l hl x y hxy
    change (s.level + 1).toNat ≤ l at hl
    rw [level_succ h.level_lt] at hl
    obtain ⟨hwall, hpellet⟩ := h.inv.ahead l (by omega) x y hxy
    obtain ⟨hwall', hpellet'⟩ := hboards l x y hxy
    exact ⟨hwall.trans hwall'.symm, hpellet.trans hpellet'.symm⟩

theorem password_restores (g : Running rng) (input : Input) :
    match play_round rng g.machine input with
    | some (.win grid, m) => Restores rng grid m
    | _ => True := by
  split
  · rename_i grid m hround
    obtain ⟨s, r, hin, hwin⟩ := win_cases rng (running_inv rng g) hround
    simp only [do_win, show_password, Prod.mk.injEq] at hwin
    obtain ⟨rfl, rfl⟩ := hwin
    refine ⟨exists_typed _, fun keys hkeys memory time rest => ?_⟩
    obtain ⟨t, hboards, hlevel, hlives, hstart⟩ := start_typed rng hkeys memory time rest
    have hagree := won_agree hin hboards hlevel hlives
      (s.score + UInt32.ofNat ((s.level.toNat + 1) * 10000))
    refine ⟨_, hstart, hagree, rfl, fun inputs => ?_⟩
    refine trace_eq_of_lockstep (R := InStep) (fun _ _ => view_eq)
      (fun _ _ i h => play_round_rel rng h i) inputs ?_
    exact ⟨⟨hagree, (hin.next_level _ 0).reset.inv⟩, rfl⟩
  · trivial

end CtfChallenges.Gman
