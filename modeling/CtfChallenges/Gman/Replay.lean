import CtfChallenges.Gman.Rounds

/-!
# Games replayed

A game of chosen numbers and keys on the boards as they are drawn. It goes the same way as the game
that starts from the menu, whose bitmaps the initialization writes.
-/

namespace CtfChallenges.Gman
open Framework

/-- The bitmap of the bits that a function gives. -/
def packed (f : Nat → Bool) : Bitmap :=
  Vector.ofFn fun i => BitVec.ofNat 8 (Nat.ofBits fun k : Fin 8 => f (8 * i + (7 - k)))

theorem get_bit_packed (f : Nat → Bool) {x y : Nat} (h : OnBoard x y) :
    get_bit (packed f) x y = some (f (y * COLS + x)) := by
  have hlt := h.byte_lt
  rw [get_bit_eq]
  generalize y * COLS + x = i at hlt
  have hbit : 8 * (i / 8) + (7 - (7 - i % 8)) = i := by omega
  rw [packed, Vector.getElem?_ofFn, dif_pos hlt, Option.map_some, BitVec.toNat_ofNat,
    Nat.mod_eq_of_lt (Nat.ofBits_lt_two_pow _), Nat.testBit_ofBits_lt _ _ (by omega), hbit]

/-- The walls of a drawn board and its pellets. -/
def drawnBoard (b : Nat) : Board where
  walls := packed fun i => wallBit b (i % COLS) (i / COLS)
  pellets := packed fun i => !wallBit b (i % COLS) (i / COLS)

theorem drawnBoard_pristine (b : Nat) : Pristine b (drawnBoard b) := by
  intro x y hxy
  have hcell : wallBit b ((y * COLS + x) % COLS) ((y * COLS + x) / COLS) = wallBit b x y := by
    rw [Nat.mul_add_mod_of_lt hxy.1, Nat.mul_comm, Nat.mul_add_div (by decide),
      Nat.div_eq_of_lt hxy.1, Nat.add_zero]
  rw [drawnBoard, get_bit_packed _ hxy, get_bit_packed _ hxy, drawn_eq hxy, hcell]
  cases wallBit b x y <;> decide

/-- The start of a level on the boards as they are drawn. -/
def freshStart (level : UInt8) (lives : Int8) : State :=
  reset { State.zero with
    lives := lives
    level := level
    boards := Vector.ofFn fun b => drawnBoard b }

/-- An unplayed level starts as on the drawn boards. -/
theorem agree_freshStart {s : State} (h : Unplayed s) :
    Agree (reset s) (freshStart s.level s.lives) := by
  refine ⟨rfl, rfl, rfl, rfl, rfl, rfl, rfl, ?_⟩
  intro l _ x y hxy
  obtain ⟨hwall, hpellet⟩ := h l x y hxy
  obtain ⟨hwall', hpellet'⟩ := drawnBoard_pristine l x y hxy
  have hboard : (freshStart s.level s.lives).boards.get l = drawnBoard l := by
    change (Vector.ofFn fun b : Fin MAX_LEVELS => drawnBoard b)[l.val] = drawnBoard l
    rw [Vector.getElem_ofFn]
  rw [hboard]
  exact ⟨hwall.trans hwall'.symm, hpellet.trans hpellet'.symm⟩

variable {R : Type} (rng : Rand R)

theorem play_rel {m m' : Machine R} (h : InStep m m') (input : Input) :
    Option.Rel InStep (play rng m input) (play rng m' input) := by
  apply rel_bind (play_round_rel rng h input)
  rintro ⟨outcome, n⟩ ⟨_, n'⟩ ⟨rfl, hstep⟩
  dsimp only
  split
  · exact .none
  · exact .some hstep

/-- `go` up to the menu. -/
def new_game (memory : State) (time : Nat) : Option (Machine R) := do
  let boards ← initialize_boards memory.boards
  let state := reset { memory with boards := boards, score := 0, lives := 3, level := 0 }
  return { state := state, rand := rng.srand time }

theorem start_eq (memory : State) (time : Nat) (keys : List Key) :
    start rng memory time keys = (new_game rng memory time).bind (main_menu rng · keys) := by
  rw [start, new_game]
  cases initialize_boards memory.boards <;> rfl

theorem new_game_unplayed {memory : State} {time : Nat} {m : Machine R}
    (h : new_game rng memory time = some m) :
    m.state.level = 0 ∧ m.state.score = 0 ∧ Unplayed m.state ∧ InPlace m.state := by
  obtain ⟨boards, hinit, hboards⟩ := initialize_boards_pristine memory.boards
  simp only [new_game, hinit, Option.bind_eq_bind, Option.bind_some, Option.pure_def,
    Option.some.injEq] at h
  subst h
  exact ⟨rfl, rfl, hboards, reset_inPlace fun l => (hboards l).walled⟩

/-- There is a new game whatever the memory holds. -/
theorem exists_new_game (memory : State) (time : Nat) :
    ∃ m, new_game rng memory time = some m := by
  obtain ⟨boards, hinit, -⟩ := initialize_boards_pristine memory.boards
  rw [new_game, hinit]
  exact ⟨_, rfl⟩

theorem start_new_game {memory : State} {time : Nat} {m : Machine R}
    (h : new_game rng memory time = some m) (rest : List Key) :
    start rng memory time (.char '1' :: rest) = some (m, rest) := by
  rw [start_eq, h, Option.bind_some, main_menu]

/-- A new game goes as the one on the drawn boards. -/
theorem new_game_inStep {memory : State} {time : Nat} {m : Machine R}
    (h : new_game rng memory time = some m) :
    InStep m ⟨freshStart 0 3, rng.srand time⟩ := by
  obtain ⟨-, hinv⟩ := start_inv rng (start_new_game rng h [])
  obtain ⟨boards, hinit, hboards⟩ := initialize_boards_pristine memory.boards
  simp only [new_game, hinit, Option.bind_eq_bind, Option.bind_some, Option.pure_def,
    Option.some.injEq] at h
  subst h
  exact ⟨⟨agree_freshStart hboards, hinv⟩, rfl⟩

/-- A password leads to a game that goes as the one on the drawn boards. -/
theorem exists_start (level lives : UInt8) (time : Nat) (seed : UInt8) :
    ∃ keys m, start rng State.zero time keys = some (m, []) ∧
      InStep m ⟨freshStart level lives.toInt8, rng.srand seed.toNat⟩ := by
  obtain ⟨keys, hkeys⟩ := exists_typed (print_password level lives seed)
  obtain ⟨s, hboards, hlevel, hlives, hstart⟩ := start_typed rng hkeys State.zero time []
  refine ⟨_, _, hstart, ⟨?_, (start_inv rng hstart).2⟩, rfl⟩
  rw [← hlevel, ← hlives]
  exact agree_freshStart hboards

/-- What is replayed on the drawn boards happens in a game. -/
theorem exists_running (level lives seed : UInt8) {inputs : List Input} {m' : Machine R}
    (hrun : run (play rng) inputs ⟨freshStart level lives.toInt8, rng.srand seed.toNat⟩ = some m') :
    ∃ g : Running rng, InStep g.machine m' := by
  obtain ⟨keys, m, hstart, hstep⟩ := exists_start rng level lives 0 seed
  have hrel := run_rel (fun _ _ i h => play_rel rng h i) inputs hstep
  rw [hrun] at hrel
  generalize hreal : run (play rng) inputs m = n at hrel
  cases hrel with
  | some hstep => exact ⟨⟨_, State.zero, 0, keys, m, [], inputs, hstart, hreal⟩, hstep⟩

/-- A generator that draws the numbers of a list, the same ones after every `srand`. -/
def Rand.script (seeded : List Nat) : Rand (List Nat) where
  srand := fun _ => seeded
  rand := fun
    | [] => (0, [])
    | n :: draws => (n, draws)

def rightInputs : List Input := [⟨some (.char 'd'), []⟩, ⟨none, []⟩]

private theorem right_run : ((run (play Rand.zero) rightInputs ⟨freshStart 0 3, ()⟩).any fun m =>
    m.state.level == 0 && m.state.x == 13) = true := by
  decide +kernel

/-- In a new game, gman can go two cells to the right. -/
theorem exists_new_game_moved : ∃ m m', new_game Rand.zero State.zero 0 = some m ∧
    run (play Rand.zero) rightInputs m = some m' ∧ m'.state.level = 0 ∧ m'.state.x = 13 := by
  obtain ⟨m, hnew⟩ := exists_new_game Rand.zero State.zero 0
  obtain ⟨m₁, hrun, hm⟩ := (Option.any_eq_true _ _).mp right_run
  rw [Bool.and_eq_true, beq_iff_eq, beq_iff_eq] at hm
  have hrel := run_rel (fun _ _ i h => play_rel Rand.zero h i) rightInputs
    (new_game_inStep Rand.zero hnew)
  change Option.Rel _ _ (run (play Rand.zero) rightInputs ⟨freshStart 0 3, ()⟩) at hrel
  rw [hrun] at hrel
  generalize hreal : run (play Rand.zero) rightInputs m = n at hrel
  cases hrel with
  | @some m' _ hstep =>
    exact ⟨m, m', hnew, hreal, hstep.lock.agree.level.trans hm.1, hstep.lock.agree.x.trans hm.2⟩

end CtfChallenges.Gman
