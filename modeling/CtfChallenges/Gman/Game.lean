import CtfChallenges.Gman.Board
import CtfChallenges.Gman.Password

/-!
# Playing G-man

The state of `gman.c` and the functions that change it. Where the code would leave an array or
divide zero by zero the result is `none`. Of what is printed, only the board is here.
-/

namespace CtfChallenges.Gman

/-- `direction_t`, with `NONE` for -1. -/
inductive Direction
  | NONE | LEFT | RIGHT | UP | DOWN
  deriving DecidableEq, Repr

inductive RoundResult
  | NONE | DIE | WIN
  deriving DecidableEq, Repr

def GHOST_COUNT : Nat := 4
def START_X : UInt8 := 11
def START_Y : UInt8 := 15
def GHOST_START_X : Nat := 12
def GHOST_START_Y : Nat := 9
def GHOST_RANDOM_TURN_ODDS : Nat := 80
def GHOST_TURN_TOWARDS_ODDS : Nat := 75
def PELLET_VALUE : UInt32 := 100

structure Ghost where
  x : UInt8
  y : UInt8
  direction : Direction
  deriving DecidableEq, Repr

structure State where
  score : UInt32
  lives : Int8
  level : UInt8
  x : UInt8
  y : UInt8
  direction : Direction
  next_direction : Direction
  ghosts : Vector Ghost GHOST_COUNT
  boards : Vector Board MAX_LEVELS

/-- The generator behind `srand` and `rand`. -/
structure Rand (R : Type) where
  srand : Nat → R
  rand : R → Nat × R

/-- A generator that always draws zero. -/
def Rand.zero : Rand Unit := ⟨fun _ => (), fun _ => (0, ())⟩

def State.zero : State where
  score := 0
  lives := 0
  level := 0
  x := 0
  y := 0
  direction := .NONE
  next_direction := .NONE
  ghosts := Vector.replicate GHOST_COUNT ⟨0, 0, .NONE⟩
  boards := Vector.replicate MAX_LEVELS ⟨Vector.replicate 71 0, Vector.replicate 71 0⟩

def reset_ghosts (state : State) : State :=
  { state with
    ghosts := Vector.ofFn fun i : Fin GHOST_COUNT =>
      { x := UInt8.ofNat (GHOST_START_X + i % 2)
        y := UInt8.ofNat (GHOST_START_Y + i / 2)
        direction := .NONE } }

def reset_gman (state : State) : State :=
  { state with x := START_X, y := START_Y, direction := .RIGHT, next_direction := .NONE }

def reset (state : State) : State := reset_gman (reset_ghosts state)

def current_board (state : State) : Option Board := state.boards[state.level.toNat]?

/-- The state with another current board. -/
def set_board (state : State) (board : Board) : State :=
  { state with boards := state.boards.setIfInBounds state.level.toNat board }

def pellets_remaining (state : State) : Option Bool := do
  let board ← current_board state
  cells.anyM fun (x, y) => get_bit board.pellets x y

/-- What the screen shows in a cell. -/
inductive Glyph
  | GMAN | WALL | PELLET | FLOOR
  | GHOST (n : Fin GHOST_COUNT)
  deriving DecidableEq, Repr

/-- A ghost is drawn over the floor, and over the ghosts before it. -/
def draw_cell (state : State) (board : Board) (cell : Nat × Nat) : Option Glyph := do
  let (x, y) := cell
  if x = state.x.toNat ∧ y = state.y.toNat then return .GMAN
  if ← get_bit board.walls x y then return .WALL
  let glyph := if ← get_bit board.pellets x y then Glyph.PELLET else .FLOOR
  return (List.finRange GHOST_COUNT).foldl (fun glyph i =>
    if (state.ghosts.get i).x.toNat = x ∧ (state.ghosts.get i).y.toNat = y then .GHOST i
    else glyph) glyph

def draw_board (state : State) : Option (List Glyph) := do
  let board ← current_board state
  cells.mapM (draw_cell state board)

def can_move (state : State) (direction : Direction) (x y : UInt8) : Option Bool := do
  let board ← current_board state
  match direction with
  | .UP => if y = 0 then some true else (get_bit board.walls x.toNat (y.toNat - 1)).map not
  | .DOWN =>
    if y.toNat = ROWS - 1 then some true else (get_bit board.walls x.toNat (y.toNat + 1)).map not
  | .LEFT => if x = 0 then some true else (get_bit board.walls (x.toNat - 1) y.toNat).map not
  | .RIGHT =>
    if x.toNat = COLS - 1 then some true else (get_bit board.walls (x.toNat + 1) y.toNat).map not
  | .NONE => some false

/-- The next cell in a direction, across the edge where there is one. -/
def next_cell (direction : Direction) (x y : UInt8) : UInt8 × UInt8 :=
  match direction with
  | .LEFT => (if x = 0 then UInt8.ofNat (COLS - 1) else x - 1, y)
  | .RIGHT => (if x.toNat = COLS - 1 then 0 else x + 1, y)
  | .UP => (x, if y = 0 then UInt8.ofNat (ROWS - 1) else y - 1)
  | .DOWN => (x, if y.toNat = ROWS - 1 then 0 else y + 1)
  | .NONE => (x, y)

def do_move (state : State) (direction : Direction) (x y : UInt8) : Option (UInt8 × UInt8) := do
  if ← can_move state direction x y then return next_cell direction x y
  return (x, y)

/-- The enumeration may be unsigned, and -1 not below zero; `can_move` refuses it all the same. -/
def change_direction_if_possible (state : State) : Option State := do
  if state.next_direction = .NONE then return state
  if ← can_move state state.next_direction state.x state.y then
    return { state with direction := state.next_direction, next_direction := .NONE }
  return state

/-- What `getch` returns in one call of `handle_input`: the first result, and the keys after it
up to the end of the buffer. There is no first key when nothing was typed. -/
structure Input where
  first : Option Key
  buffered : List Key

/-- The last buffered key counts, but a line end does not replace the key before it. -/
def last_key (input : Input) : Option Key :=
  input.buffered.foldl
    (fun c next_c => if next_c ≠ .char '\n' ∧ next_c ≠ .char '\r' then some next_c else c)
    input.first

def turn_key : Option Key → Option Direction
  | some (.char 'w') | some .KEY_UP => some .UP
  | some (.char 'a') | some .KEY_LEFT => some .LEFT
  | some (.char 's') | some .KEY_DOWN => some .DOWN
  | some (.char 'd') | some .KEY_RIGHT => some .RIGHT
  | _ => none

/-- The new state, and whether the player quits. -/
def handle_input (state : State) (input : Input) : Option (State × Bool) := do
  let c := last_key input
  if c = some (.char 'q') then return (state, true)
  let next_direction := (turn_key c).getD state.next_direction
  let state ← change_direction_if_possible { state with next_direction := next_direction }
  return (state, false)

def tick_gman (state : State) : Option (RoundResult × State) := do
  let (x, y) ← do_move state state.direction state.x state.y
  let state ← change_direction_if_possible { state with x := x, y := y }
  let board ← current_board state
  if ← get_bit board.pellets state.x.toNat state.y.toNat then
    let pellets ← set_bit board.pellets state.x.toNat state.y.toNat 0
    let state := set_board { state with score := state.score + PELLET_VALUE }
      { board with pellets := pellets }
    if !(← pellets_remaining state) then return (.WIN, state)
    return (.NONE, state)
  return (.NONE, state)

variable {R : Type} (rng : Rand R)

def opposite : Direction → Direction
  | .UP => .DOWN
  | .DOWN => .UP
  | .LEFT => .RIGHT
  | .RIGHT => .LEFT
  | .NONE => .NONE

/-- The five tests that come first. The last one asks for `UP` where `RIGHT` is still missing. -/
def cannot_turn (state : State) (direction : Direction) (x y : UInt8) : Option Bool :=
  let stuck (d : Direction) : Option Bool := (can_move state d x y).map not
  (stuck .LEFT <&&> stuck .RIGHT <&&> stuck .UP <&&> stuck .DOWN) <||>
    (pure (direction == .UP) <&&> stuck .LEFT <&&> stuck .RIGHT) <||>
    (pure (direction == .DOWN) <&&> stuck .LEFT <&&> stuck .RIGHT) <||>
    (pure (direction == .LEFT) <&&> stuck .UP <&&> stuck .DOWN) <||>
    (pure (direction == .UP) <&&> stuck .UP <&&> stuck .DOWN)

/-- The quotient of the doubles is never rounded up to an integer, so its integer part is that of
the exact quotient. Zero by zero has none. -/
def left_right_odds (dx dy : Nat) : Option Nat :=
  if dx + dy = 0 then none
  else
    let odds := 100 * dx / (dx + dy)
    some (if odds ≤ 5 then 5 else if odds ≥ 95 then 95 else odds)

/-- Where the ghost wants to go when its horizontal wish is `horizontal`. -/
def towards_gman (state : State) (x y : UInt8) (horizontal : Bool) : Direction :=
  if state.x ≤ x ∧ state.y ≤ y then if horizontal then .LEFT else .UP
  else if state.x ≤ x ∧ state.y ≥ y then if horizontal then .LEFT else .DOWN
  else if state.x ≥ x ∧ state.y ≤ y then if horizontal then .RIGHT else .UP
  else if horizontal then .RIGHT else .DOWN

/-- The loop of `choose_ghost_direction`, with the passes that are left. -/
def choose_loop (state : State) (direction : Direction) (x y : UInt8) :
    Nat → R → Option (Direction × R)
  | 0, r => some (direction, r)
  | passes + 1, r => do
    let odds ← left_right_odds ((state.x.toNat : Int) - x.toNat).natAbs
      ((state.y.toNat : Int) - y.toNat).natAbs
    let (n, r) := rng.rand r
    let new_direction := towards_gman state x y (n % 100 < odds)
    let (n, r) := rng.rand r
    let new_direction :=
      if n % 100 > GHOST_TURN_TOWARDS_ODDS then opposite new_direction else new_direction
    if new_direction = opposite direction then choose_loop state direction x y passes r
    else if ← can_move state new_direction x y then return (new_direction, r)
    else choose_loop state direction x y passes r

def choose_ghost_direction (state : State) (direction : Direction) (x y : UInt8) (r : R) :
    Option (Direction × R) := do
  if ← cannot_turn state direction x y then return (direction, r)
  let (n, r) := rng.rand r
  if n % 100 > GHOST_RANDOM_TURN_ODDS then return (direction, r)
  choose_loop rng state direction x y 100 r

/-- The pass of `tick_ghosts` for one ghost. -/
def tick_ghost (acc : State × R) (i : Fin GHOST_COUNT) : Option (State × R) := do
  let (state, r) := acc
  let ghost := state.ghosts.get i
  let (direction, r) ← choose_ghost_direction rng state ghost.direction ghost.x ghost.y r
  let (x, y) ← do_move state direction ghost.x ghost.y
  return ({ state with ghosts := state.ghosts.set i { x := x, y := y, direction := direction } }, r)

def tick_ghosts (state : State) (r : R) : Option (State × R) :=
  (List.finRange GHOST_COUNT).foldlM (tick_ghost rng) (state, r)

def check_death (state : State) : RoundResult :=
  if state.ghosts.any fun ghost => state.x == ghost.x && state.y == ghost.y then .DIE else .NONE

/-- Deaths are looked for before and after the ghosts move. -/
def tick (state : State) (r : R) : Option (RoundResult × State × R) := do
  let (result, state) ← tick_gman state
  if result ≠ .NONE then return (result, state, r)
  if check_death state ≠ .NONE then return (.DIE, state, r)
  let (state, r) ← tick_ghosts rng state r
  return (check_death state, state, r)

end CtfChallenges.Gman
