import CtfChallenges.Framework.Run
import CtfChallenges.Gman.Game

/-!
# From the menu to the end of the game

`go` of `gman.c`: the menu, which starts a new game or takes a password, and the main loop. A
machine is the state with the generator.
-/

namespace CtfChallenges.Gman
open Framework

structure Machine (R : Type) where
  state : State
  rand : R

variable {R : Type} (rng : Rand R)

/-- The grid on the screen. The generator starts again from the seed in it. -/
def show_password (m : Machine R) : Grid × Machine R :=
  let seed := UInt8.ofNat (rng.rand m.rand).1
  (print_password m.state.level m.state.lives.toUInt8 seed,
    { m with rand := rng.srand seed.toNat })

/-- The new machine, if the password is accepted, and the keys left over. There is no value while
more keys are needed. -/
def get_password (m : Machine R) (keys : List Key) : Option (Option (Machine R) × List Key) :=
  match read_password keys with
  | .accepted level lives seed rest =>
    let state := { m.state with
      level := level
      lives := lives.toInt8
      score :=
        if level > 0 then UInt32.ofNat (10000 * (level.toNat * (level.toNat + 1)) / 2) else 0 }
    some (some { state := reset state, rand := rng.srand seed.toNat }, rest)
  | .refused rest => some (none, rest)
  | .waiting => none

/-- The keys that are left after a password that the reading loop has ended. -/
def Reading.rest : Reading → List Key
  | .accepted _ _ _ rest => rest
  | .refused rest => rest
  | .waiting => []

private theorem read_loop_rest_le (cur : Cursor) (keys : List Key) :
    (read_loop cur keys).rest.length ≤ keys.length := by
  fun_induction read_loop cur keys with
  | case1 => simp [Reading.rest]
  | case2 cur key keys cur' hkey ih => simp only [List.length_cons]; omega
  | case3 => simp [Reading.rest]
  | case4 => simp only [List.length_cons]; omega
  | case5 => simp [Reading.rest]
  | case6 => simp [Reading.rest]

private theorem get_password_rest_le {m : Machine R} {keys : List Key}
    {result : Option (Machine R)} {rest : List Key}
    (h : get_password rng m keys = some (result, rest)) : rest.length ≤ keys.length := by
  have hle := read_loop_rest_le Cursor.corner keys
  rw [get_password, read_password] at h
  cases hread : read_loop Cursor.corner keys with
  | accepted level lives seed rest' =>
    simp only [hread, Option.some.injEq, Prod.mk.injEq, Reading.rest] at h hle
    exact h.2 ▸ hle
  | refused rest' =>
    simp only [hread, Option.some.injEq, Prod.mk.injEq, Reading.rest] at h hle
    exact h.2 ▸ hle
  | waiting => simp [hread] at h

/-- The menu up to the start of a game, with the keys left over. There is no value while more keys
are needed. -/
def main_menu (m : Machine R) (keys : List Key) : Option (Machine R × List Key) :=
  match keys with
  | [] => none
  | .char '1' :: keys => some (m, keys)
  | .char '2' :: keys =>
    match _h : get_password rng m keys with
    | some (some m, rest) => some (m, rest)
    | some (none, rest) => main_menu m rest
    | none => none
  | _ :: keys => main_menu m keys
termination_by keys.length
decreasing_by
  · have hle := get_password_rest_le rng _h
    simp only [List.length_cons]
    omega
  · simp

/-- `go` up to the main loop. The state lies on the stack, and `memory` is what was there. -/
def start (memory : State) (time : Nat) (keys : List Key) : Option (Machine R × List Key) := do
  let boards ← initialize_boards memory.boards
  let state := reset { memory with boards := boards, score := 0, lives := 3, level := 0 }
  main_menu rng { state := state, rand := rng.srand time } keys

def do_win (m : Machine R) : Grid × Machine R :=
  let state := { m.state with
    score := m.state.score + UInt32.ofNat ((m.state.level.toNat + 1) * 10000)
    level := m.state.level + 1 }
  let (grid, m) := show_password rng { m with state := state }
  (grid, { m with state := reset m.state })

/-- What a pass of the main loop comes to, with the password that it shows. -/
inductive Outcome
  | none
  | win (shown : Grid)
  | die (shown : Grid)
  | over
  | quit

def Outcome.final : Outcome → Bool
  | .over | .quit => true
  | _ => false

def play_round (m : Machine R) (input : Input) : Option (Outcome × Machine R) := do
  let (state, quit) ← handle_input m.state input
  if quit then return (.quit, { m with state := state })
  let (result, state, r) ← tick rng state m.rand
  match result with
  | .WIN =>
    let (grid, m) := do_win rng { state := state, rand := r }
    return (.win grid, m)
  | .DIE =>
    let state := { state with lives := state.lives - 1 }
    if state.lives < 0 then return (.over, { state := state, rand := r })
    let (grid, m) := show_password rng { state := state, rand := r }
    return (.die grid, { m with state := reset m.state })
  | .NONE => return (.none, { state := state, rand := r })

/-- A pass after which the loop goes on. -/
def play (m : Machine R) (input : Input) : Option (Machine R) := do
  let (outcome, m) ← play_round rng m input
  if outcome.final then none else some m

/-- A machine that keys at the menu and passes of the main loop lead to. -/
structure Running where
  machine : Machine R
  reached : ∃ memory time keys m rest inputs,
    start rng memory time keys = some (m, rest) ∧ run (play rng) inputs m = some machine

end CtfChallenges.Gman
