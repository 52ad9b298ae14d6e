import CtfChallenges.Gman.Game
import Mathlib.Logic.Function.Iterate

/-!
# How a ghost chooses its direction

A ghost keeps its direction or takes a free one that is not the way back, whatever the numbers,
and it has chosen after a hundred passes.
-/

namespace CtfChallenges.Gman

/-- Gman is somewhere else, so the odds of the directions are defined. -/
def Apart (s : State) (x y : UInt8) : Prop := ¬ (s.x = x ∧ s.y = y)

theorem left_right_odds_spec {s : State} {x y : UInt8} (h : Apart s x y) :
    ∃ odds, left_right_odds ((s.x.toNat : Int) - x.toNat).natAbs
      ((s.y.toNat : Int) - y.toNat).natAbs = some odds := by
  have hpos : ((s.x.toNat : Int) - x.toNat).natAbs + ((s.y.toNat : Int) - y.toNat).natAbs ≠ 0 := by
    intro hzero
    apply h
    constructor
    · apply UInt8.toNat_inj.mp
      omega
    · apply UInt8.toNat_inj.mp
      omega
  rw [left_right_odds, if_neg hpos]
  exact ⟨_, rfl⟩

theorem can_move_isSome {s : State} (hl : s.level.toNat < MAX_LEVELS) {x y : UInt8}
    (hxy : OnBoard x.toNat y.toNat) (d : Direction) : ∃ v, can_move s d x y = some v := by
  have hboard : current_board s = some s.boards[s.level.toNat] := Vector.getElem?_eq_getElem hl
  have hread : ∀ (edge : Prop) [Decidable edge] (walls : Bitmap) (x' y' : Nat),
      (¬ edge → OnBoard x' y') →
      ∃ v, (if edge then some true else (get_bit walls x' y').map not) = some v := by
    intro edge _ walls x' y' h
    split
    · exact ⟨true, rfl⟩
    · rename_i hedge
      obtain ⟨v, hv⟩ := Option.isSome_iff_exists.mp (get_bit_isSome (h hedge) walls)
      exact ⟨!v, by rw [hv, Option.map_some]⟩
  obtain ⟨hx, hy⟩ := hxy
  simp only [can_move, hboard, Option.bind_eq_bind, Option.bind_some]
  cases d with
  | NONE => exact ⟨false, rfl⟩
  | LEFT => exact hread _ _ _ _ fun _ => ⟨by omega, hy⟩
  | RIGHT => exact hread _ _ _ _ fun _ => ⟨by omega, hy⟩
  | UP => exact hread _ _ _ _ fun _ => ⟨hx, by omega⟩
  | DOWN => exact hread _ _ _ _ fun _ => ⟨hx, by omega⟩

theorem cannot_turn_isSome {s : State} {x y : UInt8} (hmove : ∀ d, ∃ v, can_move s d x y = some v)
    (d : Direction) : ∃ v, cannot_turn s d x y = some v := by
  obtain ⟨left, hleft⟩ := hmove .LEFT
  obtain ⟨right, hright⟩ := hmove .RIGHT
  obtain ⟨up, hup⟩ := hmove .UP
  obtain ⟨down, hdown⟩ := hmove .DOWN
  simp only [cannot_turn, hleft, hright, hup, hdown, Option.map_some]
  cases left <;> cases right <;> cases up <;> cases down <;> cases d <;> exact ⟨_, rfl⟩

variable {R : Type} (rng : Rand R)

/-- The generator after one number. -/
def drop_rand (r : R) : R := (rng.rand r).2

/-- The direction that a pass of the loop proposes. -/
def wish (s : State) (x y : UInt8) (odds : Nat) (r : R) : Direction :=
  let new_direction := towards_gman s x y ((rng.rand r).1 % 100 < odds)
  if (rng.rand (drop_rand rng r)).1 % 100 > GHOST_TURN_TOWARDS_ODDS then opposite new_direction
  else new_direction

theorem choose_loop_succ {s : State} {x y : UInt8} {odds : Nat}
    (hodds : left_right_odds ((s.x.toNat : Int) - x.toNat).natAbs
      ((s.y.toNat : Int) - y.toNat).natAbs = some odds) (d : Direction) (passes : Nat) (r : R) :
    choose_loop rng s d x y (passes + 1) r =
      if wish rng s x y odds r = opposite d then
        choose_loop rng s d x y passes ((drop_rand rng)^[2] r)
      else (can_move s (wish rng s x y odds r) x y).bind fun free =>
        if free then some (wish rng s x y odds r, (drop_rand rng)^[2] r)
        else choose_loop rng s d x y passes ((drop_rand rng)^[2] r) := by
  rw [choose_loop, hodds]
  rfl

/-- A pass settles on a free direction that is not the way back, or leaves it to the next pass. -/
theorem choose_loop_step {s : State} {x y : UInt8} {d d' : Direction} {passes : Nat} {r r' : R}
    (h : choose_loop rng s d x y (passes + 1) r = some (d', r')) :
    choose_loop rng s d x y passes ((drop_rand rng)^[2] r) = some (d', r') ∨
      d' ≠ opposite d ∧ can_move s d' x y = some true ∧ r' = (drop_rand rng)^[2] r := by
  have hodds : ∃ odds, left_right_odds ((s.x.toNat : Int) - x.toNat).natAbs
      ((s.y.toNat : Int) - y.toNat).natAbs = some odds := by
    rw [choose_loop, Option.bind_eq_bind] at h
    obtain ⟨odds, hodds, -⟩ := Option.bind_eq_some_iff.mp h
    exact ⟨odds, hodds⟩
  obtain ⟨odds, hodds⟩ := hodds
  rw [choose_loop_succ rng hodds] at h
  split at h
  · exact .inl h
  · rename_i hback
    obtain ⟨free, hfree, h⟩ := Option.bind_eq_some_iff.mp h
    cases free with
    | false => exact .inl h
    | true =>
      cases h
      exact .inr ⟨hback, hfree, rfl⟩

theorem choose_loop_isSome {s : State} {x y : UInt8}
    (hmove : ∀ d, ∃ v, can_move s d x y = some v) (hapart : Apart s x y) (d : Direction)
    (passes : Nat) (r : R) : ∃ d' r', choose_loop rng s d x y passes r = some (d', r') := by
  induction passes generalizing r with
  | zero => exact ⟨d, r, rfl⟩
  | succ passes ih =>
    obtain ⟨odds, hodds⟩ := left_right_odds_spec hapart
    rw [choose_loop_succ rng hodds]
    split
    · exact ih _
    · obtain ⟨free, hfree⟩ := hmove (wish rng s x y odds r)
      rw [hfree, Option.bind_some]
      cases free with
      | false => exact ih _
      | true => exact ⟨_, _, rfl⟩

theorem choose_ghost_direction_isSome {s : State} {x y : UInt8}
    (hmove : ∀ d, ∃ v, can_move s d x y = some v) (hapart : Apart s x y) (d : Direction) (r : R) :
    ∃ d' r', choose_ghost_direction rng s d x y r = some (d', r') := by
  obtain ⟨v, hv⟩ := cannot_turn_isSome hmove d
  simp only [choose_ghost_direction, hv, Option.bind_eq_bind, Option.bind_some]
  cases v with
  | true => exact ⟨d, r, rfl⟩
  | false =>
    rw [if_neg (by decide)]
    split
    · exact ⟨_, _, rfl⟩
    · exact choose_loop_isSome rng hmove hapart d 100 _

/-- The old direction, or a free one that is not the way back. -/
def Allowed (s : State) (d : Direction) (x y : UInt8) (d' : Direction) : Prop :=
  d' = d ∨ d' ≠ opposite d ∧ can_move s d' x y = some true

theorem choose_loop_allowed {s : State} {x y : UInt8} {d d' : Direction} {passes : Nat} {r r' : R}
    (h : choose_loop rng s d x y passes r = some (d', r')) :
    Allowed s d x y d' ∧ ∃ n ≤ 2 * passes, r' = (drop_rand rng)^[n] r := by
  induction passes generalizing r with
  | zero =>
    cases h
    exact ⟨.inl rfl, 0, by simp, rfl⟩
  | succ passes ih =>
    obtain hnext | ⟨hback, hfree, rfl⟩ := choose_loop_step rng h
    · obtain ⟨hallowed, n, hn, rfl⟩ := ih hnext
      refine ⟨hallowed, n + 2, by omega, ?_⟩
      rw [Function.iterate_add_apply]
    · exact ⟨.inr ⟨hback, hfree⟩, 2, by omega, rfl⟩

/-- One number is for the wish to turn, and two are for each pass. -/
theorem choose_ghost_direction_allowed {s : State} {x y : UInt8} {d d' : Direction} {r r' : R}
    (h : choose_ghost_direction rng s d x y r = some (d', r')) :
    Allowed s d x y d' ∧ ∃ n ≤ 1 + 2 * 100, r' = (drop_rand rng)^[n] r := by
  rw [choose_ghost_direction, Option.bind_eq_bind] at h
  obtain ⟨v, -, h⟩ := Option.bind_eq_some_iff.mp h
  cases v with
  | true =>
    cases h
    exact ⟨.inl rfl, 0, by simp, rfl⟩
  | false =>
    rw [if_neg (by decide)] at h
    dsimp only at h
    split at h
    · cases h
      exact ⟨.inl rfl, 1, by simp, rfl⟩
    · obtain ⟨hallowed, n, hn, rfl⟩ := choose_loop_allowed rng h
      refine ⟨hallowed, n + 1, by omega, ?_⟩
      rw [Function.iterate_add_apply]
      rfl

/-- A quarter turn. -/
def Perpendicular : Direction → Direction → Prop
  | .LEFT, d | .RIGHT, d => d = .UP ∨ d = .DOWN
  | .UP, d | .DOWN, d => d = .LEFT ∨ d = .RIGHT
  | .NONE, _ => False

private theorem perpendicular_of_ne {d d' : Direction} (hd : d ≠ .NONE) (hd' : d' ≠ .NONE)
    (hsame : d' ≠ d) (hback : d' ≠ opposite d) : Perpendicular d d' := by
  cases d <;> cases d' <;> simp_all [Perpendicular, opposite]

/-- What a ghost may do at its turn. -/
structure Steered (s : State) (d : Direction) (x y : UInt8) (d' : Direction) : Prop where
  not_back : d' ≠ opposite d
  turned : d' ≠ d → Perpendicular d d' ∧ can_move s d' x y = some true
  straight : (∀ side, Perpendicular d side → can_move s side x y = some false) → d' = d

theorem Allowed.steered {s : State} {d d' : Direction} {x y : UInt8} (h : Allowed s d x y d')
    (hd : d ≠ .NONE) : Steered s d x y d' := by
  have hopposite : d ≠ opposite d := by
    cases d <;> simp_all [opposite]
  have hturned : d' ≠ d → Perpendicular d d' ∧ can_move s d' x y = some true := by
    intro hne
    obtain hsame | ⟨hback, hfree⟩ := h
    · exact absurd hsame hne
    · have hnone : d' ≠ .NONE := by
        rintro rfl
        obtain ⟨board, -, hboard⟩ := Option.bind_eq_some_iff.mp hfree
        cases hboard
      exact ⟨perpendicular_of_ne hd hnone hne hback, hfree⟩
  constructor
  · obtain rfl | ⟨hback, -⟩ := h
    · exact hopposite
    · exact hback
  · exact hturned
  · intro hwalls
    by_contra hne
    obtain ⟨hside, hfree⟩ := hturned hne
    rw [hwalls d' hside] at hfree
    cases hfree

/-- On every board and for all numbers the choice is made after at most a hundred passes. -/
theorem ghost_steering {s : State} (hl : s.level.toNat < MAX_LEVELS) {x y : UInt8}
    (hxy : OnBoard x.toNat y.toNat) (hapart : Apart s x y) {d : Direction} (hd : d ≠ .NONE)
    (r : R) : ∃ d' r', choose_ghost_direction rng s d x y r = some (d', r') ∧
      Steered s d x y d' ∧ ∃ n ≤ 1 + 2 * 100, r' = (drop_rand rng)^[n] r := by
  obtain ⟨d', r', h⟩ := choose_ghost_direction_isSome rng (can_move_isSome hl hxy) hapart d r
  obtain ⟨hallowed, hdraws⟩ := choose_ghost_direction_allowed rng h
  exact ⟨d', r', h, hallowed.steered hd, hdraws⟩

/-- A ghost beside gman in the upper left corner. -/
theorem ghost_steering_corner : ∃ d' r',
    choose_ghost_direction Rand.zero State.zero .LEFT 1 0 () = some (d', r') ∧
      Steered State.zero .LEFT 1 0 d' ∧ ∃ n ≤ 1 + 2 * 100, r' = (drop_rand Rand.zero)^[n] () :=
  ghost_steering Rand.zero (by decide) ⟨by decide, by decide⟩ (fun h => by cases h.1) (by decide) ()

end CtfChallenges.Gman
