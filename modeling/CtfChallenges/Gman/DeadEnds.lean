import CtfChallenges.Gman.Collisions

/-!
# Where a ghost stays for ever

A ghost does not turn back. Most cells have another way out; four cells of the fourth board do
not, and whoever walks into one of them keeps facing the wall.
-/

namespace CtfChallenges.Gman
open Framework

/-! ## Ways out of a cell -/

/-- `can_move` on the drawn board. -/
def passable (b : Nat) (d : Direction) (x y : Nat) : Bool :=
  match d with
  | .UP => y == 0 || !wallBit b x (y - 1)
  | .DOWN => y == ROWS - 1 || !wallBit b x (y + 1)
  | .LEFT => x == 0 || !wallBit b (x - 1) y
  | .RIGHT => x == COLS - 1 || !wallBit b (x + 1) y
  | .NONE => false

def directions : List Direction := [.LEFT, .RIGHT, .UP, .DOWN]

def openings (b x y : Nat) : List Direction := directions.filter (passable b · x y)

/-- The cells of the fourth board with one way out. -/
def deadEnds : List (Nat × Nat) := [(11, 4), (15, 4), (3, 15), (23, 15)]

/-- The cell is a dead end of the board of this level. -/
def InDeadEnd (b x y : Nat) : Prop := b % BOARD_COUNT = 3 ∧ (x, y) ∈ deadEnds

instance (b x y : Nat) : Decidable (InDeadEnd b x y) := inferInstanceAs (Decidable (_ ∧ _))

private theorem openings_table : ((List.range BOARD_COUNT).all fun b => cells.all fun cell =>
    wallBit b cell.1 cell.2 ||
      (decide (2 ≤ (openings b cell.1 cell.2).length) == !decide (InDeadEnd b cell.1 cell.2))) =
    true := by
  decide +kernel

private theorem openings_iff {b x y : Nat} (h : OnBoard x y) (hfloor : wallBit b x y = false) :
    2 ≤ (openings b x y).length ↔ ¬ InDeadEnd b x y := by
  have hmod : ∀ x y, wallBit (b % BOARD_COUNT) x y = wallBit b x y := by
    intro x y
    rw [wallBit, Nat.mod_mod, wallBit]
  have hopen : openings (b % BOARD_COUNT) x y = openings b x y := by
    rw [openings, openings]
    congr 1
    funext d
    cases d <;> simp only [passable, hmod]
  have hend : InDeadEnd (b % BOARD_COUNT) x y ↔ InDeadEnd b x y := by
    rw [InDeadEnd, Nat.mod_mod, InDeadEnd]
  have hb : b % BOARD_COUNT ∈ List.range BOARD_COUNT :=
    List.mem_range.mpr (Nat.mod_lt _ (by decide))
  have htable := List.all_eq_true.mp (List.all_eq_true.mp openings_table _ hb) _ (mem_cells.mpr h)
  rw [hmod, hfloor, Bool.false_or, beq_iff_eq, hopen] at htable
  rw [← hend, ← decide_eq_false_iff_not, ← Bool.not_eq_true', ← htable, decide_eq_true_iff]

private theorem mem_openings {b x y : Nat} {d : Direction} :
    d ∈ openings b x y ↔ passable b d x y = true := by
  rw [openings, List.mem_filter]
  constructor
  · exact And.right
  · intro h
    refine ⟨?_, h⟩
    cases d with
    | NONE => cases h
    | _ => simp [directions]

/-- Away from the dead ends there is a way that is not the given one. -/
theorem exists_passable_ne {b x y : Nat} (h : OnBoard x y) (hfloor : wallBit b x y = false)
    (hend : ¬ InDeadEnd b x y) (back : Direction) : ∃ d, d ≠ back ∧ passable b d x y = true := by
  have htwo := (openings_iff h hfloor).mpr hend
  have hnodup : (openings b x y).Nodup :=
    List.Nodup.sublist List.filter_sublist (show directions.Nodup by decide)
  by_contra hnone
  have hall : ∀ d ∈ openings b x y, d = back := by
    intro d hd
    by_contra hne
    exact hnone ⟨d, hne, mem_openings.mp hd⟩
  have hle : (openings b x y).length ≤ 1 := by
    rw [List.eq_replicate_of_mem hall] at hnodup ⊢
    rw [List.length_replicate]
    exact List.nodup_replicate.mp hnodup
  omega

theorem passable_unique {b x y : Nat} (h : OnBoard x y) (hfloor : wallBit b x y = false)
    (hend : InDeadEnd b x y) {d d' : Direction} (hd : passable b d x y = true)
    (hd' : passable b d' x y = true) : d = d' := by
  have hone : ¬ 2 ≤ (openings b x y).length := fun htwo =>
    (openings_iff h hfloor).mp htwo hend
  have hmem := mem_openings.mpr hd
  have hmem' := mem_openings.mpr hd'
  obtain ⟨e, he⟩ := List.length_eq_one_iff.mp
    (show (openings b x y).length = 1 by have := List.length_pos_of_mem hmem; omega)
  rw [he, List.mem_singleton] at hmem hmem'
  rw [hmem, hmem']

/-! ## Moves on the drawn board -/

theorem floor_eq {x y : Nat} (h : OnBoard x y) (b : Nat) : floor b x y = !wallBit b x y := by
  rw [floor, drawn_eq h]
  cases wallBit b x y <;> decide

/-- On the walls of the drawn board, `can_move` is `passable`. -/
theorem can_move_passable {s : State} (h : ∀ l : Fin MAX_LEVELS, Walled l (s.boards.get l))
    (hl : s.level.toNat < MAX_LEVELS) {x y : UInt8} (hxy : OnBoard x.toNat y.toNat)
    (d : Direction) : can_move s d x y = some (passable s.level.toNat d x.toNat y.toNat) := by
  have hwall : ∀ x y, OnBoard x y →
      (get_bit (s.boards.get ⟨s.level.toNat, hl⟩).walls x y).map not =
        some (!wallBit s.level.toNat x y) := by
    intro x y hxy
    rw [(h ⟨s.level.toNat, hl⟩).walls x y hxy, floor_eq hxy, Bool.not_not, Option.map_some]
  have hzero : ∀ v : UInt8, v = 0 ↔ v.toNat = 0 := fun v => UInt8.toNat_inj.symm
  obtain ⟨hx, hy⟩ := hxy
  simp only [can_move, current_board_get hl, Option.bind_eq_bind, Option.bind_some, passable]
  cases d with
  | NONE => rfl
  | UP =>
    by_cases hedge : y.toNat = 0
    · simp only [hzero, hedge, if_true, BEq.rfl, Bool.true_or]
    · simp only [hzero, hedge, if_false, beq_eq_false_iff_ne.mpr hedge, Bool.false_or]
      exact hwall _ _ ⟨hx, by omega⟩
  | DOWN =>
    by_cases hedge : y.toNat = ROWS - 1
    · simp only [hedge, if_true, BEq.rfl, Bool.true_or]
    · simp only [hedge, if_false, beq_eq_false_iff_ne.mpr hedge, Bool.false_or]
      exact hwall _ _ ⟨hx, by omega⟩
  | LEFT =>
    by_cases hedge : x.toNat = 0
    · simp only [hzero, hedge, if_true, BEq.rfl, Bool.true_or]
    · simp only [hzero, hedge, if_false, beq_eq_false_iff_ne.mpr hedge, Bool.false_or]
      exact hwall _ _ ⟨by omega, hy⟩
  | RIGHT =>
    by_cases hedge : x.toNat = COLS - 1
    · simp only [hedge, if_true, BEq.rfl, Bool.true_or]
    · simp only [hedge, if_false, beq_eq_false_iff_ne.mpr hedge, Bool.false_or]
      exact hwall _ _ ⟨by omega, hy⟩

theorem passable_back {b : Nat} {d : Direction} {x y : UInt8} (hxy : Stands b x y)
    (hd : passable b d x.toNat y.toNat = true) :
    passable b (opposite d) (next_cell d x y).1.toNat (next_cell d x y).2.toNat = true := by
  obtain ⟨⟨hx, hy⟩, hfloor⟩ := hxy
  rw [floor_eq ⟨hx, hy⟩, Bool.not_eq_true'] at hfloor
  cases d with
  | NONE => cases hd
  | LEFT =>
    by_cases hedge : x = 0
    · simp [next_cell, opposite, passable, hedge, COLS]
    · simp only [next_cell, if_neg hedge, opposite, passable, toNat_pred hedge]
      have hpos : x.toNat ≠ 0 := fun h => hedge (UInt8.toNat_inj.mp h)
      rw [Nat.sub_add_cancel (by omega), hfloor, Bool.not_false, Bool.or_true]
  | RIGHT =>
    by_cases hedge : x.toNat = COLS - 1
    · simp [next_cell, opposite, passable, hedge]
    · simp only [next_cell, if_neg hedge, opposite, passable,
        toNat_succ (Nat.lt_trans hx (by decide))]
      rw [Nat.add_sub_cancel, hfloor, Bool.not_false, Bool.or_true]
  | UP =>
    by_cases hedge : y = 0
    · simp [next_cell, opposite, passable, hedge, ROWS]
    · simp only [next_cell, if_neg hedge, opposite, passable, toNat_pred hedge]
      have hpos : y.toNat ≠ 0 := fun h => hedge (UInt8.toNat_inj.mp h)
      rw [Nat.sub_add_cancel (by omega), hfloor, Bool.not_false, Bool.or_true]
  | DOWN =>
    by_cases hedge : y.toNat = ROWS - 1
    · simp [next_cell, opposite, passable, hedge]
    · simp only [next_cell, if_neg hedge, opposite, passable,
        toNat_succ (Nat.lt_trans hy (by decide))]
      rw [Nat.add_sub_cancel, hfloor, Bool.not_false, Bool.or_true]

theorem next_cell_ne {d : Direction} (hd : d ≠ .NONE) {x y : UInt8} (hxy : OnBoard x.toNat y.toNat) :
    ¬ ((next_cell d x y).1 = x ∧ (next_cell d x y).2 = y) := by
  obtain ⟨hx, hy⟩ := hxy
  simp only [COLS, ROWS] at hx hy
  rw [← UInt8.toNat_inj, ← UInt8.toNat_inj]
  cases d with
  | NONE => exact absurd rfl hd
  | LEFT =>
    by_cases hedge : x = 0
    · simp [next_cell, hedge, COLS]
    · have hpos : x.toNat ≠ 0 := fun h => hedge (UInt8.toNat_inj.mp h)
      simp only [next_cell, if_neg hedge, toNat_pred hedge]
      omega
  | RIGHT =>
    by_cases hedge : x.toNat = COLS - 1
    · simp [next_cell, hedge, COLS]
    · simp only [next_cell, if_neg hedge, toNat_succ (show x.toNat < 255 by omega)]
      omega
  | UP =>
    by_cases hedge : y = 0
    · simp [next_cell, hedge, ROWS]
    · have hpos : y.toNat ≠ 0 := fun h => hedge (UInt8.toNat_inj.mp h)
      simp only [next_cell, if_neg hedge, toNat_pred hedge]
      omega
  | DOWN =>
    by_cases hedge : y.toNat = ROWS - 1
    · simp [next_cell, hedge, ROWS]
    · simp only [next_cell, if_neg hedge, toNat_succ (show y.toNat < 255 by omega)]
      omega

/-! ## The choice of a direction -/

/-- Some numbers lead `choose_ghost_direction` to a direction in which `do_move` goes to another
cell. -/
def CanLeave (s : State) (ghost : Ghost) : Prop :=
  ∃ draws d rest cell,
    choose_ghost_direction (Rand.script []) s ghost.direction ghost.x ghost.y draws =
      some (d, rest) ∧
    do_move s d ghost.x ghost.y = some cell ∧ cell ≠ (ghost.x, ghost.y)

/-- A ghost in a dead end of this level. -/
def Frozen (b : Nat) (ghost : Ghost) : Prop := InDeadEnd b ghost.x.toNat ghost.y.toNat

/-- A ghost that has moved can go back, and one that has not is not in a dead end. -/
def Heading (b : Nat) (ghost : Ghost) : Prop :=
  ghost.direction = .NONE ∧ ¬ Frozen b ghost ∨
    passable b (opposite ghost.direction) ghost.x.toNat ghost.y.toNat = true

/-- The board and the place of one ghost at its turn. -/
structure AtTurn (s : State) (ghost : Ghost) : Prop where
  boards : ∀ l : Fin MAX_LEVELS, Walled l (s.boards.get l)
  level_lt : s.level.toNat < MAX_LEVELS
  stands : Stands s.level.toNat ghost.x ghost.y

variable {R : Type} (rng : Rand R)

theorem AtTurn.can_move {s : State} {ghost : Ghost} (h : AtTurn s ghost) (d : Direction) :
    can_move s d ghost.x ghost.y = some (passable s.level.toNat d ghost.x.toNat ghost.y.toNat) :=
  can_move_passable h.boards h.level_lt h.stands.1 d

theorem AtTurn.do_move {s : State} {ghost : Ghost} (h : AtTurn s ghost) (d : Direction) :
    do_move s d ghost.x ghost.y =
      some (if passable s.level.toNat d ghost.x.toNat ghost.y.toNat then
        next_cell d ghost.x ghost.y else (ghost.x, ghost.y)) := by
  simp only [Gman.do_move, h.can_move, Option.bind_eq_bind, Option.bind_some]
  split <;> rfl

/-- A ghost keeps its direction or takes a free one, and does not turn back. -/
theorem choose_cases {s : State} {ghost : Ghost} (h : AtTurn s ghost) {r r' : R} {d : Direction}
    (hchoose : choose_ghost_direction rng s ghost.direction ghost.x ghost.y r = some (d, r')) :
    d = ghost.direction ∨ d ≠ opposite ghost.direction ∧
      passable s.level.toNat d ghost.x.toNat ghost.y.toNat = true := by
  obtain ⟨hkept | ⟨hback, hfree⟩, -⟩ := choose_ghost_direction_allowed rng hchoose
  · exact .inl hkept
  · rw [h.can_move, Option.some.injEq] at hfree
    exact .inr ⟨hback, hfree⟩

/-- In a dead end a ghost faces the wall and goes on doing so. -/
theorem stays_in_dead_end {s : State} {ghost : Ghost} (h : AtTurn s ghost)
    (hheading : Heading s.level.toNat ghost)
    (hend : Frozen s.level.toNat ghost) {r r' : R} {d : Direction}
    (hchoose : choose_ghost_direction rng s ghost.direction ghost.x ghost.y r = some (d, r')) :
    d = ghost.direction ∧ do_move s d ghost.x ghost.y = some (ghost.x, ghost.y) := by
  have hback : passable s.level.toNat (opposite ghost.direction) ghost.x.toNat ghost.y.toNat =
      true := by
    obtain ⟨-, hnot⟩ | hback := hheading
    · exact absurd hend hnot
    · exact hback
  have honly : ∀ d, passable s.level.toNat d ghost.x.toNat ghost.y.toNat = true →
      d = opposite ghost.direction := by
    have hfloor := h.stands.2
    rw [floor_eq h.stands.1, Bool.not_eq_true'] at hfloor
    exact fun d hd => passable_unique h.stands.1 hfloor hend hd hback
  have hkept : d = ghost.direction := by
    obtain hkept | ⟨hne, hd⟩ := choose_cases rng h hchoose
    · exact hkept
    · exact absurd (honly d hd) hne
  refine ⟨hkept, ?_⟩
  rw [h.do_move, if_neg]
  intro hd
  rw [hkept] at hd
  have hself := honly _ hd
  cases hdir : ghost.direction <;> rw [hdir] at hself hd <;> cases hself
  cases hd

/-! ## Draws that lead out -/

private theorem odds_between {dx dy odds : Nat} (h : left_right_odds dx dy = some odds) :
    0 < odds ∧ odds ≤ 95 := by
  rw [left_right_odds] at h
  split at h
  · cases h
  · cases h
    split
    · omega
    · split <;> omega

private theorem exists_wish (s : State) (x y : UInt8) {odds : Nat} (hlow : 0 < odds)
    (hhigh : odds ≤ 95) {d : Direction} (hd : d ≠ .NONE) : ∃ n n',
      (if n' % 100 > GHOST_TURN_TOWARDS_ODDS then
        opposite (towards_gman s x y (n % 100 < odds)) else towards_gman s x y (n % 100 < odds)) =
      d := by
  have hnear : decide (0 % 100 < odds) = true := decide_eq_true (by omega)
  have hfar : decide (99 % 100 < odds) = false := decide_eq_false (by omega)
  have hhorizontal : towards_gman s x y true = .LEFT ∨ towards_gman s x y true = .RIGHT := by
    simp only [towards_gman, if_true]
    split_ifs <;> simp
  have hvertical : towards_gman s x y false = .UP ∨ towards_gman s x y false = .DOWN := by
    simp only [towards_gman, Bool.false_eq_true, if_false]
    split_ifs <;> simp
  have hpick : ∀ n wish, towards_gman s x y (decide (n % 100 < odds)) = wish →
      d = wish ∨ d = opposite wish → ∃ n n', (if n' % 100 > GHOST_TURN_TOWARDS_ODDS then
        opposite (towards_gman s x y (n % 100 < odds)) else towards_gman s x y (n % 100 < odds)) =
      d := by
    rintro n wish rfl hwish
    obtain rfl | rfl := hwish
    · exact ⟨n, 0, if_neg (by decide)⟩
    · exact ⟨n, 99, if_pos (by decide)⟩
  cases d with
  | NONE => exact absurd rfl hd
  | LEFT =>
    apply hpick 0 (towards_gman s x y true) (congrArg _ hnear)
    obtain h | h := hhorizontal <;> rw [h] <;> decide
  | RIGHT =>
    apply hpick 0 (towards_gman s x y true) (congrArg _ hnear)
    obtain h | h := hhorizontal <;> rw [h] <;> decide
  | UP =>
    apply hpick 99 (towards_gman s x y false) (congrArg _ hfar)
    obtain h | h := hvertical <;> rw [h] <;> decide
  | DOWN =>
    apply hpick 99 (towards_gman s x y false) (congrArg _ hfar)
    obtain h | h := hvertical <;> rw [h] <;> decide

/-- One of the first five tests keeps the direction. -/
def kept (p : Direction → Bool) (direction : Direction) : Bool :=
  !p .LEFT && !p .RIGHT && !p .UP && !p .DOWN ||
    direction == .UP && !p .LEFT && !p .RIGHT ||
    direction == .DOWN && !p .LEFT && !p .RIGHT ||
    direction == .LEFT && !p .UP && !p .DOWN ||
    direction == .UP && !p .UP && !p .DOWN

theorem AtTurn.cannot_turn {s : State} {ghost : Ghost} (h : AtTurn s ghost) :
    cannot_turn s ghost.direction ghost.x ghost.y =
      some (kept (passable s.level.toNat · ghost.x.toNat ghost.y.toNat) ghost.direction) := by
  simp only [Gman.cannot_turn, h.can_move, Option.map_some, kept]
  cases passable s.level.toNat .LEFT ghost.x.toNat ghost.y.toNat <;>
    cases passable s.level.toNat .RIGHT ghost.x.toNat ghost.y.toNat <;>
    cases passable s.level.toNat .UP ghost.x.toNat ghost.y.toNat <;>
    cases passable s.level.toNat .DOWN ghost.x.toNat ghost.y.toNat <;>
    cases ghost.direction <;> rfl

private theorem free_of_kept {p : Direction → Bool} {direction d : Direction}
    (h : kept p direction = true) (hnone : p .NONE = false)
    (hback : direction = .UP → p .DOWN = true) (hd : p d = true) (hne : d ≠ opposite direction) :
    p direction = true := by
  simp only [kept, Bool.or_eq_true, Bool.and_eq_true, Bool.not_eq_true', beq_iff_eq] at h
  obtain (((⟨⟨⟨hl, hr⟩, hu⟩, hdown⟩ | ⟨⟨rfl, hl⟩, hr⟩) | ⟨⟨rfl, hl⟩, hr⟩) | ⟨⟨rfl, hu⟩, hdown⟩) |
    ⟨⟨rfl, hu⟩, hdown⟩ := h
  · cases d <;> simp_all
  · cases d <;> simp_all [opposite]
  · cases d <;> simp_all [opposite]
  · cases d <;> simp_all [opposite]
  · simp_all

private theorem choose_loop_wish {s : State} {ghost : Ghost} (h : AtTurn s ghost) {odds : Nat}
    (hodds : left_right_odds ((s.x.toNat : Int) - ghost.x.toNat).natAbs
      ((s.y.toNat : Int) - ghost.y.toNat).natAbs = some odds) {n n' : Nat} {d : Direction}
    (hwish : (if n' % 100 > GHOST_TURN_TOWARDS_ODDS then
        opposite (towards_gman s ghost.x ghost.y (n % 100 < odds))
      else towards_gman s ghost.x ghost.y (n % 100 < odds)) = d)
    (hd : passable s.level.toNat d ghost.x.toNat ghost.y.toNat = true)
    (hne : d ≠ opposite ghost.direction) (passes : Nat) (seeded draws : List Nat) :
    choose_loop (Rand.script seeded) s ghost.direction ghost.x ghost.y (passes + 1)
      (n :: n' :: draws) = some (d, draws) := by
  rw [choose_loop, hodds, Option.bind_eq_bind, Option.bind_some]
  dsimp only [Rand.script]
  simp only [hwish, if_neg hne, h.can_move, hd, Option.bind_eq_bind, Option.bind_some, if_true,
    Option.pure_def]

theorem canLeave_iff {s : State} {ghost : Ghost} (h : AtTurn s ghost)
    (hapart : Apart s ghost.x ghost.y) (hheading : Heading s.level.toNat ghost) :
    CanLeave s ghost ↔ ¬ Frozen s.level.toNat ghost := by
  have hfloor := h.stands.2
  rw [floor_eq h.stands.1, Bool.not_eq_true'] at hfloor
  constructor
  · rintro ⟨draws, d, rest, cell, hchoose, hmove, hother⟩ hend
    obtain ⟨-, hstay⟩ := stays_in_dead_end (Rand.script []) h hheading hend hchoose
    rw [hstay, Option.some.injEq] at hmove
    exact hother hmove.symm
  · intro hend
    obtain ⟨d, hne, hd⟩ :=
      exists_passable_ne h.stands.1 hfloor hend (opposite ghost.direction)
    have hleaves : ∀ d, passable s.level.toNat d ghost.x.toNat ghost.y.toNat = true →
        ∃ cell, do_move s d ghost.x ghost.y = some cell ∧ cell ≠ (ghost.x, ghost.y) := by
      intro d hd
      refine ⟨_, h.do_move d, ?_⟩
      rw [if_pos hd]
      intro hsame
      have hnone : d ≠ .NONE := by
        rintro rfl
        cases hd
      rw [Prod.ext_iff] at hsame
      exact next_cell_ne hnone h.stands.1 hsame
    by_cases hkept : kept (passable s.level.toNat · ghost.x.toNat ghost.y.toNat) ghost.direction
        = true
    · have hup : ghost.direction = .UP →
          passable s.level.toNat .DOWN ghost.x.toNat ghost.y.toNat = true := by
        intro hup
        obtain ⟨hnone, -⟩ | hback := hheading
        · rw [hup] at hnone
          cases hnone
        · rw [hup] at hback
          exact hback
      obtain ⟨cell, hmove, hother⟩ := hleaves _ (free_of_kept hkept rfl hup hd hne)
      refine ⟨[], ghost.direction, [], cell, ?_, hmove, hother⟩
      simp only [choose_ghost_direction, h.cannot_turn, hkept, Option.bind_eq_bind,
        Option.bind_some, if_true, Option.pure_def]
    · obtain ⟨odds, hodds⟩ := left_right_odds_spec hapart
      obtain ⟨hlow, hhigh⟩ := odds_between hodds
      have hnone : d ≠ .NONE := by
        rintro rfl
        cases hd
      obtain ⟨n, n', hwish⟩ := exists_wish s ghost.x ghost.y hlow hhigh hnone
      obtain ⟨cell, hmove, hother⟩ := hleaves d hd
      refine ⟨[0, n, n'], d, [], cell, ?_, hmove, hother⟩
      have hzero : ¬ 0 % 100 > GHOST_RANDOM_TURN_ODDS := by decide
      simp only [choose_ghost_direction, h.cannot_turn, Bool.eq_false_of_not_eq_true hkept,
        Option.bind_eq_bind, Option.bind_some, Bool.false_eq_true, if_false]
      exact (if_neg hzero).trans (choose_loop_wish h hodds hwish hd hne 99 [] [])

/-! ## Every ghost of a run -/

/-- Everybody is in place, and no ghost has turned back. -/
structure Headed (s : State) : Prop where
  inPlace : InPlace s
  heading : ∀ i, Heading s.level.toNat (s.ghosts.get i)

theorem Headed.atTurn {s : State} (h : Headed s) (hl : s.level.toNat < MAX_LEVELS)
    (i : Fin GHOST_COUNT) : AtTurn s (s.ghosts.get i) :=
  ⟨h.inPlace.boards, hl, h.inPlace.ghosts i⟩

private theorem turn_heading {s : State} {ghost : Ghost} (h : AtTurn s ghost)
    (hheading : Heading s.level.toNat ghost) {r r' : R} {d : Direction} {x y : UInt8}
    (hchoose : choose_ghost_direction rng s ghost.direction ghost.x ghost.y r = some (d, r'))
    (hmove : do_move s d ghost.x ghost.y = some (x, y)) : Heading s.level.toNat ⟨x, y, d⟩ := by
  rw [h.do_move, Option.some.injEq] at hmove
  split at hmove
  · rename_i hopen
    have hback := passable_back h.stands hopen
    rw [hmove] at hback
    exact .inr hback
  · rename_i hwall
    cases hmove
    obtain rfl | ⟨-, hopen⟩ := choose_cases rng h hchoose
    · exact hheading
    · exact absurd hopen hwall

/-- What the turns of ghosts do to all of them. -/
structure Turns (s u : State) : Prop where
  headed : Headed u
  level : u.level = s.level
  frozen : ∀ i, Frozen s.level.toNat (s.ghosts.get i) → u.ghosts.get i = s.ghosts.get i

private theorem tick_ghost_turns {s u : State} (h : Headed s) (hl : s.level.toNat < MAX_LEVELS)
    {r r' : R} {i : Fin GHOST_COUNT} (hturn : tick_ghost rng (s, r) i = some (u, r')) :
    Turns s u := by
  simp only [tick_ghost, Option.bind_eq_bind] at hturn
  obtain ⟨⟨d, r₁⟩, hchoose, hturn⟩ := Option.bind_eq_some_iff.mp hturn
  obtain ⟨⟨x, y⟩, hmove, hturn⟩ := Option.bind_eq_some_iff.mp hturn
  cases hturn
  have hheading := turn_heading rng (h.atTurn hl i) (h.heading i) hchoose hmove
  obtain ⟨x', y', hmove', hstands⟩ := do_move_spec h.inPlace hl (h.inPlace.ghosts i) d
  rw [hmove, Option.some.injEq] at hmove'
  cases hmove'
  refine ⟨⟨⟨h.inPlace.boards, h.inPlace.gman, ?_⟩, ?_⟩, rfl, ?_⟩
  · intro j
    rw [get_set]
    split
    · exact hstands
    · exact h.inPlace.ghosts j
  · intro j
    rw [get_set]
    split
    · exact hheading
    · exact h.heading j
  · intro j hfrozen
    rw [get_set]
    split
    · rename_i hsame
      subst hsame
      obtain ⟨rfl, hstay⟩ :=
        stays_in_dead_end rng (h.atTurn hl j) (h.heading j) hfrozen hchoose
      rw [hmove, Option.some.injEq, Prod.mk.injEq] at hstay
      rw [hstay.1, hstay.2]
    · rfl

private theorem tick_ghosts_turns (is : List (Fin GHOST_COUNT)) {s u : State} (h : Headed s)
    (hl : s.level.toNat < MAX_LEVELS) {r r' : R}
    (hturns : is.foldlM (tick_ghost rng) (s, r) = some (u, r')) : Turns s u := by
  induction is generalizing s r with
  | nil =>
    cases hturns
    exact ⟨h, rfl, fun _ _ => rfl⟩
  | cons i is ih =>
    rw [List.foldlM_cons] at hturns
    obtain ⟨⟨t, r₁⟩, hturn, hrest⟩ := Option.bind_eq_some_iff.mp hturns
    have ht := tick_ghost_turns rng h hl hturn
    have hu := ih ht.headed (ht.level ▸ hl) hrest
    refine ⟨hu.headed, hu.level.trans ht.level, ?_⟩
    intro j hfrozen
    have hkept := ht.frozen j hfrozen
    have hfrozen' : Frozen t.level.toNat (t.ghosts.get j) := by
      rw [ht.level, hkept]
      exact hfrozen
    exact (hu.frozen j hfrozen').trans hkept

theorem reset_headed {s : State} (h : ∀ l : Fin MAX_LEVELS, Walled l (s.boards.get l)) :
    Headed (reset s) := by
  have hstart : ∀ i : Fin GHOST_COUNT,
      ((UInt8.ofNat (GHOST_START_X + i % 2)).toNat, (UInt8.ofNat (GHOST_START_Y + i / 2)).toNat) ∉
        deadEnds := by
    decide
  refine ⟨reset_inPlace h, ?_⟩
  intro i
  rw [get_reset_ghosts]
  exact .inl ⟨rfl, fun hend => hstart i hend.2⟩

private theorem settle_headed {result : RoundResult} {m : Machine R}
    (hboards : ∀ l : Fin MAX_LEVELS, Walled l (m.state.boards.get l))
    (hnone : result = .NONE → Headed m.state) (hgo : (settle rng result m).1.final = false) :
    Headed (settle rng result m).2.state := by
  cases result with
  | NONE => exact hnone rfl
  | WIN => exact reset_headed hboards
  | DIE =>
    simp only [settle] at hgo ⊢
    split at hgo
    · cases hgo
    · rename_i hlives
      rw [if_neg hlives]
      exact reset_headed hboards

private theorem tick_gman_turns {m : Machine R} {input : Input} {s t : State}
    {result : RoundResult} (h : Headed m.state) (hl : m.state.level.toNat < MAX_LEVELS)
    (hkeys : handle_input m.state input = some (s, false))
    (hgman : tick_gman s = some (result, t)) :
    Headed t ∧ t.level = m.state.level ∧ t.ghosts = m.state.ghosts := by
  have hturned := handle_input_turned hkeys
  have hplace := h.inPlace.turned hturned
  obtain ⟨d, d', rfl⟩ := hturned
  obtain ⟨result', t', hgman', hticked, -⟩ := tick_gman_spec hplace hl
  rw [hgman, Option.some.injEq] at hgman'
  cases hgman'
  have hghosts := tick_gman_ghosts hgman
  have hlevel := hticked.level
  exact ⟨⟨hticked.inPlace, fun i => by rw [hlevel, hghosts]; exact h.heading i⟩, hlevel, hghosts⟩

private theorem moved_turns {m : Machine R} {input : Input} {s u : State} {r : R}
    (h : Headed m.state) (hl : m.state.level.toNat < MAX_LEVELS)
    (hkeys : handle_input m.state input = some (s, false)) {k : Nat}
    (hmoved : moved rng s m.rand k = some (u, r)) : Turns m.state u := by
  obtain ⟨t, hgman, -, hturns⟩ := moved_cases rng hmoved
  obtain ⟨ht, hlevel, hghosts⟩ := tick_gman_turns h hl hkeys hgman
  have hu := tick_ghosts_turns rng _ ht (hlevel ▸ hl) hturns
  refine ⟨hu.headed, hu.level.trans hlevel, ?_⟩
  rw [← hlevel, ← hghosts]
  exact hu.frozen

private theorem play_headed {m m' : Machine R} {input : Input} (h : Headed m.state)
    (hplay : play rng m input = some m') : Headed m'.state := by
  obtain ⟨-, hl, s, result, t, r, hplayed, hgo, rfl⟩ := play_cases rng h.inPlace hplay
  apply settle_headed rng hplayed.ticked.inPlace.boards _ hgo
  rintro rfl
  exact (moved_turns rng h hl hplayed.keys (tick_none rng hplayed.tick).1).headed

private theorem running_headed (g : Running rng) : Headed g.machine.state := by
  obtain ⟨memory, time, keys, m, rest, inputs, hstart, hrun⟩ := g.reached
  obtain ⟨s, hs⟩ := start_reset rng hstart
  have hstep : ∀ (m : Machine R) (input : Input) (m' : Machine R), Headed m.state →
      play rng m input = some m' → Headed m'.state := fun _ _ _ => play_headed rng
  have hheaded : Headed m.state := by
    have hplace := start_inPlace rng hstart
    rw [hs] at hplace ⊢
    exact reset_headed hplace.boards
  exact run_invariant hstep inputs hheaded hrun

private theorem tick_frozen {m : Machine R} {input : Input} {s t : State} {result : RoundResult}
    {r : R} (h : Headed m.state) (hl : m.state.level.toNat < MAX_LEVELS)
    (hkeys : handle_input m.state input = some (s, false))
    (htick : tick rng s m.rand = some (result, t, r)) (i : Fin GHOST_COUNT)
    (hfrozen : Frozen m.state.level.toNat (m.state.ghosts.get i)) :
    t.ghosts.get i = m.state.ghosts.get i := by
  rw [tick, Option.bind_eq_bind] at htick
  obtain ⟨⟨result', u⟩, hgman, htick⟩ := Option.bind_eq_some_iff.mp htick
  obtain ⟨hu, hlevel, hghosts⟩ := tick_gman_turns h hl hkeys hgman
  dsimp only at htick
  split at htick
  · cases htick
    rw [hghosts]
  · split at htick
    · cases htick
      rw [hghosts]
    · obtain ⟨⟨v, r₁⟩, hturns, htick⟩ := Option.bind_eq_some_iff.mp htick
      cases htick
      rw [← hghosts, ← hlevel] at hfrozen
      rw [(tick_ghosts_turns rng _ hu (hlevel ▸ hl) hturns).frozen i hfrozen, hghosts]

/-- In every game at a level with a board: some numbers lead a ghost out of its cell, when a pass
starts and at its turn in the tick, exactly when it is not in a dead end. There it stays, whatever
is drawn. -/
theorem ghost_leaves_iff (g : Running rng) (hl : g.machine.state.level.toNat < MAX_LEVELS)
    (i : Fin GHOST_COUNT) :
    (CanLeave g.machine.state (g.machine.state.ghosts.get i) ↔
      ¬ Frozen g.machine.state.level.toNat (g.machine.state.ghosts.get i)) ∧
    ∀ input s, handle_input g.machine.state input = some (s, false) →
      (∀ u r, moved rng s g.machine.rand i = some (u, r) →
        (CanLeave u (u.ghosts.get i) ↔
          ¬ Frozen g.machine.state.level.toNat (g.machine.state.ghosts.get i))) ∧
      ∀ result t r, tick rng s g.machine.rand = some (result, t, r) →
        Frozen g.machine.state.level.toNat (g.machine.state.ghosts.get i) →
          t.ghosts.get i = g.machine.state.ghosts.get i := by
  have hheaded := running_headed rng g
  have hclear := running_clear rng g
  refine ⟨canLeave_iff (hheaded.atTurn hl i) (hclear i) (hheaded.heading i), ?_⟩
  intro input s hkeys
  refine ⟨?_, fun result t r htick => tick_frozen rng hheaded hl hkeys htick i⟩
  intro u r hmoved
  have hu := moved_turns rng hheaded hl hkeys hmoved
  rw [canLeave_iff (hu.headed.atTurn (hu.level ▸ hl) i) (moved_apart rng hmoved)
    (hu.headed.heading i), hu.level, moved_ghost rng hmoved]
  obtain ⟨d, d', rfl⟩ := handle_input_turned hkeys
  rfl

/-- After two steps of a new game every ghost can leave its cell. -/
theorem ghost_leaves_moved : ∃ g : Running Rand.zero,
    g.machine.state.level.toNat < MAX_LEVELS ∧ g.machine.state.x = 13 ∧
      ∀ i, CanLeave g.machine.state (g.machine.state.ghosts.get i) := by
  obtain ⟨m, m', hnew, hrun, hlevel, hx⟩ := exists_new_game_moved
  let g : Running Rand.zero :=
    ⟨m', State.zero, 0, [.char '1'], m, [], rightInputs, start_new_game Rand.zero hnew [], hrun⟩
  have hzero : g.machine.state.level.toNat = 0 := by
    change m'.state.level.toNat = 0
    rw [hlevel]
    rfl
  have hl : g.machine.state.level.toNat < MAX_LEVELS := by
    rw [hzero]
    decide
  refine ⟨g, hl, hx, fun i => (ghost_leaves_iff Rand.zero g hl i).1.mpr ?_⟩
  rintro ⟨hboard, -⟩
  rw [hzero] at hboard
  cases hboard

/-- The last ghost goes down and left to the end of the corridor; the others stay. -/
def corridorDraws : List Nat :=
  [99, 99, 99, 0, 99, 0, 99, 99, 99, 99, 99, 99, 0, 0, 99, 99, 99, 99, 99, 99, 99, 0, 99, 0,
    99, 99, 99, 0, 0, 99, 99, 99, 99, 99, 99, 99, 0, 99, 0, 99, 99, 99, 99, 99, 99, 0, 0, 99,
    99, 99, 99, 99, 99, 99, 99, 99, 99, 99, 99, 99, 99, 99, 99, 99]

private theorem corridor_run : ((run (play (Rand.script corridorDraws))
    (List.replicate 15 ⟨none, []⟩) ⟨freshStart 99 (UInt8.toInt8 3), corridorDraws⟩).any fun m =>
      m.state.level == 99 && m.state.ghosts.get ⟨3, by decide⟩ == ⟨3, 15, .LEFT⟩) = true := by
  decide +kernel

/-- On level 99 a ghost in the corridor on the left has no way on. -/
theorem ghost_freezes : ¬ ∀ g : Running (Rand.script corridorDraws),
    g.machine.state.level.toNat < MAX_LEVELS →
      ∀ i, CanLeave g.machine.state (g.machine.state.ghosts.get i) := by
  intro hleaves
  obtain ⟨m, hrun, hm⟩ := (Option.any_eq_true _ _).mp corridor_run
  rw [Bool.and_eq_true, beq_iff_eq, beq_iff_eq] at hm
  obtain ⟨g, hstep⟩ := exists_running (Rand.script corridorDraws) 99 3 0 hrun
  have hlevel : g.machine.state.level = 99 := hstep.lock.agree.level.trans hm.1
  have hghost : g.machine.state.ghosts.get ⟨3, by decide⟩ = ⟨3, 15, .LEFT⟩ :=
    (congrArg (Vector.get · _) hstep.lock.agree.ghosts).trans hm.2
  have hl : g.machine.state.level.toNat < MAX_LEVELS := by
    rw [hlevel]
    decide
  have hheaded := running_headed _ g
  have hclear := (running_clear _ g) ⟨3, by decide⟩
  apply (canLeave_iff (hheaded.atTurn hl _) hclear (hheaded.heading _)).mp (hleaves g hl _)
  rw [Frozen, hghost, hlevel]
  decide

end CtfChallenges.Gman
