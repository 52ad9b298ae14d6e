import CtfChallenges.Gman.Restore

/-!
# Where everybody can be

The floor of a board is closed under moves: the cells on opposite edges are the same, so a move
across an edge, which does not look where it goes, ends on the floor as well. Nobody leaves it, and
every bit is read and written inside its bitmap.
-/

namespace CtfChallenges.Gman
open Framework

def floor (b x y : Nat) : Bool := drawn b x y == some ' '

theorem wall_eq_not_floor {x y : Nat} (h : OnBoard x y) (b : Nat) :
    (drawn b x y == some '1') = !floor b x y := by
  obtain ⟨c, hc⟩ := drawn_isSome h b
  rw [floor, hc]
  obtain rfl | rfl := drawn_cases hc <;> decide

private theorem floor_left_right (b y : Nat) : floor b 0 y = floor b (COLS - 1) y := by
  rw [floor, drawn_left_right, floor]

private theorem floor_top_bottom (b x : Nat) : floor b x 0 = floor b x (ROWS - 1) := by
  rw [floor, drawn_top_bottom, floor]

/-- On a cell of the board that is not a wall. -/
def Stands (b : Nat) (x y : UInt8) : Prop :=
  OnBoard x.toNat y.toNat ∧ floor b x.toNat y.toNat = true

private theorem start_cells (b : Nat) : Stands b START_X START_Y ∧
    ∀ i < GHOST_COUNT, Stands b (UInt8.ofNat (GHOST_START_X + i % 2))
      (UInt8.ofNat (GHOST_START_Y + i / 2)) := by
  have hfour : ∀ b < BOARD_COUNT, floor b START_X.toNat START_Y.toNat = true ∧
      ∀ i < GHOST_COUNT, floor b (UInt8.ofNat (GHOST_START_X + i % 2)).toNat
        (UInt8.ofNat (GHOST_START_Y + i / 2)).toNat = true := by
    decide +kernel
  have hcells : OnBoard START_X.toNat START_Y.toNat ∧
      ∀ i < GHOST_COUNT, OnBoard (UInt8.ofNat (GHOST_START_X + i % 2)).toNat
        (UInt8.ofNat (GHOST_START_Y + i / 2)).toNat := by
    unfold OnBoard
    decide
  have hmod : ∀ x y, floor (b % BOARD_COUNT) x y = floor b x y := by
    intro x y
    simp only [floor, drawn, Nat.mod_mod]
  obtain ⟨hgman, hghosts⟩ := hfour (b % BOARD_COUNT) (Nat.mod_lt _ (by decide))
  refine ⟨⟨hcells.1, hmod _ _ ▸ hgman⟩, ?_⟩
  intro i hi
  exact ⟨hcells.2 i hi, hmod _ _ ▸ hghosts i hi⟩

/-- The walls are those of the drawn board, and there is no pellet on them. -/
structure Walled (b : Nat) (board : Board) : Prop where
  walls : ∀ x y, OnBoard x y → get_bit board.walls x y = some (!floor b x y)
  pellets : ∀ x y, OnBoard x y → get_bit board.pellets x y = some true → floor b x y = true

theorem Pristine.walled {b : Nat} {board : Board} (h : Pristine b board) : Walled b board := by
  constructor
  · intro x y hxy
    rw [(h x y hxy).1, wall_eq_not_floor hxy]
  · intro x y hxy hpellet
    rw [(h x y hxy).2] at hpellet
    exact Option.some.inj hpellet

/-- Everybody stands on the floor of the current board. -/
structure InPlace (s : State) : Prop where
  boards : ∀ l : Fin MAX_LEVELS, Walled l (s.boards.get l)
  gman : Stands s.level.toNat s.x s.y
  ghosts : ∀ i : Fin GHOST_COUNT,
    Stands s.level.toNat (s.ghosts.get i).x (s.ghosts.get i).y

theorem current_board_get {s : State} (hl : s.level.toNat < MAX_LEVELS) :
    current_board s = some (s.boards.get ⟨s.level.toNat, hl⟩) :=
  Vector.getElem?_eq_getElem hl

theorem reset_inPlace {s : State} (h : ∀ l : Fin MAX_LEVELS, Walled l (s.boards.get l)) :
    InPlace (reset s) := by
  obtain ⟨hgman, hghosts⟩ := start_cells s.level.toNat
  constructor
  · exact h
  · exact hgman
  · intro i
    rw [get_reset_ghosts]
    exact hghosts i i.isLt

theorem toNat_pred {x : UInt8} (h : x ≠ 0) : (x - 1).toNat = x.toNat - 1 := by
  have hpos : x.toNat ≠ 0 := fun hx => h (UInt8.toNat_inj.mp hx)
  have hle : 1 ≤ x := by
    rw [UInt8.le_iff_toNat_le]
    exact Nat.one_le_iff_ne_zero.mpr hpos
  rw [UInt8.toNat_sub_of_le _ _ hle]
  rfl

theorem toNat_succ {x : UInt8} (h : x.toNat < 255) : (x + 1).toNat = x.toNat + 1 := by
  rw [UInt8.toNat_add]
  exact Nat.mod_eq_of_lt (Nat.succ_lt_succ h)

theorem can_move_spec {s : State} (h : InPlace s) (hl : s.level.toNat < MAX_LEVELS) {x y : UInt8}
    (hxy : Stands s.level.toNat x y) (d : Direction) :
    ∃ v, can_move s d x y = some v ∧
      (v = true → Stands s.level.toNat (next_cell d x y).1 (next_cell d x y).2) := by
  have hwalled := (h.boards ⟨s.level.toNat, hl⟩).walls
  have hon : OnBoard (next_cell d x y).1.toNat (next_cell d x y).2.toNat :=
    next_cell_onBoard d hxy.1
  obtain ⟨⟨hx, hy⟩, hfloor⟩ := hxy
  simp only [can_move, current_board_get hl, Option.bind_eq_bind, Option.bind_some]
  cases d with
  | NONE => exact ⟨false, rfl, fun hv => by cases hv⟩
  | LEFT =>
    by_cases hedge : x = 0
    · simp only [next_cell, if_pos hedge] at hon ⊢
      refine ⟨true, rfl, fun _ => ⟨hon, ?_⟩⟩
      rw [hedge] at hfloor
      exact floor_left_right _ _ ▸ hfloor
    · simp only [next_cell, if_neg hedge] at hon ⊢
      rw [hwalled _ _ ⟨by omega, hy⟩]
      refine ⟨_, rfl, fun hv => ⟨hon, ?_⟩⟩
      rw [toNat_pred hedge]
      simpa using hv
  | RIGHT =>
    by_cases hedge : x.toNat = COLS - 1
    · simp only [next_cell, if_pos hedge] at hon ⊢
      refine ⟨true, rfl, fun _ => ⟨hon, ?_⟩⟩
      rw [hedge] at hfloor
      exact floor_left_right _ _ ▸ hfloor
    · simp only [next_cell, if_neg hedge] at hon ⊢
      rw [hwalled _ _ ⟨by omega, hy⟩]
      refine ⟨_, rfl, fun hv => ⟨hon, ?_⟩⟩
      rw [toNat_succ (Nat.lt_trans hx (by decide))]
      simpa using hv
  | UP =>
    by_cases hedge : y = 0
    · simp only [next_cell, if_pos hedge] at hon ⊢
      refine ⟨true, rfl, fun _ => ⟨hon, ?_⟩⟩
      rw [hedge] at hfloor
      exact floor_top_bottom _ _ ▸ hfloor
    · simp only [next_cell, if_neg hedge] at hon ⊢
      rw [hwalled _ _ ⟨hx, by omega⟩]
      refine ⟨_, rfl, fun hv => ⟨hon, ?_⟩⟩
      rw [toNat_pred hedge]
      simpa using hv
  | DOWN =>
    by_cases hedge : y.toNat = ROWS - 1
    · simp only [next_cell, if_pos hedge] at hon ⊢
      refine ⟨true, rfl, fun _ => ⟨hon, ?_⟩⟩
      rw [hedge] at hfloor
      exact floor_top_bottom _ _ ▸ hfloor
    · simp only [next_cell, if_neg hedge] at hon ⊢
      rw [hwalled _ _ ⟨hx, by omega⟩]
      refine ⟨_, rfl, fun hv => ⟨hon, ?_⟩⟩
      rw [toNat_succ (Nat.lt_trans hy (by decide))]
      simpa using hv

end CtfChallenges.Gman
