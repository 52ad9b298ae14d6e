import CtfChallenges.Gman.Session
import Mathlib.Tactic.FinCases

/-!
# Two games in lockstep

Two states that agree in all but the score and the boards behind them go through the same moves,
and every board ahead stays as it was drawn.
-/

namespace CtfChallenges.Gman
open Framework

/-- Boards that look the same in every cell. -/
def SameCells (b b' : Board) : Prop :=
  ∀ x y, OnBoard x y → get_bit b.walls x y = get_bit b'.walls x y ∧
    get_bit b.pellets x y = get_bit b'.pellets x y

/-- Everything but the score is the same, from the current level up. -/
structure Agree (s t : State) : Prop where
  lives : s.lives = t.lives
  level : s.level = t.level
  x : s.x = t.x
  y : s.y = t.y
  direction : s.direction = t.direction
  next_direction : s.next_direction = t.next_direction
  ghosts : s.ghosts = t.ghosts
  boards : ∀ l : Fin MAX_LEVELS, s.level.toNat ≤ l → SameCells (s.boards.get l) (t.boards.get l)

/-- Everybody is on the board, and the boards ahead are as drawn. -/
structure Inv (s : State) : Prop where
  gman : OnBoard s.x.toNat s.y.toNat
  ghosts : ∀ i : Fin GHOST_COUNT, OnBoard (s.ghosts.get i).x.toNat (s.ghosts.get i).y.toNat
  ahead : ∀ l : Fin MAX_LEVELS, s.level.toNat < l → Pristine l (s.boards.get l)

structure Lock (s t : State) : Prop where
  agree : Agree s t
  inv : Inv s

theorem Agree.refl (s : State) : Agree s s :=
  ⟨rfl, rfl, rfl, rfl, rfl, rfl, rfl, fun _ _ _ _ _ => ⟨rfl, rfl⟩⟩

theorem current_board_rel {s t : State} (h : Agree s t) :
    Option.Rel (fun b b' => SameCells b b' ∧ s.level.toNat < MAX_LEVELS)
      (current_board s) (current_board t) := by
  simp only [current_board, ← h.level]
  by_cases hl : s.level.toNat < MAX_LEVELS
  · rw [Vector.getElem?_eq_getElem hl, Vector.getElem?_eq_getElem hl]
    exact .some ⟨h.boards ⟨s.level.toNat, hl⟩ le_rfl, hl⟩
  · rw [Vector.getElem?_eq_none (by omega), Vector.getElem?_eq_none (by omega)]
    exact .none

private theorem SameCells.write {b b' : Board} {x y : Nat} (h : SameCells b b') (hxy : OnBoard x y)
    {p p' : Bitmap} (hp : set_bit b.pellets x y 0 = some p)
    (hp' : set_bit b'.pellets x y 0 = some p') :
    SameCells { b with pellets := p } { b' with pellets := p' } := by
  intro x' y' hxy'
  refine ⟨(h x' y' hxy').1, ?_⟩
  simp only
  rw [get_bit_set_bit hp hxy hxy', get_bit_set_bit hp' hxy hxy', (h x' y' hxy').2]

theorem get_set_board (s : State) (board : Board) (l : Fin MAX_LEVELS) :
    (set_board s board).boards.get l = if s.level.toNat = l then board else s.boards.get l := by
  change (s.boards.setIfInBounds s.level.toNat board)[l.val] = _
  rw [Vector.getElem_setIfInBounds]
  rfl

private theorem Lock.set_board {s t : State} (h : Lock s t) {b b' : Board} (hb : SameCells b b') :
    Lock (set_board s b) (set_board t b') := by
  refine ⟨{ h.agree with boards := ?_ }, { h.inv with ahead := ?_ }⟩
  · intro l hl
    rw [get_set_board, get_set_board, ← h.agree.level]
    split
    · exact hb
    · exact h.agree.boards l hl
  · intro l hl
    have hcurrent : s.level.toNat ≠ l := Nat.ne_of_lt hl
    rw [get_set_board, if_neg hcurrent]
    exact h.inv.ahead l hl

private theorem anyM_congr {α : Type} {f g : α → Option Bool} :
    ∀ (l : List α), (∀ a ∈ l, f a = g a) → l.anyM f = l.anyM g
  | [], _ => rfl
  | a :: l, h => by
    rw [List.forall_mem_cons] at h
    simp only [List.anyM, h.1, anyM_congr l h.2]

theorem pellets_remaining_eq {s t : State} (h : Agree s t) :
    pellets_remaining s = pellets_remaining t := by
  have hrel := current_board_rel h
  simp only [pellets_remaining]
  generalize current_board s = b at hrel ⊢
  generalize current_board t = b' at hrel ⊢
  cases hrel with
  | none => rfl
  | some hb =>
    simp only [Option.bind_eq_bind, Option.bind_some]
    apply anyM_congr cells
    rintro ⟨x, y⟩ hxy
    exact (hb.1 x y (mem_cells.mp hxy)).2

theorem can_move_eq {s t : State} (h : Agree s t) {x y : UInt8} (hxy : OnBoard x.toNat y.toNat)
    (d : Direction) : can_move s d x y = can_move t d x y := by
  have hrel := current_board_rel h
  obtain ⟨hx, hy⟩ := hxy
  simp only [can_move]
  generalize current_board s = b at hrel ⊢
  generalize current_board t = b' at hrel ⊢
  cases hrel with
  | none => rfl
  | some hb =>
    simp only [Option.bind_eq_bind, Option.bind_some]
    cases d with
    | NONE => rfl
    | LEFT =>
      dsimp only
      split
      · rfl
      · rw [(hb.1 (x.toNat - 1) y.toNat ⟨by omega, hy⟩).1]
    | RIGHT =>
      dsimp only
      split
      · rfl
      · rw [(hb.1 (x.toNat + 1) y.toNat ⟨by omega, hy⟩).1]
    | UP =>
      dsimp only
      split
      · rfl
      · rw [(hb.1 x.toNat (y.toNat - 1) ⟨hx, by omega⟩).1]
    | DOWN =>
      dsimp only
      split
      · rfl
      · rw [(hb.1 x.toNat (y.toNat + 1) ⟨hx, by omega⟩).1]

private theorem dec_lt (n : Nat) (hn : n < 256) (hpos : 0 < n) {x : UInt8} (hx : x.toNat < n) :
    (if x = 0 then UInt8.ofNat (n - 1) else x - 1).toNat < n := by
  split
  · rw [UInt8.toNat_ofNat']
    omega
  · rename_i hne
    have hle : 1 ≤ x := UInt8.le_iff_toNat_le.mpr (by
      have : x.toNat ≠ 0 := fun h => hne (UInt8.toNat_inj.mp h)
      simp only [UInt8.reduceToNat]
      omega)
    rw [UInt8.toNat_sub_of_le _ _ hle]
    omega

private theorem inc_lt (n : Nat) (hn : n < 256) {x : UInt8} (hx : x.toNat < n) :
    (if x.toNat = n - 1 then 0 else x + 1).toNat < n := by
  split
  · simp only [UInt8.reduceToNat]
    omega
  · rw [UInt8.toNat_add]
    simp only [UInt8.reduceToNat]
    omega

theorem next_cell_onBoard (d : Direction) {x y : UInt8} (hxy : OnBoard x.toNat y.toNat) :
    OnBoard (next_cell d x y).1.toNat (next_cell d x y).2.toNat := by
  have hx : x.toNat < COLS := hxy.1
  have hy : y.toNat < ROWS := hxy.2
  cases d with
  | NONE => exact hxy
  | LEFT => exact ⟨dec_lt COLS (by decide) (by decide) hx, hy⟩
  | RIGHT => exact ⟨inc_lt COLS (by decide) hx, hy⟩
  | UP => exact ⟨hx, dec_lt ROWS (by decide) (by decide) hy⟩
  | DOWN => exact ⟨hx, inc_lt ROWS (by decide) hy⟩

theorem do_move_rel {s t : State} (h : Agree s t) (d : Direction) {x y : UInt8}
    (hxy : OnBoard x.toNat y.toNat) :
    Option.Rel (fun p q => p = q ∧ OnBoard p.1.toNat p.2.toNat)
      (do_move s d x y) (do_move t d x y) := by
  simp only [do_move, can_move_eq h hxy]
  cases can_move t d x y with
  | none => exact .none
  | some moves =>
    cases moves with
    | false => exact .some ⟨rfl, hxy⟩
    | true => exact .some ⟨rfl, next_cell_onBoard d hxy⟩

theorem change_direction_rel {s t : State} (h : Lock s t) :
    Option.Rel Lock (change_direction_if_possible s) (change_direction_if_possible t) := by
  have hcan : can_move t s.next_direction t.x t.y = can_move s s.next_direction s.x s.y := by
    rw [← h.agree.x, ← h.agree.y, can_move_eq h.agree h.inv.gman]
  simp only [change_direction_if_possible, ← h.agree.next_direction, hcan]
  split
  · exact .some h
  · cases can_move s s.next_direction s.x s.y with
    | none => exact .none
    | some moves =>
      cases moves with
      | false => exact .some h
      | true =>
        exact .some ⟨{ h.agree with direction := rfl, next_direction := rfl }, { h.inv with }⟩

theorem handle_input_rel {s t : State} (h : Lock s t) (input : Input) :
    Option.Rel (fun p q => Lock p.1 q.1 ∧ p.2 = q.2) (handle_input s input)
      (handle_input t input) := by
  simp only [handle_input]
  split
  · exact .some ⟨h, rfl⟩
  · refine rel_bind (change_direction_rel (t := { t with next_direction := _ }) ?_) ?_
    · exact ⟨{ h.agree with next_direction := by rw [h.agree.next_direction] }, { h.inv with }⟩
    · intro s' t' h'
      exact .some ⟨h', rfl⟩

/-- In lockstep on a level that exists. -/
structure LockIn (s t : State) : Prop extends Lock s t where
  level_lt : s.level.toNat < MAX_LEVELS

theorem tick_gman_rel {s t : State} (h : Lock s t) :
    Option.Rel (fun p q => p.1 = q.1 ∧ LockIn p.2 q.2) (tick_gman s) (tick_gman t) := by
  have hmove : do_move t t.direction t.x t.y = do_move t s.direction s.x s.y := by
    rw [h.agree.x, h.agree.y, h.agree.direction]
  simp only [tick_gman, Option.bind_eq_bind, hmove]
  apply rel_bind (do_move_rel h.agree s.direction h.inv.gman)
  rintro ⟨x, y⟩ _ ⟨rfl, hxy⟩
  refine rel_bind (change_direction_rel ⟨{ h.agree with x := rfl, y := rfl },
    { h.inv with gman := hxy }⟩) ?_
  intro s t h
  apply rel_bind (current_board_rel h.agree)
  rintro b b' ⟨hb, hlevel⟩
  have hbit : get_bit b'.pellets t.x.toNat t.y.toNat = get_bit b.pellets s.x.toNat s.y.toNat := by
    rw [← h.agree.x, ← h.agree.y, (hb _ _ h.inv.gman).2]
  rw [hbit]
  cases get_bit b.pellets s.x.toNat s.y.toNat with
  | none => exact .none
  | some eaten =>
    cases eaten with
    | false => exact .some ⟨rfl, h, hlevel⟩
    | true =>
      obtain ⟨p, hp⟩ := set_bit_isSome h.inv.gman b.pellets 0
      obtain ⟨p', hp'⟩ := set_bit_isSome h.inv.gman b'.pellets 0
      have hscore : Lock { s with score := s.score + PELLET_VALUE }
          { t with score := t.score + PELLET_VALUE } := ⟨{ h.agree with }, { h.inv with }⟩
      have hlock := hscore.set_board (hb.write h.inv.gman hp hp')
      rw [h.agree.x, h.agree.y] at hp'
      simp only [hp, hp', Option.bind_some, if_true, pellets_remaining_eq hlock.agree]
      cases pellets_remaining (set_board { t with score := t.score + PELLET_VALUE }
          { b' with pellets := p' }) with
      | none => exact .none
      | some remaining =>
        cases remaining with
        | false => exact .some ⟨rfl, hlock, hlevel⟩
        | true => exact .some ⟨rfl, hlock, hlevel⟩

variable {R : Type} (rng : Rand R)

theorem towards_gman_eq {s t : State} (h : Agree s t) (x y : UInt8) (horizontal : Bool) :
    towards_gman s x y horizontal = towards_gman t x y horizontal := by
  simp only [towards_gman, h.x, h.y]

theorem choose_loop_eq {s t : State} (h : Agree s t) (d : Direction) {x y : UInt8}
    (hxy : OnBoard x.toNat y.toNat) (passes : Nat) (r : R) :
    choose_loop rng s d x y passes r = choose_loop rng t d x y passes r := by
  induction passes generalizing r with
  | zero => rfl
  | succ passes ih =>
    simp only [choose_loop, h.x, h.y, towards_gman_eq h, can_move_eq h hxy, ih]

theorem choose_ghost_direction_eq {s t : State} (h : Agree s t) (d : Direction) {x y : UInt8}
    (hxy : OnBoard x.toNat y.toNat) (r : R) :
    choose_ghost_direction rng s d x y r = choose_ghost_direction rng t d x y r := by
  simp only [choose_ghost_direction, cannot_turn, can_move_eq h hxy, choose_loop_eq rng h d hxy]

theorem tick_ghost_rel (p q : State × R) (i : Fin GHOST_COUNT)
    (h : LockIn p.1 q.1 ∧ p.2 = q.2) :
    Option.Rel (fun p q => LockIn p.1 q.1 ∧ p.2 = q.2) (tick_ghost rng p i)
      (tick_ghost rng q i) := by
  obtain ⟨s, r⟩ := p
  obtain ⟨t, _⟩ := q
  obtain ⟨h, rfl⟩ := h
  change LockIn s t at h
  have hghost := h.inv.ghosts i
  have hat : (t.ghosts.get i) = (s.ghosts.get i) := by rw [h.agree.ghosts]
  simp only [tick_ghost, Option.bind_eq_bind, hat,
    ← choose_ghost_direction_eq rng h.agree (s.ghosts.get i).direction hghost]
  cases choose_ghost_direction rng s (s.ghosts.get i).direction (s.ghosts.get i).x (s.ghosts.get i).y r with
  | none => exact .none
  | some chosen =>
    obtain ⟨d, r'⟩ := chosen
    simp only [Option.bind_some]
    apply rel_bind (do_move_rel h.agree d hghost)
    rintro ⟨x, y⟩ _ ⟨rfl, hxy⟩
    refine .some ⟨⟨⟨{ h.agree with ghosts := by rw [h.agree.ghosts] },
      { h.inv with ghosts := ?_ }⟩, h.level_lt⟩, rfl⟩
    intro j
    rw [get_set]
    split
    · exact hxy
    · exact h.inv.ghosts j

theorem check_death_eq {s t : State} (h : Agree s t) : check_death s = check_death t := by
  simp only [check_death, h.x, h.y, h.ghosts]

theorem tick_rel {s t : State} (h : Lock s t) (r : R) :
    Option.Rel (fun p q => p.1 = q.1 ∧ LockIn p.2.1 q.2.1 ∧ p.2.2 = q.2.2) (tick rng s r)
      (tick rng t r) := by
  simp only [tick, Option.bind_eq_bind]
  apply rel_bind (tick_gman_rel h)
  rintro ⟨result, s⟩ ⟨_, t⟩ ⟨rfl, h⟩
  simp only [← check_death_eq h.agree]
  split
  · exact .some ⟨rfl, h, rfl⟩
  · split
    · exact .some ⟨rfl, h, rfl⟩
    · refine rel_bind (rel_foldlM (tick_ghost_rel rng) _ ⟨h, rfl⟩) ?_
      rintro ⟨s, r⟩ ⟨t, _⟩ ⟨h, rfl⟩
      exact .some ⟨check_death_eq h.agree, h, rfl⟩

end CtfChallenges.Gman
