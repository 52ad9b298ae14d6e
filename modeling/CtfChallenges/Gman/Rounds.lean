import CtfChallenges.Gman.Movement
import CtfChallenges.Gman.Steering
import Mathlib.Data.List.ProdSigma

/-!
# One pass of the main loop

What a pass can do to a game below the last level: it always has a value, it leaves everybody on
the floor, and it eats at most one pellet.
-/

namespace CtfChallenges.Gman
open Framework

def pellet (board : Board) (cell : Nat × Nat) : Bool :=
  get_bit board.pellets cell.1 cell.2 == some true

/-- The number of pellet bits that are set. -/
def pellets_left (board : Board) : Nat := cells.countP (pellet board)

private theorem get_pellet {x y : Nat} (h : OnBoard x y) (board : Board) :
    get_bit board.pellets x y = some (pellet board (x, y)) := by
  obtain ⟨v, hv⟩ := Option.isSome_iff_exists.mp (get_bit_isSome h board.pellets)
  cases v <;> simp [pellet, hv]

private theorem anyM_some {α : Type} {f : α → Option Bool} {g : α → Bool} :
    ∀ (l : List α), (∀ a ∈ l, f a = some (g a)) → l.anyM f = some (l.any g)
  | [], _ => rfl
  | a :: l, h => by
    rw [List.forall_mem_cons] at h
    cases hg : g a <;> simp [List.anyM, h.1, hg, anyM_some l h.2]

theorem pellets_remaining_spec {s : State} {board : Board} (h : current_board s = some board) :
    pellets_remaining s = some (decide (0 < pellets_left board)) := by
  have hget : ∀ cell ∈ cells, get_bit board.pellets cell.1 cell.2 = some (pellet board cell) :=
    fun cell hcell => get_pellet (mem_cells.mp hcell) board
  have hany : cells.any (pellet board) = decide (0 < pellets_left board) := by
    rw [Bool.eq_iff_iff, List.any_eq_true, decide_eq_true_iff, pellets_left, List.countP_pos_iff]
  simp only [pellets_remaining, h, Option.bind_eq_bind, Option.bind_some]
  rw [← hany]
  exact anyM_some cells hget

private theorem nodup_cells : cells.Nodup := by
  change (List.range COLS ×ˢ List.range ROWS).Nodup
  exact List.nodup_range.product List.nodup_range

private theorem countP_update {α : Type} [DecidableEq α] {p q : α → Bool} {l : List α} {a : α}
    (hl : l.Nodup) (ha : a ∈ l) (hp : p a = true) (hq : q a = false)
    (hother : ∀ b ∈ l, b ≠ a → q b = p b) : l.countP q + 1 = l.countP p := by
  have hperm := List.perm_cons_erase ha
  have hrest : (l.erase a).countP q = (l.erase a).countP p := by
    apply List.countP_congr
    intro b hb
    have hne : b ≠ a := fun h => (hl.mem_erase_iff.mp hb).1 h
    rw [hother b (List.mem_of_mem_erase hb) hne]
  rw [hperm.countP_eq q, hperm.countP_eq p, List.countP_cons_of_neg (by simp [hq]),
    List.countP_cons_of_pos hp, hrest]

/-- Clearing the bit of a pellet leaves one pellet less, and none where there was none. -/
theorem pellets_left_clear {board : Board} {x y : Nat} (h : OnBoard x y) {pellets : Bitmap}
    (hpellet : get_bit board.pellets x y = some true)
    (hclear : set_bit board.pellets x y 0 = some pellets) :
    pellets_left { board with pellets := pellets } + 1 = pellets_left board := by
  have hread : ∀ cell ∈ cells, get_bit pellets cell.1 cell.2 =
      if cell.1 = x ∧ cell.2 = y then some false else get_bit board.pellets cell.1 cell.2 :=
    fun cell hcell => get_bit_set_bit hclear h (mem_cells.mp hcell)
  apply countP_update nodup_cells (mem_cells.mpr h)
  · simp [pellet, hpellet]
  · simp [pellet, hread _ (mem_cells.mpr h)]
  · intro cell hcell hne
    have hdiff : ¬ (cell.1 = x ∧ cell.2 = y) := fun heq => hne (Prod.ext heq.1 heq.2)
    rw [pellet, hread cell hcell, if_neg hdiff, pellet]

theorem do_move_spec {s : State} (h : InPlace s) (hl : s.level.toNat < MAX_LEVELS) {x y : UInt8}
    (hxy : Stands s.level.toNat x y) (d : Direction) :
    ∃ x' y', do_move s d x y = some (x', y') ∧ Stands s.level.toNat x' y' := by
  obtain ⟨v, hmove, hnext⟩ := can_move_spec h hl hxy d
  simp only [do_move, hmove, Option.bind_eq_bind, Option.bind_some]
  cases v with
  | true => exact ⟨_, _, rfl, hnext rfl⟩
  | false => exact ⟨_, _, rfl, hxy⟩

/-- The same state but for the directions of gman. -/
def Turned (s t : State) : Prop :=
  ∃ d d', t = { s with direction := d, next_direction := d' }

theorem InPlace.turned {s t : State} (h : InPlace s) (hturn : Turned s t) : InPlace t := by
  obtain ⟨d, d', rfl⟩ := hturn
  exact ⟨h.boards, h.gman, h.ghosts⟩

theorem change_direction_spec {s : State} (h : InPlace s) (hl : s.level.toNat < MAX_LEVELS) :
    ∃ t, change_direction_if_possible s = some t ∧ Turned s t := by
  obtain ⟨v, hmove, -⟩ := can_move_spec h hl h.gman s.next_direction
  simp only [change_direction_if_possible, hmove, Option.bind_eq_bind, Option.bind_some]
  split
  · exact ⟨s, rfl, _, _, rfl⟩
  · cases v with
    | true => exact ⟨_, rfl, _, _, rfl⟩
    | false => exact ⟨s, rfl, _, _, rfl⟩

/-- The player asks to leave the game. -/
def Quits (input : Input) : Prop := last_key input = some (.char 'q')

theorem handle_input_quits {input : Input} (h : Quits input) (s : State) :
    handle_input s input = some (s, true) := by
  unfold Quits at h
  rw [handle_input, if_pos h]
  rfl

theorem handle_input_spec {s : State} (h : InPlace s) (hl : s.level.toNat < MAX_LEVELS)
    {input : Input} (hq : ¬ Quits input) :
    ∃ t, handle_input s input = some (t, false) ∧ Turned s t := by
  have hnext : InPlace
      { s with next_direction := (turn_key (last_key input)).getD s.next_direction } :=
    h.turned ⟨_, _, rfl⟩
  obtain ⟨t, hchange, d, d', rfl⟩ := change_direction_spec hnext hl
  unfold Quits at hq
  rw [handle_input, if_neg hq]
  simp only [hchange, Option.bind_eq_bind, Option.bind_some]
  exact ⟨_, rfl, _, _, rfl⟩

/-- Gman has eaten a pellet of the current level. -/
structure Eats (s t : State) : Prop where
  score : t.score = s.score + PELLET_VALUE
  here : ∀ l : Fin MAX_LEVELS, s.level.toNat = l →
    pellets_left (t.boards.get l) + 1 = pellets_left (s.boards.get l)
  elsewhere : ∀ l : Fin MAX_LEVELS, s.level.toNat ≠ l → t.boards.get l = s.boards.get l

/-- The result that goes with what was eaten: a win is the last pellet of the level. -/
def Scored (s : State) (result : RoundResult) (t : State) : Prop :=
  (t.score = s.score ∧ t.boards = s.boards ∧ result ≠ .WIN) ∨
    (Eats s t ∧ (result = .WIN ↔
      ∀ l : Fin MAX_LEVELS, s.level.toNat = l → pellets_left (t.boards.get l) = 0))

/-- What `tick` and its parts do to a state. -/
structure Ticked (s : State) (result : RoundResult) (t : State) : Prop where
  inPlace : InPlace t
  level : t.level = s.level
  lives : t.lives = s.lives
  scored : Scored s result t

private theorem Eats.last_iff {s t : State} (h : Eats s t) (hl : s.level.toNat < MAX_LEVELS) :
    (∀ l : Fin MAX_LEVELS, s.level.toNat = l → pellets_left (t.boards.get l) = 0) ↔
      pellets_left (s.boards.get ⟨s.level.toNat, hl⟩) = 1 := by
  have hhere := h.here ⟨s.level.toNat, hl⟩ rfl
  constructor
  · intro hzero
    have hnone := hzero ⟨s.level.toNat, hl⟩ rfl
    omega
  · intro hone l hsame
    rw [show l = ⟨s.level.toNat, hl⟩ from Fin.ext hsame.symm]
    omega

private theorem tick_gman_eats {s : State} (h : InPlace s) (hl : s.level.toNat < MAX_LEVELS)
    (hpellet : get_bit (s.boards.get ⟨s.level.toNat, hl⟩).pellets s.x.toNat s.y.toNat = some true)
    {pellets : Bitmap}
    (hclear : set_bit (s.boards.get ⟨s.level.toNat, hl⟩).pellets s.x.toNat s.y.toNat 0 =
      some pellets) :
    let t := set_board { s with score := s.score + PELLET_VALUE }
      { s.boards.get ⟨s.level.toNat, hl⟩ with pellets := pellets }
    InPlace t ∧ Eats s t := by
  intro t
  have hget : ∀ l : Fin MAX_LEVELS, t.boards.get l =
      if s.level.toNat = l then { s.boards.get ⟨s.level.toNat, hl⟩ with pellets := pellets }
      else s.boards.get l :=
    fun l => get_set_board { s with score := s.score + PELLET_VALUE } _ l
  constructor
  · constructor
    · intro l
      rw [hget]
      split
      · rename_i hsame
        have hold := h.boards l
        have hboard : s.boards.get l = s.boards.get ⟨s.level.toNat, hl⟩ := by
          congr 1
          exact Fin.ext hsame.symm
        rw [hboard] at hold
        refine ⟨hold.walls, fun x y hxy hbit => hold.pellets x y hxy ?_⟩
        rw [get_bit_set_bit hclear h.gman.1 hxy] at hbit
        split at hbit
        · cases hbit
        · exact hbit
      · exact h.boards l
    · exact h.gman
    · exact h.ghosts
  · constructor
    · rfl
    · intro l hsame
      have hboard : s.boards.get l = s.boards.get ⟨s.level.toNat, hl⟩ := by
        congr 1
        exact Fin.ext hsame.symm
      rw [hget, if_pos hsame, hboard]
      exact pellets_left_clear h.gman.1 hpellet hclear
    · intro l hother
      rw [hget, if_neg hother]

private theorem current_board_set_board {s : State} (hl : s.level.toNat < MAX_LEVELS)
    (board : Board) : current_board (set_board s board) = some board := by
  have hl' : (set_board s board).level.toNat < MAX_LEVELS := hl
  rw [current_board_get hl', get_set_board, if_pos]
  rfl

/-- The cell that gman moves to holds the only pellet left. -/
def TakesLast (s : State) : Prop :=
  ∃ x y board, do_move s s.direction s.x s.y = some (x, y) ∧ current_board s = some board ∧
    get_bit board.pellets x.toNat y.toNat = some true ∧ pellets_left board = 1

private theorem takesLast_iff {s : State} (hl : s.level.toNat < MAX_LEVELS) {x y : UInt8}
    (hmove : do_move s s.direction s.x s.y = some (x, y)) :
    TakesLast s ↔
      get_bit (s.boards.get ⟨s.level.toNat, hl⟩).pellets x.toNat y.toNat = some true ∧
        pellets_left (s.boards.get ⟨s.level.toNat, hl⟩) = 1 := by
  constructor
  · rintro ⟨x', y', board, hmove', hboard, hpellet, hone⟩
    rw [hmove, Option.some.injEq, Prod.mk.injEq] at hmove'
    obtain ⟨rfl, rfl⟩ := hmove'
    rw [current_board_get hl, Option.some.injEq] at hboard
    subst hboard
    exact ⟨hpellet, hone⟩
  · intro hlast
    exact ⟨x, y, _, hmove, current_board_get hl, hlast⟩

theorem tick_gman_spec {s : State} (h : InPlace s) (hl : s.level.toNat < MAX_LEVELS) :
    ∃ result t, tick_gman s = some (result, t) ∧ Ticked s result t ∧
      (result = .WIN ↔ TakesLast s) := by
  obtain ⟨x, y, hmove, hxy⟩ := do_move_spec h hl h.gman s.direction
  have hmoved : InPlace { s with x := x, y := y } := ⟨h.boards, hxy, h.ghosts⟩
  obtain ⟨t, hchange, hturned⟩ := change_direction_spec hmoved hl
  have hplace : InPlace t := hmoved.turned hturned
  obtain ⟨d, d', rfl⟩ := hturned
  obtain ⟨v, hv⟩ := Option.isSome_iff_exists.mp
    (get_bit_isSome hxy.1 (s.boards.get ⟨s.level.toNat, hl⟩).pellets)
  simp only [tick_gman, hmove, hchange, current_board_get (s := { s with
    x := x, y := y, direction := d, next_direction := d' }) hl, Option.bind_eq_bind,
    Option.bind_some, hv, takesLast_iff hl hmove]
  cases v with
  | false =>
    refine ⟨_, _, rfl, ⟨hplace, rfl, rfl, .inl ⟨rfl, rfl, by decide⟩⟩, ?_⟩
    simp
  | true =>
    obtain ⟨pellets, hclear⟩ :=
      set_bit_isSome hxy.1 (s.boards.get ⟨s.level.toNat, hl⟩).pellets 0
    have hless : pellets_left { s.boards.get ⟨s.level.toNat, hl⟩ with pellets := pellets } + 1 =
        pellets_left (s.boards.get ⟨s.level.toNat, hl⟩) := pellets_left_clear hxy.1 hv hclear
    obtain ⟨hplace', heats'⟩ := tick_gman_eats hplace hl hv hclear
    have heats : Eats s _ := ⟨heats'.score, heats'.here, heats'.elsewhere⟩
    have hboard := current_board_set_board (s := { s with
      x := x, y := y, direction := d, next_direction := d', score := s.score + PELLET_VALUE }) hl
      { s.boards.get ⟨s.level.toNat, hl⟩ with pellets := pellets }
    simp only [hclear, Option.bind_some, if_true, pellets_remaining_spec hboard, true_and]
    by_cases hlast : 0 < pellets_left { s.boards.get ⟨s.level.toNat, hl⟩ with pellets := pellets }
    · rw [decide_eq_true hlast]
      have hwin : RoundResult.NONE = .WIN ↔
          pellets_left (s.boards.get ⟨s.level.toNat, hl⟩) = 1 :=
        iff_of_false (by decide) (by omega)
      exact ⟨.NONE, _, rfl,
        ⟨hplace', rfl, rfl, .inr ⟨heats, hwin.trans (heats.last_iff hl).symm⟩⟩, hwin⟩
    · rw [decide_eq_false hlast]
      have hwin : RoundResult.WIN = .WIN ↔
          pellets_left (s.boards.get ⟨s.level.toNat, hl⟩) = 1 :=
        iff_of_true rfl (by omega)
      exact ⟨.WIN, _, rfl,
        ⟨hplace', rfl, rfl, .inr ⟨heats, hwin.trans (heats.last_iff hl).symm⟩⟩, hwin⟩

variable {R : Type} (rng : Rand R)

private theorem tick_ghosts_of_list (is : List (Fin GHOST_COUNT)) {s : State} (r : R)
    (h : InPlace s) (hl : s.level.toNat < MAX_LEVELS) (hnodup : is.Nodup)
    (hapart : ∀ i ∈ is, Apart s (s.ghosts.get i).x (s.ghosts.get i).y) :
    ∃ ghosts r', is.foldlM (tick_ghost rng) (s, r) = some ({ s with ghosts := ghosts }, r') ∧
      InPlace { s with ghosts := ghosts } := by
  induction is generalizing s r with
  | nil => exact ⟨s.ghosts, r, rfl, h⟩
  | cons i is ih =>
    rw [List.forall_mem_cons] at hapart
    rw [List.nodup_cons] at hnodup
    obtain ⟨d, r₁, hchoose⟩ := choose_ghost_direction_isSome rng
      (can_move_isSome hl (h.ghosts i).1) hapart.1 (s.ghosts.get i).direction r
    obtain ⟨x, y, hmove, hxy⟩ := do_move_spec h hl (h.ghosts i) d
    have hplace : InPlace { s with ghosts := s.ghosts.set i { x := x, y := y, direction := d } } := by
      constructor
      · exact h.boards
      · exact h.gman
      · intro j
        rw [get_set]
        split
        · exact hxy
        · exact h.ghosts j
    have hrest : ∀ j ∈ is, Apart
        { s with ghosts := s.ghosts.set i { x := x, y := y, direction := d } }
        ((s.ghosts.set i { x := x, y := y, direction := d }).get j).x
        ((s.ghosts.set i { x := x, y := y, direction := d }).get j).y := by
      intro j hj
      have hne : j ≠ i := fun heq => hnodup.1 (heq ▸ hj)
      rw [get_set, if_neg hne]
      exact hapart.2 j hj
    obtain ⟨ghosts, r', hrun, hplace'⟩ := ih r₁ hplace hl hnodup.2 hrest
    refine ⟨ghosts, r', ?_, hplace'⟩
    simp only [List.foldlM_cons, tick_ghost, hchoose, hmove, Option.bind_eq_bind, Option.bind_some,
      Option.pure_def]
    exact hrun

theorem tick_ghosts_spec {s : State} (r : R) (h : InPlace s) (hl : s.level.toNat < MAX_LEVELS)
    (halive : check_death s = .NONE) :
    ∃ ghosts r', tick_ghosts rng s r = some ({ s with ghosts := ghosts }, r') ∧
      InPlace { s with ghosts := ghosts } := by
  apply tick_ghosts_of_list rng (List.finRange GHOST_COUNT) r h hl (List.nodup_finRange _)
  intro i _ hsame
  have hmet : (s.ghosts.any fun ghost => s.x == ghost.x && s.y == ghost.y) = true := by
    rw [Vector.any_eq_true]
    refine ⟨i, i.isLt, ?_⟩
    simp only [Bool.and_eq_true, beq_iff_eq]
    exact hsame
  rw [check_death, if_pos hmet] at halive
  cases halive

private theorem check_death_ne_win (s : State) : check_death s ≠ .WIN := by
  unfold check_death
  split <;> decide

private theorem Ticked.ghosts_moved {s t : State} (h : Ticked s .NONE t) {result : RoundResult}
    (hresult : result ≠ .WIN) {ghosts : Vector Ghost GHOST_COUNT}
    (hplace : InPlace { t with ghosts := ghosts }) :
    Ticked s result { t with ghosts := ghosts } := by
  refine ⟨hplace, h.level, h.lives, ?_⟩
  obtain ⟨hscore, hboards, -⟩ | ⟨heats, hwin⟩ := h.scored
  · exact .inl ⟨hscore, hboards, hresult⟩
  · refine .inr ⟨⟨heats.score, heats.here, heats.elsewhere⟩, ?_⟩
    constructor
    · intro heq
      exact absurd heq hresult
    · intro hzero
      have hnone : RoundResult.NONE = .WIN := hwin.mpr hzero
      cases hnone

theorem tick_spec {s : State} (r : R) (h : InPlace s) (hl : s.level.toNat < MAX_LEVELS) :
    ∃ result t r', tick rng s r = some (result, t, r') ∧ Ticked s result t ∧
      (result = .WIN ↔ TakesLast s) := by
  obtain ⟨result, t, hgman, hticked, hwin⟩ := tick_gman_spec h hl
  simp only [tick, hgman, Option.bind_eq_bind, Option.bind_some]
  by_cases hresult : result = .NONE
  · subst hresult
    rw [if_neg (by simp)]
    have hl' : t.level.toNat < MAX_LEVELS := hticked.level ▸ hl
    have hleaves : ¬ TakesLast s := by
      intro hlast
      cases hwin.mpr hlast
    by_cases halive : check_death t = .NONE
    · obtain ⟨ghosts, r', hghosts, hplace⟩ := tick_ghosts_spec rng r hticked.inPlace hl' halive
      rw [if_neg (by simp [halive]), hghosts]
      exact ⟨_, _, _, rfl, hticked.ghosts_moved (check_death_ne_win _) hplace,
        iff_of_false (check_death_ne_win _) hleaves⟩
    · rw [if_pos halive]
      exact ⟨_, _, _, rfl, hticked.ghosts_moved (by decide) hticked.inPlace,
        iff_of_false (by decide) hleaves⟩
  · rw [if_pos hresult]
    exact ⟨result, t, r, rfl, hticked, hwin⟩

/-- After the keys, gman moves to the only pellet left. -/
def EatsLast (s : State) (input : Input) : Prop :=
  ∃ t, handle_input s input = some (t, false) ∧ TakesLast t

/-- The main loop after `tick`. -/
def settle (result : RoundResult) (m : Machine R) : Outcome × Machine R :=
  match result with
  | .WIN => (.win (do_win rng m).1, (do_win rng m).2)
  | .DIE =>
    let m := { m with state := { m.state with lives := m.state.lives - 1 } }
    if m.state.lives < 0 then (.over, m)
    else
      (.die (show_password rng m).1,
        { (show_password rng m).2 with state := reset (show_password rng m).2.state })
  | .NONE => (.none, m)

theorem play_round_quits {m : Machine R} {input : Input} (h : Quits input) :
    play_round rng m input = some (.quit, m) := by
  rw [play_round, handle_input_quits h]
  rfl

/-- A pass that does not quit: the keys, the tick with its result, and what the loop makes of it. -/
structure Played (m : Machine R) (input : Input) (s : State) (result : RoundResult) (t : State)
    (r : R) : Prop where
  keys : handle_input m.state input = some (s, false)
  turned : Turned m.state s
  tick : tick rng s m.rand = some (result, t, r)
  ticked : Ticked m.state result t
  win : result = .WIN ↔ EatsLast m.state input
  round : play_round rng m input = some (settle rng result ⟨t, r⟩)

theorem play_round_spec {m : Machine R} {input : Input} (h : InPlace m.state)
    (hl : m.state.level.toNat < MAX_LEVELS) (hq : ¬ Quits input) :
    ∃ s result t r, Played rng m input s result t r := by
  obtain ⟨s, hinput, hturned⟩ := handle_input_spec h hl hq
  have hplace := h.turned hturned
  obtain ⟨d, d', rfl⟩ := hturned
  obtain ⟨result, t, r, htick, hticked, hwin⟩ := tick_spec rng m.rand hplace hl
  refine ⟨_, result, t, r, hinput, ⟨d, d', rfl⟩, htick, ?_, ?_, ?_⟩
  · obtain ⟨hscore, hboards, hresult⟩ | ⟨heats, hwin⟩ := hticked.scored
    · exact ⟨hticked.inPlace, hticked.level, hticked.lives, .inl ⟨hscore, hboards, hresult⟩⟩
    · exact ⟨hticked.inPlace, hticked.level, hticked.lives,
        .inr ⟨⟨heats.score, heats.here, heats.elsewhere⟩, hwin⟩⟩
  · simp only [hwin, EatsLast, hinput, Option.some.injEq, Prod.mk.injEq, and_true, exists_eq_left']
  · simp only [play_round, hinput, htick, Option.bind_eq_bind, Option.bind_some, settle]
    cases result with
    | WIN => rfl
    | NONE => rfl
    | DIE =>
      rw [if_neg (by simp)]
      dsimp only
      split <;> rfl

private theorem tick_gman_beyond {s : State} (hl : MAX_LEVELS ≤ s.level.toNat) :
    tick_gman s = none := by
  have hboard : current_board s = none := Vector.getElem?_eq_none hl
  have hmove : do_move s s.direction s.x s.y = none := by
    rw [do_move, can_move, hboard]
    rfl
  rw [tick_gman, hmove]
  rfl

theorem change_direction_turned {s t : State} (h : change_direction_if_possible s = some t) :
    Turned s t := by
  unfold change_direction_if_possible at h
  split at h
  · cases h
    exact ⟨_, _, rfl⟩
  · obtain ⟨v, -, h⟩ := Option.bind_eq_some_iff.mp h
    cases v with
    | true =>
      cases h
      exact ⟨_, _, rfl⟩
    | false =>
      cases h
      exact ⟨_, _, rfl⟩

theorem handle_input_turned {s t : State} {input : Input}
    (h : handle_input s input = some (t, false)) : Turned s t := by
  rw [handle_input] at h
  split at h
  · cases h
  · obtain ⟨u, hchange, h⟩ := Option.bind_eq_some_iff.mp h
    obtain ⟨d, d', rfl⟩ := change_direction_turned hchange
    cases h
    exact ⟨_, _, rfl⟩

/-- At a level without a board, a pass that is not the last has no value. -/
theorem play_round_beyond {m : Machine R} {input : Input} (hl : MAX_LEVELS ≤ m.state.level.toNat)
    (hq : ¬ Quits input) : play_round rng m input = none := by
  unfold Quits at hq
  simp only [play_round, handle_input, if_neg hq, Option.bind_eq_bind]
  generalize hturn : change_direction_if_possible { m.state with
    next_direction := (turn_key (last_key input)).getD m.state.next_direction } = turned
  cases turned with
  | none => rfl
  | some s =>
    have htick : tick_gman s = none := by
      obtain ⟨d, d', rfl⟩ := change_direction_turned hturn
      exact tick_gman_beyond hl
    simp only [tick, htick, Option.bind_eq_bind, Option.bind_some, Option.pure_def]
    rfl

/-- A pass that is not the last is made at a level with a board, and leaves what its tick leads to. -/
theorem play_cases {m m' : Machine R} {input : Input} (h : InPlace m.state)
    (hplay : play rng m input = some m') :
    ¬ Quits input ∧ m.state.level.toNat < MAX_LEVELS ∧
      ∃ s result t r, Played rng m input s result t r ∧
        (settle rng result ⟨t, r⟩).1.final = false ∧ m' = (settle rng result ⟨t, r⟩).2 := by
  rw [play] at hplay
  obtain ⟨⟨outcome, m₁⟩, hround, hgo⟩ := Option.bind_eq_some_iff.mp hplay
  by_cases hq : Quits input
  · rw [play_round_quits rng hq] at hround
    cases hround
    cases hgo
  · by_cases hl : m.state.level.toNat < MAX_LEVELS
    · obtain ⟨s, result, t, r, hplayed⟩ := play_round_spec rng h hl hq
      refine ⟨hq, hl, s, result, t, r, hplayed, ?_⟩
      rw [hplayed.round, Option.some.injEq] at hround
      dsimp only at hgo
      split at hgo
      · cases hgo
      · rename_i hfinal
        cases hgo
        rw [hround]
        exact ⟨Bool.eq_false_of_not_eq_true hfinal, rfl⟩
    · rw [play_round_beyond rng (Nat.le_of_not_lt hl) hq] at hround
      cases hround

theorem settle_inPlace {result : RoundResult} {m : Machine R} (h : InPlace m.state) :
    InPlace (settle rng result m).2.state := by
  cases result with
  | NONE => exact h
  | WIN => exact reset_inPlace h.boards
  | DIE =>
    simp only [settle]
    split
    · exact ⟨h.boards, h.gman, h.ghosts⟩
    · exact reset_inPlace h.boards

theorem settle_level (result : RoundResult) (m : Machine R) :
    (settle rng result m).2.state.level =
      if result = .WIN then m.state.level + 1 else m.state.level := by
  cases result with
  | NONE => rfl
  | WIN => rfl
  | DIE =>
    simp only [settle]
    split <;> rfl

end CtfChallenges.Gman
