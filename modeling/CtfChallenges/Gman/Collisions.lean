import CtfChallenges.Gman.Containment

/-!
# Gman and the ghosts never share a cell

Everybody moves one after the other. A pass that goes on has looked for a death after gman and
after the ghosts, and every other pass puts everybody back to the start.
-/

namespace CtfChallenges.Gman
open Framework

variable {R : Type} (rng : Rand R)

/-- No ghost is on the cell of gman. -/
def Clear (s : State) : Prop :=
  ∀ i : Fin GHOST_COUNT, Apart s (s.ghosts.get i).x (s.ghosts.get i).y

theorem check_death_eq_none_iff (s : State) : check_death s = .NONE ↔ Clear s := by
  have hmet : check_death s = .NONE ↔
      ¬ (s.ghosts.any fun ghost => s.x == ghost.x && s.y == ghost.y) = true := by
    unfold check_death
    split <;> simp_all
  rw [hmet, Vector.any_eq_true]
  constructor
  · intro hnone i hsame
    apply hnone
    refine ⟨i, i.isLt, ?_⟩
    rw [Bool.and_eq_true, beq_iff_eq, beq_iff_eq]
    exact hsame
  · rintro hclear ⟨i, hi, hsame⟩
    rw [Bool.and_eq_true, beq_iff_eq, beq_iff_eq] at hsame
    exact hclear ⟨i, hi⟩ hsame

/-- The state of a tick after the first ghosts have moved. There is none when the tick is over
before their turn. -/
def moved (s : State) (r : R) (k : Nat) : Option (State × R) := do
  let (result, state) ← tick_gman s
  if result ≠ .NONE then none
  if check_death state ≠ .NONE then none
  ((List.finRange GHOST_COUNT).take k).foldlM (tick_ghost rng) (state, r)

private theorem tick_ghost_frame {s u : State} {r r' : R} {i : Fin GHOST_COUNT}
    (h : tick_ghost rng (s, r) i = some (u, r')) :
    ∃ ghost, u = { s with ghosts := s.ghosts.set i ghost i.isLt } := by
  simp only [tick_ghost, Option.bind_eq_bind] at h
  obtain ⟨⟨d, r₁⟩, -, h⟩ := Option.bind_eq_some_iff.mp h
  obtain ⟨⟨x, y⟩, -, h⟩ := Option.bind_eq_some_iff.mp h
  cases h
  exact ⟨_, rfl⟩

/-- The turns of some ghosts leave everything but these ghosts alone. -/
theorem tick_ghosts_frame (is : List (Fin GHOST_COUNT)) {s u : State} {r r' : R}
    (h : is.foldlM (tick_ghost rng) (s, r) = some (u, r')) :
    u = { s with ghosts := u.ghosts } ∧ ∀ j ∉ is, u.ghosts.get j = s.ghosts.get j := by
  induction is generalizing s r with
  | nil =>
    cases h
    exact ⟨rfl, fun _ _ => rfl⟩
  | cons i is ih =>
    rw [List.foldlM_cons] at h
    obtain ⟨⟨t, r₁⟩, hturn, hrest⟩ := Option.bind_eq_some_iff.mp h
    obtain ⟨ghost, rfl⟩ := tick_ghost_frame rng hturn
    obtain ⟨hu, hother⟩ := ih hrest
    refine ⟨hu, ?_⟩
    intro j hj
    rw [List.mem_cons, not_or] at hj
    rw [hother j hj.2, get_set, if_neg hj.1]

/-- What a tick that comes to the ghosts has done. -/
theorem moved_cases {s u : State} {r r' : R} {k : Nat} (h : moved rng s r k = some (u, r')) :
    ∃ t, tick_gman s = some (.NONE, t) ∧ Clear t ∧
      ((List.finRange GHOST_COUNT).take k).foldlM (tick_ghost rng) (t, r) = some (u, r') := by
  rw [moved, Option.bind_eq_bind] at h
  obtain ⟨⟨result, t⟩, hgman, h⟩ := Option.bind_eq_some_iff.mp h
  dsimp only at h
  split at h
  · cases h
  · rename_i hresult
    rw [not_not] at hresult
    subst hresult
    dsimp only [Option.bind_some, Option.pure_def, Option.bind_eq_bind] at h
    split at h
    · cases h
    · rename_i hdeath
      rw [not_not, check_death_eq_none_iff] at hdeath
      exact ⟨t, hgman, hdeath, h⟩

/-- A tick without a result is the turns of all ghosts, and nobody has met afterwards. -/
theorem tick_none {s t : State} {r r' : R} (h : tick rng s r = some (.NONE, t, r')) :
    moved rng s r GHOST_COUNT = some (t, r') ∧ Clear t := by
  rw [tick, Option.bind_eq_bind] at h
  obtain ⟨⟨result, g⟩, hgman, h⟩ := Option.bind_eq_some_iff.mp h
  dsimp only at h
  split at h
  · rename_i hresult
    cases h
    exact absurd rfl hresult
  · rename_i hresult
    split at h
    · cases h
    · rename_i hdeath
      obtain ⟨⟨u, r₁⟩, hghosts, h⟩ := Option.bind_eq_some_iff.mp h
      simp only [Option.pure_def, Option.some.injEq, Prod.mk.injEq] at h
      obtain ⟨hnone, rfl, rfl⟩ := h
      refine ⟨?_, (check_death_eq_none_iff _).mp hnone⟩
      have hall : (List.finRange GHOST_COUNT).take GHOST_COUNT = List.finRange GHOST_COUNT := rfl
      simp only [moved, hgman, Option.bind_eq_bind, Option.bind_some, hall, if_neg hresult,
        if_neg hdeath]
      exact hghosts

private theorem moved_turn {s u : State} {r r' : R} {i : Fin GHOST_COUNT}
    (h : moved rng s r i = some (u, r')) :
    ∃ t, tick_gman s = some (.NONE, t) ∧ Clear t ∧ u = { t with ghosts := u.ghosts } ∧
      u.ghosts.get i = t.ghosts.get i := by
  obtain ⟨t, hgman, hclear, hturns⟩ := moved_cases rng h
  obtain ⟨hu, hother⟩ := tick_ghosts_frame rng _ hturns
  have hlater : ∀ i : Fin GHOST_COUNT, i ∉ (List.finRange GHOST_COUNT).take i := by decide
  exact ⟨t, hgman, hclear, hu, hother i (hlater i)⟩

theorem moved_apart {s u : State} {r r' : R} {i : Fin GHOST_COUNT}
    (h : moved rng s r i = some (u, r')) : Apart u (u.ghosts.get i).x (u.ghosts.get i).y := by
  obtain ⟨t, -, hclear, hu, hghost⟩ := moved_turn rng h
  rw [hghost, hu]
  exact hclear i

/-- Between the turns of a tick without a result nobody has met: a ghost is where it was or
already where it will be. -/
private theorem moved_clear {s t : State} {r r' : R} (h : tick rng s r = some (.NONE, t, r'))
    (k : Nat) : ∃ u r₁, moved rng s r k = some (u, r₁) ∧ Clear u := by
  obtain ⟨hmoved, hclear⟩ := tick_none rng h
  obtain ⟨g, hgman, hclear₀, hturns⟩ := moved_cases rng hmoved
  have hdeath : check_death g = .NONE := (check_death_eq_none_iff g).mpr hclear₀
  have hsplit : (List.finRange GHOST_COUNT).take k ++ (List.finRange GHOST_COUNT).drop k =
      List.finRange GHOST_COUNT := List.take_append_drop k _
  have hall : (List.finRange GHOST_COUNT).take GHOST_COUNT = List.finRange GHOST_COUNT := rfl
  rw [hall, ← hsplit, List.foldlM_append] at hturns
  obtain ⟨⟨u, r₁⟩, hfirst, hrest⟩ := Option.bind_eq_some_iff.mp hturns
  refine ⟨u, r₁, ?_, ?_⟩
  · simp only [moved, hgman, hdeath, Option.bind_eq_bind, Option.bind_some, ne_eq,
      not_true_eq_false, if_false]
    exact hfirst
  · obtain ⟨hu, hkept⟩ := tick_ghosts_frame rng _ hfirst
    obtain ⟨ht, hkept'⟩ := tick_ghosts_frame rng _ hrest
    intro j
    by_cases hj : j ∈ (List.finRange GHOST_COUNT).take k
    · have hnodup : ((List.finRange GHOST_COUNT).take k ++
          (List.finRange GHOST_COUNT).drop k).Nodup := hsplit.symm ▸ List.nodup_finRange _
      have hlater := fun hlater => List.disjoint_of_nodup_append hnodup hj hlater
      rw [← hkept' j hlater]
      have hapart := hclear j
      rw [ht] at hapart
      exact hapart
    · rw [hkept j hj, hu]
      exact hclear₀ j

theorem tick_gman_ghosts {s t : State} {result : RoundResult}
    (h : tick_gman s = some (result, t)) : t.ghosts = s.ghosts := by
  simp only [tick_gman, Option.bind_eq_bind] at h
  obtain ⟨⟨x, y⟩, -, h⟩ := Option.bind_eq_some_iff.mp h
  obtain ⟨u, hchange, h⟩ := Option.bind_eq_some_iff.mp h
  obtain ⟨d, d', rfl⟩ := change_direction_turned hchange
  obtain ⟨board, -, h⟩ := Option.bind_eq_some_iff.mp h
  obtain ⟨v, -, h⟩ := Option.bind_eq_some_iff.mp h
  cases v with
  | false =>
    cases h
    rfl
  | true =>
    obtain ⟨pellets, -, h⟩ := Option.bind_eq_some_iff.mp h
    obtain ⟨left, -, h⟩ := Option.bind_eq_some_iff.mp h
    cases left with
    | false =>
      cases h
      rfl
    | true =>
      cases h
      rfl

/-- Until its turn a ghost is where it was before the tick. -/
theorem moved_ghost {s u : State} {r r' : R} {i : Fin GHOST_COUNT}
    (h : moved rng s r i = some (u, r')) : u.ghosts.get i = s.ghosts.get i := by
  obtain ⟨t, hgman, -, -, hghost⟩ := moved_turn rng h
  rw [hghost, tick_gman_ghosts hgman]

theorem reset_clear (s : State) : Clear (reset s) := by
  have hstart : ∀ i : Fin GHOST_COUNT, ¬ (START_X = UInt8.ofNat (GHOST_START_X + i % 2) ∧
      START_Y = UInt8.ofNat (GHOST_START_Y + i / 2)) := by
    decide
  intro i
  rw [get_reset_ghosts]
  exact hstart i

private theorem settle_clear {result : RoundResult} {m : Machine R}
    (hnone : result = .NONE → Clear m.state) (hgo : (settle rng result m).1.final = false) :
    Clear (settle rng result m).2.state := by
  cases result with
  | NONE => exact hnone rfl
  | WIN => exact reset_clear _
  | DIE =>
    simp only [settle] at hgo ⊢
    split at hgo
    · cases hgo
    · rename_i hlives
      rw [if_neg hlives]
      exact reset_clear _

private theorem play_clear {m m' : Machine R} {input : Input} (h : InPlace m.state)
    (hplay : play rng m input = some m') : Clear m'.state := by
  obtain ⟨-, -, s, result, t, r, hplayed, hgo, rfl⟩ := play_cases rng h hplay
  apply settle_clear rng _ hgo
  rintro rfl
  exact (tick_none rng hplayed.tick).2

theorem start_reset {memory : State} {time : Nat} {keys rest : List Key} {m : Machine R}
    (h : start rng memory time keys = some (m, rest)) : ∃ s, m.state = reset s := by
  rw [start_eq] at h
  obtain ⟨m₀, hnew, hmenu⟩ := Option.bind_eq_some_iff.mp h
  obtain rfl | ⟨level, lives, seed, rfl⟩ := main_menu_cases rng hmenu
  · rw [new_game, Option.bind_eq_bind] at hnew
    obtain ⟨boards, -, hnew⟩ := Option.bind_eq_some_iff.mp hnew
    rw [Option.pure_def, Option.some.injEq] at hnew
    exact ⟨_, congrArg Machine.state hnew.symm⟩
  · exact ⟨_, rfl⟩

theorem running_clear (g : Running rng) : Clear g.machine.state := by
  obtain ⟨memory, time, keys, m, rest, inputs, hstart, hrun⟩ := g.reached
  obtain ⟨s, hs⟩ := start_reset rng hstart
  have hstep : ∀ (m : Machine R) (input : Input) (m' : Machine R),
      InPlace m.state ∧ Clear m.state → play rng m input = some m' →
        InPlace m'.state ∧ Clear m'.state :=
    fun _ _ _ h hplay => ⟨play_inPlace rng h.1 hplay, play_clear rng h.1 hplay⟩
  have hclear : Clear m.state := hs ▸ reset_clear s
  exact (run_invariant hstep inputs ⟨start_inPlace rng hstart, hclear⟩ hrun).2

/-- What `choose_ghost_direction` divides by for a ghost. -/
def distance (s : State) (ghost : Ghost) : Nat :=
  ((s.x.toNat : Int) - ghost.x.toNat).natAbs + ((s.y.toNat : Int) - ghost.y.toNat).natAbs

private theorem Apart.distance_ne_zero {s : State} {ghost : Ghost} (h : Apart s ghost.x ghost.y) :
    distance s ghost ≠ 0 := by
  intro hzero
  rw [distance] at hzero
  apply h
  constructor
  · apply UInt8.toNat_inj.mp
    omega
  · apply UInt8.toNat_inj.mp
    omega

/-- Gman goes to the cell of the ghost and the ghost to that of gman. -/
def Exchanged (s t : State) (i : Fin GHOST_COUNT) : Prop :=
  (t.x = (s.ghosts.get i).x ∧ t.y = (s.ghosts.get i).y) ∧
    (t.ghosts.get i).x = s.x ∧ (t.ghosts.get i).y = s.y

/-- In every run, whatever is typed and drawn at random: no ghost is on the cell of gman when a
tick starts; at its turn every ghost has a distance to gman that is not zero; and in a tick
without a result nobody has met gman between two moves or changed places with him. -/
theorem ghosts_never_met (g : Running rng) (input : Input) :
    Clear g.machine.state ∧
    ∀ s, handle_input g.machine.state input = some (s, false) →
      Clear s ∧
      (∀ (i : Fin GHOST_COUNT) u r, moved rng s g.machine.rand i = some (u, r) →
        distance u (u.ghosts.get i) ≠ 0) ∧
      ∀ t r, tick rng s g.machine.rand = some (.NONE, t, r) →
        (∀ k, ∃ u r', moved rng s g.machine.rand k = some (u, r') ∧ Clear u) ∧
        Clear t ∧ ∀ i, ¬ Exchanged s t i := by
  have hclear := running_clear rng g
  refine ⟨hclear, ?_⟩
  intro s hkeys
  have hclear' : Clear s := by
    obtain ⟨d, d', rfl⟩ := handle_input_turned hkeys
    exact hclear
  refine ⟨hclear', ?_, ?_⟩
  · intro i u r hmoved
    exact (moved_apart rng hmoved).distance_ne_zero
  · intro t r htick
    refine ⟨moved_clear rng htick, (tick_none rng htick).2, ?_⟩
    rintro i ⟨hgman, -⟩
    obtain ⟨u, hgman', hclear₀, hturns⟩ := moved_cases rng (tick_none rng htick).1
    obtain ⟨ht, -⟩ := tick_ghosts_frame rng _ hturns
    rw [ht, ← tick_gman_ghosts hgman'] at hgman
    exact hclear₀ i hgman

end CtfChallenges.Gman
