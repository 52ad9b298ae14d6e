import CtfChallenges.Cards.Integrity

/-!
# What is at stake

The bet comes with every request and is not sealed; the game, its own bet and the balance are.
-/

namespace CtfChallenges.Cards
open Framework

/-- A session that the API has answered with, to a client that may keep every answer. -/
inductive Reachable : Session → Prop
  | new : Reachable newSession
  | answer {s s' : Session} {r : Request} {src src' : Source} (h : Reachable s)
    (heq : apiHandler s r src = some (none, s', src')) : Reachable s'

/-- The balance covers every bet, a dealt hand has a bet, and a hand in play has not doubled it. -/
structure Staked (s : Session) : Prop where
  dealt : Dealt s.game
  balance : 0 ≤ s.balance
  bet : s.game.player ≠ [] → minBet ≤ s.game.bet ∧ s.game.bet ≤ 2 * maxBet
  playing : s.game.state = .playing → s.game.bet ≤ maxBet

private theorem newSession_staked : Staked newSession where
  dealt := newGame_dealt
  balance := by decide
  bet := fun hne => absurd rfl hne
  playing := by decide

private theorem balance_le_score (s : Session) (h : s.game.player ≠ [] → 0 ≤ s.game.bet) :
    s.balance ≤ s.score.balance := by
  unfold Session.score
  by_cases hne : s.game.player = []
  · have hidle : s.game.state = .idle := by simp [Game.state, hne]
    rw [hidle]
  · have hbet := h hne
    cases s.game.state with
    | idle => exact le_refl _
    | playing => exact le_refl _
    | dealerWins => exact le_refl _
    | playerWins =>
      dsimp only
      omega
    | push =>
      dsimp only
      omega
    | playerWinsBlackjack =>
      dsimp only
      rw [Int.tdiv_eq_ediv_of_nonneg (by omega)]
      omega

theorem afterDouble_not_playing (g : Game) : g.afterDouble.state ≠ .playing := by
  intro hp
  obtain ⟨-, -, -, -, -, hstood⟩ := g.afterDouble.state_playing_iff.mp hp
  rw [Game.afterDouble, Game.finish_stood] at hstood
  cases hstood

private theorem Staked.scored {g : Game} {balance bet : Int} (hg : Dealt g) (hbalance : 0 ≤ balance)
    (hmin : minBet ≤ g.bet) (hmax : g.bet ≤ maxBet) :
    Staked ({ game := g, balance := balance, bet := bet } : Session).score := by
  have hmin' : 0 ≤ minBet := by decide
  have hmax' : 0 ≤ maxBet := by decide
  have hle := balance_le_score { game := g, balance := balance, bet := bet }
    fun _ => le_trans hmin' hmin
  refine ⟨by simpa using hg, le_trans hbalance hle, ?_, ?_⟩
  · rw [Session.score_game]
    intro _
    dsimp only
    omega
  · rw [Session.score_game]
    intro _
    exact hmax

private theorem Staked.served {s s' : Session} {r : Request} {src src' : Source} (h : Staked s)
    (heq : apiHandler s r src = some (none, s', src')) : Staked s' := by
  have hserved := apiHandler_served s r src h.dealt
  rw [heq] at hserved
  cases hserved with
  | deal hdeal g hg hbet =>
    obtain ⟨-, hcover, hmin, hmax⟩ := hdeal
    exact .scored hg (by omega) (by omega) (by omega)
  | turn hplaying hnot g hg hbet =>
    have hne := (s.game.state_playing_iff.mp hplaying).1
    have hmin := (h.bet hne).1
    have hmax := h.playing hplaying
    exact .scored hg h.balance (by omega) (by omega)
  | double hdouble hcan hg =>
    obtain ⟨hplaying, hcover, -⟩ := hcan
    have hne := (s.game.state_playing_iff.mp hplaying).1
    have hmin := (h.bet hne).1
    have hmax := h.playing hplaying
    have hbet : s.game.afterDouble.bet = s.game.bet * 2 := by
      rw [Game.afterDouble, Game.finish_bet]
      rfl
    have hten : 0 ≤ minBet := by decide
    refine ⟨hg, ?_, ?_, ?_⟩
    · dsimp only
      omega
    · intro _
      dsimp only
      omega
    · intro hcon
      exact absurd hcon (afterDouble_not_playing s.game)

theorem reachable_staked {s : Session} (h : Reachable s) : Staked s := by
  induction h with
  | new => exact newSession_staked
  | answer _ heq ih => exact ih.served heq

private theorem serve_not_playing {s s' : Session} {r : Request} {src src' : Source}
    (h : Dealt s.game) (hover : s.game.state ≠ .playing) (hnot : ¬ s.Deals r)
    (heq : serve s r src = some (s', src')) : Dealt s'.game ∧ s'.game.state ≠ .playing := by
  have hserved := apiHandler_served s r src h
  rw [serve] at heq
  generalize apiHandler s r src = reply at hserved heq
  cases hserved with
  | refused e _ =>
    cases heq
    exact ⟨h, hover⟩
  | deal hdeal => exact absurd hdeal hnot
  | turn hplaying => exact absurd hplaying hover
  | double hdouble hcan => exact absurd hcan.1 hover

private theorem run_not_playing {rs : List Request} {s s' : Session} {src src' : Source}
    (h : Dealt s.game) (hover : s.game.state ≠ .playing)
    (hnot : ∀ q ∈ visited serveStep rs (s, src), ¬ q.1.1.Deals q.2)
    (heq : serveAll rs s src = some (s', src')) : s'.game.state ≠ .playing := by
  have hstep : ∀ (p : Session × Source) (r : Request) (p' : Session × Source), ¬ p.1.Deals r →
      (Dealt p.1.game ∧ p.1.game.state ≠ .playing) → serveStep p r = some p' →
        Dealt p'.1.game ∧ p'.1.game.state ≠ .playing := by
    intro p r p' hnot hp heq
    exact serve_not_playing hp.1 hp.2 hnot heq
  exact (run_invariant_of_visited hstep (s := (s, src)) ⟨h, hover⟩ hnot (List.prefix_refl rs)
    heq).2

/-- What the API refuses, it leaves alone. -/
def LeavesErrors (s : Session) : Prop :=
  ∀ r src e s' src', apiHandler s r src = some (some e, s', src') →
    s'.game = s.game ∧ s'.balance = s.balance

/-- An accepted double ends the hand, and no double is accepted before the next accepted deal. -/
def DoublesOnce (s : Session) : Prop :=
  ∀ bet src s' src', apiHandler s ⟨.double, bet⟩ src = some (none, s', src') →
    s'.game.state ≠ .playing ∧
      ∀ rs t next, serveAll rs s' src' = some (t, next) →
        (∀ q ∈ visited serveStep rs (s', src'), ¬ q.1.1.Deals q.2) →
          ∀ bet' src₁, ∃ e t', apiHandler t ⟨.double, bet'⟩ src₁ = some (some e, t', src₁)

private theorem Staked.leavesErrors {s : Session} (h : Staked s) : LeavesErrors s := by
  intro r src e s' src' heq
  have hserved := apiHandler_served s r src h.dealt
  rw [heq] at hserved
  cases hserved with
  | refused => exact ⟨rfl, rfl⟩

private theorem Staked.doublesOnce {s : Session} (h : Staked s) : DoublesOnce s := by
  intro bet src s' src' heq
  have hserved := apiHandler_served s ⟨.double, bet⟩ src h.dealt
  rw [heq] at hserved
  cases hserved with
  | deal hdeal => cases hdeal.1
  | turn _ hnot => exact absurd rfl hnot.2
  | double hdouble hcan hg =>
    refine ⟨afterDouble_not_playing s.game, ?_⟩
    intro rs t next hrun hdeals bet' src₁
    have hover := run_not_playing hg (afterDouble_not_playing s.game) hdeals hrun
    obtain ⟨e, hrefused⟩ := Session.double_refused { t with bet := bet' } src₁
      fun hcan => hover hcan.1
    exact ⟨e, _, hrefused⟩

/-- In every session that any requests lead to, whatever bets they carry: the balance is not
negative, a dealt hand has a bet within the table's limits, a hand is doubled at most once and is
then over, and a refused request changes neither the game nor the balance. -/
theorem table_stakes {s : Session} (h : Reachable s) :
    0 ≤ s.balance ∧ s.state ≠ .broke ∧
      (s.game.player ≠ [] → minBet ≤ s.game.bet ∧ s.game.bet ≤ 2 * maxBet) ∧
      DoublesOnce s ∧ LeavesErrors s := by
  have hstaked := reachable_staked h
  refine ⟨hstaked.balance, ?_, hstaked.bet, hstaked.doublesOnce, hstaked.leavesErrors⟩
  have hnot : ¬ s.balance < 0 := not_lt.mpr hstaked.balance
  rw [Session.state, if_neg hnot]
  split <;> decide

/-- The session after a first deal. -/
theorem table_stakes_dealt :
    ∃ s src', apiHandler newSession ⟨.deal, 10⟩ unshuffled = some (none, s, src') ∧
      0 ≤ s.balance := by
  have hserved := apiHandler_served newSession ⟨.deal, 10⟩ unshuffled newGame_dealt
  have hdeals : newSession.Deals ⟨.deal, 10⟩ := by decide
  generalize hreply : apiHandler newSession ⟨.deal, 10⟩ unshuffled = reply at hserved
  cases hserved with
  | refused e hnot => exact absurd hdeals hnot
  | deal => exact ⟨_, _, rfl, (table_stakes (.answer .new hreply)).1⟩
  | turn _ hnot => exact absurd rfl hnot.1
  | double hdouble => cases hdouble

end CtfChallenges.Cards
