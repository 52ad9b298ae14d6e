import CtfChallenges.Cards.Integrity
import Mathlib.Tactic.Linarith

/-!
# Settlement of rounds

A ledger keeps beside the session what the rules need to settle the round in play: the balance
before its deal, its bet and whether the player doubled. The published payouts are then an
equation between the ledger and the balance, due in every state from the deal to the next deal.
`Hit`, `Stand` and `Deal` end with `Score` and keep it; `Double` does not score.
-/

namespace CtfChallenges.Cards
open Framework

structure Round where
  start : Int
  bet : Int
  doubled : Bool
  deriving DecidableEq

def Round.stake (r : Round) : Int := if r.doubled then 2 * r.bet else r.bet

/-- What a round pays at the end; a round still in play has paid nothing. -/
def Round.payout (r : Round) : GameState → Int
  | .playerWinsBlackjack => 5 * r.bet / 2
  | .playerWins => 2 * r.stake
  | .push => r.stake
  | .dealerWins => 0
  | .playing => 0
  | .idle => 0

structure Ledger where
  session : Session
  round : Option Round
  deriving DecidableEq

def newLedger : Ledger := ⟨newSession, none⟩

/-- The round after an accepted request. -/
def Ledger.nextRound (l : Ledger) (r : Request) : Option Round :=
  match r.action with
  | .deal => some ⟨l.session.balance, r.bet, false⟩
  | .double => l.round.map fun round => { round with doubled := true }
  | .hit => l.round
  | .stand => l.round

def Ledger.serve (l : Ledger) (r : Request) (src : Source) : Option (Ledger × Source) := do
  match ← apiHandler l.session r src with
  | (some _, _, src) => return (l, src)
  | (none, session, src) => return (⟨session, l.nextRound r⟩, src)

/-- Keeping the ledger does not change what the client sees. -/
theorem Ledger.serve_session (l : Ledger) (r : Request) (src : Source) :
    (l.serve r src).map (fun p => (p.1.session, p.2)) = Cards.serve l.session r src := by
  unfold Ledger.serve Cards.serve
  rcases apiHandler l.session r src with _ | ⟨_ | e, s, src'⟩ <;> rfl

def ledgerStep (p : Ledger × Source) (r : Request) : Option (Ledger × Source) := p.1.serve r p.2

/-- The ledger after a list of requests, starting from a new session. -/
def ledgerAfter (rs : List Request) (src : Source) : Option (Ledger × Source) :=
  run ledgerStep rs (newLedger, src)

/-- The balance is the one before the deal, less the stake, plus the payout. -/
def Ledger.Settled (l : Ledger) : Prop :=
  ∀ r, l.round = some r →
    l.session.balance = r.start - r.stake + r.payout l.session.game.state

/-- The card a doubled hand would draw busts it, or the dealer, drawing by the house rule from
the cards after it, gets closer to 21. -/
def Game.DoubleLoses (g : Game) : Prop :=
  let player := g.player ++ g.deck.rest.take 1
  let dealer := houseDraw g.dealer (g.deck.rest.drop 1)
  21 < Hand.value player ∨ Hand.value dealer ≤ 21 ∧ Hand.value player < Hand.value dealer

instance (g : Game) : Decidable g.DoubleLoses := inferInstanceAs (Decidable (_ ∨ _ ∧ _))

/-- The request is no double, or one the session refuses, or one that loses. -/
def Session.NoWinningDouble (s : Session) (r : Request) : Prop :=
  r.action = .double → s.CanDouble → s.game.DoubleLoses

private theorem toPlayer_rest (g : Game) : g.toPlayer.deck.rest = g.deck.rest.drop 1 := by
  simp [Game.toPlayer, Deck.rest]

private theorem afterDouble_dealer_state {g : Game} (h : Dealt g) (hp : g.state = .playing)
    (cards : List Card) : Hand.state (houseDraw g.dealer cards) ≠ .blackjack := by
  obtain ⟨hne, -, -, hbj, -, -⟩ := g.state_playing_iff.mp hp
  have htwo := h.two_le_dealer hne
  cases hk : cards.take (houseCount g.dealer cards) with
  | nil => rwa [houseDraw, hk, List.append_nil]
  | cons c cs =>
    rw [Ne, Hand.state_blackjack_iff]
    rintro ⟨-, hlen⟩
    rw [houseDraw, hk, List.length_append, List.length_cons] at hlen
    omega

/-- A doubled game is over, and lost exactly in the case of `DoubleLoses`. -/
theorem Game.afterDouble_state {g : Game} (h : Dealt g) (hp : g.state = .playing)
    (htwo : g.player.length = 2) :
    if g.DoubleLoses then g.afterDouble.state = .dealerWins
    else g.afterDouble.state = .push ∨ g.afterDouble.state = .playerWins := by
  let player := g.player ++ g.deck.rest.take 1
  let dealer := houseDraw g.dealer (g.deck.rest.drop 1)
  have hplayer : g.afterDouble.player = player := by simp [Game.afterDouble, Game.toPlayer, player]
  have hstood : g.afterDouble.stood = true := by simp [Game.afterDouble]
  have hlen : player.length = 3 := by
    have hroom := h.pos_lt
    simp only [player, List.length_append, List.length_take, g.deck.rest_length]
    omega
  have hpbj : Hand.state player ≠ .blackjack := by
    rw [Ne, Hand.state_blackjack_iff]
    omega
  have hdbj : Hand.state dealer ≠ .blackjack := afterDouble_dealer_state h hp _
  have hbust (t : Hand) : Hand.state t = .bust ↔ 21 < Hand.value t := Hand.state_bust_iff t
  by_cases hover : 21 < Hand.value player
  · have hloses : g.DoubleLoses := Or.inl hover
    rw [if_pos hloses, Game.state, hplayer]
    simp [hlen, hbust, hover]
  · have hdealer : g.afterDouble.dealer = dealer := by
      have hrest : ({ g with bet := g.bet * 2 } : Game).toPlayer.deck.rest = g.deck.rest.drop 1 :=
        toPlayer_rest _
      have hover' : ¬ 21 < Hand.value ({ g with bet := g.bet * 2 } : Game).toPlayer.player := hover
      rw [Game.afterDouble, Game.finish, if_neg hover']
      simp only [Game.toDealer, Deck.rest] at hrest ⊢
      simp only [hrest]
      rfl
    have hloses : g.DoubleLoses ↔
        Hand.value dealer ≤ 21 ∧ Hand.value player < Hand.value dealer :=
      or_iff_right hover
    simp only [hloses, Game.state, hplayer, hdealer, hstood, hlen, hbust, hpbj, hdbj, hover]
    by_cases hd : 21 < Hand.value dealer
    · simp [hd]
    · rcases lt_trichotomy (Hand.value player) (Hand.value dealer) with hlt | heq | hgt
      · simp [hd, hlt, hlt.ne, not_lt.mpr hlt.le, not_lt.mp hd]
      · simp [heq]
        omega
      · simp [hd, hgt, hgt.ne', not_lt.mpr hgt.le]

/-- What holds of the ledger whether or not the round was settled. -/
structure Ledger.Kept (l : Ledger) : Prop where
  dealt : Dealt l.session.game
  idle : l.round = none → l.session.game.player = []
  bet_pos : ∀ r, l.round = some r → 0 < r.bet
  playing : l.session.game.state = .playing → ∀ r, l.round = some r →
    r.doubled = false ∧ l.session.game.bet = r.bet ∧ l.session.balance = r.start - r.bet

private theorem score_balance (s : Session) (r : Round) (hd : r.doubled = false)
    (hbet : s.game.bet = r.bet) (hpos : 0 < r.bet) :
    s.score.balance = s.balance + r.payout s.game.state := by
  unfold Session.score
  cases s.game.state <;> simp [Round.payout, Round.stake, hd, hbet, mul_comm]
  rw [Int.tdiv_eq_ediv_of_nonneg (by omega)]

private theorem scored {s : Session} {r : Round} (hdealt : Dealt s.game) (hpos : 0 < r.bet)
    (hd : r.doubled = false) (hbet : s.game.bet = r.bet) (hbal : s.balance = r.start - r.bet) :
    (⟨s.score, some r⟩ : Ledger).Kept ∧ (⟨s.score, some r⟩ : Ledger).Settled := by
  have hbalance : s.score.balance = r.start - r.bet + r.payout s.score.game.state := by
    rw [score_balance s r hd hbet hpos, hbal, Session.score_game]
  have hstake : r.stake = r.bet := by simp [Round.stake, hd]
  refine ⟨⟨by simpa using hdealt, nofun, ?_, ?_⟩, ?_⟩
  · rintro _ ⟨⟩
    exact hpos
  · rintro hp _ ⟨⟩
    dsimp only at hp ⊢
    rw [hbalance, hp, Session.score_game]
    exact ⟨hd, hbet, by simp [Round.payout]⟩
  · rintro _ ⟨⟩
    rw [hstake]
    exact hbalance

private theorem serve_scored {l : Ledger} {q : Request} {src src' : Source} {s : Session}
    {r : Round} (heq : apiHandler l.session q src = some (none, s.score, src'))
    (hround : l.nextRound q = some r) (hdealt : Dealt s.game) (hpos : 0 < r.bet)
    (hd : r.doubled = false) (hbet : s.game.bet = r.bet) (hbal : s.balance = r.start - r.bet) :
    ∃ l' src', l.serve q src = some (l', src') ∧ l'.Kept ∧ (l.Settled → l'.Settled) := by
  obtain ⟨hkept, hsettled⟩ := scored hdealt hpos hd hbet hbal
  exact ⟨⟨s.score, some r⟩, src', by simp [Ledger.serve, heq, hround], hkept, fun _ => hsettled⟩

private theorem serve_refused {l : Ledger} {q : Request} {src : Source} {e : String} {s : Session}
    (heq : apiHandler l.session q src = some (some e, s, src)) (h : l.Kept) :
    ∃ l' src', l.serve q src = some (l', src') ∧ l'.Kept ∧ (l.Settled → l'.Settled) :=
  ⟨l, src, by simp [Ledger.serve, heq], h, id⟩

private theorem Ledger.Kept.round {l : Ledger} (h : l.Kept) (hp : l.session.game.state = .playing) :
    ∃ r, l.round = some r ∧ 0 < r.bet ∧ r.doubled = false ∧ l.session.game.bet = r.bet ∧
      l.session.balance = r.start - r.bet := by
  cases hr : l.round with
  | none => exact absurd (h.idle hr) (l.session.game.state_playing_iff.mp hp).1
  | some r =>
    obtain ⟨hd, hbet, hbal⟩ := h.playing hp r hr
    exact ⟨r, rfl, h.bet_pos r hr, hd, hbet, hbal⟩

private theorem serve_no_double (l : Ledger) (q : Request) (src : Source) (h : l.Kept)
    (hq : q.action = .double → ¬ l.session.CanDouble) :
    ∃ l' src', l.serve q src = some (l', src') ∧ l'.Kept ∧ (l.Settled → l'.Settled) := by
  have hserved := apiHandler_served l.session q src h.dealt
  generalize hreply : apiHandler l.session q src = reply at hserved
  cases hserved with
  | refused e hnot => exact serve_refused hreply h
  | deal hdeal g hg hbet =>
    have hround : l.nextRound q = some ⟨l.session.balance, q.bet, false⟩ := by
      rw [Ledger.nextRound, hdeal.1]
    exact serve_scored hreply hround hg (lt_of_lt_of_le (by decide) hdeal.2.2.1) rfl hbet rfl
  | turn hplaying hnot g hg hbet =>
    obtain ⟨r, hround, hpos, hd, hsame, hbal⟩ := h.round hplaying
    have hnext : l.nextRound q = some r := by
      cases haction : q.action with
      | deal => exact absurd haction hnot.1
      | double => exact absurd haction hnot.2
      | hit => rw [Ledger.nextRound, haction, hround]
      | stand => rw [Ledger.nextRound, haction, hround]
    exact serve_scored hreply hnext hg hpos hd (hbet.trans hsame) hbal
  | double hdouble hcan => exact absurd hcan (hq hdouble)

/-- The stake of an accepted double has left the balance, and nothing came back: the round is
settled exactly when it is lost. -/
private theorem serve_double (l : Ledger) (bet : Int) (src : Source) (h : l.Kept)
    (hc : l.session.CanDouble) :
    ∃ l' src', l.serve ⟨.double, bet⟩ src = some (l', src') ∧ l'.Kept ∧
      (l'.Settled ↔ l.session.game.DoubleLoses) := by
  let s : Session := { l.session with bet := bet }
  obtain ⟨heq, hg⟩ := Session.double_accepted s src h.dealt hc
  obtain ⟨hp, -, htwo⟩ := hc
  obtain ⟨r, hround, hpos, hd, hbet, hbal⟩ := h.round hp
  have hstate := Game.afterDouble_state h.dealt hp htwo
  let s' : Session := { s with game := s.game.afterDouble, balance := s.balance - s.game.bet }
  have hnext : l.nextRound ⟨.double, bet⟩ = some { r with doubled := true } := by
    simp [Ledger.nextRound, hround]
  have hbal' : s'.balance = r.start - 2 * r.bet := by
    have hb : s.game.bet = r.bet := hbet
    have hs : s.balance = r.start - r.bet := hbal
    simp only [s', hb, hs]
    omega
  have hover : s'.game.state ≠ .playing := by
    intro hcon
    have hcon' : l.session.game.afterDouble.state = .playing := hcon
    split_ifs at hstate <;> simp [hcon'] at hstate
  refine ⟨⟨s', some { r with doubled := true }⟩, src, ?_, ⟨hg, nofun, ?_, ?_⟩, ?_⟩
  · simp [Ledger.serve, apiHandler, heq, hnext, s', s]
  · rintro _ ⟨⟩
    exact hpos
  · exact fun hplay => absurd hplay hover
  · have hsettled : (⟨s', some { r with doubled := true }⟩ : Ledger).Settled ↔
        ({ r with doubled := true } : Round).payout s'.game.state = 0 := by
      simp only [Ledger.Settled, Option.some.injEq, forall_eq', hbal', Round.stake, if_true]
      constructor <;> intro heq <;> omega
    rw [hsettled]
    change Round.payout _ l.session.game.afterDouble.state = 0 ↔ _
    split_ifs at hstate with hlose
    · simp [hstate, Round.payout, hlose]
    · rcases hstate with hpush | hwin
      · simp [hpush, Round.payout, Round.stake, hlose]
        omega
      · simp [hwin, Round.payout, Round.stake, hlose]
        omega

/-- A request keeps a settled round settled exactly when it is no winning double. -/
theorem Ledger.serve_settled (l : Ledger) (q : Request) (src : Source) (h : l.Kept) :
    ∃ l' src', l.serve q src = some (l', src') ∧ l'.Kept ∧
      (l.Settled → (l'.Settled ↔ l.session.NoWinningDouble q)) := by
  by_cases hq : q.action = .double ∧ l.session.CanDouble
  · obtain ⟨action, bet⟩ := q
    obtain ⟨rfl, hc⟩ := hq
    obtain ⟨l', src', heq, hkept, hiff⟩ := serve_double l bet src h hc
    exact ⟨l', src', heq, hkept, fun _ =>
      hiff.trans ⟨fun hlose _ _ => hlose, fun hno => hno rfl hc⟩⟩
  · have hno : l.session.NoWinningDouble q := fun ha hc => absurd ⟨ha, hc⟩ hq
    obtain ⟨l', src', heq, hkept, hsettled⟩ :=
      serve_no_double l q src h fun ha hc => hq ⟨ha, hc⟩
    exact ⟨l', src', heq, hkept, fun hs => iff_of_true (hsettled hs) hno⟩

theorem newLedger_kept : newLedger.Kept :=
  ⟨newGame_dealt, fun _ => rfl, nofun, nofun⟩

theorem ledgerAfter_kept (rs : List Request) (src : Source) :
    ∃ l src', ledgerAfter rs src = some (l, src') ∧ l.Kept := by
  have hstep : ∀ (p : Ledger × Source) (q : Request), p.1.Kept →
      ∃ p', ledgerStep p q = some p' ∧ p'.1.Kept := by
    intro p q hp
    obtain ⟨l', src', heq, hkept, -⟩ := p.1.serve_settled q p.2 hp
    exact ⟨_, heq, hkept⟩
  obtain ⟨p, hp, hkept⟩ := run_total hstep rs (s := (newLedger, src)) newLedger_kept
  exact ⟨p.1, p.2, hp, hkept⟩

private theorem ledgerAfter_take_succ (rs : List Request) (src : Source) {k : Nat}
    (hk : k < rs.length) {l : Ledger} {src' : Source}
    (h : ledgerAfter (rs.take k) src = some (l, src')) :
    ledgerAfter (rs.take (k + 1)) src = l.serve rs[k] src' := by
  unfold ledgerAfter at h ⊢
  rw [run_take_succ ledgerStep rs _ k hk, h]
  rfl

/-- Every run can be followed to its end, and every round in it is settled exactly when no
accepted double of the run wins or ties. -/
theorem rounds_settled_iff (rs : List Request) (src : Source) :
    (∀ k, ∃ l src', ledgerAfter (rs.take k) src = some (l, src')) ∧
    ((∀ k l src', ledgerAfter (rs.take k) src = some (l, src') → l.Settled) ↔
      ∀ k (hk : k < rs.length) l src', ledgerAfter (rs.take k) src = some (l, src') →
        l.session.NoWinningDouble rs[k]) := by
  refine ⟨fun k => ?_, fun hall k hk l src' hl => ?_, fun hno k => ?_⟩
  · obtain ⟨l, src', heq, -⟩ := ledgerAfter_kept (rs.take k) src
    exact ⟨l, src', heq⟩
  · obtain ⟨_, _, heq, hkept⟩ := ledgerAfter_kept (rs.take k) src
    cases heq.symm.trans hl
    obtain ⟨l', src'', hserve, -, hiff⟩ := l.serve_settled rs[k] src' hkept
    have hnext : ledgerAfter (rs.take (k + 1)) src = some (l', src'') :=
      (ledgerAfter_take_succ rs src hk hl).trans hserve
    exact (hiff (hall k l src' hl)).mp (hall (k + 1) l' src'' hnext)
  · induction k with
    | zero =>
      rintro l src' hl
      cases hl
      exact nofun
    | succ k ih =>
      intro l src' hl
      by_cases hk : k < rs.length
      · obtain ⟨m, src₁, heq, hkept⟩ := ledgerAfter_kept (rs.take k) src
        obtain ⟨l', src'', hserve, -, hiff⟩ := m.serve_settled rs[k] src₁ hkept
        have hnext := (ledgerAfter_take_succ rs src hk heq).trans hserve
        cases hnext.symm.trans hl
        exact (hiff (ih m src₁ heq)).mpr (hno k hk m src₁ heq)
      · rw [List.take_of_length_le (by omega)] at hl
        exact ih l src' (by rwa [List.take_of_length_le (by omega)])

/-- A doubled hand of 19 against 19 is a push, and the stake does not come back. -/
theorem double_push_unsettled :
    ∃ l src', ledgerAfter [⟨.deal, 10⟩, ⟨.double, 10⟩] unshuffled = some (l, src') ∧
      l.round = some ⟨1000, 10, true⟩ ∧ l.session.game.state = .push ∧
      l.session.balance = 980 ∧ ¬ l.Settled := by
  have hrun : (ledgerAfter [⟨.deal, 10⟩, ⟨.double, 10⟩] unshuffled).map
      (fun p => (p.1.round, p.1.session.game.state, p.1.session.balance)) =
      some (some ⟨1000, 10, true⟩, .push, 980) := by decide +kernel
  obtain ⟨⟨l, src'⟩, heq, hl⟩ := Option.map_eq_some_iff.mp hrun
  simp only [Prod.mk.injEq] at hl
  obtain ⟨hround, hstate, hbal⟩ := hl
  refine ⟨l, src', heq, hround, hstate, hbal, fun hs => ?_⟩
  have hpaid := hs _ hround
  rw [hstate, hbal] at hpaid
  exact absurd hpaid (by decide)

end CtfChallenges.Cards
