import CtfChallenges.Cards.Operations
import CtfChallenges.Framework.Run

/-!
# Deck integrity over whole runs

Every request is answered from a state whose hands are the front of the deck, and only an
accepted deal shuffles.
-/

namespace CtfChallenges.Cards
open Framework

theorem Game.state_playing_iff (g : Game) : g.state = .playing ↔
    g.player ≠ [] ∧ Hand.value g.player ≤ 21 ∧ Hand.state g.player ≠ .blackjack ∧
      Hand.state g.dealer ≠ .blackjack ∧ Hand.value g.dealer ≤ 21 ∧ g.stood = false := by
  have hbust : Hand.state g.player = .bust ↔ ¬ Hand.value g.player ≤ 21 := by
    rw [Hand.state_bust_iff, not_le]
  have hdealer : Hand.state g.dealer = .bust ↔ ¬ Hand.value g.dealer ≤ 21 := by
    rw [Hand.state_bust_iff, not_le]
  simp only [Game.state, ite_eq_iff, reduceCtorEq, and_false, false_or, and_true, hbust, hdealer,
    List.length_eq_zero_iff, not_not]
  constructor
  · rintro ⟨hidle, hle, -, hblack, hblack', hle', -, -, hstood⟩
    exact ⟨hidle, hle, hblack, hblack', hle', by simpa using hstood⟩
  · rintro ⟨hidle, hle, hblack, hblack', hle', hstood⟩
    exact ⟨hidle, hle, fun h => hblack h.1, hblack, hblack', hle', by simp [hstood], by simp [hstood],
      by simp [hstood]⟩

private theorem playing_room {g : Game} (h : Dealt g) (hp : g.state = .playing) :
    g.stood = false ∧ g.player.length ≤ 21 ∧ g.dealer.length = 2 ∧ g.deck.pos + 19 < 52 := by
  obtain ⟨hne, hvalue, -, -, -, hstood⟩ := (g.state_playing_iff).mp hp
  have hlen := Hand.length_le_hard g.player
  have hhard := Hand.hard_le_value g.player
  have htwo := h.dealer_le_two hstood
  have htwo' := h.two_le_dealer hne
  have hpos := h.pos_eq
  refine ⟨hstood, by omega, by omega, by omega⟩

/-- What `Hit` leaves of a game in play. -/
def Game.afterHit (g : Game) : Game :=
  if 21 ≤ Hand.value g.toPlayer.player then g.toPlayer.finish else g.toPlayer

theorem Session.hit_playing (s : Session) (src : Source) (h : Dealt s.game)
    (hp : s.game.state = .playing) :
    s.hit src = some (none, { s with game := s.game.afterHit }.score, src) ∧
      Dealt s.game.afterHit := by
  obtain ⟨hstood, hlen, hdealer, hroom⟩ := playing_room h hp
  have hturn := h.toPlayer hlen (by omega)
  constructor
  · simp [Session.hit, hp, hit_eq s.game src hstood hroom, Game.afterHit]
  · unfold Game.afterHit
    split
    · exact hturn.finish
    · exact hturn

theorem Session.stand_playing (s : Session) (src : Source) (h : Dealt s.game)
    (hp : s.game.state = .playing) :
    s.stand src = some (none, { s with game := s.game.finish }.score, src) ∧
      Dealt s.game.finish := by
  obtain ⟨hstood, -, -, hroom⟩ := playing_room h hp
  exact ⟨by simp [Session.stand, hp, stand_eq s.game src hstood (by omega)], h.finish⟩

/-- The conditions `Double` checks. -/
def Session.CanDouble (s : Session) : Prop :=
  s.game.state = .playing ∧ s.game.bet ≤ s.balance ∧ s.game.player.length = 2

instance (s : Session) : Decidable s.CanDouble := inferInstanceAs (Decidable (_ ∧ _ ∧ _))

/-- What `Double` leaves of a game in play: one card, twice the bet, and the dealer's turn. -/
def Game.afterDouble (g : Game) : Game := { g with bet := g.bet * 2 }.toPlayer.finish

theorem Session.double_accepted (s : Session) (src : Source) (h : Dealt s.game)
    (hc : s.CanDouble) :
    s.double src = some (none,
        { s with game := s.game.afterDouble, balance := s.balance - s.game.bet }, src) ∧
      Dealt s.game.afterDouble := by
  obtain ⟨hp, hbal, htwo⟩ := hc
  obtain ⟨hstood, hlen, hdealer, hroom⟩ := playing_room h hp
  let g : Game := { s.game with bet := s.game.bet * 2 }
  have hg : Dealt g := ⟨h.perm, h.hands, h.pos_lt, h.player_le, h.dealer_le, h.dealer_le_two,
    h.two_le_dealer⟩
  have hturn := hg.toPlayer hlen (by dsimp only [g]; omega)
  have hhit := hit_eq g src hstood hroom
  refine ⟨?_, hturn.finish⟩
  -- whether or not `Hit` already stood, the second `Stand` leaves the finished game
  have hstand : g.hit src >>= (fun p => p.1.stand p.2) = some (g.toPlayer.finish, src) := by
    rw [hhit]
    by_cases h21 : 21 ≤ Hand.value g.toPlayer.player
    · simp [h21, Game.stand]
    · have hpos := hturn.pos_eq
      have hdlen : g.toPlayer.dealer.length = 2 := hdealer
      have hplen := g.toPlayer_player_length hg.pos_lt
      have hg2 : g.player.length = 2 := htwo
      have hroom' : g.toPlayer.deck.pos + 18 < 52 := by omega
      simp [h21, stand_eq g.toPlayer src hstood hroom']
  have hgt : ¬ s.balance < s.game.bet := by omega
  simp only [Session.double, hp, ne_eq, not_true_eq_false, if_false, gt_iff_lt, hgt, htwo]
  simp only [Option.bind_eq_bind] at hstand
  cases hcase : g.hit src with
  | none => simp [hcase] at hstand
  | some p =>
    obtain ⟨g', src'⟩ := p
    simp only [hcase, Option.bind_some] at hstand
    simp [g, hstand, Game.afterDouble]

theorem Session.double_refused (s : Session) (src : Source) (hc : ¬ s.CanDouble) :
    ∃ e, s.double src = some (some e, s, src) := by
  unfold Session.double
  split
  · exact ⟨_, rfl⟩
  · split
    · exact ⟨_, rfl⟩
    · split
      · exact ⟨_, rfl⟩
      · rename_i hstate hbal htwo
        exact absurd ⟨not_not.mp hstate, not_lt.mp hbal, not_not.mp htwo⟩ hc

/-- The conditions `Deal` checks on the bet the client sent. -/
def Session.CanDeal (s : Session) (bet : Int) : Prop :=
  bet ≤ s.balance ∧ minBet ≤ bet ∧ bet ≤ maxBet

instance (s : Session) (bet : Int) : Decidable (s.CanDeal bet) :=
  inferInstanceAs (Decidable (_ ∧ _ ∧ _))

theorem Session.deal_accepted (s : Session) (src : Source) (h : Dealt s.game)
    (hc : s.CanDeal s.bet) :
    ∃ g, s.deal src = some (none,
        { s with game := g, balance := s.balance - s.bet }.score, src.tail) ∧
      Dealt g ∧ g.bet = s.bet ∧ g.player.length = 2 ∧ g.stood = false := by
  obtain ⟨hbal, hmin, hmax⟩ := hc
  obtain ⟨g, hdeal, hg, hplayer, hdealer, hstood⟩ :=
    deal_eq { s.game with stood := false } src h.perm rfl
  refine ⟨{ g with bet := s.bet }, ?_, ?_, rfl, hplayer, hstood⟩
  · have h1 : ¬ s.balance < s.bet := by omega
    have h2 : ¬ (maxBet < s.bet ∨ s.bet < minBet) := by omega
    simp [Session.deal, h1, h2, hdeal]
  · exact ⟨hg.perm, hg.hands, hg.pos_lt, hg.player_le, hg.dealer_le, hg.dealer_le_two,
      hg.two_le_dealer⟩

theorem Session.deal_refused (s : Session) (src : Source) (hc : ¬ s.CanDeal s.bet) :
    ∃ e, s.deal src = some (some e, s, src) := by
  unfold Session.deal
  split
  · exact ⟨_, rfl⟩
  · split
    · exact ⟨_, rfl⟩
    · exact absurd ⟨by omega, by omega, by omega⟩ hc

@[simp] theorem Session.score_game (s : Session) : s.score.game = s.game := by
  unfold Session.score
  split <;> rfl

@[simp] theorem afterHit_bet (g : Game) : g.afterHit.bet = g.bet := by
  unfold Game.afterHit
  split
  · rw [Game.finish_bet]
    rfl
  · rfl

/-- The request is a deal the session accepts. -/
def Session.Deals (s : Session) (r : Request) : Prop := r.action = .deal ∧ s.CanDeal r.bet

instance (s : Session) (r : Request) : Decidable (s.Deals r) :=
  inferInstanceAs (Decidable (_ ∧ _))

/-- What a request can do to a session with an intact game. -/
inductive Served (s : Session) (r : Request) (src : Source) : Reply → Prop
  | refused (e : String) (hnot : ¬ s.Deals r) :
    Served s r src (some (some e, { s with bet := r.bet }, src))
  | deal (hdeal : s.Deals r) (g : Game) (hg : Dealt g) (hbet : g.bet = r.bet) :
    Served s r src
      (some (none, ({ game := g, balance := s.balance - r.bet, bet := r.bet } : Session).score,
        src.tail))
  | turn (hplaying : s.game.state = .playing) (hnot : r.action ≠ .deal ∧ r.action ≠ .double)
      (g : Game) (hg : Dealt g) (hbet : g.bet = s.game.bet) :
    Served s r src
      (some (none, ({ game := g, balance := s.balance, bet := r.bet } : Session).score, src))
  | double (hdouble : r.action = .double) (hcan : s.CanDouble) (hg : Dealt s.game.afterDouble) :
    Served s r src
      (some (none, { game := s.game.afterDouble, balance := s.balance - s.game.bet, bet := r.bet },
        src))

theorem apiHandler_served (s : Session) (r : Request) (src : Source) (h : Dealt s.game) :
    Served s r src (apiHandler s r src) := by
  obtain ⟨action, bet⟩ := r
  let t : Session := { s with bet := bet }
  cases action with
  | deal =>
    by_cases hc : s.CanDeal bet
    · obtain ⟨g, heq, hg, hbet, -⟩ := Session.deal_accepted t src h hc
      rw [show apiHandler s ⟨.deal, bet⟩ src = t.deal src from rfl, heq]
      exact .deal ⟨rfl, hc⟩ g hg hbet
    · obtain ⟨e, heq⟩ := Session.deal_refused t src hc
      rw [show apiHandler s ⟨.deal, bet⟩ src = t.deal src from rfl, heq]
      exact .refused e fun hd => hc hd.2
  | hit =>
    rw [show apiHandler s ⟨.hit, bet⟩ src = t.hit src from rfl]
    by_cases hp : s.game.state = .playing
    · obtain ⟨heq, hg⟩ := Session.hit_playing t src h hp
      rw [heq]
      exact .turn hp ⟨by simp, by simp⟩ s.game.afterHit hg (afterHit_bet _)
    · rw [Session.hit, if_pos hp]
      exact .refused _ nofun
  | stand =>
    rw [show apiHandler s ⟨.stand, bet⟩ src = t.stand src from rfl]
    by_cases hp : s.game.state = .playing
    · obtain ⟨heq, hg⟩ := Session.stand_playing t src h hp
      rw [heq]
      exact .turn hp ⟨by simp, by simp⟩ s.game.finish hg (Game.finish_bet _)
    · rw [Session.stand, if_pos hp]
      exact .refused _ nofun
  | double =>
    rw [show apiHandler s ⟨.double, bet⟩ src = t.double src from rfl]
    by_cases hc : t.CanDouble
    · obtain ⟨heq, hg⟩ := Session.double_accepted t src h hc
      rw [heq]
      exact .double rfl hc hg
    · obtain ⟨e, heq⟩ := Session.double_refused t src hc
      rw [heq]
      exact .refused e nofun

/-- Every request is answered; the game it leaves keeps the invariant, and the randomness is
touched only by an accepted deal, which takes one shuffle of it. -/
theorem serve_dealt (s : Session) (r : Request) (src : Source) (h : Dealt s.game) :
    ∃ s', serve s r src = some (s', if s.Deals r then src.tail else src) ∧ Dealt s'.game := by
  have hserved := apiHandler_served s r src h
  rw [serve]
  generalize apiHandler s r src = reply at hserved ⊢
  cases hserved with
  | refused e hnot => exact ⟨s, by rw [if_neg hnot]; rfl, h⟩
  | deal hdeal g hg hbet => exact ⟨_, by rw [if_pos hdeal]; rfl, by simpa using hg⟩
  | turn hplaying hnot g hg hbet =>
    exact ⟨_, by rw [if_neg fun hd => hnot.1 hd.1]; rfl, by simpa using hg⟩
  | double hdouble hcan hg =>
    have hnot : ¬ s.Deals r := by
      intro hd
      cases hdouble.symm.trans hd.1
    exact ⟨_, by rw [if_neg hnot]; rfl, hg⟩

/-- One request against the session the client holds. -/
def serveStep (p : Session × Source) (r : Request) : Option (Session × Source) := serve p.1 r p.2

/-- The session after a list of requests. -/
def serveAll (rs : List Request) (s : Session) (src : Source) : Option (Session × Source) :=
  run serveStep rs (s, src)

theorem serveAll_dealt (rs : List Request) (s : Session) (src : Source) (h : Dealt s.game) :
    ∃ s' src', serveAll rs s src = some (s', src') ∧ Dealt s'.game := by
  have hstep : ∀ (p : Session × Source) (r : Request), Dealt p.1.game →
      ∃ p', serveStep p r = some p' ∧ Dealt p'.1.game := by
    intro p r hp
    obtain ⟨s', heq, h'⟩ := serve_dealt p.1 r p.2 hp
    exact ⟨_, heq, h'⟩
  obtain ⟨p, hp, hdealt⟩ := run_total hstep rs (s := (s, src)) h
  exact ⟨p.1, p.2, hp, hdealt⟩

/-- The deck holds the 52 distinct cards, and the hands are exactly the cards dealt from it. -/
structure DeckIntegrity (g : Game) : Prop where
  permutation : g.deck.cards.Perm newDeck.cards
  distinct : g.deck.cards.toList.Nodup
  pos_lt : g.deck.pos < 52
  hands_distinct : (g.player ++ g.dealer).Nodup
  hands : (g.player ++ g.dealer).Perm (g.deck.cards.toList.take g.deck.pos)

theorem Dealt.integrity {g : Game} (h : Dealt g) : DeckIntegrity g := by
  have hnodup : g.deck.cards.toList.Nodup := h.perm.toList.nodup_iff.mpr newDeck_nodup
  exact ⟨h.perm, hnodup, h.pos_lt,
    h.hands.nodup_iff.mpr (hnodup.sublist (List.take_sublist _ _)), h.hands⟩

/-- No sequence of requests panics; the session it leads to has an intact deck, and answers the
next request with one shuffle if that is an accepted deal and with none otherwise. -/
theorem deck_integrity (rs : List Request) (src : Source) :
    ∃ s src', serveAll rs newSession src = some (s, src') ∧ DeckIntegrity s.game ∧
      ∀ r next, ∃ s', serve s r next = some (s', if s.Deals r then next.tail else next) := by
  obtain ⟨s, src', heq, h⟩ := serveAll_dealt rs newSession src newGame_dealt
  refine ⟨s, src', heq, h.integrity, fun r next => ?_⟩
  obtain ⟨s', hserve, -⟩ := serve_dealt s r next h
  exact ⟨s', hserve⟩

end CtfChallenges.Cards
