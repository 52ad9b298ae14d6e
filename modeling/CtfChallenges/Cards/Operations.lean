import CtfChallenges.Cards.House

/-!
# What the operations do

`Dealt` ties the two hands to the front of the deck and bounds their lengths, so that `Next`
is never near the end of the deck. From it each operation has an explicit result without
panic, without a second shuffle and with the invariant kept.
-/

namespace CtfChallenges.Cards

/-- The hands are the cards dealt so far, and short enough that no round meets the last card. -/
structure Dealt (g : Game) : Prop where
  perm : g.deck.cards.Perm newDeck.cards
  hands : (g.player ++ g.dealer).Perm (g.deck.cards.toList.take g.deck.pos)
  pos_lt : g.deck.pos < 52
  player_le : g.player.length ≤ 22
  dealer_le : g.dealer.length ≤ 18
  dealer_le_two : g.stood = false → g.dealer.length ≤ 2
  two_le_dealer : g.player ≠ [] → 2 ≤ g.dealer.length

theorem Dealt.pos_eq {g : Game} (h : Dealt g) :
    g.deck.pos = g.player.length + g.dealer.length := by
  have hlen := h.hands.length_eq
  have hpos := h.pos_lt
  simp only [List.length_append, List.length_take, Vector.length_toList] at hlen
  omega

theorem newGame_dealt : Dealt newGame where
  perm := Vector.Perm.rfl
  hands := by simp [newGame, newDeck]
  pos_lt := by decide
  player_le := by simp [newGame]
  dealer_le := by simp [newGame]
  dealer_le_two := by simp [newGame]
  two_le_dealer := by simp [newGame]

/-- The game after the next card has gone to the player. -/
def Game.toPlayer (g : Game) : Game :=
  { g with deck := { g.deck with pos := g.deck.pos + 1 }, player := g.player ++ g.deck.rest.take 1 }

/-- What `Stand` leaves of a game that has not stood. -/
def Game.finish (g : Game) : Game :=
  if 21 < Hand.value g.player then { g with stood := true }
  else { g with stood := true }.toDealer (houseCount g.dealer g.deck.rest)

private theorem Deck.rest_take_one (d : Deck) (h : d.pos < 52) : d.rest.take 1 = [d.cards[d.pos]] := by
  rw [d.rest_cons h]
  rfl

theorem Game.toPlayer_player_length (g : Game) (h : g.deck.pos < 52) :
    g.toPlayer.player.length = g.player.length + 1 := by
  simp [Game.toPlayer, Deck.rest_take_one _ h]

theorem Dealt.toPlayer {g : Game} (h : Dealt g) (hplayer : g.player.length ≤ 21)
    (hdealer : 2 ≤ g.dealer.length) : Dealt g.toPlayer := by
  have hpos := h.pos_eq
  have hle := h.dealer_le
  have hlen := g.toPlayer_player_length h.pos_lt
  refine ⟨h.perm, ?_, ?_, by omega, h.dealer_le, h.dealer_le_two, fun _ => hdealer⟩
  · simp only [Game.toPlayer]
    rw [List.take_add]
    have hmove : (g.player ++ g.deck.rest.take 1 ++ g.dealer).Perm
        (g.player ++ g.dealer ++ g.deck.rest.take 1) := by
      rw [List.append_assoc, List.append_assoc]
      exact List.perm_append_comm.append_left _
    exact hmove.trans (h.hands.append_right _)
  · simp only [Game.toPlayer]
    omega

theorem Dealt.toDealer {g : Game} (h : Dealt g) (hstood : g.stood = true) (k : Nat)
    (hk : g.dealer.length + k ≤ 18) : Dealt (g.toDealer k) := by
  have hpos := h.pos_eq
  have hple := h.player_le
  have hrest := g.deck.rest_length
  have hlen : (g.toDealer k).dealer.length = g.dealer.length + k := by
    simp only [Game.toDealer, List.length_append, List.length_take]
    omega
  refine ⟨h.perm, ?_, ?_, h.player_le, by omega, ?_, ?_⟩
  · simp only [Game.toDealer]
    rw [List.take_add, ← List.append_assoc]
    exact h.hands.append_right _
  · simp only [Game.toDealer]
    omega
  · intro hnot
    simp [Game.toDealer, hstood] at hnot
  · intro hne
    have := h.two_le_dealer hne
    omega

private theorem Dealt.stood {g : Game} (h : Dealt g) : Dealt { g with stood := true } :=
  ⟨h.perm, h.hands, h.pos_lt, h.player_le, h.dealer_le, nofun, h.two_le_dealer⟩

theorem Dealt.finish {g : Game} (h : Dealt g) : Dealt g.finish := by
  unfold Game.finish
  split
  · exact h.stood
  · apply h.stood.toDealer rfl
    have hcount := houseCount_le g.dealer g.deck.rest
    have hhard := Hand.length_le_hard g.dealer
    have hle := h.dealer_le
    dsimp only
    omega

@[simp] theorem Game.finish_player (g : Game) : g.finish.player = g.player := by
  unfold Game.finish
  split <;> rfl

@[simp] theorem Game.finish_stood (g : Game) : g.finish.stood = true := by
  unfold Game.finish
  split <;> rfl

@[simp] theorem Game.finish_bet (g : Game) : g.finish.bet = g.bet := by
  unfold Game.finish
  split <;> rfl

theorem stand_eq (g : Game) (src : Source) (hstood : g.stood = false) (hpos : g.deck.pos + 18 < 52) :
    g.stand src = some (g.finish, src) := by
  simp only [Game.stand, hstood, Bool.false_eq_true, if_false, Game.finish]
  split
  · rename_i hbust
    exact dealerPlay_bust _ src hbust
  · rename_i hunder
    exact dealerPlay_house { g with stood := true } src (by dsimp only; omega) hpos

theorem hit_eq (g : Game) (src : Source) (hstood : g.stood = false) (hpos : g.deck.pos + 19 < 52) :
    g.hit src =
      some (if 21 ≤ Hand.value g.toPlayer.player then g.toPlayer.finish else g.toPlayer, src) := by
  have hnext := g.deck.next_of_lt src (by omega)
  have hone := g.deck.rest_take_one (by omega)
  have hturn : { g with
      deck := { g.deck with pos := g.deck.pos + 1 }
      player := g.player ++ [g.deck.cards[g.deck.pos]] } = g.toPlayer := by
    simp [Game.toPlayer, hone]
  have hplayer : g.player ++ [g.deck.cards[g.deck.pos]] = g.toPlayer.player := by
    rw [← hturn]
  simp only [Game.hit, hnext, Option.bind_eq_bind, Option.bind_some]
  rw [hturn, hplayer]
  by_cases h21 : 21 ≤ Hand.value g.toPlayer.player
  · rw [if_pos h21, if_pos h21]
    exact stand_eq g.toPlayer src hstood (by simp only [Game.toPlayer]; omega)
  · rw [if_neg h21, if_neg h21]

/-- A deal shuffles once, gives two cards to each side and leaves `Stood` alone. -/
theorem deal_eq (g : Game) (src : Source) (hperm : g.deck.cards.Perm newDeck.cards)
    (hstood : g.stood = false) :
    ∃ g', g.deal src = some (g', src.tail) ∧ Dealt g' ∧ g'.player.length = 2 ∧
      g'.dealer.length = 2 ∧ g'.stood = false := by
  obtain ⟨d, hshuffle⟩ : ∃ d, g.deck.shuffle src.head = d := ⟨_, rfl⟩
  have hd : d.cards.Perm newDeck.cards := hshuffle ▸ (g.deck.shuffle_perm src.head).trans hperm
  have hpos : d.pos = 0 := hshuffle ▸ g.deck.shuffle_pos src.head
  have hfour : d.cards.toList.take 4 = [d.cards[0], d.cards[1], d.cards[2], d.cards[3]] := by
    have hrest (i : Nat) (hi : i < 52) : ({ d with pos := i } : Deck).rest =
        d.cards[i] :: ({ d with pos := i + 1 } : Deck).rest := Deck.rest_cons { d with pos := i } hi
    change ({ d with pos := 0 } : Deck).rest.take 4 = _
    rw [hrest 0 (by omega), hrest 1 (by omega), hrest 2 (by omega), hrest 3 (by omega)]
    rfl
  refine ⟨{ g with
    deck := { d with pos := 4 }
    player := [d.cards[0], d.cards[2]]
    dealer := [d.cards[1], d.cards[3]] }, ?_, ?_, rfl, rfl, hstood⟩
  · have hnext (i : Nat) (hi : i + 1 < 52) : ({ d with pos := i } : Deck).next src.tail =
        some (d.cards[i], { d with pos := i + 1 }, src.tail) :=
      Deck.next_of_lt { d with pos := i } src.tail hi
    have hzero : d = { d with pos := 0 } := by rw [← hpos]
    simp only [Game.deal, Game.dealPass, hshuffle]
    rw [hzero]
    simp only [hnext 0 (by omega), hnext 1 (by omega),
      hnext 2 (by omega), hnext 3 (by omega), Option.bind_eq_bind, Option.bind_some,
      Option.pure_def, List.nil_append, List.singleton_append, Nat.zero_add, Nat.reduceAdd]
  · refine ⟨hd, ?_, by dsimp only; omega, by simp, by simp, by simp, by simp⟩
    dsimp only
    rw [hfour]
    exact (List.Perm.swap _ _ _).cons _

end CtfChallenges.Cards
