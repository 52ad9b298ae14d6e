import CtfChallenges.Cards.Wire

/-!
# The blinded card

Two games that a player should not be able to tell apart. The text that is sealed is as long as
the numbers in it, and a rank is written with one digit or with two.
-/

namespace CtfChallenges.Cards
open Framework Json

private theorem length_renderElements (vs : List Value) :
    (renderElements vs).length = (vs.map fun v => (render v).length + 1).sum + 1 := by
  induction vs with
  | nil => rfl
  | cons v vs ih =>
    rw [renderElements, List.cons_append, List.length_cons, List.length_append, ih, List.map_cons,
      List.sum_cons]
    omega

private theorem length_render_array {vs : List Value} (h : vs ≠ []) :
    (render (.array vs)).length = (vs.map fun v => (render v).length + 1).sum + 1 := by
  cases vs with
  | nil => exact absurd rfl h
  | cons v vs =>
    rw [render, List.cons_append, List.length_cons, List.length_append, length_renderElements,
      List.map_cons, List.sum_cons]
    omega

private theorem length_card (c : Card) :
    (render c.json).length = 18 + (formatUint c.rank.toUint8).length := by
  have hsuit : (formatUint c.suit.toUint8).length = 1 := by
    cases c.suit <;> rfl
  have hkeys : (quote (word "Suit")).length = 6 ∧ (quote (word "Rank")).length = 6 := by
    decide +kernel
  simp only [Card.json, render, renderMembers, List.length_append, List.length_cons,
    List.length_nil, hsuit, hkeys]
  omega

theorem length_formatUint_rank (r : Rank) :
    (formatUint r.toUint8).length = if r.toUint8 < 10 then 1 else 2 := by
  cases r <;> rfl

/-- The bytes of some cards, each with a comma or a bracket after it. -/
private def cardsLength (cs : List Card) : Nat := (cs.map fun c => (render c.json).length + 1).sum

private theorem length_render_cards {cs : List Card} (h : cs ≠ []) :
    (render (.array (cs.map Card.json))).length = cardsLength cs + 1 := by
  rw [length_render_array (by simpa using h), List.map_map]
  rfl

private theorem length_deck (d : Deck) :
    (render d.json).length = cardsLength d.cards.toList + (formatUint d.pos).length + 18 := by
  have hne : d.cards.toList ≠ [] := by
    intro h
    have := congrArg List.length h
    simp at this
  have hkeys : (quote (word "Cards")).length = 7 ∧ (quote (word "Pos")).length = 5 := by
    decide +kernel
  rw [Deck.json, render, renderMembers, renderMembers, render]
  simp only [List.length_append, List.length_cons, List.length_nil, length_render_cards hne, hkeys]
  omega

private theorem length_secret {g : Game} (balance : Int) (hplayer : g.player ≠ [])
    (hdealer : g.dealer ≠ []) :
    (render (SecretState.json ⟨g, balance⟩)).length =
      cardsLength g.deck.cards.toList + (formatUint g.deck.pos).length + cardsLength g.player +
        cardsLength g.dealer + (render (.bool g.stood)).length + (formatInt g.bet).length +
          (formatInt balance).length + 85 := by
  have hkeys : (quote (word "Game")).length = 6 ∧ (quote (word "Balance")).length = 9 ∧
      (quote (word "Deck")).length = 6 ∧ (quote (word "Player")).length = 8 ∧
        (quote (word "Dealer")).length = 8 ∧ (quote (word "Stood")).length = 7 ∧
          (quote (word "Bet")).length = 5 := by
    decide +kernel
  rw [SecretState.json, render, Game.json, render]
  simp only [renderMembers, List.length_append, List.length_cons, List.length_nil, hkeys,
    length_deck, Hand.json, length_render_cards hplayer, length_render_cards hdealer]
  simp only [render]
  omega

theorem length_marshalText (box : Secretbox) (nonce : Nonce) (ss : SecretState) :
    (SecretState.marshalText box nonce ss).length = 2 * ((render ss.json).length + 40) := by
  rw [SecretState.marshalText, Hex.length_encode, List.length_append, box.length_Seal,
    Vector.length_toList, overhead]
  omega

/-- Both games are on, and they differ only in the first card of the dealer and in the order of the
deck. -/
structure Alike (s s' : Session) (c c' : Card) (rest : Hand) : Prop where
  playing : s.game.state = .playing
  playing' : s'.game.state = .playing
  balance : s.balance = s'.balance
  bet : s.bet = s'.bet
  game_bet : s.game.bet = s'.game.bet
  player : s.game.player = s'.game.player
  dealer : s.game.dealer = c :: rest
  dealer' : s'.game.dealer = c' :: rest
  pos : s.game.deck.pos = s'.game.deck.pos
  cards : s.game.deck.cards.toList.Perm s'.game.deck.cards.toList

private theorem player_of_playing {g : Game} (h : g.state = .playing) :
    g.player ≠ [] ∧ g.stood = false := by
  unfold Game.state at h
  constructor
  · intro hnil
    rw [if_pos (by rw [hnil]; rfl)] at h
    cases h
  · by_contra hstood
    rw [Bool.not_eq_false] at hstood
    simp only [hstood, true_and, if_true] at h
    split_ifs at h

/-- The sealed texts are equally long if and only if the ranks are. -/
theorem length_secret_iff {s s' : Session} {c c' : Card} {rest : Hand}
    (h : Alike s s' c c' rest) (box : Secretbox) (nonce nonce' : Nonce) :
    (SecretState.marshalText box nonce ⟨s.game, s.balance⟩).length =
        (SecretState.marshalText box nonce' ⟨s'.game, s'.balance⟩).length ↔
      (c.rank.toUint8 < 10 ↔ c'.rank.toUint8 < 10) := by
  obtain ⟨hplayer, hstood⟩ := player_of_playing h.playing
  obtain ⟨hplayer', hstood'⟩ := player_of_playing h.playing'
  have hdeck : cardsLength s.game.deck.cards.toList = cardsLength s'.game.deck.cards.toList :=
    (h.cards.map _).sum_eq
  have hdealer : s.game.dealer ≠ [] := by
    rw [h.dealer]
    exact List.cons_ne_nil c rest
  have hdealer' : s'.game.dealer ≠ [] := by
    rw [h.dealer']
    exact List.cons_ne_nil c' rest
  have hcons : ∀ c : Card, cardsLength (c :: rest) =
      (formatUint c.rank.toUint8).length + 19 + cardsLength rest := by
    intro c
    rw [cardsLength, List.map_cons, List.sum_cons, length_card]
    change _ + cardsLength rest = _
    omega
  rw [length_marshalText, length_marshalText, length_secret _ hplayer hdealer,
    length_secret _ hplayer' hdealer', hdeck, h.pos, h.player, hstood, hstood', h.game_bet, h.balance,
    h.dealer, h.dealer', hcons, hcons, length_formatUint_rank, length_formatUint_rank]
  split <;> split <;> omega

private theorem dealerHand_cons {g : Game} {c : Card} {rest : Hand} (h : g.state = .playing)
    (hdealer : g.dealer = c :: rest) :
    g.dealerHand = .array [.string (word "X"), .string (word "X")] :: rest.map Card.strings := by
  have hrest : ∀ i, (rest.zipIdx (i + 1)).map (fun p => if p.2 = 0 ∧ g.state = .playing then
      Value.array [.string (word "X"), .string (word "X")] else p.1.strings) =
        rest.map Card.strings := by
    clear hdealer
    induction rest with
    | nil => exact fun _ => rfl
    | cons d rest ih =>
      intro i
      rw [List.zipIdx_cons, List.map_cons, ih (i + 1), List.map_cons, if_neg (by simp)]
  have hfirst : ((c :: rest).zipIdx).map (fun p => if p.2 = 0 ∧ g.state = .playing then
      Value.array [.string (word "X"), .string (word "X")] else p.1.strings) =
        .array [.string (word "X"), .string (word "X")] :: rest.map Card.strings := by
    rw [List.zipIdx_cons, List.map_cons, hrest 0, if_pos ⟨rfl, h⟩]
  rw [Game.dealerHand, hdealer]
  exact hfirst

/-- The other fields do not tell the games apart. -/
theorem fields_eq {s s' : Session} {c c' : Card} {rest : Hand} (h : Alike s s' c c' rest)
    (flag : Bytes) : s.fields flag = s'.fields flag := by
  have hstate : s.state = s'.state := by
    rw [Session.state, Session.state, h.balance]
  simp only [Session.fields, dealerHand_cons h.playing h.dealer,
    dealerHand_cons h.playing' h.dealer', h.player, h.balance, h.bet, h.playing, h.playing', hstate]

/-- Two objects that agree in every field but the first, where they have texts of one length. -/
def SameButSecret (v v' : Value) : Prop :=
  ∃ secret secret' fields, v = .object ((word "SecretState", .string secret) :: fields) ∧
    v' = .object ((word "SecretState", .string secret') :: fields) ∧ secret.length = secret'.length

private theorem sameButSecret_iff {s s' : Session} {c c' : Card} {rest : Hand}
    (h : Alike s s' c c' rest) (box : Secretbox) (nonce nonce' : Nonce) (flag : Bytes) :
    SameButSecret (s.json box nonce flag) (s'.json box nonce' flag) ↔
      (SecretState.marshalText box nonce ⟨s.game, s.balance⟩).length =
        (SecretState.marshalText box nonce' ⟨s'.game, s'.balance⟩).length := by
  constructor
  · rintro ⟨secret, secret', fields, hjson, hjson', hlen⟩
    simp only [Session.json, Value.object.injEq, List.cons.injEq, Prod.mk.injEq,
      Value.string.injEq, true_and] at hjson hjson'
    rw [hjson.1, hjson'.1, hlen]
  · intro hlen
    refine ⟨_, _, _, rfl, ?_, hlen⟩
    rw [fields_eq h flag]
    rfl

/-- What the client gets hides the first card up to the number of digits of its rank. -/
theorem hidden_card_iff {s s' : Session} {c c' : Card} {rest : Hand} (h : Alike s s' c c' rest)
    (box : Secretbox) (nonce nonce' : Nonce) (flag : Bytes) :
    SameButSecret (s.json box nonce flag) (s'.json box nonce' flag) ↔
      (c.rank.toUint8 < 10 ↔ c'.rank.toUint8 < 10) := by
  rw [sameButSecret_iff h, length_secret_iff h]

/-- The first round with this deck. -/
def dealt (cards : Vector Card 52) : Session where
  game := ⟨⟨cards, 4⟩, [cards[0], cards[2]], [cards[1], cards[3]], false, 10⟩
  balance := 990
  bet := 10

/-- The deck of `NewDeck` with the two and the ten of spades exchanged. -/
def tenForTwo : Vector Card 52 := newDeck.cards.swap 1 9

private theorem dealt_alike : Alike (dealt newDeck.cards) (dealt tenForTwo) ⟨.spades, .two⟩
    ⟨.spades, .ten⟩ [⟨.spades, .four⟩] where
  playing := by decide +kernel
  playing' := by decide +kernel
  balance := rfl
  bet := rfl
  game_bet := rfl
  player := by decide +kernel
  dealer := by decide +kernel
  dealer' := by decide +kernel
  pos := rfl
  cards := by decide +kernel

theorem hidden_card_dealt :
    SameButSecret ((dealt newDeck.cards).json plainBox (Vector.replicate 24 0) [])
        ((dealt tenForTwo).json plainBox (Vector.replicate 24 1) []) ↔
      (Rank.two.toUint8 < 10 ↔ Rank.ten.toUint8 < 10) :=
  hidden_card_iff dealt_alike plainBox _ _ []

theorem ten_is_longer :
    Alike (dealt newDeck.cards) (dealt tenForTwo) ⟨.spades, .two⟩ ⟨.spades, .ten⟩
        [⟨.spades, .four⟩] ∧
      ¬SameButSecret ((dealt newDeck.cards).json plainBox (Vector.replicate 24 0) [])
        ((dealt tenForTwo).json plainBox (Vector.replicate 24 1) []) := by
  refine ⟨dealt_alike, ?_⟩
  rw [sameButSecret_iff dealt_alike, length_secret_iff dealt_alike]
  decide

end CtfChallenges.Cards
