import CtfChallenges.Cards.Game

/-!
# The house rule

What the dealer ends with depends only on the hand and on the cards to come. The rule is
stated on lists, and `dealerLoop` is shown to follow it without reaching the end of the deck.
-/

namespace CtfChallenges.Cards

/-- The cards not dealt yet, the next one first. -/
def Deck.rest (d : Deck) : List Card := d.cards.toList.drop d.pos

/-- How many of the coming cards the house rule makes the dealer take. -/
def houseCount : Hand → List Card → Nat
  | _, [] => 0
  | dealer, c :: cards => if Hand.mustDraw dealer then houseCount (dealer ++ [c]) cards + 1 else 0

/-- The dealer's hand once the house rule has been followed. -/
def houseDraw (dealer : Hand) (cards : List Card) : Hand :=
  dealer ++ cards.take (houseCount dealer cards)

private theorem le_raiseAces (aces value : Nat) : value ≤ raiseAces aces value := by
  induction aces generalizing value with
  | zero => exact le_rfl
  | succ aces ih =>
    unfold raiseAces
    split
    · exact (Nat.le_add_right _ _).trans (ih _)
    · exact le_rfl

theorem Hand.hard_le_value (h : Hand) : Hand.hard h ≤ Hand.value h := le_raiseAces _ _

@[simp] theorem Hand.hard_append (h t : Hand) : Hand.hard (h ++ t) = Hand.hard h + Hand.hard t := by
  simp [Hand.hard]

@[simp] theorem Hand.hard_singleton (c : Card) : Hand.hard [c] = c.value := by simp [Hand.hard]

theorem Hand.length_le_hard (h : Hand) : h.length ≤ Hand.hard h := by
  induction h with
  | nil => simp
  | cons c h ih =>
    have hc := c.value_pos
    have hsplit : Hand.hard (c :: h) = c.value + Hand.hard h := by simp [Hand.hard]
    rw [hsplit, List.length_cons]
    omega

theorem Hand.hard_of_mustDraw {h : Hand} (hd : Hand.mustDraw h = true) : Hand.hard h ≤ 17 := by
  have hle := Hand.hard_le_value h
  simp only [Hand.mustDraw, Hand.soft17, Bool.or_eq_true, Bool.and_eq_true, decide_eq_true_eq,
    beq_iff_eq] at hd
  omega

theorem Hand.state_bust_iff (h : Hand) : Hand.state h = .bust ↔ 21 < Hand.value h := by
  unfold Hand.state
  split
  · rename_i hb
    simp [hb.1]
  · split <;> simp_all

theorem Hand.state_blackjack_iff (h : Hand) :
    Hand.state h = .blackjack ↔ Hand.value h = 21 ∧ h.length = 2 := by
  unfold Hand.state
  split
  · simp_all
  · split <;> simp_all

theorem houseCount_le (dealer : Hand) (cards : List Card) :
    houseCount dealer cards ≤ 18 - Hand.hard dealer := by
  induction cards generalizing dealer with
  | nil => simp [houseCount]
  | cons c cards ih =>
    unfold houseCount
    split
    · rename_i hd
      have hhard := Hand.hard_of_mustDraw hd
      have hc := c.value_pos
      have hrest := ih (dealer ++ [c])
      simp only [Hand.hard_append, Hand.hard_singleton] at hrest
      omega
    · exact Nat.zero_le _

theorem houseDraw_cons (dealer : Hand) (c : Card) (cards : List Card)
    (h : Hand.mustDraw dealer = true) :
    houseDraw dealer (c :: cards) = houseDraw (dealer ++ [c]) cards := by
  simp [houseDraw, houseCount, h]

theorem houseCount_of_not {dealer : Hand} (h : Hand.mustDraw dealer = false) (cards : List Card) :
    houseCount dealer cards = 0 := by
  cases cards <;> simp [houseCount, h]

/-- With enough cards to come, the rule ends with a hand it lets stand. -/
theorem houseDraw_done (dealer : Hand) (cards : List Card)
    (h : 18 - Hand.hard dealer ≤ cards.length) : Hand.mustDraw (houseDraw dealer cards) = false := by
  induction cards generalizing dealer with
  | nil =>
    cases hd : Hand.mustDraw dealer with
    | false => simpa [houseDraw, houseCount] using hd
    | true =>
      have hhard := Hand.hard_of_mustDraw hd
      simp only [List.length_nil] at h
      omega
  | cons c cards ih =>
    cases hd : Hand.mustDraw dealer with
    | false => simp [houseDraw, houseCount, hd]
    | true =>
      rw [houseDraw_cons dealer c cards hd]
      apply ih
      have hc := c.value_pos
      simp only [Hand.hard_append, Hand.hard_singleton, List.length_cons] at h ⊢
      omega

/-- The game after `k` more cards have gone to the dealer. -/
def Game.toDealer (g : Game) (k : Nat) : Game :=
  { g with deck := { g.deck with pos := g.deck.pos + k }, dealer := g.dealer ++ g.deck.rest.take k }

@[simp] theorem Game.toDealer_zero (g : Game) : g.toDealer 0 = g := by simp [Game.toDealer]

/-- Turning a card over: it is the head of the cards to come, and the rest stay. -/
theorem Deck.rest_cons (d : Deck) (h : d.pos < 52) :
    d.rest = d.cards[d.pos] :: { d with pos := d.pos + 1 }.rest := by
  simp only [Deck.rest]
  rw [List.drop_eq_getElem_cons (by simpa using h)]
  simp

theorem Deck.rest_length (d : Deck) : d.rest.length = 52 - d.pos := by simp [Deck.rest]

/-- The loop ends within its fuel, has drawn what the house rule asks for, and used no
randomness. -/
theorem dealerLoop_house (fuel : Nat) (g : Game) (src : Source)
    (hfuel : 18 ≤ Hand.hard g.dealer + fuel) (hpos : g.deck.pos + fuel < 52) :
    g.dealerLoop fuel src = some (g.toDealer (houseCount g.dealer g.deck.rest), src) := by
  induction fuel generalizing g with
  | zero =>
    have hstop : Hand.mustDraw g.dealer = false := by
      cases hd : Hand.mustDraw g.dealer with
      | false => rfl
      | true => have := Hand.hard_of_mustDraw hd; omega
    simp [Game.dealerLoop, hstop, houseCount_of_not hstop]
  | succ fuel ih =>
    cases hd : Hand.mustDraw g.dealer with
    | false => simp [Game.dealerLoop, hd, houseCount_of_not hd]
    | true =>
      have hnext := g.deck.next_of_lt src (by omega)
      have hrest := g.deck.rest_cons (by omega)
      have hc := (g.deck.cards[g.deck.pos]).value_pos
      have htail := ih { g with
        deck := { g.deck with pos := g.deck.pos + 1 }
        dealer := g.dealer ++ [g.deck.cards[g.deck.pos]] }
        (by simp only [Hand.hard_append, Hand.hard_singleton]; omega)
        (by dsimp only; omega)
      have hcount : houseCount g.dealer g.deck.rest =
          houseCount (g.dealer ++ [g.deck.cards[g.deck.pos]])
            { g.deck with pos := g.deck.pos + 1 }.rest + 1 := by
        rw [hrest, houseCount, if_pos hd]
      simp only [Game.dealerLoop, hd, if_true, hnext, Option.bind_eq_bind, Option.bind_some]
      rw [htail, hcount]
      simp only [Game.toDealer, hrest, List.take_succ_cons, List.append_assoc,
        List.singleton_append, Nat.add_assoc, Nat.add_comm 1]

theorem dealerPlay_house (g : Game) (src : Source) (hplayer : Hand.value g.player ≤ 21)
    (hpos : g.deck.pos + 18 < 52) :
    g.dealerPlay src = some (g.toDealer (houseCount g.dealer g.deck.rest), src) := by
  have hbust : Hand.state g.player ≠ .bust := by rw [Ne, Hand.state_bust_iff]; omega
  rw [Game.dealerPlay, if_neg hbust]
  exact dealerLoop_house 18 g src (by omega) hpos

theorem dealerPlay_bust (g : Game) (src : Source) (hplayer : 21 < Hand.value g.player) :
    g.dealerPlay src = some (g, src) := by
  rw [Game.dealerPlay, if_pos ((Hand.state_bust_iff _).mpr hplayer)]

end CtfChallenges.Cards
