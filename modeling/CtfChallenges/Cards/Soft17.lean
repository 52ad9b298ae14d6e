import CtfChallenges.Cards.Totals
import Mathlib.Algebra.Group.End

/-!
# The dealer on seventeen

The published rule lets the dealer hit a soft 17, where an ace counts eleven. `DealerPlay` asks for
an ace anywhere in the hand, and so also hits a hard 17 whose aces all count one.
-/

namespace CtfChallenges.Cards

/-- The rule has the dealer hit: less than 17, or a 17 in which an ace counts eleven. -/
def RuleHits (h : Hand) : Prop :=
  ∃ v, IsBest h v ∧ (v < 17 ∨ v = 17 ∧ ∃ elevens, 0 < elevens ∧ Counted h elevens 17)

/-- The rule has the dealer stand: a hard 17, or 18 and more. -/
def RuleStands (h : Hand) : Prop :=
  ∃ v, IsBest h v ∧ (18 ≤ v ∨ v = 17 ∧ ∀ elevens, Counted h elevens 17 → elevens = 0)

/-- The next `k` cards, with the deck and the randomness left after them. -/
def Deck.draw : Nat → Deck → Source → Option (List Card × Deck × Source)
  | 0, d, src => some ([], d, src)
  | k + 1, d, src => do
    let (c, d, src) ← d.next src
    let (cards, d, src) ← Deck.draw k d src
    return (c :: cards, d, src)

/-- `DealerPlay` ends, after cards that the dealer takes one by one exactly as the rule asks. -/
def FollowsRule (g : Game) (src : Source) : Prop :=
  ∃ k cards deck src', g.deck.draw k src = some (cards, deck, src') ∧
    g.dealerPlay src = some ({ g with deck := deck, dealer := g.dealer ++ cards }, src') ∧
    (∀ j < k, RuleHits (g.dealer ++ cards.take j)) ∧
    ¬ RuleHits (g.dealer ++ cards) ∧ RuleStands (g.dealer ++ cards)

/-- A 17 with an ace in it and all aces as one. -/
def HardAce17 (h : Hand) : Prop := Hand.hard h = 17 ∧ 0 < Hand.aces h

/-- An ace as eleven brings the hand to a total from 18 to 21. -/
def SoftStand (h : Hand) : Prop := 0 < Hand.aces h ∧ 8 ≤ Hand.hard h ∧ Hand.hard h ≤ 11

/-- The cards to come bring the dealer to no hard 17 with an ace, or to a soft 18 or more first. -/
def AvoidsHardAce17 (g : Game) (src : Source) : Prop :=
  ∀ k cards deck src', g.deck.draw k src = some (cards, deck, src') →
    HardAce17 (g.dealer ++ cards) → ∃ j < k, SoftStand (g.dealer ++ cards.take j)

theorem ruleHits_iff (h : Hand) :
    RuleHits h ↔ Hand.value h < 17 ∨ Hand.value h = 17 ∧ Hand.hard h ≠ 17 := by
  constructor
  · rintro ⟨v, hv, hhit⟩
    rw [hv.unique (Hand.value_best h)] at hhit
    rcases hhit with hlt | ⟨heq, elevens, hpos, hcounted⟩
    · exact .inl hlt
    · rw [counted_iff] at hcounted
      exact .inr ⟨heq, by omega⟩
  · intro hhit
    refine ⟨Hand.value h, Hand.value_best h, ?_⟩
    rcases hhit with hlt | ⟨heq, hne⟩
    · exact .inl hlt
    · obtain ⟨k, hk, hvalue, -, -⟩ := Hand.value_eq h
      exact .inr ⟨heq, k, by omega, (counted_iff _ _ _).mpr ⟨hk, by omega⟩⟩

theorem ruleStands_iff (h : Hand) : RuleStands h ↔ ¬ RuleHits h := by
  rw [ruleHits_iff]
  constructor
  · rintro ⟨v, hv, hstand⟩
    rw [hv.unique (Hand.value_best h)] at hstand
    rcases hstand with hle | ⟨heq, hone⟩
    · omega
    · obtain ⟨k, hk, hvalue, -, -⟩ := Hand.value_eq h
      have hzero := hone k ((counted_iff _ _ _).mpr ⟨hk, by omega⟩)
      omega
  · intro hnot
    refine ⟨Hand.value h, Hand.value_best h, ?_⟩
    by_cases heq : Hand.value h = 17
    · refine .inr ⟨heq, fun elevens hcounted => ?_⟩
      rw [counted_iff] at hcounted
      omega
    · exact .inl (by omega)

/-- The loop asks for the cards of the rule, and for one more on a hard 17 with an ace. -/
theorem mustDraw_iff (h : Hand) : Hand.mustDraw h = true ↔ RuleHits h ∨ HardAce17 h := by
  rw [ruleHits_iff]
  obtain ⟨k, hk, hvalue, hstop, hfits⟩ := Hand.value_eq h
  simp only [Hand.mustDraw, Hand.soft17, Bool.or_eq_true, Bool.and_eq_true, decide_eq_true_eq,
    beq_iff_eq, HardAce17]
  omega

theorem not_ruleHits_of_hardAce17 {h : Hand} (hace : HardAce17 h) : ¬ RuleHits h := by
  rw [ruleHits_iff]
  obtain ⟨k, hk, hvalue, hstop, hfits⟩ := Hand.value_eq h
  obtain ⟨hhard, -⟩ := hace
  omega

/-- On less than a hard 17, the loop stops at nothing but a soft hand. -/
theorem not_mustDraw_iff {h : Hand} (hlt : Hand.hard h < 17) :
    Hand.mustDraw h = false ↔ SoftStand h := by
  rw [← Bool.not_eq_true, mustDraw_iff, ruleHits_iff]
  obtain ⟨k, hk, hvalue, hstop, hfits⟩ := Hand.value_eq h
  have haces : Hand.aces h ≤ Hand.hard h := List.countP_le_length.trans h.length_le_hard
  simp only [HardAce17, SoftStand]
  omega

theorem Deck.next_spec (d : Deck) (src : Source) (h : d.pos < 52) :
    ∃ c d' src', d.next src = some (c, d', src') ∧ d'.pos < 52 := by
  by_cases hlast : d.pos + 1 < 52
  · exact ⟨_, _, src, d.next_of_lt src hlast, hlast⟩
  · have hget : d.cards[d.pos]? = some d.cards[d.pos] := Vector.getElem?_eq_getElem h
    exact ⟨d.cards[d.pos], _, src.tail, by simp [Deck.next, hget, not_lt.mp hlast]; rfl, by simp⟩

theorem Deck.draw_succ {k : Nat} {d d' : Deck} {src src' : Source} {c : Card}
    (hnext : d.next src = some (c, d', src')) :
    d.draw (k + 1) src = (d'.draw k src').map fun p => (c :: p.1, p.2) := by
  simp only [Deck.draw, hnext, Option.bind_eq_bind, Option.bind_some]
  cases d'.draw k src' <;> rfl

theorem Deck.draw_take {m k : Nat} {d d' : Deck} {src src' : Source} {cards : List Card}
    (hdraw : d.draw m src = some (cards, d', src')) (hk : k ≤ m) :
    ∃ d'' src'', d.draw k src = some (cards.take k, d'', src'') := by
  induction k generalizing m d src cards with
  | zero => exact ⟨d, src, by simp [Deck.draw]⟩
  | succ k ih =>
    obtain ⟨m, rfl⟩ := Nat.exists_eq_add_of_le' (show 1 ≤ m by omega)
    cases hnext : d.next src with
    | none => simp [Deck.draw, hnext] at hdraw
    | some p =>
      obtain ⟨c, e, tail⟩ := p
      rw [Deck.draw_succ hnext, Option.map_eq_some_iff] at hdraw
      obtain ⟨⟨rest, q⟩, hrest, heq⟩ := hdraw
      cases heq
      obtain ⟨d'', src'', hshort⟩ := ih hrest (by omega)
      exact ⟨d'', src'', by rw [Deck.draw_succ hnext, hshort]; rfl⟩

theorem Deck.length_of_draw {k : Nat} {d d' : Deck} {src src' : Source} {cards : List Card}
    (hdraw : d.draw k src = some (cards, d', src')) : cards.length = k := by
  induction k generalizing d src cards with
  | zero =>
    cases hdraw
    rfl
  | succ k ih =>
    cases hnext : d.next src with
    | none => simp [Deck.draw, hnext] at hdraw
    | some p =>
      obtain ⟨c, e, tail⟩ := p
      rw [Deck.draw_succ hnext, Option.map_eq_some_iff] at hdraw
      obtain ⟨⟨rest, q⟩, hrest, heq⟩ := hdraw
      cases heq
      rw [List.length_cons, ih hrest]

/-- What the dealer takes: cards up to the first hand that the condition of the loop lets stand. -/
structure Takes (g : Game) (src : Source) (k : Nat) (cards : List Card) (deck : Deck)
    (src' : Source) : Prop where
  draw : g.deck.draw k src = some (cards, deck, src')
  draws : ∀ j < k, Hand.mustDraw (g.dealer ++ cards.take j) = true
  stops : Hand.mustDraw (g.dealer ++ cards) = false

theorem dealerLoop_takes (fuel : Nat) (g : Game) (src : Source)
    (hfuel : 18 ≤ Hand.hard g.dealer + fuel) (hpos : g.deck.pos < 52) :
    ∃ k cards deck src', Takes g src k cards deck src' ∧
      g.dealerLoop fuel src =
        some ({ g with deck := deck, dealer := g.dealer ++ cards }, src') := by
  induction fuel generalizing g src with
  | zero =>
    have hstop : Hand.mustDraw g.dealer = false := by
      rw [← Bool.not_eq_true]
      intro hd
      have := Hand.hard_of_mustDraw hd
      omega
    exact ⟨0, [], g.deck, src, ⟨rfl, by simp, by simpa using hstop⟩, by simp [Game.dealerLoop, hstop]⟩
  | succ fuel ih =>
    cases hd : Hand.mustDraw g.dealer with
    | false =>
      exact ⟨0, [], g.deck, src, ⟨rfl, by simp, by simpa using hd⟩, by simp [Game.dealerLoop, hd]⟩
    | true =>
      obtain ⟨c, deck, src₁, hnext, hdeck⟩ := g.deck.next_spec src hpos
      have hc := c.value_pos
      obtain ⟨k, cards, deck', src', htakes, hloop⟩ :=
        ih { g with deck := deck, dealer := g.dealer ++ [c] } src₁
          (by simp only [Hand.hard_append, Hand.hard_singleton]; omega) hdeck
      refine ⟨k + 1, c :: cards, deck', src', ⟨?_, ?_, by simpa using htakes.stops⟩, ?_⟩
      · rw [Deck.draw_succ hnext, htakes.draw]
        rfl
      · intro j hj
        cases j with
        | zero => simpa using hd
        | succ j => simpa using htakes.draws j (by omega)
      · simp only [Game.dealerLoop, hd, if_true, hnext, Option.bind_eq_bind, Option.bind_some,
          hloop, List.append_assoc, List.singleton_append]

variable {g : Game} {src src' : Source} {k : Nat} {cards : List Card} {deck : Deck}

private theorem hard_take_lt (h : Hand) {i j : Nat} (hij : i < j) (hj : j ≤ cards.length) :
    Hand.hard (h ++ cards.take i) < Hand.hard (h ++ cards.take j) := by
  have hsplit : cards.take j = cards.take i ++ (cards.take j).drop i := by
    have happend := (List.take_append_drop i (cards.take j)).symm
    rwa [List.take_take, Nat.min_eq_left hij.le] at happend
  have hpos := Hand.length_le_hard ((cards.take j).drop i)
  have hlen : ((cards.take j).drop i).length = j - i := by simp [Nat.min_eq_left hj]
  rw [hsplit]
  simp only [Hand.hard_append]
  omega

/-- The cards are those of the rule when no hard 17 with an ace comes up on the way. -/
theorem Takes.follows_iff (h : Takes g src k cards deck src') (hplay : g.dealerPlay src =
      some ({ g with deck := deck, dealer := g.dealer ++ cards }, src')) :
    FollowsRule g src ↔ ∀ j < k, ¬ HardAce17 (g.dealer ++ cards.take j) := by
  constructor
  · rintro ⟨k', cards', deck', src'', hdraw, hplay', hhits, -, -⟩ j hj hace
    have hsame : cards' = cards := by
      rw [hplay] at hplay'
      simpa using (congrArg (fun p => p.1.dealer) (Option.some.inj hplay')).symm
    have hk : k' = k := by
      rw [← Deck.length_of_draw hdraw, hsame, Deck.length_of_draw h.draw]
    apply not_ruleHits_of_hardAce17 hace
    rw [← hsame]
    exact hhits j (hk ▸ hj)
  · intro hnever
    have hstands : ¬ RuleHits (g.dealer ++ cards) := by
      intro hhits
      have hdraw := (mustDraw_iff _).mpr (.inl hhits)
      rw [h.stops] at hdraw
      cases hdraw
    refine ⟨k, cards, deck, src', h.draw, hplay, fun j hj => ?_, hstands, ?_⟩
    · exact ((mustDraw_iff _).mp (h.draws j hj)).resolve_right (hnever j hj)
    · exact (ruleStands_iff _).mpr hstands

theorem Takes.avoids_iff (h : Takes g src k cards deck src') :
    AvoidsHardAce17 g src ↔ ∀ j < k, ¬ HardAce17 (g.dealer ++ cards.take j) := by
  have hlength := Deck.length_of_draw h.draw
  constructor
  · intro havoid j hj hace
    obtain ⟨deck', src'', hdraw⟩ := Deck.draw_take h.draw hj.le
    obtain ⟨i, hi, hsoft⟩ := havoid j _ deck' src'' hdraw hace
    rw [List.take_take, Nat.min_eq_left hi.le] at hsoft
    have hlt := hard_take_lt g.dealer hi (by omega : j ≤ cards.length)
    have hdraws := h.draws i (by omega)
    rw [(not_mustDraw_iff (by rw [← hace.1]; exact hlt)).mpr hsoft] at hdraws
    cases hdraws
  · intro hnever m far deck' src'' hdraw hace
    have hfar := Deck.length_of_draw hdraw
    rcases Nat.lt_trichotomy m k with hlt | rfl | hlt
    · obtain ⟨_, _, hshort⟩ := Deck.draw_take h.draw hlt.le
      rw [hdraw, Option.some.injEq, Prod.mk.injEq] at hshort
      rw [hshort.1] at hace
      exact absurd hace (hnever m hlt)
    · rw [h.draw, Option.some.injEq, Prod.mk.injEq] at hdraw
      have hdraws := (mustDraw_iff _).mpr (.inr hace)
      rw [← hdraw.1, h.stops] at hdraws
      cases hdraws
    · -- the dealer stopped before this hand came up
      obtain ⟨_, _, hshort⟩ := Deck.draw_take hdraw hlt.le
      rw [h.draw, Option.some.injEq, Prod.mk.injEq] at hshort
      have hstops := h.stops
      have hhard := hard_take_lt g.dealer hlt (by omega : m ≤ far.length)
      rw [List.take_of_length_le (by omega : far.length ≤ m), hace.1] at hhard
      rw [hshort.1, not_mustDraw_iff hhard] at hstops
      exact ⟨k, hlt, hstops⟩

/-- For every deck, every hand of the dealer and every player who is not bust, the dealer follows
the published rule if and only if the coming cards avoid a hard 17 with an ace. -/
theorem dealer_rule_iff (g : Game) (src : Source) (hpos : g.deck.pos < 52)
    (hplayer : Hand.state g.player ≠ .bust) : FollowsRule g src ↔ AvoidsHardAce17 g src := by
  obtain ⟨k, cards, deck, src', htakes, hloop⟩ := dealerLoop_takes 18 g src (by omega) hpos
  have hplay : g.dealerPlay src =
      some ({ g with deck := deck, dealer := g.dealer ++ cards }, src') := by
    rw [Game.dealerPlay, if_neg hplayer, hloop]
  rw [htakes.follows_iff hplay, htakes.avoids_iff]

/-- A king and a queen for the player, a ten and a six for the dealer, and an ace to come. -/
def tenSixAce : Game :=
  let order : Equiv.Perm (Fin 52) :=
    Equiv.swap 0 12 * Equiv.swap 1 9 * Equiv.swap 2 11 * Equiv.swap 3 5 * Equiv.swap 4 12
  let cards := Vector.ofFn fun i => newDeck.cards.get (order i)
  ⟨⟨cards, 4⟩, [cards.get 0, cards.get 2], [cards.get 1, cards.get 3], true, 10⟩

theorem dealer_rule_tenSixAce :
    FollowsRule tenSixAce unshuffled ↔ AvoidsHardAce17 tenSixAce unshuffled :=
  dealer_rule_iff tenSixAce unshuffled (by decide +kernel) (by decide +kernel)

/-- The dealer hits ten, six and ace, and beats the twenty of the player with a four. -/
theorem hard17_hit :
    tenSixAce.deck.pos < 52 ∧ Hand.state tenSixAce.player ≠ .bust ∧
      ¬ FollowsRule tenSixAce unshuffled := by
  refine ⟨by decide +kernel, by decide +kernel, ?_⟩
  rintro ⟨k, cards, deck, src', hdraw, hplay, hhits, -, -⟩
  have hdealer : (tenSixAce.dealerPlay unshuffled).map (fun p => p.1.dealer) =
      some (tenSixAce.dealer ++ [⟨.spades, .ace⟩, ⟨.spades, .four⟩]) := by decide +kernel
  rw [hplay, Option.map_some, Option.some.injEq, List.append_cancel_left_eq] at hdealer
  have hk := Deck.length_of_draw hdraw
  subst hdealer hk
  have hhit := hhits 1 (by decide)
  rw [ruleHits_iff] at hhit
  revert hhit
  decide +kernel

end CtfChallenges.Cards
