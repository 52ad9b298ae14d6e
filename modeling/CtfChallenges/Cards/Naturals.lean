import CtfChallenges.Cards.Page

/-!
# Winning by replay

Every deal can be a natural for the player, and a client that takes lost hands back waits for it. So
no balance is out of reach, and the page comes to show the flag.
-/

namespace CtfChallenges.Cards
open Framework Json

/-- A new deck with the king after the second card: the player gets the first and the third. -/
def naturalDeck : Vector Card 52 := newDeck.cards.swapIfInBounds 2 12

theorem naturalDeck_perm : naturalDeck.Perm newDeck.cards :=
  Vector.swap_perm (by omega) (by omega)

theorem exists_natural {d : Deck} (h : d.cards.Perm newDeck.cards) :
    ∃ r : Draws, (d.shuffle r).cards = naturalDeck := by
  have hnodup : d.cards.toList.Nodup := h.toList.nodup_iff.mpr newDeck_nodup
  obtain ⟨r, hr, -⟩ := exists_unique_offsets hnodup (naturalDeck_perm.trans h.symm)
  exact ⟨r, hr⟩

/-- A deal from that deck is a natural against six points. -/
theorem deal_natural {g : Game} {src : Source}
    (hcards : (g.deck.shuffle src.head).cards = naturalDeck) (bet : Int) :
    ∃ g', g.deal src = some (g', src.tail) ∧ { g' with bet := bet }.state = .playerWinsBlackjack := by
  have hshuffle : g.deck.shuffle src.head = ⟨naturalDeck, 0⟩ := by
    rw [← hcards]
    rfl
  have hnext (i : Nat) (hi : i + 1 < 52) : (⟨naturalDeck, i⟩ : Deck).next src.tail =
      some (naturalDeck[i], ⟨naturalDeck, i + 1⟩, src.tail) :=
    Deck.next_of_lt ⟨naturalDeck, i⟩ src.tail hi
  refine ⟨{ g with
    deck := ⟨naturalDeck, 4⟩
    player := [naturalDeck[0], naturalDeck[2]]
    dealer := [naturalDeck[1], naturalDeck[3]] }, ?_, ?_⟩
  · simp only [Game.deal, Game.dealPass, hshuffle, hnext 0 (by omega), hnext 1 (by omega),
      hnext 2 (by omega), hnext 3 (by omega), Option.bind_eq_bind, Option.bind_some,
      Option.pure_def, List.nil_append, List.singleton_append, Nat.zero_add, Nat.reduceAdd]
  · have hplayer : Hand.state [naturalDeck[0], naturalDeck[2]] = .blackjack := by decide
    have hdealer : Hand.state [naturalDeck[1], naturalDeck[3]] = .under := by decide
    simp [Game.state, hplayer, hdealer]

/-- Whatever was played before, a deal that is accepted may win one and a half times the bet. -/
theorem deal_may_win {s : Session} (h : Dealt s.game) {bet : Int} (hdeal : s.CanDeal bet) :
    ∃ src s', serve s ⟨.deal, bet⟩ src = some (s', src.tail) ∧ Dealt s'.game ∧
      s'.balance = s.balance - bet + 5 * bet / 2 := by
  obtain ⟨r, hr⟩ := exists_natural h.perm
  let src : Source := Stream'.const r
  obtain ⟨g, hg, hstate⟩ := @deal_natural { s.game with stood := false } src hr bet
  obtain ⟨s', hserve, hdealt⟩ := serve_dealt s ⟨.deal, bet⟩ src h
  obtain ⟨hcover, hmin, hmax⟩ := hdeal
  have hten : minBet = 10 := rfl
  have hnot : ¬ s.balance < bet := not_lt.mpr hcover
  have hnot' : ¬ (maxBet < bet ∨ bet < minBet) := by omega
  have hresult : serve s ⟨.deal, bet⟩ src =
      some (Session.score ⟨{ g with bet := bet }, s.balance - bet, bet⟩, src.tail) := by
    simp [serve, apiHandler, Session.deal, hnot, hnot', hg]
  rw [hresult] at hserve
  have heq := (Prod.mk.inj (Option.some.inj hserve)).1
  refine ⟨src, s', heq ▸ hresult, hdealt, ?_⟩
  rw [← heq, Session.score, hstate]
  dsimp only
  rw [Int.tdiv_eq_ediv_of_nonneg (by omega), Int.mul_comm]

theorem deals_may_win (n : Nat) {s : Session} (h : Dealt s.game) (hbalance : maxBet ≤ s.balance) :
    ∃ qs : List (Button × Luck), qs.length = n ∧ (∀ q ∈ qs, q.1 = .deal maxBet) ∧
      ∃ s', run play qs s = some s' ∧ s'.balance = s.balance + 750 * n := by
  induction n generalizing s with
  | zero => exact ⟨[], rfl, nofun, s, rfl, by simp⟩
  | succ n ih =>
    have hmax : maxBet = 500 := rfl
    obtain ⟨src, s₁, hserve, hdealt, hwin⟩ :=
      @deal_may_win _ h maxBet ⟨hbalance, by decide, le_rfl⟩
    obtain ⟨qs, hlen, hall, s', hrun, hs'⟩ := ih hdealt (by omega)
    let q : Button × Luck := (.deal maxBet, ⟨Vector.replicate 24 0, src⟩)
    have hplay : play s q = some s₁ := by
      have hrequest : q.1.request = ⟨.deal, maxBet⟩ := rfl
      rw [play, hrequest, hserve]
      rfl
    refine ⟨q :: qs, by rw [List.length_cons, hlen], List.forall_mem_cons.mpr ⟨rfl, hall⟩, s', ?_, ?_⟩
    · simp [hplay, hrun]
    · push_cast
      omega

/-- As long as the player on the page has 500 chips, some luck brings the flag by deals with the highest
bet alone. -/
theorem flag_within_reach (box : SealedBox) {flag : Bytes} (hflag : ∀ c ∈ flag, safe c = true)
    (nonce : Nonce) (qs : List (Button × Luck)) (hbets : ∀ q ∈ qs, q.1.Fits)
    (hlen : qs.length + 200 < 2 ^ 52) {s : Session} (hplay : run play qs newSession = some s)
    (hbalance : maxBet ≤ s.balance) :
    ∃ more log secret s', (∀ q ∈ more, q.1 = .deal maxBet) ∧
      visit box flag nonce (qs ++ more) = some (log, secret) ∧
      run play (qs ++ more) newSession = some s' ∧ s'.state = .won ∧
        ∃ nonce', secret = SecretState.marshalText box.toSecretbox nonce' ⟨s'.game, s'.balance⟩ := by
  obtain ⟨_, _, s₁, -, hplay₁, hshows, -⟩ := visit_shows box hflag nonce qs hbets (by omega)
  cases hplay₁.symm.trans hplay
  obtain ⟨more, hcount, hdeals, s', hrun, hwin⟩ :=
    deals_may_win 133 (reachable_staked hshows.reachable).dealt hbalance
  have hfits : ∀ q ∈ qs ++ more, q.1.Fits := by
    intro q hq
    apply (List.mem_append.mp hq).elim (hbets q)
    intro hmore
    rw [hdeals q hmore]
    exact ⟨by decide, by decide⟩
  have hboth : run play (qs ++ more) newSession = some s' := by
    rw [run_append, hplay]
    exact hrun
  obtain ⟨log, secret, s₂, hvisit, hplay₂, hshows₂, -⟩ :=
    visit_shows box hflag nonce (qs ++ more) hfits (by simp [hcount]; omega)
  cases hplay₂.symm.trans hboth
  obtain ⟨nonce', -, hsecret⟩ := hshows₂.sealed
  refine ⟨more, log, secret, s', hdeals, hvisit, hboth, ?_, nonce', hsecret⟩
  have hmax : maxBet = 500 := rfl
  have hwins : amountPlayerWins = 100000 := rfl
  rw [Session.state, if_neg (by omega), if_pos (by omega)]

theorem flag_within_reach_new : ∃ more log secret s', (∀ q ∈ more, q.1 = .deal maxBet) ∧
    visit Api.plainSealedBox (word "CTF") (Vector.replicate 24 0) more = some (log, secret) ∧
      run play more newSession = some s' ∧ s'.state = .won := by
  obtain ⟨more, log, secret, s', hdeals, hvisit, hplay, hwon, -⟩ :=
    @flag_within_reach Api.plainSealedBox (word "CTF") (List.all_eq_true.mp (by decide))
      (Vector.replicate 24 0) [] nofun (by decide) newSession rfl (by decide)
  exact ⟨more, log, secret, s', hdeals, hvisit, hplay, hwon⟩

/-- The text on the page from before a hand outlives it. However the hand was played, any other buttons
on the same text play another hand in the same session, and one deal with luck wins one and a half
times the bet. -/
theorem taken_back (box : SealedBox) {flag : Bytes} (hflag : ∀ c ∈ flag, safe c = true)
    (nonce : Nonce) (before hand : List (Button × Luck)) (hbets : ∀ q ∈ before ++ hand, q.1.Fits)
    (hlen : before.length + hand.length + 1 < 2 ^ 52) {s : Session}
    (hplay : run play before newSession = some s) :
    ∃ log text log' text' ended, visit box flag nonce before = some (log, text) ∧
      run (press box flag) hand (log, text) = some (log', text') ∧ run play hand s = some ended ∧
      Shows box log' text' ended ∧
      (∀ other : List (Button × Luck), (∀ q ∈ other, q.1.Fits) →
        before.length + hand.length + other.length + 1 < 2 ^ 52 →
        ∃ last text'' other', run (press box flag) other (log', text) = some (last, text'') ∧
          run play other s = some other' ∧ Shows box last text'' other') ∧
      ∀ bet, s.CanDeal bet → ∃ luck won, run play [(.deal bet, luck)] s = some won ∧
        won.balance = s.balance - bet + 5 * bet / 2 := by
  obtain ⟨log, text, s₁, hvisit, hplay₁, hshows, hcount⟩ := visit_shows box hflag nonce before
    (fun q hq => hbets q (List.mem_append_left _ hq)) (by omega)
  cases hplay₁.symm.trans hplay
  obtain ⟨log', text', ended, hrun, hended, hshows', hcount'⟩ := run_shows box hflag hand hshows
    (by omega) (fun q hq => hbets q (List.mem_append_right _ hq))
  have hsuffix := run_press_suffix box hand hrun
  -- the old text is still one that the server has sealed
  have hold : Shows box log' text s := by
    obtain ⟨nonce', hissued, htext⟩ := hshows.sealed
    have hbalance := hshows.balance
    have hle := hsuffix.length_le
    exact ⟨hshows.reachable, hshows'.played, by omega, nonce', hsuffix.subset hissued, htext⟩
  refine ⟨log, text, log', text', ended, hvisit, hrun, hended, hshows', ?_, ?_⟩
  · intro other hfits hbound
    obtain ⟨last, text'', other', hrun', hother, hshows'', -⟩ :=
      run_shows box hflag other hold (by omega) hfits
    exact ⟨last, text'', other', hrun', hother, hshows''⟩
  · intro bet hdeal
    obtain ⟨src, won, hserve, -, hwon⟩ := deal_may_win (reachable_staked hshows.reachable).dealt hdeal
    refine ⟨⟨Vector.replicate 24 0, src⟩, won, ?_, hwon⟩
    have hrequest : (Button.deal bet).request = ⟨.deal, bet⟩ := rfl
    simp [play, hrequest, hserve]

/-- A hand with 22 points. -/
def sampleHand : List (Button × Luck) :=
  [.deal 500, .hit, .hit, .hit].map fun b => (b, ⟨Vector.replicate 24 1, unshuffled⟩)

theorem sampleHand_lost : (run play sampleHand newSession).map (fun s => (s.game.state, s.balance)) =
    some (.dealerWins, 500) := by
  decide +kernel

/-- The hand is lost, and the client takes it back and wins. -/
theorem taken_back_sample : ∃ log text log' text' ended last text'' won luck,
    visit Api.plainSealedBox (word "CTF") (Vector.replicate 24 0) [] = some (log, text) ∧
      run (press Api.plainSealedBox (word "CTF")) sampleHand (log, text) = some (log', text') ∧
      Shows Api.plainSealedBox log' text' ended ∧ ended.balance = 500 ∧
      press Api.plainSealedBox (word "CTF") (log', text) (.deal 500, luck) = some (last, text'') ∧
      Shows Api.plainSealedBox last text'' won ∧ won.balance = 1750 := by
  have hbets : ∀ q ∈ [] ++ sampleHand, q.1.Fits := by
    simp [sampleHand, Button.Fits, Button.bet]
  have hlength : sampleHand.length = 4 := rfl
  obtain ⟨log, text, log', text', ended, hvisit, hrun, hplay, hshows, hother, hwin⟩ :=
    @taken_back Api.plainSealedBox (word "CTF") (List.all_eq_true.mp (by decide))
      (Vector.replicate 24 0) [] sampleHand hbets (by simp [hlength]) newSession rfl
  obtain ⟨luck, won, hplays, hbalance⟩ := hwin 500 (by decide)
  obtain ⟨last, text'', won', hpress, hplays', hshows'⟩ := hother [(.deal 500, luck)]
    (by simp [Button.Fits, Button.bet]) (by simp [hlength])
  cases hplays.symm.trans hplays'
  have hlost := sampleHand_lost
  rw [hplay, Option.map_some, Option.some.injEq, Prod.mk.injEq] at hlost
  have hstart : newSession.balance = 1000 := rfl
  rw [hstart] at hbalance
  rw [run_cons] at hpress
  obtain ⟨p, hp, heq⟩ := Option.bind_eq_some_iff.mp hpress
  cases heq
  exact ⟨log, text, log', text', ended, last, text'', won, luck, hvisit, hrun, hshows, hlost.2, hp,
    hshows', by omega⟩

end CtfChallenges.Cards
