import CtfChallenges.Cards.Replay

/-!
# The page

The page keeps the last session it was sent and gives its sealed text back with each button. With the
server behind it, it plays the game of one session.
-/

namespace CtfChallenges.Cards
open Framework Json

/-- What the page reads of an answer without an error. -/
def secretOf (body : Bytes) : Option Bytes :=
  match parse body with
  | some (.object members) =>
    match members.lookup (word "SecretState") with
    | some (.string secret) => some secret
    | _ => none
  | _ => none

/-- The random numbers for an answer that is not an error. -/
structure Luck where
  nonce : Nonce
  shuffles : Source

/-- One button, from the log of the server and the text on the page. An error leaves the text. -/
def press (box : SealedBox) (flag : Bytes) (p : Log × Bytes) (q : Button × Luck) :
    Option (Log × Bytes) := do
  let random : Random := ⟨some q.2.nonce, q.2.shuffles⟩
  let (log, answer) ← Api.apiHandler box flag p.1 (q.1.makeRequest p.2) random
  match answer with
  | .sent 200 body => return (log, ← secretOf body)
  | _ => return (log, p.2)

/-- The page is loaded, and buttons are pressed. -/
def visit (box : SealedBox) (flag : Bytes) (nonce : Nonce) (qs : List (Button × Luck)) :
    Option (Log × Bytes) := do
  let random : Random := ⟨some nonce, unshuffled⟩
  let (log, answer) ← Api.apiHandler box flag Log.empty Api.newRequest random
  match answer with
  | .sent 200 body => run (press box flag) qs (log, ← secretOf body)
  | _ => none

/-- The same button in a session that the player holds. -/
def play (s : Session) (q : Button × Luck) : Option Session :=
  (serve s q.1.request q.2.shuffles).map Prod.fst

theorem plainElements_map {α : Type} {f : α → Value} {xs : List α} (h : ∀ x ∈ xs, Plain (f x)) :
    PlainElements (xs.map f) := by
  induction xs with
  | nil => trivial
  | cons x xs ih =>
    rw [List.forall_mem_cons] at h
    exact ⟨h.1, ih h.2⟩

theorem Card.plain_strings (c : Card) : Plain c.strings := by
  have hrank : ∀ c' ∈ c.rank.string, safe c' = true := by
    apply List.all_eq_true.mp
    cases c.rank <;> decide
  have hsuit : ∀ c' ∈ c.suit.string, safe c' = true := by
    apply List.all_eq_true.mp
    cases c.suit <;> decide
  exact ⟨hrank, hsuit, trivial⟩

theorem Session.plain_fields {flag : Bytes} (hflag : ∀ c ∈ flag, safe c = true) (s : Session) :
    PlainMembers (s.fields flag) := by
  have hkeys : ∀ key ∈ ["PlayerHand", "DealerHand", "Balance", "GameState", "SessionState", "Bet",
      "Flag", "X"], ∀ c ∈ word key, safe c = true := fun key hkey => safe_words (by decide) hkey
  have hplayer : PlainElements (s.game.player.map Card.strings) :=
    plainElements_map fun c _ => c.plain_strings
  have hdealer : PlainElements s.game.dealerHand := by
    apply plainElements_map
    intro p hp
    dsimp only
    split
    · exact ⟨hkeys "X" (by simp), hkeys "X" (by simp), trivial⟩
    · exact p.1.plain_strings
  have hgame : ∀ c ∈ s.game.state.string, safe c = true := by
    apply List.all_eq_true.mp
    cases s.game.state <;> decide
  have hstate : ∀ c ∈ s.state.string, safe c = true := by
    apply List.all_eq_true.mp
    cases s.state <;> decide
  have hshown : ∀ c ∈ (if s.balance > amountPlayerWins then flag else []), safe c = true := by
    split
    · exact hflag
    · exact nofun
  have hlast : ∀ shown : Bytes, (∀ c ∈ shown, safe c = true) →
      PlainMembers (if shown = [] then [] else [(word "Flag", .string shown)]) := by
    intro shown hsafe
    split
    · trivial
    · exact ⟨hkeys "Flag" (by simp), hsafe, trivial⟩
  exact ⟨hkeys "PlayerHand" (by simp), hplayer, hkeys "DealerHand" (by simp), hdealer,
    hkeys "Balance" (by simp), ⟨s.balance, rfl⟩, hkeys "GameState" (by simp), hgame,
    hkeys "SessionState" (by simp), hstate, hkeys "Bet" (by simp), ⟨s.bet, rfl⟩, hlast _ hshown⟩

/-- The page finds the sealed text in what the server has sent. -/
theorem secretOf_marshalJSON (box : SealedBox) (nonce : Nonce) {flag : Bytes}
    (hflag : ∀ c ∈ flag, safe c = true) (s : Session) :
    secretOf (s.marshalJSON box.toSecretbox nonce flag ++ [0x0a]) =
      some (SecretState.marshalText box.toSecretbox nonce ⟨s.game, s.balance⟩) := by
  have hkey : ∀ c ∈ word "SecretState", safe c = true := List.all_eq_true.mp (by decide)
  have hplain : PlainMembers ((word "SecretState",
      .string (SecretState.marshalText box.toSecretbox nonce ⟨s.game, s.balance⟩)) ::
        s.fields flag) :=
    ⟨hkey, safe_marshalText _ nonce _, s.plain_fields hflag⟩
  rw [secretOf, Session.marshalJSON, Session.json, parse_render_line hplain]
  simp

/-- The text on the page is the session, and the server has sealed it. -/
structure Shows (box : SealedBox) (log : Log) (secret : Bytes) (s : Session) : Prop where
  reachable : Reachable s
  played : log.Played
  balance : s.balance ≤ 1000 + 1250 * log.issued.length
  sealed : ∃ nonce, (nonce, ⟨s.game, s.balance⟩) ∈ log.issued ∧
    secret = SecretState.marshalText box.toSecretbox nonce ⟨s.game, s.balance⟩

section
variable (box : SealedBox) {flag : Bytes}

theorem press_shows (hflag : ∀ c ∈ flag, safe c = true) {log : Log} {secret : Bytes} {s : Session}
    (h : Shows box log secret s) (hlen : log.issued.length + 1 < 2 ^ 52) (q : Button × Luck)
    (hbet : q.1.Fits) :
    ∃ log' secret' s', press box flag (log, secret) q = some (log', secret') ∧ play s q = some s' ∧
      Shows box log' secret' s' ∧ log'.issued.length ≤ log.issued.length + 1 := by
  obtain ⟨b, luck⟩ := q
  obtain ⟨nonce, hissued, hsecret⟩ := h.sealed
  have hhandler := Api.apiHandler_button box flag hissued b hbet ⟨some luck.nonce, luck.shuffles⟩
  rw [← hsecret] at hhandler
  have hserved := apiHandler_served s b.request luck.shuffles (reachable_staked h.reachable).dealt
  rw [press, play, serve]
  simp only [hhandler]
  cases hreply : apiHandler s b.request luck.shuffles with
  | none =>
    rw [hreply] at hserved
    cases hserved
  | some reply =>
    obtain ⟨_ | e, s', src'⟩ := reply
    · have hgain := h.reachable.balance_le hreply
      have hbound := h.balance
      have hreachable : Reachable s' := .answer h.reachable hreply
      have hfits := hreachable.fits (by omega)
      refine ⟨_, _, s', ?_, rfl, ⟨hreachable, h.played.add hreachable (by omega) luck.nonce hfits,
        ?_, luck.nonce, List.mem_cons_self, rfl⟩, le_rfl⟩
      · simp [encode, hfits, secretOf_marshalJSON box luck.nonce hflag s']
      · simp only [Log.add, List.length_cons, Nat.cast_add, Nat.cast_one]
        omega
    · exact ⟨log, secret, s, rfl, rfl, h, Nat.le_succ _⟩

theorem run_press_suffix (qs : List (Button × Luck)) {log log' : Log} {secret secret' : Bytes}
    (hrun : run (press box flag) qs (log, secret) = some (log', secret')) :
    log.issued <:+ log'.issued := by
  have hstep : ∀ (p : Log × Bytes) (q : Button × Luck) (p' : Log × Bytes),
      log.issued <:+ p.1.issued → press box flag p q = some p' → log.issued <:+ p'.1.issued := by
    intro p q p' hsub hp
    obtain ⟨⟨log₁, answer⟩, hhandler, hp⟩ := Option.bind_eq_some_iff.mp hp
    have hkept := hsub.trans (Api.apiHandler_suffix box flag hhandler)
    dsimp only at hp
    split at hp
    · obtain ⟨secret₁, -, heq⟩ := Option.bind_eq_some_iff.mp hp
      cases heq
      exact hkept
    · cases hp
      exact hkept
  exact run_invariant hstep qs (s := (log, secret)) (List.suffix_refl _) hrun

theorem run_shows (hflag : ∀ c ∈ flag, safe c = true) (qs : List (Button × Luck)) {log : Log}
    {secret : Bytes} {s : Session} (h : Shows box log secret s)
    (hlen : log.issued.length + qs.length < 2 ^ 52) (hbets : ∀ q ∈ qs, q.1.Fits) :
    ∃ log' secret' s', run (press box flag) qs (log, secret) = some (log', secret') ∧
      run play qs s = some s' ∧ Shows box log' secret' s' ∧
        log'.issued.length ≤ log.issued.length + qs.length := by
  induction qs generalizing log secret s with
  | nil => exact ⟨log, secret, s, rfl, rfl, h, le_rfl⟩
  | cons q qs ih =>
    rw [List.forall_mem_cons] at hbets
    rw [List.length_cons] at hlen
    obtain ⟨log₁, secret₁, s₁, hpress, hplay, hshows, hcount⟩ :=
      press_shows box hflag h (by omega) q hbets.1
    obtain ⟨log', secret', s', hrun, hrun', hshows', hcount'⟩ := ih hshows (by omega) hbets.2
    refine ⟨log', secret', s', by simp [hpress, hrun], by simp [hplay, hrun'], hshows', ?_⟩
    rw [List.length_cons]
    omega

theorem visit_shows (hflag : ∀ c ∈ flag, safe c = true) (nonce : Nonce) (qs : List (Button × Luck))
    (hbets : ∀ q ∈ qs, q.1.Fits) (hlen : qs.length + 1 < 2 ^ 52) :
    ∃ log secret s, visit box flag nonce qs = some (log, secret) ∧ run play qs newSession = some s ∧
      Shows box log secret s ∧ log.issued.length ≤ qs.length + 1 := by
  have hnew : Shows box (Log.empty.add nonce ⟨newSession.game, newSession.balance⟩
      Api.newSession_fits) (SecretState.marshalText box.toSecretbox nonce
        ⟨newSession.game, newSession.balance⟩) newSession :=
    ⟨.new, Log.empty_played.add .new (by decide) nonce _, le_add_of_nonneg_right (by omega), nonce,
      List.mem_cons_self, rfl⟩
  obtain ⟨log, secret, s, hrun, hplay, hshows, hcount⟩ :=
    run_shows box hflag qs hnew (by simpa [Log.add, Log.empty, Nat.add_comm] using hlen) hbets
  refine ⟨log, secret, s, ?_, hplay, hshows, by simpa [Log.add, Log.empty, Nat.add_comm] using hcount⟩
  simp [visit, Api.apiHandler_new, secretOf_marshalJSON box nonce hflag newSession, hrun]

/-- The page and the server, who send each other sealed texts in JSON, play a session: after any
buttons the page has the text of the session that the same operations lead to. -/
theorem page_plays (hflag : ∀ c ∈ flag, safe c = true) (nonce : Nonce) (qs : List (Button × Luck))
    (hbets : ∀ q ∈ qs, q.1.Fits) (hlen : qs.length + 1 < 2 ^ 52) :
    ∃ log secret s, visit box flag nonce qs = some (log, secret) ∧ run play qs newSession = some s ∧
      ∃ nonce', (nonce', ⟨s.game, s.balance⟩) ∈ log.issued ∧
        secret = SecretState.marshalText box.toSecretbox nonce' ⟨s.game, s.balance⟩ := by
  obtain ⟨log, secret, s, hvisit, hplay, hshows, -⟩ := visit_shows box hflag nonce qs hbets hlen
  exact ⟨log, secret, s, hvisit, hplay, hshows.sealed⟩

end

/-- A deal, a card and a double that is refused. -/
theorem page_plays_three : ∃ log secret s,
    visit Api.plainSealedBox (word "CTF") (Vector.replicate 24 0)
        ([.deal 10, .hit, .double].map fun b => (b, ⟨Vector.replicate 24 1, unshuffled⟩)) =
      some (log, secret) ∧
    run play ([.deal 10, .hit, .double].map fun b => (b, ⟨Vector.replicate 24 1, unshuffled⟩))
      newSession = some s := by
  obtain ⟨log, secret, s, hvisit, hplay, -⟩ := @page_plays Api.plainSealedBox (word "CTF")
    (List.all_eq_true.mp (by decide)) (Vector.replicate 24 0)
    ([.deal 10, .hit, .double].map fun b => (b, ⟨Vector.replicate 24 1, unshuffled⟩))
    (by simp [Button.Fits, Button.bet]) (by decide)
  exact ⟨log, secret, s, hvisit, hplay⟩

end CtfChallenges.Cards
