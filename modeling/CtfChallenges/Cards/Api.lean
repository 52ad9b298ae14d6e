import CtfChallenges.Cards.Stakes
import CtfChallenges.Cards.Totality

/-!
# The API

`apiHandler` on the bytes of a request. The server keeps nothing of its clients but the key of its
box, so what it has sealed is all that there is, and any of it may come back at any time.
-/

namespace CtfChallenges.Cards
open Framework Json

/-- A box with only one text in it. -/
structure SealedBox extends Secretbox where
  Seal_injective : ∀ nonce, Function.Injective (Seal nonce)

/-- What has been sealed, the last first. -/
structure Log where
  issued : List (Nonce × SecretState)
  fits : ∀ p ∈ issued, p.2.Fits

namespace Log

def empty : Log := ⟨[], nofun⟩

def add (log : Log) (nonce : Nonce) (ss : SecretState) (h : ss.Fits) : Log where
  issued := (nonce, ss) :: log.issued
  fits := List.forall_mem_cons.mpr ⟨h, log.fits⟩

/-- The text in a box that has been sealed with this nonce. -/
def openBox (log : Log) (box : SealedBox) (nonce : Nonce) (ct : Bytes) : Option Bytes :=
  log.issued.findSome? fun (n, ss) =>
    if n = nonce ∧ ct = box.Seal nonce (render ss.json) then some (render ss.json) else none

theorem openBox_iff (log : Log) (box : SealedBox) (nonce : Nonce) (ct m : Bytes) :
    log.openBox box nonce ct = some m ↔
      ∃ ss, (nonce, ss) ∈ log.issued ∧ ct = box.Seal nonce (render ss.json) ∧ m = render ss.json := by
  have hfound : ∀ m', log.openBox box nonce ct = some m' →
      ∃ ss, (nonce, ss) ∈ log.issued ∧ ct = box.Seal nonce (render ss.json) ∧ m' = render ss.json := by
    intro m' h
    obtain ⟨⟨n, ss⟩, hmem, hss⟩ := List.exists_of_findSome?_eq_some h
    dsimp only at hss
    split at hss
    · rename_i hopen
      exact ⟨ss, hopen.1 ▸ hmem, hopen.2, (Option.some.inj hss).symm⟩
    · cases hss
  constructor
  · exact hfound m
  · rintro ⟨ss, hmem, hct, hm⟩
    have hsome : (log.openBox box nonce ct).isSome := by
      rw [openBox, List.findSome?_isSome_iff]
      exact ⟨(nonce, ss), hmem, by simp [hct]⟩
    obtain ⟨m', hm'⟩ := Option.isSome_iff_exists.mp hsome
    -- the box has no other text
    obtain ⟨ss', -, hct', heq⟩ := hfound m' hm'
    have hsame := box.Seal_injective nonce (hct.symm.trans hct')
    rw [hm', heq, hm, hsame]

def server (log : Log) (box : SealedBox) : Server where
  toSecretbox := box.toSecretbox
  Open := log.openBox box
  issued nonce ss := (nonce, ss) ∈ log.issued
  fits _ _ h := log.fits _ h
  open_iff := log.openBox_iff box

end Log

instance (ss : SecretState) : Decidable ss.Fits :=
  decidable_of_iff (ss.game.deck.pos < 2 ^ 8 ∧ -2 ^ 63 ≤ ss.game.bet ∧ ss.game.bet < 2 ^ 63 ∧
      -2 ^ 63 ≤ ss.balance ∧ ss.balance < 2 ^ 63)
    ⟨fun ⟨hpos, hbet, hbet', hbalance, hbalance'⟩ => ⟨hpos, hbet, hbet', hbalance, hbalance'⟩,
      fun h => ⟨h.pos, h.bet_low, h.bet_high, h.balance_low, h.balance_high⟩⟩

/-- No value for a number that is no suit or no rank. -/
def Card.ofRaw (c : Raw.Card) : Option Card :=
  let card : Card := ⟨Suit.ofUint8 c.suit, Rank.ofUint8 c.rank⟩
  if card.raw = c then some card else none

def Deck.ofRaw (d : Raw.Deck) : Option Deck := do
  let cards ← d.cards.mapM Card.ofRaw
  if h : cards.length = 52 then some ⟨⟨cards.toArray, h⟩, d.pos⟩ else none

/-- A nil hand has no cards. -/
def Game.ofRaw (g : Raw.Game) : Option Game := do
  let deck ← Deck.ofRaw (← g.deck)
  let player ← (g.player.getD []).mapM Card.ofRaw
  let dealer ← (g.dealer.getD []).mapM Card.ofRaw
  return ⟨deck, player, dealer, g.stood, g.bet⟩

def Session.ofRaw (s : Raw.Session) : Option Session := do
  let game ← Game.ofRaw (← s.game)
  return ⟨game, s.balance, s.bet⟩

theorem Card.ofRaw_raw (c : Card) : Card.ofRaw c.raw = some c := by
  have hcard : (⟨Suit.ofUint8 c.raw.suit, Rank.ofUint8 c.raw.rank⟩ : Card) = c := by
    obtain ⟨suit, rank⟩ := c
    cases suit <;> cases rank <;> rfl
  rw [Card.ofRaw, hcard]
  exact if_pos rfl

theorem mapM_ofRaw_raw (cs : List Card) : (cs.map Card.raw).mapM Card.ofRaw = some cs := by
  induction cs with
  | nil => rfl
  | cons c cs ih =>
    rw [List.map_cons, List.mapM_cons, Card.ofRaw_raw, ih]
    rfl

theorem Deck.ofRaw_raw (d : Deck) : Deck.ofRaw d.raw = some d := by
  have hcards := mapM_ofRaw_raw d.cards.toList
  rw [Deck.ofRaw, Deck.raw, hcards]
  obtain ⟨⟨⟨cards⟩, h⟩, pos⟩ := d
  have hlen : cards.length = 52 := h
  simp [hlen]

theorem Game.ofRaw_raw (g : Game) : Game.ofRaw g.raw = some g := by
  simp [Game.ofRaw, Game.raw, Deck.ofRaw_raw, mapM_ofRaw_raw, -List.mapM_map]

structure HttpRequest where
  Method : Bytes
  Path : Bytes
  /-- No value when it cannot be read. -/
  Body : Option Bytes

/-- The random numbers for a request: a nonce, or none for an error, and the shuffles. -/
structure Random where
  nonce : Option Nonce
  shuffles : Source

inductive Answer
  /-- A panic ends the request but not the server. -/
  | dropped
  | sent (code : Nat) (body : Bytes)
  deriving DecidableEq

def httpError (errMsg : Bytes) (code : Nat) : Answer :=
  .sent code (render (.object [(word "error", .string errMsg)]) ++ [0x0a])

/-- `Encode` of a session. No value stands for an amount that has left the type `int`. -/
def encode (box : SealedBox) (flag : Bytes) (log : Log) (nonce : Option Nonce) (s : Session) :
    Option (Log × Answer) :=
  match nonce with
  | none => some (log, httpError (word "Internal Server Error") 500)
  | some nonce =>
    if h : (⟨s.game, s.balance⟩ : SecretState).Fits then
      some (log.add nonce _ h, .sent 200 (s.marshalJSON box.toSecretbox nonce flag ++ [0x0a]))
    else none

def actionOf (name : Bytes) : Option Action :=
  if name = word "deal" then some .deal
  else if name = word "hit" then some .hit
  else if name = word "stand" then some .stand
  else if name = word "double" then some .double
  else none

namespace Api

/-- No value also stands for a game that does not have 52 cards of a deck. -/
def apiHandler (box : SealedBox) (flag : Bytes) (log : Log) (r : HttpRequest) (random : Random) :
    Option (Log × Answer) :=
  if r.Method ≠ word "POST" then some (log, httpError (word "Method not supported.") 405)
  else
    let path := r.Path.splitOn 0x2f
    match path.drop 2 with
    | [] => encode box flag log random.nonce newSession
    | name :: _ =>
      match r.Body with
      | none => some (log, httpError (word "Internal Server Error") 500)
      | some body =>
        match unmarshalJSON (log.server box) body with
        | none => some (log, .dropped)
        | some (.error _) => some (log, httpError (word "Bad Request") 400)
        | some (.ok raw) =>
          match Session.ofRaw raw with
          | none => none
          | some session =>
            match actionOf name with
            | none => some (log, httpError (word "Not Found") 404)
            | some action =>
              match Cards.apiHandler session ⟨action, session.bet⟩ random.shuffles with
              | none => some (log, .dropped)
              | some (some err, _, _) => some (log, httpError (word err) 400)
              | some (none, session, _) => encode box flag log random.nonce session

/-- The log and the answers so far. -/
def step (box : SealedBox) (flag : Bytes) (p : Log × List Answer) (q : HttpRequest × Random) :
    Option (Log × List Answer) :=
  (apiHandler box flag p.1 q.1 q.2).map fun (log, answer) => (log, p.2 ++ [answer])

/-- A server that gets the requests one after another, from any clients. -/
def serve (box : SealedBox) (flag : Bytes) (requests : List (HttpRequest × Random)) :
    Option (Log × List Answer) :=
  run (step box flag) requests (Log.empty, [])

end Api

end CtfChallenges.Cards
