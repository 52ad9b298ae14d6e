import CtfChallenges.Cards.Game
import CtfChallenges.Framework.Json

/-!
# What the client gets

`MarshalJSON` of a session. The whole game goes to the client in a sealed text; next to it stand
the hands, without the first card of the dealer while the game is on.
-/

namespace CtfChallenges.Cards
open Framework Json

def Suit.toUint8 : Suit → Nat
  | .spades => 0
  | .clubs => 1
  | .diamonds => 2
  | .hearts => 3

def Rank.toUint8 : Rank → Nat
  | .ace => 1
  | .two => 2
  | .three => 3
  | .four => 4
  | .five => 5
  | .six => 6
  | .seven => 7
  | .eight => 8
  | .nine => 9
  | .ten => 10
  | .jack => 11
  | .queen => 12
  | .king => 13

def Suit.string : Suit → Bytes
  | .spades => word "Spades"
  | .clubs => word "Clubs"
  | .diamonds => word "Diamonds"
  | .hearts => word "Hearts"

def Rank.string : Rank → Bytes
  | .ace => word "Ace"
  | .jack => word "Jack"
  | .queen => word "Queen"
  | .king => word "King"
  | r => formatUint r.toUint8

def GameState.string : GameState → Bytes
  | .idle => word "Idle"
  | .dealerWins => word "DealerWins"
  | .playerWins => word "PlayerWins"
  | .push => word "Push"
  | .playerWinsBlackjack => word "Blackjack"
  | .playing => word "Playing"

def SessionState.string : SessionState → Bytes
  | .broke => word "Broke"
  | .won => word "Won"
  | .playing => word "Playing"

/-- Embedded numbers are fields under the names of their types. -/
def Card.json (c : Card) : Value :=
  .object [(word "Suit", .number (formatUint c.suit.toUint8)),
    (word "Rank", .number (formatUint c.rank.toUint8))]

def Hand.json (h : Hand) : Value := .array (h.map Card.json)

def Deck.json (d : Deck) : Value :=
  .object [(word "Cards", .array (d.cards.toList.map Card.json)),
    (word "Pos", .number (formatUint d.pos))]

def Game.json (g : Game) : Value :=
  .object [(word "Deck", g.deck.json), (word "Player", Hand.json g.player),
    (word "Dealer", Hand.json g.dealer), (word "Stood", .bool g.stood),
    (word "Bet", .number (formatInt g.bet))]

structure SecretState where
  game : Game
  balance : Int

def SecretState.json (ss : SecretState) : Value :=
  .object [(word "Game", ss.game.json), (word "Balance", .number (formatInt ss.balance))]

abbrev Nonce := Vector UInt8 24

/-- `secretbox.Overhead` -/
def overhead : Nat := 16

/-- The package `secretbox` with the key of the server. -/
structure Secretbox where
  Seal : Nonce → Bytes → Bytes
  length_Seal : ∀ nonce m, (Seal nonce m).length = m.length + overhead

/-- A box that keeps no secret but has the right length. -/
def plainBox : Secretbox where
  Seal _ m := List.replicate overhead 0 ++ m
  length_Seal _ m := by rw [List.length_append, List.length_replicate, Nat.add_comm]

def SecretState.marshalText (box : Secretbox) (nonce : Nonce) (ss : SecretState) : Bytes :=
  let buf := render ss.json
  let ct := box.Seal nonce buf
  Hex.encode (nonce.toList ++ ct)

def Card.strings (c : Card) : Value := .array [.string c.rank.string, .string c.suit.string]

/-- The first dealer card is blinded. -/
def Game.dealerHand (g : Game) : List Value :=
  g.dealer.zipIdx.map fun (c, i) =>
    if i = 0 ∧ g.state = .playing then .array [.string (word "X"), .string (word "X")]
    else c.strings

/-- The fields besides the sealed text; an empty flag is left out. -/
def Session.fields (flag : Bytes) (s : Session) : List (Bytes × Value) :=
  let flag := if s.balance > amountPlayerWins then flag else []
  [(word "PlayerHand", .array (s.game.player.map Card.strings)),
    (word "DealerHand", .array s.game.dealerHand),
    (word "Balance", .number (formatInt s.balance)),
    (word "GameState", .string s.game.state.string),
    (word "SessionState", .string s.state.string),
    (word "Bet", .number (formatInt s.bet))] ++
      if flag = [] then [] else [(word "Flag", .string flag)]

def Session.json (box : Secretbox) (nonce : Nonce) (flag : Bytes) (s : Session) : Value :=
  .object ((word "SecretState", .string (SecretState.marshalText box nonce ⟨s.game, s.balance⟩)) ::
    s.fields flag)

def Session.marshalJSON (box : Secretbox) (nonce : Nonce) (flag : Bytes) (s : Session) : Bytes :=
  render (s.json box nonce flag)

end CtfChallenges.Cards
