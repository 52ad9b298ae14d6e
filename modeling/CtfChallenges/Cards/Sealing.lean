import CtfChallenges.Cards.Wire
import CtfChallenges.Framework.JsonDecode

/-!
# What the server takes back

`UnmarshalJSON` of a session and `UnmarshalText` of the sealed text. Here games are as the decoder
leaves them: pointers and slices can be nil, and numbers are any that fit their types. No value is
a run-time panic.
-/

namespace CtfChallenges.Cards
open Framework Json

namespace Raw

structure Card where
  suit : Nat
  rank : Nat
deriving DecidableEq, Repr

structure Deck where
  cards : List Card
  pos : Nat
deriving DecidableEq, Repr

structure Game where
  deck : Option Deck
  player : Option (List Card)
  dealer : Option (List Card)
  stood : Bool
  bet : Int
deriving DecidableEq, Repr

structure SecretState where
  game : Option Game
  balance : Int
deriving DecidableEq, Repr

structure Session where
  game : Option Game
  balance : Int
  bet : Int
deriving DecidableEq, Repr

def Card.zero : Card := ⟨0, 0⟩
def Deck.zero : Deck := ⟨List.replicate 52 Card.zero, 0⟩
def Game.zero : Game := ⟨none, none, none, false, 0⟩
def SecretState.zero : SecretState := ⟨none, 0⟩

open Decoder

def Card.decode : Decoder Card := object [
  (word "Suit", field Card.suit (fun c s => { c with suit := s }) (uint 8)),
  (word "Rank", field Card.rank (fun c r => { c with rank := r }) (uint 8))]

def Deck.decode : Decoder Deck := object [
  (word "Cards", field Deck.cards (fun d cs => { d with cards := cs })
    (array 52 Card.zero Card.decode)),
  (word "Pos", field Deck.pos (fun d p => { d with pos := p }) (uint 8))]

def Game.decode : Decoder Game := object [
  (word "Deck", field Game.deck (fun g d => { g with deck := d }) (pointer Deck.zero Deck.decode)),
  (word "Player", field Game.player (fun g h => { g with player := h })
    (slice Card.zero Card.decode)),
  (word "Dealer", field Game.dealer (fun g h => { g with dealer := h })
    (slice Card.zero Card.decode)),
  (word "Stood", field Game.stood (fun g b => { g with stood := b }) bool),
  (word "Bet", field Game.bet (fun g n => { g with bet := n }) int)]

def SecretState.decode : Decoder SecretState := object [
  (word "Game", field SecretState.game (fun ss g => { ss with game := g })
    (pointer Game.zero Game.decode)),
  (word "Balance", field SecretState.balance (fun ss n => { ss with balance := n }) int)]

end Raw

def Card.raw (c : Card) : Raw.Card := ⟨c.suit.toUint8, c.rank.toUint8⟩

def Deck.raw (d : Deck) : Raw.Deck := ⟨d.cards.toList.map Card.raw, d.pos⟩

def Game.raw (g : Game) : Raw.Game :=
  ⟨some g.deck.raw, some (g.player.map Card.raw), some (g.dealer.map Card.raw), g.stood, g.bet⟩

def SecretState.raw (ss : SecretState) : Raw.SecretState := ⟨some ss.game.raw, ss.balance⟩

/-- The numbers are of the types `uint8` and `int`. -/
structure SecretState.Fits (ss : SecretState) : Prop where
  pos : ss.game.deck.pos < 2 ^ 8
  bet_low : -2 ^ 63 ≤ ss.game.bet
  bet_high : ss.game.bet < 2 ^ 63
  balance_low : -2 ^ 63 ≤ ss.balance
  balance_high : ss.balance < 2 ^ 63

/-- The box with its key, and what it has sealed so far. No other box opens. -/
structure Server extends Secretbox where
  Open : Nonce → Bytes → Option Bytes
  issued : Nonce → SecretState → Prop
  fits : ∀ nonce ss, issued nonce ss → ss.Fits
  open_iff : ∀ nonce box m, Open nonce box = some m ↔
    ∃ ss, issued nonce ss ∧ box = Seal nonce (render ss.json) ∧ m = render ss.json

inductive DecodeError
  | malformed
  | type
  | hex
  | invalidState
deriving DecidableEq, Repr

/-- `json.Unmarshal`: the texts of the errors do not matter. -/
def unmarshal {α : Type} (dec : Decoder α) (buf : Bytes) (old : α) : Except DecodeError α :=
  match parse buf with
  | none => .error .malformed
  | some v =>
    match dec v old with
    | (_, true) => .error .type
    | (a, false) => .ok a

def nonceOf (buf : Bytes) : Nonce := Vector.ofFn fun i => buf.getD i 0

def unmarshalText (server : Server) (inbuf : Bytes) (ss : Raw.SecretState) :
    Option (Except DecodeError Raw.SecretState) :=
  match Hex.decode inbuf with
  | none => some (.error .hex)
  | some buf =>
    -- the slice of the nonce
    if buf.length < 24 then none
    else
      let nonce := nonceOf buf
      let buf := buf.drop 24
      -- the capacity of the plaintext
      if buf.length < overhead then none
      else
        match server.Open nonce buf with
        | none => some (.error .invalidState)
        | some out => some (unmarshal Raw.SecretState.decode out ss)

/-- The fields of `jsonSession`. -/
def sessionFields : List Bytes := [word "SecretState", word "PlayerHand", word "DealerHand",
  word "Balance", word "GameState", word "SessionState", word "Bet", word "Flag"]

/-- What `UnmarshalJSON` uses of a `jsonSession`. -/
structure JsonSession where
  secretState : Option Raw.SecretState
  bet : Int
deriving DecidableEq, Repr

/-- The other fields have to be of their types too. -/
def mistyped (name : Bytes) (v : Value) : Bool :=
  if name = word "PlayerHand" ∨ name = word "DealerHand" then
    (Decoder.slice none (Decoder.slice [] Decoder.string) v none).2
  else if name = word "Balance" then (Decoder.int v 0).2
  else (Decoder.string v []).2

/-- The field for the sealed text is a pointer to a type with a decoder of its own for texts. -/
def decodeSecret (server : Server) (v : Value) (old : Option Raw.SecretState) :
    Option (Except DecodeError (Option Raw.SecretState × Bool)) :=
  match v with
  | .null => some (.ok (none, false))
  | .string text =>
    match unmarshalText server text (old.getD Raw.SecretState.zero) with
    | none => none
    | some (.error e) => some (.error e)
    | some (.ok ss) => some (.ok (some ss, false))
  | _ => some (.ok (some (old.getD Raw.SecretState.zero), true))

def decodeMember (server : Server) (name : Bytes) (v : Value) (jss : JsonSession) :
    Option (Except DecodeError (JsonSession × Bool)) :=
  if name = word "SecretState" then
    match decodeSecret server v jss.secretState with
    | none => none
    | some (.error e) => some (.error e)
    | some (.ok (ss, e)) => some (.ok ({ jss with secretState := ss }, e))
  else if name = word "Bet" then
    let (bet, e) := Decoder.int v jss.bet
    some (.ok ({ jss with bet := bet }, e))
  else some (.ok (jss, mistyped name v))

/-- The loop over the members of the body. Errors of types are kept for the end, others stop it. -/
def decodeMembers (server : Server) :
    List (Bytes × Value) → JsonSession → Bool → Option (Except DecodeError (JsonSession × Bool))
  | [], jss, e => some (.ok (jss, e))
  | (key, v) :: members, jss, e =>
    match fieldOf sessionFields key with
    | none => decodeMembers server members jss e
    | some name =>
      match decodeMember server name v jss with
      | none => none
      | some (.error e) => some (.error e)
      | some (.ok (jss, e')) => decodeMembers server members jss (e || e')

/-- The end of `UnmarshalJSON`. -/
def sessionOf : Option (Except DecodeError (JsonSession × Bool)) →
    Option (Except DecodeError Raw.Session)
  | none => none
  | some (.error e) => some (.error e)
  | some (.ok (_, true)) => some (.error .type)
  | some (.ok (jss, false)) =>
    -- the fields of a nil pointer
    match jss.secretState with
    | none => none
    | some ss => some (.ok ⟨ss.game, ss.balance, jss.bet⟩)

def unmarshalJSON (server : Server) (buf : Bytes) : Option (Except DecodeError Raw.Session) :=
  let jss : JsonSession := ⟨none, 0⟩
  match parse buf with
  | none => some (.error .malformed)
  | some .null => sessionOf (some (.ok (jss, false)))
  | some (.object members) => sessionOf (decodeMembers server members jss false)
  | some _ => sessionOf (some (.ok (jss, true)))

end CtfChallenges.Cards
