import CtfChallenges.Cards.Deck

/-!
# Hands, games and sessions

The game mutates a deck and two hands; a session adds the chips. Every operation returns the
new state with the randomness left over, and `none` stands for a run-time panic or for a loop
that is still running. An operation of a session also returns its error, if any.
-/

namespace CtfChallenges.Cards

abbrev Hand := List Card

/-- The loop at the end of `Value`: the aces still counted as one, and the total so far. -/
def raiseAces : Nat → Nat → Nat
  | 0, value => value
  | aces + 1, value => if value ≤ 11 then raiseAces aces (value + 10) else value

/-- The total with every ace counted as one. -/
def Hand.hard (h : Hand) : Nat := (h.map Card.value).sum

def Hand.aces (h : Hand) : Nat := h.countP (·.rank = .ace)

def Hand.value (h : Hand) : Nat := raiseAces (Hand.aces h) (Hand.hard h)

inductive HandState
  | under | bust | blackjack
  deriving DecidableEq, Repr

def Hand.state (h : Hand) : HandState :=
  if Hand.value h = 21 ∧ h.length = 2 then .blackjack
  else if 21 < Hand.value h then .bust
  else .under

structure Game where
  deck : Deck
  player : Hand
  dealer : Hand
  stood : Bool
  bet : Int
  deriving DecidableEq

def newGame : Game where
  deck := newDeck
  player := []
  dealer := []
  stood := false
  bet := 0

/-- One pass of the dealing loop: a card to the player and one to the dealer. -/
def Game.dealPass (g : Game) (src : Source) : Option (Game × Source) := do
  let (c, deck, src) ← g.deck.next src
  let g := { g with deck := deck, player := g.player ++ [c] }
  let (c, deck, src) ← g.deck.next src
  return ({ g with deck := deck, dealer := g.dealer ++ [c] }, src)

def Game.deal (g : Game) (src : Source) : Option (Game × Source) := do
  let g := { g with player := [], dealer := [], deck := g.deck.shuffle src.head }
  let (g, src) ← g.dealPass src.tail
  g.dealPass src

def Hand.soft17 (h : Hand) : Bool := 0 < Hand.aces h && Hand.value h == 17

/-- The condition of the loop in `DealerPlay`. -/
def Hand.mustDraw (h : Hand) : Bool := Hand.value h < 17 || Hand.soft17 h

/-- The loop of `DealerPlay`, run for at most `fuel` passes. -/
def Game.dealerLoop : Nat → Game → Source → Option (Game × Source)
  | 0, g, src => if Hand.mustDraw g.dealer then none else some (g, src)
  | fuel + 1, g, src =>
    if Hand.mustDraw g.dealer then do
      let (c, deck, src) ← g.deck.next src
      Game.dealerLoop fuel { g with deck := deck, dealer := g.dealer ++ [c] } src
    else some (g, src)

/-- The dealer draws with at most 17 points on the table and each card adds one or more, so
18 passes are always enough (`dealerLoop_house`). -/
def Game.dealerPlay (g : Game) (src : Source) : Option (Game × Source) :=
  if Hand.state g.player = .bust then some (g, src)
  else g.dealerLoop 18 src

def Game.stand (g : Game) (src : Source) : Option (Game × Source) :=
  if g.stood then some (g, src)
  else { g with stood := true }.dealerPlay src

def Game.hit (g : Game) (src : Source) : Option (Game × Source) := do
  let (c, deck, src) ← g.deck.next src
  let g := { g with deck := deck, player := g.player ++ [c] }
  if 21 ≤ Hand.value g.player then g.stand src else some (g, src)

inductive GameState
  | playing | dealerWins | playerWins | playerWinsBlackjack | push | idle
  deriving DecidableEq, Repr

def Game.state (g : Game) : GameState :=
  if g.player.length = 0 then .idle
  else if Hand.state g.player = .bust then .dealerWins
  else if Hand.state g.player = .blackjack ∧ Hand.state g.dealer = .blackjack then .push
  else if Hand.state g.player = .blackjack then .playerWinsBlackjack
  else if Hand.state g.dealer = .blackjack then .dealerWins
  else if Hand.state g.dealer = .bust then .playerWins
  else if g.stood ∧ Hand.value g.player = Hand.value g.dealer then .push
  else if g.stood ∧ Hand.value g.player > Hand.value g.dealer then .playerWins
  else if g.stood then .dealerWins
  else .playing

structure Session where
  game : Game
  balance : Int
  bet : Int
  deriving DecidableEq

def amountPlayerStarts : Int := 1000
def minBet : Int := 10
def maxBet : Int := 500

def newSession : Session where
  game := newGame
  balance := amountPlayerStarts
  bet := 0

def Session.score (s : Session) : Session :=
  match s.game.state with
  | .idle => s
  | .playing => s
  -- Original bet + 3/2
  | .playerWinsBlackjack => { s with balance := s.balance + (s.game.bet * 5).tdiv 2 }
  -- Original bet + win
  | .playerWins => { s with balance := s.balance + s.game.bet * 2 }
  | .dealerWins => s
  | .push => { s with balance := s.balance + s.game.bet }

inductive SessionState
  | playing | broke | won
  deriving DecidableEq, Repr

def amountPlayerWins : Int := 100000

def Session.state (s : Session) : SessionState :=
  if s.balance < 0 then .broke
  else if s.balance > amountPlayerWins then .won
  else .playing

/-- The result of an operation of a session: its error, the session and the randomness left. -/
abbrev Reply := Option (Option String × Session × Source)

def Session.deal (s : Session) (src : Source) : Reply :=
  if s.bet > s.balance then some (some "Invalid bet: not enough chips!", s, src)
  else if s.bet > maxBet ∨ s.bet < minBet then some (some "Invalid bet!", s, src)
  else do
    let (g, src) ← { s.game with stood := false }.deal src
    let s := { s with game := { g with bet := s.bet }, balance := s.balance - s.bet }
    -- In case of BJ
    return (none, s.score, src)

def Session.double (s : Session) (src : Source) : Reply :=
  if s.game.state ≠ .playing then some (some "Not playing!", s, src)
  else if s.game.bet > s.balance then some (some "Invalid bet: not enough chips!", s, src)
  else if s.game.player.length ≠ 2 then
    some (some "Can't double after first cards.", s, src)
  else do
    let balance := s.balance - s.game.bet
    let (g, src) ← { s.game with bet := s.game.bet * 2 }.hit src
    let (g, src) ← g.stand src
    return (none, { s with game := g, balance := balance }, src)

def Session.hit (s : Session) (src : Source) : Reply :=
  if s.game.state ≠ .playing then some (some "Not playing!", s, src)
  else do
    let (g, src) ← s.game.hit src
    return (none, { s with game := g }.score, src)

def Session.stand (s : Session) (src : Source) : Reply :=
  if s.game.state ≠ .playing then some (some "Not playing!", s, src)
  else do
    let (g, src) ← s.game.stand src
    return (none, { s with game := g }.score, src)

inductive Action
  | deal | hit | stand | double
  deriving DecidableEq, Repr

/-- A request carries the sealed game and balance, and a bet of the client's choice. -/
structure Request where
  action : Action
  bet : Int
  deriving DecidableEq, Repr

def apiHandler (session : Session) (r : Request) (src : Source) : Reply :=
  let session := { session with bet := r.bet }
  match r.action with
  | .deal => session.deal src
  | .hit => session.hit src
  | .stand => session.stand src
  | .double => session.double src

/-- The session the client holds after a request: a refused request leaves the old one. -/
def serve (session : Session) (r : Request) (src : Source) : Option (Session × Source) := do
  match ← apiHandler session r src with
  | (some _, _, src) => return (session, src)
  | (none, session, src) => return (session, src)

end CtfChallenges.Cards
