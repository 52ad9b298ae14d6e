import CtfChallenges.Framework.SwapLoop
import Mathlib.Algebra.GroupWithZero.Nat
import Mathlib.Data.Stream.Defs

/-!
# The deck

A deck is an array of 52 cards and the position of the next card. `Shuffle` is the only user
of randomness; its draws are an argument, and the draws of all later shuffles are a stream.
-/

namespace CtfChallenges.Cards
open Framework

inductive Suit
  | spades | clubs | diamonds | hearts
  deriving DecidableEq, Repr

inductive Rank
  | ace | two | three | four | five | six | seven | eight | nine | ten | jack | queen | king
  deriving DecidableEq, Repr

/-- The conversion `Suit(n)`; `NewDeck` applies it below 4. -/
def Suit.ofUint8 : Nat → Suit
  | 0 => .spades
  | 1 => .clubs
  | 2 => .diamonds
  | _ => .hearts

/-- The conversion `Rank(n)`; `NewDeck` applies it from 1 to 13. -/
def Rank.ofUint8 : Nat → Rank
  | 2 => .two
  | 3 => .three
  | 4 => .four
  | 5 => .five
  | 6 => .six
  | 7 => .seven
  | 8 => .eight
  | 9 => .nine
  | 10 => .ten
  | 11 => .jack
  | 12 => .queen
  | 13 => .king
  | _ => .ace

structure Card where
  suit : Suit
  rank : Rank
  deriving DecidableEq, Repr

/-- An ace counts one here; `Hand.value` raises it to eleven. -/
def Card.value (c : Card) : Nat :=
  match c.rank with
  | .ace => 1
  | .two => 2
  | .three => 3
  | .four => 4
  | .five => 5
  | .six => 6
  | .seven => 7
  | .eight => 8
  | .nine => 9
  | .ten | .jack | .queen | .king => 10

theorem Card.value_pos (c : Card) : 0 < c.value := by
  unfold Card.value
  cases c.rank <;> decide

structure Deck where
  cards : Vector Card 52
  pos : Nat
  deriving DecidableEq

def newDeck : Deck where
  cards := Vector.ofFn fun i : Fin 52 => ⟨Suit.ofUint8 (i / 13), Rank.ofUint8 (i % 13 + 1)⟩
  pos := 0

theorem newDeck_nodup : newDeck.cards.toList.Nodup := by decide +kernel

/-- The numbers one `Shuffle` draws: the one for index `i` is below `52 - i`. -/
abbrev Draws := (i : Fin 52) → Fin (52 - i)

/-- The draws of the shuffles still to come. -/
abbrev Source := Stream' Draws

/-- Draws that leave a new deck in its order. -/
def unshuffled : Source := fun _ i => ⟨0, by omega⟩

/-- One pass of the loop in `Shuffle`. -/
def shufflePass (r : Draws) (cards : Vector Card 52) (i : Fin 52) : Vector Card 52 :=
  cards.swap i (i + r i) i.isLt (by have := (r i).isLt; omega)

def Deck.shuffle (d : Deck) (r : Draws) : Deck where
  cards := (List.finRange 52).foldl (shufflePass r) d.cards
  pos := 0

@[simp] theorem Deck.shuffle_pos (d : Deck) (r : Draws) : (d.shuffle r).pos = 0 := rfl

theorem Deck.shuffle_perm (d : Deck) (r : Draws) : (d.shuffle r).cards.Perm d.cards := by
  have hpass : ∀ cards i, (shufflePass r cards i).Perm cards :=
    fun cards i => Vector.swap_perm i.isLt (by have := (r i).isLt; omega)
  exact foldl_vector_perm (fun cards => cards) (shufflePass r) hpass (List.finRange 52) d.cards

/-- The shuffle is fair: from 52 distinct cards, each arrangement of them comes from exactly one of
the equally likely draws. -/
theorem shuffle_unbiased (d : Deck) (hd : d.cards.toList.Nodup) (target : Vector Card 52)
    (htarget : target.Perm d.cards) :
    (∃! r : Draws, (d.shuffle r).cards = target) ∧ ∀ r, (d.shuffle r).pos = 0 := by
  have hpass : ∀ r : Draws, shufflePass r = exchangePass r := fun _ => rfl
  simp only [Deck.shuffle, hpass, implies_true, and_true]
  exact exists_unique_offsets hd htarget

theorem shuffle_unbiased_newDeck :
    (∃! r : Draws, (newDeck.shuffle r).cards = newDeck.cards) ∧
      ∀ r, (newDeck.shuffle r).pos = 0 :=
  shuffle_unbiased newDeck newDeck_nodup newDeck.cards Vector.Perm.rfl

/-- No value is the panic of an index out of range. -/
def Deck.next (d : Deck) (src : Source) : Option (Card × Deck × Source) := do
  let c ← d.cards[d.pos]?
  let d := { d with pos := d.pos + 1 }
  if 52 ≤ d.pos then
    return (c, d.shuffle src.head, src.tail)
  return (c, d, src)

/-- Away from the last card `Next` turns one card over and draws no randomness. -/
theorem Deck.next_of_lt (d : Deck) (src : Source) (h : d.pos + 1 < 52) :
    d.next src = some (d.cards[d.pos], { d with pos := d.pos + 1 }, src) := by
  have hnot : ¬ 52 ≤ d.pos + 1 := by omega
  have hget : d.cards[d.pos]? = some d.cards[d.pos] := Vector.getElem?_eq_getElem _
  simp [Deck.next, hnot, hget]

end CtfChallenges.Cards
