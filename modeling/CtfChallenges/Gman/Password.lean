import CtfChallenges.Framework.Blocks
import Mathlib.Data.List.FinRange
import Mathlib.Data.Vector.Basic

/-!
# The password grid

`password.c`: three bytes are drawn on a grid of seven by seven cells, and a grid typed with the
cursor keys is read back. A cell is only ever 0 or 1, and the checksum with it.
-/

namespace CtfChallenges.Gman
open Framework

abbrev Grid := Vector (Vector Bool 7) 7

abbrev Spot := Fin 7 × Fin 7

def Grid.at (state : Grid) (p : Spot) : Bool := state[p.1][p.2]

def Grid.put (state : Grid) (p : Spot) (v : Bool) : Grid := state.set p.1 (state[p.1].set p.2 v)

def Grid.blank : Grid := Vector.replicate 7 (Vector.replicate 7 false)

/-- The cell `[6 - i][6 - j]`. -/
def mirror (p : Spot) : Spot := (p.1.rev, p.2.rev)

/-- The cells that both loops walk, in their order. -/
def triangle : List Spot :=
  (List.finRange 7).flatMap fun i =>
    ((List.finRange 7).filter fun j => j.val < if i.val > 2 then 6 - i.val else 7 - i.val).map
      fun j => (i, j)

structure Drawing where
  bit : Nat
  checksum : Bool
  grid : Grid

/-- One pass of the loop of `print_password`. The last pass leaves the bit at -1, and nothing reads
it there. -/
def print_cell (passcode : Nat) (d : Drawing) (p : Spot) : Drawing :=
  let thischar := passcode.testBit d.bit
  { bit := d.bit - 1
    checksum := d.checksum ^^ thischar
    grid := (d.grid.put p thischar).put (mirror p) thischar }

def scramble : Nat := 0x555555

def passcode (a b c : UInt8) : Nat :=
  (a.toNat <<< 16 ||| b.toNat <<< 8 ||| c.toNat) ^^^ scramble

/-- The grid on the screen. The checksum starts at 1, so that the blank grid is not valid. -/
def print_password (a b c : UInt8) : Grid :=
  let d := triangle.foldl (print_cell (passcode a b c)) ⟨23, true, Grid.blank⟩
  d.grid.put (3, 3) d.checksum

/-- One pass of the loop of `validate_password`, over the checksum and the result. -/
def validate_cell (state : Grid) (acc : Bool × Nat) (p : Spot) : Option (Bool × Nat) :=
  if state.at p ≠ state.at (mirror p) then none
  else some (acc.1 ^^ state.at p, acc.2 <<< 1 ||| (state.at p).toNat)

def validate_password (state : Grid) : Option (UInt8 × UInt8 × UInt8) := do
  let (checksum, result) ← triangle.foldlM (validate_cell state) (true, 0)
  if checksum ≠ state.at (3, 3) then none
  else
    let result := result ^^^ scramble
    some (UInt8.ofNat (result >>> 16 &&& 0xFF), UInt8.ofNat (result >>> 8 &&& 0xFF),
      UInt8.ofNat (result >>> 0 &&& 0xFF))

/-- What `getch` returns when it does return a key. -/
inductive Key
  | char (c : Char)
  | KEY_UP | KEY_DOWN | KEY_LEFT | KEY_RIGHT
  | other (code : Nat)
  deriving DecidableEq, Repr

structure Cursor where
  x : Fin 7
  y : Fin 7
  state : Grid

def press (cur : Cursor) : Key → Option Cursor
  | .char 'w' | .KEY_UP => some { cur with y := if cur.y = 0 then 6 else cur.y - 1 }
  | .char 'a' | .KEY_LEFT => some { cur with x := if cur.x = 0 then 6 else cur.x - 1 }
  | .char 's' | .KEY_DOWN => some { cur with y := cur.y + 1 }
  | .char 'd' | .KEY_RIGHT => some { cur with x := cur.x + 1 }
  | .char ' ' =>
    some { cur with state := cur.state.put (cur.y, cur.x) (!cur.state.at (cur.y, cur.x)) }
  | _ => none

/-- How reading a password ends, with the keys left over. -/
inductive Reading
  | accepted (a b c : UInt8) (rest : List Key)
  | refused (rest : List Key)
  | waiting

/-- The loop of `read_password`. After a grid that is not valid, any key goes back to typing. -/
def read_loop (cur : Cursor) : List Key → Reading
  | [] => .waiting
  | key :: keys =>
    match press cur key with
    | some cur => read_loop cur keys
    | none =>
      if key = .char '\n' then
        match validate_password cur.state, keys with
        | some (a, b, c), keys => .accepted a b c keys
        | none, _ :: keys => read_loop cur keys
        | none, [] => .waiting
      else .refused keys

def Cursor.corner : Cursor := ⟨0, 0, Grid.blank⟩

def read_password (keys : List Key) : Reading := read_loop Cursor.corner keys

end CtfChallenges.Gman
