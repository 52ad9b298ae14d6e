import CtfChallenges.Framework.Run
import CtfChallenges.Framework.Text
import Mathlib.Data.List.AList

/-!
# The configuration of config-me

`Config`, `MaybeEncrypted` and the menu of `main.rs`. The hash map is an association list, and
its order in iterations is left open. `hex` is the crate of that name, and `salsa20` gives the
keystream of a key and a nonce; a text that the program reads from a terminal or a file is a list
of characters.
-/

namespace CtfChallenges.ConfigMe
open Framework Text

inductive MaybeEncrypted
  | NotEncrypted (s : List Char)
  | Encrypted (e : List UInt8)
deriving DecidableEq

def key : List UInt8 :=
  ((List.range 32).foldl (fun (xorer, key) _ =>
    let b := xorer * 3 + 3
    (b, b :: key)) ((0x41 : UInt8), ([] : List UInt8))).2

abbrev Config := AList fun _ : List Char => MaybeEncrypted

section Cipher
variable (salsa20 : List UInt8 → List UInt8 → Nat → UInt8)

def apply_keystream (nonce data : List UInt8) : List UInt8 :=
  data.mapIdx fun i b => b ^^^ salsa20 key nonce i

def MaybeEncrypted.encrypt (nonce : Vector UInt8 8) (data : List UInt8) : List UInt8 :=
  nonce.toList ++ apply_keystream salsa20 nonce.toList data

def MaybeEncrypted.new (value : List Char) (encrypt : Bool) (nonce : Vector UInt8 8) :
    MaybeEncrypted :=
  match encrypt with
  | false => .NotEncrypted value
  | true => .Encrypted (MaybeEncrypted.encrypt salsa20 nonce (asBytes value))

/-- No value on an error. -/
def MaybeEncrypted.get : MaybeEncrypted → Option (List Char)
  | .NotEncrypted s => some s
  | .Encrypted e =>
    if e.length < 8 then none else fromUtf8 (apply_keystream salsa20 (e.take 8) (e.drop 8))

end Cipher

section File
variable (hex : HexCrate)

def MaybeEncrypted.deserialize : List Char → Option MaybeEncrypted
  | 'E' :: '$' :: cs => (hex.decode cs).map .Encrypted
  | value => some (.NotEncrypted value)

def MaybeEncrypted.serialize : MaybeEncrypted → List Char
  | .NotEncrypted s => s
  | .Encrypted e => 'E' :: '$' :: hex.encode e

/-- The body of the loop in `load`. A value that does not parse is skipped. -/
def loadLine (data : Config) (line : List Char) : Option Config :=
  match splitOnce ':' line with
  | none => none
  | some (k, v) =>
    match MaybeEncrypted.deserialize hex (trim v) with
    | none => some data
    | some value => some (data.insert (trim k) value)

/-- `Config::load` of a file that may be missing. -/
def load (file : Option (List Char)) : Option Config :=
  match file with
  | none => some ∅
  | some text => (lines text).foldlM (loadLine hex) ∅

/-- `Config::save`, with the entries in the order of the iteration. -/
def save (entries : List (Σ _ : List Char, MaybeEncrypted)) : List Char :=
  entries.flatMap fun ⟨k, v⟩ => k ++ ':' :: ' ' :: v.serialize hex ++ ['\n']

end File

section Menu
variable (hex : HexCrate) (salsa20 : List UInt8 → List UInt8 → Nat → UInt8)

def Config.get (config : Config) (s : List Char) : Option (List Char) :=
  (config.lookup s).bind (MaybeEncrypted.get salsa20)

def Config.add (config : Config) (k value : List Char) (encrypt : Bool)
    (nonce : Vector UInt8 8) : Config :=
  config.insert k (MaybeEncrypted.new salsa20 value encrypt nonce)

/-- A line typed at a prompt. -/
def Line := { s : List Char // '\n' ∉ s }

def prompt (line : Line) : List Char := trim line.val

/-- What is typed, drawn and read from disk in one turn of the menu, where it is asked for. -/
structure Turn where
  name : Line
  choice : Line
  key : Line
  value : Line
  encrypt : Line
  nonce : Vector UInt8 8
  file : Option (List Char)

/-- The beginning of a turn asks for the name if it is missing. -/
def ask_name (config : Config) (name : Line) : Config :=
  match Config.get salsa20 config ['n', 'a', 'm', 'e'] with
  | some _ => config
  | none => Config.add salsa20 config ['n', 'a', 'm', 'e'] (prompt name) false (.replicate 8 0)

def isYes (s : List Char) : Bool :=
  s ∈ [['y'], ['y', 'e', 's'], ['t'], ['t', 'r', 'u', 'e']]

/-- One turn of the menu loop. There is no next state when the program ends. -/
def turn (config : Config) (t : Turn) : Option Config :=
  let config := ask_name salsa20 config t.name
  let choice := prompt t.choice
  if choice ∈ [['a'], ['A'], ['u'], ['U']] then
    let k := prompt t.key
    if k = [] then some config
    else
      let value := prompt t.value
      if value = [] then some config
      else some (Config.add salsa20 config k value (isYes (prompt t.encrypt)) t.nonce)
  else if choice ∈ [['d'], ['D']] then
    let k := prompt t.key
    if k = [] then some config else some (config.erase k)
  else if choice ∈ [['s'], ['S']] then some config
  else if choice ∈ [['r'], ['R'], ['l'], ['L']] then load hex t.file
  else if choice ∈ [['q'], ['Q']] then none
  else some config

end Menu

end CtfChallenges.ConfigMe
