import CtfChallenges.Framework.Blocks
import CtfChallenges.Framework.LineMatch
import CtfChallenges.Framework.Run
import CtfChallenges.Framework.Strtol

/-!
# The key server of Chameleon

`server.rb` keeps keys under identifiers of its own, and `chameleon.cpp` sends and reads them as
hexadecimal text. Bodies are bytes.
-/

namespace CtfChallenges.Chameleon
open Framework LineMatch

abbrev Bytes := List UInt8

/-- `[a-f0-9]` -/
def hexClass (c : UInt8) : Bool := (0x61 ≤ c && c ≤ 0x66) || (0x30 ≤ c && c ≤ 0x39)

def dashClass (c : UInt8) : Bool := c == 0x2d

/-- `/^[a-f0-9]{16}$/` -/
def keyClasses : List (UInt8 → Bool) := List.replicate 16 hexClass

/-- `/^[0-9a-f]{8}-[0-9a-f]{4}-[0-9a-f]{4}-[0-9a-f]{4}-[0-9a-f]{12}$/` -/
def uuidClasses : List (UInt8 → Bool) :=
  List.replicate 8 hexClass ++ dashClass :: (List.replicate 4 hexClass ++ dashClass ::
    (List.replicate 4 hexClass ++ dashClass :: (List.replicate 4 hexClass ++ dashClass ::
      List.replicate 12 hexClass)))

structure Entry where
  id : Bytes
  key : Bytes
  deriving DecidableEq, Repr

abbrev Database := List (Bytes × Entry)

/-- `database[id] = entry` -/
def Database.put (database : Database) (id : Bytes) (entry : Entry) : Database :=
  (id, entry) :: database.filter fun held => held.1 != id

/-- The contents of `data.json`, and whether new contents can be written to it; otherwise that
raises an error. -/
structure Host where
  data : Database
  write : Database → Bool

def data_json : Database :=
  [(ascii "6406ec15-c661-4272-b37a-589526c90c04",
    ⟨ascii "6406ec15-c661-4272-b37a-589526c90c04", ascii "a051b8a16f8542da"⟩)]

inductive Reply
  | status (code : Nat) (body : Bytes)
  | raised
  deriving DecidableEq, Repr

variable (host : Host)

/-- `post '/api/store'`, with what `SecureRandom.uuid` returns in it. -/
def store (DATABASE : Database) (key : Option Bytes) (uuid : Bytes) : Reply × Database :=
  match key with
  | none => (.status 400 (ascii "Missing key (should be in POST data)"), DATABASE)
  | some key =>
    if !matchesLine 0x0a keyClasses key then
      (.status 400 (ascii "Invalid key - must be 16 hex characters (8 bytes)"), DATABASE)
    else
      let id := uuid
      let DATABASE := DATABASE.put id ⟨id, key⟩
      -- an entry that cannot be written stays in the hash
      if !host.write DATABASE then (.raised, DATABASE) else (.status 200 id, DATABASE)

/-- `post '/api/retrieve'` -/
def retrieve (DATABASE : Database) (id : Option Bytes) : Reply :=
  match id with
  | none => .status 400 (ascii "Missing identifier (should be in POST data)")
  | some id =>
    if !matchesLine 0x0a uuidClasses id then .status 400 (ascii "Bad identifier - must be a UUID")
    else
      match DATABASE.lookup id with
      | none => .status 400 (ascii "ID not found")
      | some entry => .status 200 entry.key

/-- A request with its body, which `read` never leaves without a value. -/
inductive Request
  | store (body uuid : Bytes)
  | retrieve (body : Bytes)

def serve (DATABASE : Database) : Request → Reply × Database
  | .store body uuid => store host DATABASE (some body) uuid
  | .retrieve body => (retrieve DATABASE (some body), DATABASE)

def serveAll (requests : List Request) (DATABASE : Database) : Database :=
  requests.foldl (fun DATABASE request => (serve host DATABASE request).2) DATABASE

def Request.uuid : Request → Option Bytes
  | .store _ uuid => some uuid
  | .retrieve _ => none

/-- Requests to a server, in which `SecureRandom.uuid` does not repeat. -/
structure Traffic where
  requests : List Request
  uuid_fits : ∀ uuid ∈ requests.filterMap Request.uuid, fits uuidClasses uuid = true
  uuid_nodup : (requests.filterMap Request.uuid).Nodup

def DES_KEY_SIZE : Nat := 8

/-- `sprintf("%02x")` for every byte. -/
def to_hex (input : Vector UInt8 DES_KEY_SIZE) : Bytes :=
  (input.toList.map fun b => [Hex.digit (b.toNat / 16), Hex.digit (b.toNat % 16)]).flatten

/-- Two characters at a time, with no value where the text has none. -/
def from_hex (input : Bytes) : Option Bytes :=
  (List.range DES_KEY_SIZE).mapM fun i =>
    let buffer := Blocks.slice input (2 * i) (2 * (i + 1))
    if buffer.length = 2 then some (UInt8.ofInt (Strtol.strtol 16 buffer).value) else none

end CtfChallenges.Chameleon
