import CtfChallenges.Hashpop.Urldecode
import Mathlib.Data.Vector.Basic

/-!
# The form parser of hashpop

`parse_request` of `hashpop.c`. The buffer is a block of its own; a pointer in the runner is one from
before the request, or an offset in the buffer.
-/

namespace CtfChallenges.Hashpop
open Framework CString

def MAX_FIELDS : Nat := 10

def ampersand : UInt8 := 0x26
def equals : UInt8 := 0x3d

/-- The fields of `struct hash_runner` that a request sets. -/
structure HashRunner (P : Type) where
  input : P
  input_len : Nat
  hash_name : P
  op_format : P

def HashRunner.before {P : Type} (h : HashRunner P) : HashRunner (P ⊕ Nat) :=
  ⟨.inl h.input, h.input_len, .inl h.hash_name, .inl h.op_format⟩

/-- The keys in the array of fields. The other two members of a field are not read after the pass
that sets them. -/
abbrev Fields := Vector (Option Nat) MAX_FIELDS

def Fields.cleared : Fields := Vector.replicate MAX_FIELDS none

/-- `fields[n].key = key` -/
def setKey (fields : Fields) (n key : Nat) : Option Fields :=
  if h : n < MAX_FIELDS then some (fields.set n (some key)) else none

/-- The end of the first loop: too many fields, or how many there are. -/
inductive Scanned
  | refused (mem : Mem)
  | fields (mem : Mem) (fields : Fields) (n_fields : Nat)

/-- The first loop, entered with a token that is not `NULL` yet. The number of fields is tested
before the next token is known. -/
def scanFields (mem : Mem) (saved : Nat) (fields : Fields) (n_fields : Nat) : Option Scanned :=
  if _hroom : MAX_FIELDS ≤ n_fields then some (.refused mem)
  else
    match strtok mem saved ampersand with
    | none => none
    | some (none, mem, _) => some (.fields mem fields n_fields)
    | some (some tok_next, mem, saved) =>
      match setKey fields n_fields tok_next with
      | none => none
      | some fields => scanFields mem saved fields (n_fields + 1)
termination_by MAX_FIELDS - n_fields

/-- The buffer, the runner and the lines printed. -/
structure Parsing (P : Type) where
  mem : Mem
  runner : HashRunner (P ⊕ Nat)
  printed : List String

variable {P : Type}

/-- A pass of the second loop. -/
def handleField (st : Parsing P) (key : Option Nat) : Option (Parsing P) := do
  let key ← key
  match ← strchr st.mem key equals with
  | none => return st
  | some pch =>
    let mem ← store st.mem pch 0
    let val := pch + 1
    let (c, _) ← urldecode mem key
    let (c, len) ← urldecode c.mem val
    let st := { st with mem := c.mem }
    let name ← cstr st.mem key
    if name = ascii "output" then
      return { st with runner := { st.runner with op_format := .inr val } }
    else if name = ascii "input" then
      return { st with runner := { st.runner with input := .inr val, input_len := len } }
    else if name = ascii "hash" then
      return { st with runner := { st.runner with hash_name := .inr val } }
    else if name = ascii "blog" then
      return { st with printed := st.printed ++ ["X-WWW-Blog: https://systemoverlord.com/\r\n"] }
    else return st

/-- `parse_request` with the array that `calloc` returns, and the value that it returns. The first
key is the start of the buffer, and not the first token. -/
def parse_request (calloc : Option Fields) (h : HashRunner P) (buf : Mem) :
    Option (Nat × Parsing P) :=
  match calloc with
  | none => some (1, ⟨buf, h.before, []⟩)
  | some fields => do
    let fields ← setKey fields 0 0
    let (tok_next, mem, saved) ← strtok buf 0 ampersand
    let scanned ←
      match tok_next with
      | none => some (.fields mem fields 1)
      | some _ => scanFields mem saved fields 1
    match scanned with
    | .refused mem => return (1, ⟨mem, h.before, []⟩)
    | .fields mem fields n_fields =>
      let st ← (fields.toList.take n_fields).foldlM handleField ⟨mem, h.before, []⟩
      return (0, st)

end CtfChallenges.Hashpop
