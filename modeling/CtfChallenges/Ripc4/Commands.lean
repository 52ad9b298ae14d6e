import CtfChallenges.Framework.Run
import CtfChallenges.Ripc4.Workspace

/-!
# The commands of ripc4

The command loop of `ripc4.c` and the use it makes of the union. A type 3 workspace passes the test
for type 2, so `print` calls through a pointer to an RC4 state.
-/

namespace CtfChallenges.Ripc4
open Framework

def TYPE_PLAIN : Nat := 1
def TYPE_ENCODE : Nat := 2
def TYPE_ENCRYPT : Nat := 3

def CHECK_TYPE (ws : Workspace) (t : Nat) : Bool := ws.type &&& t == t

inductive Member
  | print_encoded
  | enc_state
deriving DecidableEq, Repr

/-- An access through a member of the union, with what the union holds. -/
structure Use where
  member : Member
  stored : EncUnion

/-- The member is the one that was stored last. -/
def Use.Fits : Use → Prop
  | ⟨.print_encoded, .print_encoded _⟩ => True
  | ⟨.enc_state, .enc_state _⟩ => True
  | _ => False

/-- After a command: the loop goes on, the program has ended, or it has no defined behaviour. -/
inductive Outcome
  | running (ws : Workspace)
  | exited (status : Nat)
  | crashed

def Outcome.next : Outcome → Option Workspace
  | running ws => some ws
  | _ => none

def str (s : String) : List Int8 := s.toList.map fun c => Int8.ofNat c.toNat

def tolower (c : Int8) : Int8 := if 0x41 ≤ c ∧ c ≤ 0x5a then c + 0x20 else c

/-- `!strcasecmp(s, t)`. -/
def strcaseEq (s t : List Int8) : Bool := s.map tolower == t.map tolower

def set_encoding (ws : Workspace) : Option (List Int8) → Outcome
  | none => .crashed
  | some enc =>
    if strcaseEq (str "base64") enc then .running { ws with enc := .print_encoded .base64 }
    else if strcaseEq (str "hex") enc then .running { ws with enc := .print_encoded .hex }
    else .running ws

/-- `print_state`. The two printing functions take an unset input for an empty one, `printf` has no
value for it. -/
def print_state (ws : Workspace) : List Use × Outcome :=
  if CHECK_TYPE ws TYPE_ENCODE then
    match ws.enc with
    | .null => ([], .running ws)
    | .print_encoded f => ([⟨.print_encoded, .print_encoded f⟩], .running ws)
    | .enc_state s => ([⟨.print_encoded, .enc_state s⟩], .crashed)
  else if CHECK_TYPE ws TYPE_PLAIN then
    ([], if ws.input_buf.isSome then .running ws else .crashed)
  else ([], .running ws)

/-- `set_key` frees the state that it replaces. -/
def set_key_uses (ws : Workspace) (key_data : Option (List Int8)) : List Use :=
  match key_data with
  | none => []
  | some key_data =>
    let key_len := key_data.length
    if key_len > KEY_LEN_MAX * 2 ∨ key_len < KEY_LEN_MIN * 2 ∨ key_len % 2 ≠ 0 then []
    else
      match decodeKey key_data key_len, ws.enc with
      | none, _ => []
      | some _, .null => []
      | some _, enc => [⟨.enc_state, enc⟩]

def do_encrypt_uses (ws : Workspace) : List Use :=
  if ws.buf_len = 0 then [] else [⟨.enc_state, ws.enc⟩]

/-- A line for the prompt `command`, and one for the prompt of the command. At the end of the input
a prompt has no line. -/
structure Request where
  cmd : Option (List Int8)
  answer : Option (List Int8)

def command (ws : Workspace) (r : Request) : List Use × Outcome :=
  match r.cmd with
  | none => ([], .exited 0)
  | some cmd =>
    if cmd = str "quit" ∨ cmd = str "exit" then ([], .exited 0)
    else if cmd = str "set_input" then ([], .running (set_input ws r.answer))
    else if cmd = str "set_encoding" then
      if CHECK_TYPE ws TYPE_ENCRYPT then ([], .running ws) else ([], set_encoding ws r.answer)
    else if cmd = str "print" then print_state ws
    else if cmd = str "set_key" then
      if !CHECK_TYPE ws TYPE_ENCRYPT then ([], .running ws)
      else (set_key_uses ws r.answer, .running (set_key ws r.answer))
    else if cmd = str "encrypt" then
      if !CHECK_TYPE ws TYPE_ENCRYPT then ([], .running ws)
      else (do_encrypt_uses ws, (do_encrypt ws).elim .crashed .running)
    else ([], .running ws)

/-- `main` up to the loop, with the answer to the prompt for the type. -/
def start : Option (List Int8) → Outcome
  | none => .crashed
  | some type =>
    if type = str "plain" then .running ⟨TYPE_PLAIN, none, 0, .null⟩
    else if type = str "encoded" then .running ⟨TYPE_ENCODE, none, 0, .null⟩
    else if type = str "encrypted" then .running ⟨TYPE_ENCRYPT, none, 0, .null⟩
    else .exited 1

/-- The passes of the loop that a program run makes, each with the workspace before it. -/
def executed (type : Option (List Int8)) (rs : List Request) : List (Workspace × Request) :=
  (start type).next.elim [] (visited (fun ws r => (command ws r).2.next) rs)

def uses (type : Option (List Int8)) (rs : List Request) : List Use :=
  (executed type rs).flatMap fun p => (command p.1 p.2).1

end CtfChallenges.Ripc4
