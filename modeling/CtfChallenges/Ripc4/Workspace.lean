import Mathlib.Algebra.Order.Group.Int
import Mathlib.Data.List.FinRange
import Mathlib.Data.Vector.Basic

/-!
# The workspace of ripc4

`set_input`, `set_key` and `do_encrypt` of `ripc4.c`. `char` is a signed byte, and an `int` that
is masked by `0xFF` is the remainder modulo 256. A string is the list of its characters before
the terminator; `none` in place of a workspace is a crash.
-/

namespace CtfChallenges.Ripc4

inductive Encoding
  | base64
  | hex
deriving DecidableEq, Repr

/-- The member of the union that was stored last. -/
inductive EncUnion
  | null
  | print_encoded (f : Encoding)
  | enc_state (s : Vector Int8 256)

structure Workspace where
  type : Nat
  input_buf : Option (List Int8)
  buf_len : Nat
  enc : EncUnion

def KEY_LEN_MIN : Nat := 1
def KEY_LEN_MAX : Nat := 256

/-- `x & 0xFF`. -/
def mask (x : Int) : Fin 256 := ⟨(x % 256).toNat, by omega⟩

def isSpace (c : Int8) : Bool := c = 0x20 || (9 ≤ c && c ≤ 13)

def hexDigit (c : Int8) : Option Nat :=
  if 0x30 ≤ c ∧ c ≤ 0x39 then some (c.toInt - 0x30).toNat
  else if 0x61 ≤ c ∧ c ≤ 0x66 then some (c.toInt - 0x61 + 10).toNat
  else if 0x41 ≤ c ∧ c ≤ 0x46 then some (c.toInt - 0x41 + 10).toNat
  else none

/-- The number that `sscanf(s, "%02x", &byte)` stores: white space is skipped, and of the next two
characters a sign and digits are read. The digit of a `0x` is a number in the C library. -/
def sscanf02x (s : List Int8) : Option Int :=
  match s.dropWhile isSpace with
  | [] => none
  | c :: cs =>
    if c = 0x2d then (cs.head?.bind hexDigit).map fun d : Nat => -(d : Int)
    else if c = 0x2b then (cs.head?.bind hexDigit).map Int.ofNat
    else
      match hexDigit c, cs.head?.bind hexDigit with
      | none, _ => none
      | some d, none => some d
      | some d, some d' => some (16 * d + d')

/-- The loop that decodes the key into the first half of the buffer it is read from. -/
def decodeKey (key_data : List Int8) (key_len : Nat) : Option (List Int8) :=
  (List.range (key_len / 2)).foldlM (fun key_data n =>
    (sscanf02x (key_data.drop (2 * n))).map fun byte =>
      key_data.set n (Int8.ofInt (mask byte).val)) key_data

def schedulePass (key_data : List Int8) (key_len : Nat) :
    Vector Int8 256 × Fin 256 → Fin 256 → Vector Int8 256 × Fin 256
  | (enc_state, j), i =>
    let j := mask (j.val + enc_state[i].toInt + (key_data.getD (i.val % key_len) 0).toInt)
    let tmp := enc_state[i]
    let enc_state := enc_state.set i.val enc_state[j]
    let enc_state := enc_state.set j.val tmp
    (enc_state, j)

def initialState : Vector Int8 256 := Vector.ofFn fun i => Int8.ofInt i.val

/-- `set_key` with what `prompt` returned. -/
def set_key (ws : Workspace) (key_data : Option (List Int8)) : Workspace :=
  match key_data with
  | none => ws
  | some key_data =>
    let key_len := key_data.length
    if key_len > KEY_LEN_MAX * 2 ∨ key_len < KEY_LEN_MIN * 2 ∨ key_len % 2 ≠ 0 then ws
    else
      match decodeKey key_data key_len with
      | none => ws
      | some key_data =>
        let key_len := key_len / 2
        let enc_state := ((List.finRange 256).foldl (schedulePass key_data key_len) (initialState, 0)).1
        { ws with enc := .enc_state enc_state }

/-- `set_input` with what `prompt` returned. -/
def set_input (ws : Workspace) (inp : Option (List Int8)) : Workspace :=
  let ws := match ws.input_buf with
    | none => ws
    | some _ => { ws with input_buf := none, buf_len := 0 }
  match inp with
  | none => ws
  | some inp => { ws with input_buf := some (inp ++ [0]), buf_len := inp.length }

/-- The variables of the loop in `do_encrypt`. -/
structure Loop where
  enc_state : Vector Int8 256
  i : Fin 256
  j : Fin 256
  input_buf : List Int8

def encryptPass (l : Loop) (k : Nat) : Loop :=
  let i := mask (l.i.val + 1)
  let j := mask (l.j.val + l.enc_state[i].toInt)
  let tmp := l.enc_state[i]
  let enc_state := l.enc_state.set i.val l.enc_state[j]
  let enc_state := enc_state.set j.val tmp
  let tmp := enc_state[mask (enc_state[i].toInt + enc_state[j].toInt)]
  ⟨enc_state, i, j, l.input_buf.modify k (· ^^^ tmp)⟩

def do_encrypt (ws : Workspace) : Option Workspace :=
  if ws.buf_len = 0 then some ws
  else
    match ws.enc, ws.input_buf with
    | .enc_state s, some buf =>
      if ws.buf_len ≤ buf.length then
        let l := (List.range ws.buf_len).foldl encryptPass ⟨s, 0, 0, buf⟩
        some { ws with enc := .enc_state l.enc_state, input_buf := some l.input_buf }
      else none
    | _, _ => none

end CtfChallenges.Ripc4
