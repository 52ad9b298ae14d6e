import CtfChallenges.Framework.Blocks
import CtfChallenges.Framework.Text

/-!
# Chaffing of the haystack messages

`chaffing.py`, with HMAC-SHA256 for a parameter. The answers of `random` while one byte is chaffed
are given by `Draws`.
-/

namespace CtfChallenges.Haystack
open Framework Framework.Blocks

def CHAFF_SIZE : Nat := 32

def SIG_SIZE : Nat := 16

def ALL_BYTES : List UInt8 := (List.range 256).map UInt8.ofNat

inductive Error
  | ValueError (msg : String)
  | IndexError
  | struct_error
deriving DecidableEq, Repr

/-- What `hmac.new(key, val, digestmod=hashlib.sha256).digest()` returns for a key and a value. -/
abbrev Hmac := List UInt8 → List UInt8 → { digest : List UInt8 // digest.length = 32 }

/-- A `str` without lone surrogates, or `bytes`. -/
inductive Val
  | bytes (val : List UInt8)
  | str (val : List Char)

/-- The bytes of a value once `val.encode('utf-8')` has been done where it is needed. -/
def Val.encode : Val → List UInt8
  | bytes val => val
  | str val => Text.asBytes val

@[simp] theorem Val.encode_bytes (val : List UInt8) : (Val.bytes val).encode = val := rfl

/-- The answers of `random.choice` and `random.choices` by the number of records there are, and of
`random.shuffle`. -/
structure Draws where
  choice : Nat → (vals : List UInt8) → vals ≠ [] → { c : UInt8 // c ∈ vals }
  fake_sig : Nat → { sig : List UInt8 // sig.length = SIG_SIZE }
  shuffle : (pieces : List (List UInt8)) → { ps : List (List UInt8) // ps.Perm pieces }

abbrev Msgs := List (UInt8 × List UInt8)

/-- `msgs[c] = sig`: the last entry unless the key is there. -/
def setItem (msgs : Msgs) (c : UInt8) (sig : List UInt8) : Msgs :=
  if c ∈ msgs.map Prod.fst then msgs.map fun p => if p.1 = c then (c, sig) else p
  else msgs ++ [(c, sig)]

theorem setItem_of_not_mem {msgs : Msgs} {c : UInt8} (h : c ∉ msgs.map Prod.fst)
    (sig : List UInt8) : setItem msgs c sig = msgs ++ [(c, sig)] :=
  if_neg h

/-- `list(ALL_BYTES - set(msgs.keys()))` -/
def unused (msgs : Msgs) : List UInt8 := ALL_BYTES.filter fun c => c ∉ msgs.map Prod.fst

theorem not_mem_of_mem_unused {msgs : Msgs} {c : UInt8} (h : c ∈ unused msgs) :
    c ∉ msgs.map Prod.fst :=
  of_decide_eq_true (List.mem_filter.mp h).2

variable (hmac : Hmac)

def sign_byte (val key : List UInt8) : List UInt8 := (hmac key val).1.take SIG_SIZE

/-- `while len(msgs) < CHAFF_SIZE`. In `c == val` an int is compared with bytes, which are never
equal, so that nothing is raised there. -/
def addChaff (draws : Draws) (msgs : Msgs) : Except Error Msgs :=
  if CHAFF_SIZE ≤ msgs.length then .ok msgs
  else if h : unused msgs = [] then .error .IndexError
  else
    let c := draws.choice msgs.length (unused msgs) h
    addChaff draws (setItem msgs c.1 (draws.fake_sig msgs.length).1)
termination_by CHAFF_SIZE - msgs.length
decreasing_by
  rw [setItem_of_not_mem (not_mem_of_mem_unused c.2), List.length_append, List.length_singleton]
  omega

/-- The dictionary that `chaff_byte` fills. -/
def chaffMsgs (val key : List UInt8) (draws : Draws) : Except Error Msgs :=
  match val[0]? with
  | none => .error .IndexError
  | some v => addChaff draws (setItem [] v (sign_byte hmac val key))

/-- `b'%s%s' % (byte(k), v)` -/
def piece (p : UInt8 × List UInt8) : List UInt8 := p.1 :: p.2

def chaff_byte (val key : List UInt8) (draws : Draws) : Except Error (List UInt8) := do
  let msgs ← chaffMsgs hmac val key draws
  return (draws.shuffle (msgs.map piece)).1.flatten

/-- The draws are those for the byte with the index. -/
def chaff_msg (val : Val) (key : List UInt8) (draws : Nat → Draws) : Except Error (List UInt8) := do
  let val := val.encode
  let msg_out ← val.zipIdx.mapM fun b => chaff_byte hmac [b.1] key (draws b.2)
  match pack val.length with
  | none => .error .struct_error
  | some header => return header ++ msg_out.flatten

def winnow_byte (key : List UInt8) : List UInt8 → Except Error (List UInt8)
  | [] => .error (.ValueError "No valid sig found!")
  | c :: val =>
    if sign_byte hmac [c] key = val.take SIG_SIZE then .ok [c]
    else winnow_byte key (val.drop SIG_SIZE)
termination_by val => val.length
decreasing_by
  rw [List.length_drop, List.length_cons]
  omega

def winnow_msg (val : Val) (key : List UInt8) : Except Error (List UInt8) := do
  let val := val.encode
  match unpack (val.take 4) with
  | none => .error .struct_error
  | some msglen =>
    let val := val.drop 4
    let chunk_len := (SIG_SIZE + 1) * CHAFF_SIZE
    let expected_len := chunk_len * msglen
    if val.length ≠ expected_len then
      .error (.ValueError s!"Expected length {expected_len}, saw {val.length}.")
    else
      let pieces ← (List.range msglen).mapM fun c =>
        winnow_byte hmac key (slice val (chunk_len * c) (chunk_len * (c + 1)))
      return pieces.flatten

end CtfChallenges.Haystack
