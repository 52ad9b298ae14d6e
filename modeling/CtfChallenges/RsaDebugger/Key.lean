import CtfChallenges.Framework.BigInt

/-!
# The key of the RSA debugger

Each command takes the tokens of its line and the key, and returns what it prints with the new
key. The value -1 marks a parameter as unset. A command can unset parameters and fail later.
-/

namespace CtfChallenges.RsaDebugger
open Framework BigInt

@[ext] structure Key where
  p : Int
  q : Int
  n : Int
  e : Int
  d : Int
  deriving DecidableEq, Repr

/-- The key at the start of `main`. -/
def Key.unset : Key := ⟨-1, -1, -1, -1, -1⟩

def reset_key (_ : Key) : Key := Key.unset

/-- The first part of `set_p`: a new `p` invalidates everything derived from the old one. -/
def unset_for_p (k : Key) : List String × Key :=
  if k.q ≠ -1 then
    (["Unsetting q, n, e, d\n"], { k with q := -1, n := -1, e := -1, d := -1 })
  else ([], k)

def set_p (t : List (List UInt8)) (k : Key) : List String × Key :=
  match t with
  | [_, arg] =>
    let (out, k) := unset_for_p k
    let (p, ok) := setString arg 10
    if !ok then (out ++ ["Error: could not parse numerical argument to setp!\n"], k)
    else if !probablyPrime p then (out ++ ["Error: the argument to setp must be prime!\n"], k)
    else (out, { k with p := p })
  | _ => (["Error: setp must have exactly one argument!\n"], k)

def unset_for_q (k : Key) : List String × Key :=
  if k.q ≠ -1 then (["Unsetting e, d\n"], { k with e := -1, d := -1 }) else ([], k)

def set_q (t : List (List UInt8)) (k : Key) : List String × Key :=
  match t with
  | [_, arg] =>
    if k.p = -1 then (["Error: p must be set first!\n"], k)
    else
      let (out, k) := unset_for_q k
      let (q, ok) := setString arg 10
      if !ok then (out ++ ["Error: could not parse numerical argument to setq!\n"], k)
      else if !probablyPrime q then (out ++ ["Error: the argument to setq must be prime!\n"], k)
      else if BigInt.gcd q k.p ≠ 1 then (out ++ ["Error: p and q must be co-prime!\n"], k)
      else (out, { k with q := q, n := k.p * q })
  | _ => (["Error: setq must have exactly one argument!\n"], k)

def unset_for_e (k : Key) : List String × Key :=
  if k.e ≠ -1 then (["Unsetting previous e, d\n"], { k with e := -1, d := -1 }) else ([], k)

def set_e (t : List (List UInt8)) (k : Key) : List String × Key :=
  match t with
  | [_, arg] =>
    if k.p = -1 then (["Error: p (and q) must be set before e!\n"], k)
    else if k.q = -1 then (["Error: q must be set before e\n"], k)
    else
      let (out, k) := unset_for_e k
      let (e, ok) := setString arg 10
      let pm1 := k.p + -1
      let qm1 := k.q + -1
      let etot := pm1 * qm1
      if !ok then (out ++ ["Error: could not parse numerical argument to sete!\n"], k)
      else if BigInt.gcd e pm1 ≠ 1 then (out ++ ["Error: e must be co-prime to p - 1!\n"], k)
      else if BigInt.gcd e qm1 ≠ 1 then (out ++ ["Error: e must be co-prime to q - 1!\n"], k)
      else if e ≥ etot then (out ++ ["Error: e must be less than (p - 1) * (q - 1)!\n"], k)
      else
        -- the receiver is never nil, and keeps its zero when there is no inverse
        let d := (modInverse e etot).getD 0
        (out, { k with e := e, d := d })
  | _ => (["Error: sete must have exactly one argument!\n"], k)

/-- The commands that touch the key; each carries the tokens of its line. -/
inductive Command
  | setp (t : List (List UInt8))
  | setq (t : List (List UInt8))
  | sete (t : List (List UInt8))
  | resetkey
  deriving DecidableEq, Repr

def execute (k : Key) : Command → List String × Key
  | .setp t => set_p t k
  | .setq t => set_q t k
  | .sete t => set_e t k
  | .resetkey => (["Key parameters reset.\n"], reset_key k)

/-- The key after a list of commands. -/
def keyAfter (cs : List Command) : Key := cs.foldl (fun k c => (execute k c).2) Key.unset

def decrypt_msg (k : Key) (curMsg : Int) : List String × Option Int :=
  if k.d = -1 then (["Error: key not fully set!"], none)
  else if curMsg = -1 then (["Error: no message held for decryption!"], none)
  else ([], some ((exp curMsg k.d k.n).getD 0))

end CtfChallenges.RsaDebugger
