import CtfChallenges.Framework.Blocks

/-!
# The stream ciphers of decrypto-1 and decrypto-2

`Crypto` and `HashCrypto`, with SHA-256 for a parameter. The methods that `Crypto` defines are given
the methods of the object's class. The result `none` is an exception or a loop that has not ended.
-/

namespace CtfChallenges.Decrypto
open Framework Framework.Blocks

structure Crypto where
  key : List UInt8
  _buf : List UInt8
deriving DecidableEq, Repr

structure HashCrypto extends Crypto where
  _blk : List UInt8
  _blkid : Nat
deriving DecidableEq, Repr

/-- The access to `_buf` and the `_extend_buf` of a class. -/
structure Methods (S : Type) where
  buf : S → List UInt8
  set_buf : S → List UInt8 → S
  _extend_buf : S → Option S

def Crypto.methods : Methods Crypto where
  buf self := self._buf
  set_buf self buf := { self with _buf := buf }
  _extend_buf self := some { self with _buf := self._buf ++ self.key }

/-- `hashlib.sha256(data).digest()` -/
abbrev Sha256 := List UInt8 → { digest : List UInt8 // digest.length = 32 }

def HashCrypto.methods (sha256 : Sha256) : Methods HashCrypto where
  buf self := self._buf
  set_buf self buf := { self with _buf := buf }
  _extend_buf self := do
    let id ← packLow self._blkid
    let blk := (sha256 (self._blk ++ id)).1
    return { self with _blk := blk, _blkid := self._blkid + 1, _buf := self._buf ++ blk }

def Crypto.new (key : List UInt8) : Crypto := { key := key, _buf := [] }

def HashCrypto.new (key : List UInt8) : HashCrypto :=
  { key := key, _buf := [], _blk := key, _blkid := 0 }

variable {S : Type} (M : Methods S)

/-- `while len(self._buf) < nbytes: self._extend_buf()` -/
def extend_until (nbytes : Nat) : Nat → S → Option S
  | 0, _ => none
  | fuel + 1, self =>
    if (M.buf self).length < nbytes then do
      let self ← M._extend_buf self
      extend_until nbytes fuel self
    else some self

def get_bytes (fuel nbytes : Nat) (self : S) : Option (List UInt8 × S) := do
  let self ← extend_until M nbytes fuel self
  let buf := M.buf self
  return (buf.take nbytes, M.set_buf self (buf.drop nbytes))

def encrypt (fuel : Nat) (buf : List UInt8) (self : S) : Option (List UInt8 × S) := do
  let (stream, self) ← get_bytes M fuel buf.length self
  return (List.zipWith (· ^^^ ·) buf stream, self)

/-- Successive calls of `encrypt` on one object. -/
def encrypts (fuel : Nat) : List (List UInt8) → S → Option (List (List UInt8) × S)
  | [], self => some ([], self)
  | buf :: bufs, self => do
    let (out, self) ← encrypt M fuel buf self
    let (outs, self) ← encrypts fuel bufs self
    return (out :: outs, self)

end CtfChallenges.Decrypto
