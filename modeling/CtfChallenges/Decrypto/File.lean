import CtfChallenges.Framework.Cbc

/-!
# The encrypted files of decrypto-3

The encryption of `crypto.c` and `decrypt` of `solution.py`. AES-256, a permutation of the blocks
for every key, and HMAC-SHA256 are parameters. The result `none` is a write outside `outbuf` or the
use of a context that is not there.

Of the libraries this assumes what they document:
* OpenSSL, `EVP_EncryptUpdate` and `EVP_EncryptFinal_ex`: the calls together write the text, padded
  by PKCS #7, in cipher block chaining, and each writes the blocks that are complete by then
  (`Context.update`, `Context.final`);
* OpenSSL, `HMAC_Update` and `HMAC_Final`: the tag is that of all the data so far (`HMAC_Update`);
* PyCryptodome, `AES.MODE_CBC`: the chaining undone on complete blocks, and a `ValueError` for
  others (`aesCbcDecrypt`).
-/

namespace CtfChallenges.Decrypto
open Framework Framework.Cbc

def KEY_LEN : Nat := 32

def buf_size : Nat := 1024

abbrev Key := { k : List UInt8 // k.length = KEY_LEN }

/-- HMAC-SHA256 of a key and a message. -/
abbrev Hmac := List UInt8 → List UInt8 → { digest : List UInt8 // digest.length = 32 }

structure HMAC_CTX where
  key : List UInt8
  data : List UInt8

/-- The derived keys and the contexts. -/
structure key_data where
  crypt_key : Key
  mac_key : Key
  mac_ctx : Option HMAC_CTX
  cipher_ctx : Option (Context Key)

/-- Assumed of OpenSSL. -/
def HMAC_Update (ctx : HMAC_CTX) (data : List UInt8) : HMAC_CTX :=
  { ctx with data := ctx.data ++ data }

/-- Bytes that are written into a buffer from an offset on. -/
def write (buf : List UInt8) (offset : Nat) (bytes : List UInt8) : Option (List UInt8) :=
  if offset + bytes.length ≤ buf.length then
    some (buf.take offset ++ bytes ++ buf.drop (offset + bytes.length))
  else none

variable (aes : BlockCipher Key) (hmac : Hmac)

def setup_crypter (k : key_data) : key_data :=
  { k with mac_ctx := some ⟨k.mac_key.1, []⟩, cipher_ctx := some ⟨k.crypt_key, zero, []⟩ }

/-- With the contents of `outblock` and `*outlen` afterwards. -/
def encrypt_and_mac_data (k : key_data) (inblock outblock : List UInt8) :
    Option (key_data × List UInt8 × Nat) := do
  let cipher_ctx ← k.cipher_ctx
  let mac_ctx ← k.mac_ctx
  let (cipher_ctx, out) := cipher_ctx.update aes inblock
  let outblock ← write outblock 0 out
  let outlen := out.length
  let mac_ctx := HMAC_Update mac_ctx (outblock.take outlen)
  return ({ k with cipher_ctx := some cipher_ctx, mac_ctx := some mac_ctx }, outblock, outlen)

/-- The `*outlen` that it is called with only goes into `buflen`, which `HMAC_Final` sets anew. -/
def finalize_crypter (k : key_data) (outblock : List UInt8) :
    Option (key_data × List UInt8 × Nat) := do
  let cipher_ctx ← k.cipher_ctx
  let mac_ctx ← k.mac_ctx
  let totlen := 0
  let out := cipher_ctx.final aes
  let outblock ← write outblock 0 out
  let outlen := out.length
  let totlen := totlen + outlen
  let mac_ctx := HMAC_Update mac_ctx (outblock.take outlen)
  let tag := (hmac mac_ctx.key mac_ctx.data).1
  let outblock ← write outblock totlen tag
  let buflen := tag.length
  let outlen := outlen + buflen
  return ({ k with cipher_ctx := none, mac_ctx := none }, outblock, outlen)

/-- The loop for encryption on what successive calls of `fread` return, up to the end of the file or
a call that returns nothing. -/
def encryptLoop : List (List UInt8) → key_data → List UInt8 → List UInt8 →
    Option (key_data × List UInt8 × List UInt8)
  | [], k, outbuf, ofp => some (k, outbuf, ofp)
  | inbuf :: reads, k, outbuf, ofp =>
    if inbuf.length = 0 then some (k, outbuf, ofp)
    else do
      let (k, outbuf, out_size) ← encrypt_and_mac_data aes k inbuf outbuf
      encryptLoop reads k outbuf (ofp ++ outbuf.take out_size)

/-- What `main` writes to the output file, with what `malloc` has left in `outbuf`. -/
def encryptFile (k : key_data) (outbuf : List UInt8) (reads : List (List UInt8)) :
    Option (List UInt8) := do
  let (k, outbuf, ofp) ← encryptLoop aes reads (setup_crypter k) outbuf []
  let (_, outbuf, out_size) ← finalize_crypter aes hmac k outbuf
  return ofp ++ outbuf.take out_size

inductive Error
  | ValueError
  | IndexError
deriving DecidableEq, Repr

/-- `AES.new(key, AES.MODE_CBC, bytes(16)).decrypt(buf)`, as assumed of PyCryptodome. -/
def aesCbcDecrypt (key : Key) (buf : List UInt8) : Except Error (List UInt8) :=
  if buf.length % 16 ≠ 0 then .error .ValueError
  else .ok (join (cbcDecrypt (aes.dec key) zero (chop buf).1))

/-- `xs[:-n]` -/
def dropEnd (xs : List UInt8) (n : Nat) : List UInt8 :=
  if n = 0 then [] else xs.take (xs.length - n)

/-- Nothing is returned when the signature does not match. -/
def decrypt (buf : List UInt8) (key : Key) (mac_key : List UInt8) :
    Except Error (Option (List UInt8)) := do
  let sig := buf.drop (buf.length - 32)
  let buf := dropEnd buf 32
  let expected := (hmac mac_key buf).1
  if expected ≠ sig then return none
  let ptext ← aesCbcDecrypt aes key buf
  match ptext.getLast? with
  | none => .error .IndexError
  | some n => return some (dropEnd ptext n.toNat)

end CtfChallenges.Decrypto
