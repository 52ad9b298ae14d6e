import CtfChallenges.Framework.Ascii
import CtfChallenges.Framework.BaseCodec
import CtfChallenges.Framework.Text
import CtfChallenges.Framework.UniqueCode

/-!
# The encoder of Mini-Matroyshka

`encoder.py`: four encodings of its own and those of the library, one after the other. An encoding
that raises an error has no value.
-/

namespace CtfChallenges.Matroyshka
open Framework UniqueCode
open Hex (digit upperDigit)

abbrev Bytes := List UInt8

def MORSE_CODE_DICT : List (List Char × String) := [
  (['A'], ".-"), (['B'], "-..."),
  (['C'], "-.-."), (['D'], "-.."), (['E'], "."),
  (['F'], "..-."), (['G'], "--."), (['H'], "...."),
  (['I'], ".."), (['J'], ".---"), (['K'], "-.-"),
  (['L'], ".-.."), (['M'], "--"), (['N'], "-."),
  (['O'], "---"), (['P'], ".--."), (['Q'], "--.-"),
  (['R'], ".-."), (['S'], "..."), (['T'], "-"),
  (['U'], "..-"), (['V'], "...-"), (['W'], ".--"),
  (['X'], "-..-"), (['Y'], "-.--"), (['Z'], "--.."),
  (['1'], ".----"), (['2'], "..---"), (['3'], "...--"),
  (['4'], "....-"), (['5'], "....."), (['6'], "-...."),
  (['7'], "--..."), (['8'], "---.."), (['9'], "----."),
  (['0'], "-----"), ([',', ' '], "--..--"), (['.'], ".-.-.-"),
  (['?'], "..--.."), (['/'], "-..-."), (['-'], "-....-"),
  (['('], "-.--."), ([')'], "-.--.-"), (['='], "-...-")]

/-- `MORSE_CODE_DICT[chr(c)]` -/
def morse (c : UInt8) : Option Bytes := (MORSE_CODE_DICT.lookup [Char.ofNat c.toNat]).map ascii

def morse_encode (s : Bytes) : Option Bytes := (s.mapM morse).map ([0x20].intercalate ·)

/-- `b'%d' % c` -/
def decimal (c : UInt8) : Bytes :=
  let c := c.toNat
  if c < 10 then [digit c]
  else if c < 100 then [digit (c / 10), digit (c % 10)]
  else [digit (c / 100), digit (c / 10 % 10), digit (c % 10)]

/-- `b'%02x' % c` -/
def hex (c : UInt8) : Bytes := [digit (c.toNat / 16), digit (c.toNat % 16)]

/-- `b'o%03o' % c` -/
def oct (c : UInt8) : Bytes :=
  [0x6f, digit (c.toNat / 64), digit (c.toNat / 8 % 8), digit (c.toNat % 8)]

def decimal_bytes (s : Bytes) : Bytes := joined [0x20] decimal s

def hex_bytes (s : Bytes) : Bytes := joined [0x2c, 0x20] hex s

def oct_bytes (s : Bytes) : Bytes := joined [0x2c, 0x20] oct s

/-- `_ALWAYS_SAFE` of `urllib.parse` -/
def alwaysSafe (c : UInt8) : Bool :=
  (0x41 ≤ c && c ≤ 0x5a) || (0x61 ≤ c && c ≤ 0x7a) || (0x30 ≤ c && c ≤ 0x39) || c == 0x5f ||
    c == 0x2e || c == 0x2d || c == 0x7e

/-- What `quote_plus` makes of a byte. -/
def quoted (c : UInt8) : Bytes :=
  if alwaysSafe c then [c]
  else if c = 0x20 then [0x2b]
  else [0x25, upperDigit (c.toNat / 16), upperDigit (c.toNat % 16)]

/-- `quote_plus` works on the bytes of the text. -/
def urlencode (s : Bytes) : Option Bytes :=
  (Text.fromUtf8 s).map fun text => (Text.asBytes text).flatMap quoted

/-- `gzip.compress` writes the time of the call into its output. -/
structure Gzip where
  Time : Type
  compress : Time → Bytes → Bytes
  decompress : Bytes → Option Bytes
  decompress_compress : ∀ time s, decompress (compress time s) = some s

inductive Encoding
  | b16encode | b32encode | b64encode | b85encode
  | compress
  | morse_encode | decimal_bytes | hex_bytes | oct_bytes | urlencode
  deriving DecidableEq, Repr

open BaseCodec in
def Encoding.call (gzip : Gzip) (time : gzip.Time) : Encoding → Bytes → Option Bytes
  | .b16encode, s => some (encode b16 s)
  | .b32encode, s => some (encode b32 s)
  | .b64encode, s => some (encode b64 s)
  | .b85encode, s => some (encode b85 s)
  | .compress, s => some (gzip.compress time s)
  | .morse_encode, s => Matroyshka.morse_encode s
  | .decimal_bytes, s => some (Matroyshka.decimal_bytes s)
  | .hex_bytes, s => some (Matroyshka.hex_bytes s)
  | .oct_bytes, s => some (Matroyshka.oct_bytes s)
  | .urlencode, s => Matroyshka.urlencode s

def STACK : List Encoding := [
  .b32encode,
  .morse_encode,
  .b85encode,
  .decimal_bytes,
  .b16encode,
  .b64encode,
  .compress,
  .b85encode,
  .b64encode,
  .b32encode,
  .morse_encode,
  .b64encode,
  .compress,
  .b64encode,
  .decimal_bytes,
  .b85encode,
  .urlencode,
  .b64encode,
  .hex_bytes,
  .b64encode,
  .compress,
  .b64encode,
  .oct_bytes,
  .b16encode,
  .compress,
  .b16encode,
  .compress,
  .b64encode,
  .compress,
  .b16encode,
  .b32encode,
  .compress,
  .b64encode,
  .compress,
  .b16encode,
  .compress,
  .b64encode,
  .b64encode,
  .b64encode]

/-- `bytes.strip` -/
def strip (s : Bytes) : Bytes := (s.dropWhile isspace).rdropWhile isspace

/-- The loop of `main`, with the time of each pass. -/
def encodeAll (gzip : Gzip) (times : Nat → gzip.Time) (stack : List Encoding) (buf : Bytes) :
    Option Bytes :=
  stack.zipIdx.foldlM (fun buf (s, i) => s.call gzip (times i) buf) buf

/-- What `main` prints for the contents of a file. -/
def main (gzip : Gzip) (times : Nat → gzip.Time) (contents : Bytes) : Option Bytes :=
  encodeAll gzip times STACK (strip contents)

end CtfChallenges.Matroyshka
