import CtfChallenges.Framework.AddressSpace
import CtfChallenges.Hashpop.Base64
import CtfChallenges.Hashpop.Parsing
import CtfChallenges.Hashpop.Request

/-!
# The function that hashpop calls

`main` of `hashpop.c` behind the reading of the request. The digest goes into sixteen bytes with the
pointer of the printer behind them, and then more of the heap. The hash functions are those of
libcrypto, and the printers lie at addresses that the linker chose.
-/

namespace CtfChallenges.Hashpop
open Framework CString AddressSpace

def HASH_SIZE : Nat := 128 / 8

inductive Hash
  | md5
  | sha1
  | sha256
  | sha512
deriving DecidableEq

/-- The size of the digest. -/
def Hash.size : Hash → Nat
  | md5 => 128 / 8
  | sha1 => 160 / 8
  | sha256 => 256 / 8
  | sha512 => 512 / 8

/-- The two arguments of `choose`. -/
def Hash.names : Hash → List UInt8 × List UInt8
  | md5 => (ascii "md5", ascii "MD5")
  | sha1 => (ascii "sha1", ascii "SHA1")
  | sha256 => (ascii "sha256", ascii "SHA256")
  | sha512 => (ascii "sha512", ascii "SHA512")

/-- `EVP_Digest…` for each hash. -/
abbrev Digests := (h : Hash) → List UInt8 → Vector UInt8 h.size

/-- The functions of `print_func` and `print_b64_func`. -/
inductive Printer
  | hex (h : Hash)
  | b64 (h : Hash)
deriving DecidableEq

/-- A pointer from before the request: `NULL`, or one to a string of the program. -/
abbrev Old := Option (List UInt8)

/-- `h` as `main` fills it before it parses. `malloc` left something for the input. -/
def initial (input : Old) (input_len : Nat) : HashRunner Old :=
  ⟨input, input_len, some (ascii "md5"), some (ascii "hex")⟩

/-- The string behind a pointer. -/
def text (mem : Mem) : Old ⊕ Nat → Option (List UInt8)
  | .inl old => old
  | .inr p => cstr mem p

/-- The string behind a pointer that may be `NULL`. -/
def format (mem : Mem) : Old ⊕ Nat → Option Old
  | .inl old => some old
  | .inr p => (cstr mem p).map some

/-- The choice of a hash and a printer by the macro `choose`, tried in this order. -/
def choose (hash_name : List UInt8) (op_format : Old) : List Hash → Option (Hash × Printer)
  | [] => none
  | h :: hs =>
    if hash_name = h.names.1 ∨ hash_name = h.names.2 then
      if op_format = some (ascii "base64") ∨ op_format = some (ascii "b64") then some (h, .b64 h)
      else some (h, .hex h)
    else choose hash_name op_format hs

def set_hash_and_printer (hash_name : List UInt8) (op_format : Old) : Option (Hash × Printer) :=
  choose hash_name op_format [.md5, .sha1, .sha256, .sha512]

/-- The bytes that are hashed. -/
def inputBytes (mem : Mem) (runner : HashRunner (Old ⊕ Nat)) : Option (List UInt8) :=
  match runner.input with
  | .inl _ => none
  | .inr p => if p + runner.input_len ≤ mem.length then some ((mem.drop p).take runner.input_len) else none

/-- The heap from `output` on: the digest's place, the pointer and what is behind the runner, where
the buffer of the request lies. -/
structure Region where
  output : Vector UInt8 HASH_SIZE
  behind : List UInt8
  room : Hash.sha512.size ≤ HASH_SIZE + 4 + behind.length

def Region.bytes (r : Region) (print_func : UInt32) : Mem :=
  r.output.toList ++ leBytes 4 print_func.toNat ++ r.behind

/-- How the program ends. -/
inductive Ending
  | exited (status : Nat)
  /-- What has been printed, the address that is called, and the bytes from `output` on. -/
  | called (printed : List String) (address : Nat) (output : Mem)

/-- `print_header` -/
def header : String := "Content-type: text/plain\r\n\r\n"

/-- `main` behind `parse_request`. There is no value where the program leaves its blocks. -/
def respond (digests : Digests) (address : Printer → UInt32) (r : Region) (st : Parsing Old) :
    Option Ending :=
  -- `validate_request`
  if st.runner.input = .inl none then some (.exited 1)
  else do
    let hash_name ← text st.mem st.runner.hash_name
    let op_format ← format st.mem st.runner.op_format
    match set_hash_and_printer hash_name op_format with
    | none => return .exited 1
    | some (hash, print_func) =>
      let input ← inputBytes st.mem st.runner
      let region := r.bytes (address print_func)
      -- `EVP_DigestFinal_ex`
      if region.length < hash.size then none
      else
        let region := overwrite region 0 (digests hash input).toList
        return .called (st.printed ++ [header]) (ofLe ((region.drop HASH_SIZE).take 4)) region

/-- `main` -/
def main (digests : Digests) (address : Printer → UInt32) (r : Region) (calloc : Option Fields)
    (h : HashRunner Old) (buf : Vector UInt8 BUF_SIZE) (stdin : List UInt8) : Option Ending :=
  match readRequest buf stdin with
  | none => none
  | some (.exited status) => some (.exited status)
  | some (.request mem) =>
    match parse_request calloc h mem with
    | none => none
    | some (rv, st) => if rv ≠ 0 then some (.exited rv) else respond digests address r st

/-- What a printer prints of the bytes from `output` on. -/
def Printer.print (malloc : (n : Nat) → Option (Vector UInt8 n)) (output : Mem) :
    Printer → Option (List UInt8)
  | hex h => some (Hex.encode (output.take h.size) ++ [Base64.newline])
  | b64 h => do
    let (mem, _) ← ← Base64.base64_encode 4294967296 malloc (output.take h.size)
    let encoded ← cstr mem 0
    return encoded ++ [Base64.newline]

/-- The string of a field, or what it is without the field. -/
def stringOf (default : List UInt8) (v : Option (List UInt8)) : List UInt8 :=
  v.elim default (·.takeWhile (· ≠ 0))

section
variable {mem : Mem} {q : Old ⊕ Nat} {default : List UInt8} {v : Option (List UInt8)}

theorem cstr_of_prefix {p : Nat} {v : List UInt8} (h : v ++ [0] <+: mem.drop p) :
    cstr mem p = some (v.takeWhile (· ≠ 0)) := by
  obtain ⟨rest, hrest⟩ := h
  rw [List.append_assoc, List.singleton_append] at hrest
  exact cstr_of_drop hrest.symm

theorem text_of_pointsTo (h : PointsTo mem (some default) q v) :
    text mem q = some (stringOf default v) := by
  cases v with
  | none =>
    rw [PointsTo] at h
    rw [h]
    rfl
  | some v =>
    obtain ⟨p, rfl, hv⟩ := h
    exact cstr_of_prefix hv

theorem format_of_pointsTo (h : PointsTo mem (some default) q v) :
    format mem q = some (some (stringOf default v)) := by
  cases v with
  | none =>
    rw [PointsTo] at h
    rw [h]
    rfl
  | some v =>
    obtain ⟨p, rfl, hv⟩ := h
    rw [format, cstr_of_prefix hv]
    rfl

theorem inputBytes_of_pointsTo {runner : HashRunner (Old ⊕ Nat)} {old : Old} {v : List UInt8}
    (h : PointsTo mem old runner.input (some v)) (hlen : runner.input_len = v.length) :
    inputBytes mem runner = some v ∧ runner.input ≠ .inl none := by
  obtain ⟨p, hp, rest, hrest⟩ := h
  have hlength := congrArg List.length hrest
  simp only [List.length_append, List.length_singleton, List.length_drop] at hlength
  have hroom : p + v.length ≤ mem.length := by omega
  rw [inputBytes, hp, hlen]
  simp only [if_pos hroom, ← hrest, List.append_assoc, List.take_left', ne_eq, reduceCtorEq,
    not_false_eq_true, and_self]

end

/-- The pointer is left alone by a digest that has room, and is a part of any longer one. -/
theorem pointer_of_overwrite (r : Region) (address : UInt32) {digest : List UInt8}
    (hsize : digest.length = HASH_SIZE ∨ HASH_SIZE + 4 ≤ digest.length) :
    ofLe (((overwrite (r.bytes address) 0 digest).drop HASH_SIZE).take 4) =
      if digest.length = HASH_SIZE then address.toNat else ofLe ((digest.drop HASH_SIZE).take 4) := by
  have houtput : r.output.toList.length = HASH_SIZE := Vector.length_toList
  have hwhole : overwrite (r.bytes address) 0 digest = digest ++ (r.bytes address).drop digest.length := by
    simp [overwrite]
  rw [hwhole]
  split_ifs with hfits
  · rw [List.drop_left' hfits, hfits, Region.bytes, List.append_assoc, List.drop_left' houtput,
      List.take_left' (length_leBytes 4 _), ofLe_leBytes]
    exact Nat.mod_eq_of_lt address.toNat_lt
  · rw [List.drop_append_of_le_length (by omega), List.take_append_of_le_length]
    rw [List.length_drop]
    omega

theorem choose_printer {name : List UInt8} {format : Old} {hs : List Hash} {h : Hash} {p : Printer}
    (hchoice : choose name format hs = some (h, p)) : p = .hex h ∨ p = .b64 h := by
  induction hs with
  | nil => cases hchoice
  | cons g hs ih =>
    rw [choose] at hchoice
    split_ifs at hchoice
    · cases hchoice
      exact .inr rfl
    · cases hchoice
      exact .inl rfl
    · exact ih hchoice

/-- A request that is read and parsed as its fields say. -/
structure WellFormed (stdin : List UInt8) (fs : List (List UInt8)) : Prop where
  ne_nil : stdin ≠ []
  short : stdin.length < BUF_SIZE
  clean : ∀ c ∈ stripped stdin, c ≠ 0 ∧ isLineEnd c = false
  body : Body fs (stripped stdin)
  fits : FormFits (stripped stdin) fs
  few : fs.length ≤ MAX_FIELDS

/-- What a form asks for: the hash and the printer. -/
def asked (fs : List (List UInt8)) : Option (Hash × Printer) :=
  set_hash_and_printer (stringOf (ascii "md5") (valueOf (ascii "hash") fs))
    (some (stringOf (ascii "hex") (valueOf (ascii "output") fs)))

theorem readRequest_wellFormed (buf : Vector UInt8 BUF_SIZE) {stdin : List UInt8}
    {fs : List (List UInt8)} (h : WellFormed stdin fs) :
    ∃ mem, readRequest buf stdin = some (.request mem) ∧ StringAt mem 0 (stripped stdin) := by
  have hreads : ReadsInput buf stdin := (readsInput_iff buf stdin).mpr ⟨h.short, h.clean⟩
  obtain ⟨mem, -, hread⟩ := readRequest_eq buf h.ne_nil h.short
  rw [ReadsInput, hread] at hreads
  exact ⟨_, hread, hreads⟩

theorem hash_size_le (h : Hash) : h.size ≤ 64 ∧ (h = .md5 ↔ h.size = HASH_SIZE) ∧
    (h.size = HASH_SIZE ∨ HASH_SIZE + 4 ≤ h.size) := by
  cases h <;> decide

theorem respond_eq (digests : Digests) (address : Printer → UInt32) (r : Region)
    {st : Parsing Old} {name : List UInt8} {op : Old} {hash : Hash} {p : Printer} {v : List UInt8}
    (hname : text st.mem st.runner.hash_name = some name)
    (hop : format st.mem st.runner.op_format = some op)
    (hchoice : set_hash_and_printer name op = some (hash, p))
    (hinput : inputBytes st.mem st.runner = some v) (hset : st.runner.input ≠ .inl none) :
    ∃ output, respond digests address r st = some (.called (st.printed ++ [header])
        (if hash = .md5 then (address p).toNat else
          ofLe (((digests hash v).toList.drop HASH_SIZE).take 4)) output) ∧
      output.take hash.size = (digests hash v).toList := by
  obtain ⟨hle, hmd5, hsize⟩ := hash_size_le hash
  have hdigest : (digests hash v).toList.length = hash.size := Vector.length_toList
  have hregion : ¬ (r.bytes (address p)).length < hash.size := by
    have hroom := r.room
    have hlarge : Hash.sha512.size = 64 := rfl
    simp only [Region.bytes, List.length_append, Vector.length_toList, length_leBytes]
    omega
  rw [← hdigest] at hsize
  have hpointer := pointer_of_overwrite r (address p) hsize
  rw [hdigest] at hpointer
  refine ⟨overwrite (r.bytes (address p)) 0 (digests hash v).toList, ?_, ?_⟩
  · simp [respond, hset, hname, hop, hchoice, hinput, hregion, hpointer, hmd5]
  · simp [overwrite, hdigest]

/-- What becomes of a request: the digest of the input stands at `output`, and the function that is
called is the printer for MD5, and what a part of the digest leads to for the longer digests. -/
theorem main_called (digests : Digests) (address : Printer → UInt32) (r : Region) (input : Old)
    (input_len : Nat) (buf : Vector UInt8 BUF_SIZE) {stdin : List UInt8} {fs : List (List UInt8)}
    (h : WellFormed stdin fs) {hash : Hash} {p : Printer} (hasked : asked fs = some (hash, p))
    {v : List UInt8} (hv : valueOf (ascii "input") fs = some v) :
    ∃ printed output,
      main digests address r (some .cleared) (initial input input_len) buf stdin =
        some (.called printed (if hash = .md5 then (address p).toNat else
          ofLe (((digests hash v).toList.drop HASH_SIZE).take 4)) output) ∧
      output.take hash.size = (digests hash v).toList := by
  obtain ⟨mem, hread, hstring⟩ := readRequest_wellFormed buf h
  obtain ⟨rv, form, hparse, hfields, -⟩ := h.fits.parsesForm (initial input input_len) h.body hstring
  obtain ⟨rfl, houtput, hhash, hinput, hlen⟩ := hfields h.few
  rw [hv] at hinput hlen
  obtain ⟨hbytes, hset⟩ := inputBytes_of_pointsTo hinput (by simpa using hlen)
  obtain ⟨output, hrespond, htake⟩ := respond_eq digests address r (text_of_pointsTo hhash)
    (format_of_pointsTo houtput) hasked hbytes hset
  refine ⟨form.printed ++ [header], output, ?_, htake⟩
  simp only [main, hread, hparse, hrespond, ne_eq, not_true_eq_false, if_false]

/-- The bytes that `QueryEscape` leaves as they are. -/
def unreserved (c : UInt8) : Bool :=
  (0x30 ≤ c && c ≤ 0x39) || (0x41 ≤ c && c ≤ 0x5a) || (0x61 ≤ c && c ≤ 0x7a) ||
    c = 0x2d || c = 0x5f || c = 0x2e || c = 0x7e

def queryEscapeByte (c : UInt8) : List UInt8 :=
  if c = 0x20 then [0x2b]
  else if unreserved c then [c]
  else [0x25, Hex.upperDigit (c.toNat / 16), Hex.upperDigit (c.toNat % 16)]

/-- `url.QueryEscape` -/
def queryEscape (s : List UInt8) : List UInt8 := s.flatMap queryEscapeByte

/-- The body that `http.PostForm` makes of the values, with the keys in their order. -/
def encodeValues (vals : List (List UInt8 × List UInt8)) : List UInt8 :=
  (vals.map fun (k, v) => queryEscape k ++ equals :: queryEscape v).intersperse [ampersand] |>.flatten

/-- What `sendTestCase` sends. -/
def sendTestCase (buf : List UInt8) : List UInt8 :=
  encodeValues [(ascii "hash", ascii "sha256"), (ascii "input", buf)]

def HASH_OFFSET : Nat := 16

def targets : List UInt32 := [0x0804ab40, 0x0804ac60, 0x0804abd0]

def targetBytes : List (List UInt8) := targets.map fun t => leBytes 4 t.toNat

def hashMatches (buf : List UInt8) : Bool :=
  targetBytes.any fun v => v = (buf.drop HASH_OFFSET).take 4

private theorem byte_of_forall_lt' {P : UInt8 → Prop} (h : ∀ i < 256, P (UInt8.ofNat i)) (c : UInt8) :
    P c := by
  rw [← UInt8.ofNat_toNat (x := c)]
  exact h c.toNat c.toNat_lt

/-- No byte that has a meaning in the form or ends a line is written. -/
def Plain (c : UInt8) : Prop := c ≠ ampersand ∧ c ≠ equals ∧ c ≠ 0 ∧ isLineEnd c = false

instance (c : UInt8) : Decidable (Plain c) := inferInstanceAs (Decidable (_ ∧ _ ∧ _ ∧ _))

theorem queryEscapeByte_plain (c : UInt8) : ∀ x ∈ queryEscapeByte c, Plain x := by
  have hall : (queryEscapeByte c).all (fun x => decide (Plain x)) = true :=
    byte_of_forall_lt' (P := fun c => (queryEscapeByte c).all (fun x => decide (Plain x)) = true)
      (by decide +kernel) c
  simpa using hall

theorem queryEscape_plain (s : List UInt8) : ∀ x ∈ queryEscape s, Plain x := by
  intro x hx
  obtain ⟨c, -, hc⟩ := List.mem_flatMap.mp hx
  exact queryEscapeByte_plain c x hc

theorem unreserved_literal (c : UInt8) (h : unreserved c = true) : c ≠ 0x25 ∧ c ≠ 0x2b ∧ c ≠ 0 :=
  byte_of_forall_lt' (P := fun c => unreserved c = true → c ≠ 0x25 ∧ c ≠ 0x2b ∧ c ≠ 0)
    (by decide +kernel) c h

theorem encodes_queryEscape (s : List UInt8) : Encodes (queryEscape s) s := by
  induction s with
  | nil => exact .nil
  | cons c s ih =>
    rw [queryEscape, List.flatMap_cons, ← queryEscape, queryEscapeByte]
    split_ifs with hspace hplain
    · rw [hspace]
      exact .plus ih
    · obtain ⟨hpercent, hplus, hnul⟩ := unreserved_literal c hplain
      exact .literal hpercent hplus hnul ih
    · have hc := c.toNat_lt
      have hescape := Encodes.escape (Hex.fromHexChar_upperDigit (c.toNat / 16) (by omega))
        (Hex.fromHexChar_upperDigit (c.toNat % 16) (by omega)) ih
      rw [show 16 * (c.toNat / 16) + c.toNat % 16 = c.toNat by omega, UInt8.ofNat_toNat] at hescape
      exact hescape

/-- The fields of the request. -/
def testFields (buf : List UInt8) : List (List UInt8) :=
  [ascii "hash=sha256", ascii "input=" ++ queryEscape buf]

theorem sendTestCase_eq (buf : List UInt8) :
    sendTestCase buf = ascii "hash=sha256" ++ ampersand :: (ascii "input=" ++ queryEscape buf) := by
  have hhash : queryEscape (ascii "hash") ++ equals :: queryEscape (ascii "sha256") =
      ascii "hash=sha256" := by decide +kernel
  have hinput : queryEscape (ascii "input") ++ equals :: queryEscape buf =
      ascii "input=" ++ queryEscape buf := by
    rw [show queryEscape (ascii "input") = ascii "input" by decide +kernel,
      show ascii "input=" = ascii "input" ++ [equals] by decide, List.append_assoc,
      List.singleton_append]
  simp [sendTestCase, encodeValues, hhash, hinput]

theorem length_queryEscape (s : List UInt8) : (queryEscape s).length ≤ 3 * s.length := by
  induction s with
  | nil => decide
  | cons c s ih =>
    have hbyte : (queryEscapeByte c).length ≤ 3 := by
      unfold queryEscapeByte
      split_ifs <;> simp
    rw [queryEscape, List.flatMap_cons, ← queryEscape, List.length_append, List.length_cons]
    omega

theorem sendTestCase_plain (buf : List UInt8) :
    ∀ x ∈ sendTestCase buf, x ≠ 0 ∧ isLineEnd x = false := by
  have hplain (t : List UInt8) (h : t.all (fun x => x != 0 && !isLineEnd x) = true) :
      ∀ x ∈ t, x ≠ 0 ∧ isLineEnd x = false := by
    simpa using h
  intro x hx
  rw [sendTestCase_eq, List.mem_append, List.mem_cons, List.mem_append] at hx
  obtain hx | rfl | hx | hx := hx
  · exact hplain (ascii "hash=sha256") (by decide) x hx
  · decide
  · exact hplain (ascii "input=") (by decide) x hx
  · exact (queryEscape_plain buf x hx).2.2

theorem stripped_of_plain {s : List UInt8} (h : ∀ x ∈ s, x ≠ 0 ∧ isLineEnd x = false) :
    stripped s = s := by
  rw [stripped, List.rdropWhile_eq_self_iff]
  intro hne hend
  rw [(h _ (List.getLast_mem hne)).2] at hend
  cases hend

theorem sendTestCase_wellFormed {buf : List UInt8} (hshort : 18 + 3 * buf.length < BUF_SIZE) :
    WellFormed (sendTestCase buf) (testFields buf) := by
  have hplain := sendTestCase_plain buf
  have hstripped := stripped_of_plain hplain
  have hlength := length_queryEscape buf
  have hfirst : (ascii "hash=sha256").length = 11 := by decide
  have hsecond : (ascii "input=").length = 6 := by decide
  refine ⟨?_, ?_, ?_, ?_, ⟨?_, ?_⟩, by simp [testFields, MAX_FIELDS]⟩
  · simp [sendTestCase_eq]
  · rw [sendTestCase_eq, List.length_append, List.length_cons, List.length_append, hfirst, hsecond]
    omega
  · rwa [hstripped]
  · rw [hstripped, sendTestCase_eq]
    apply Body.field (by decide) (by decide)
    apply Body.last (by simp [ascii])
    rw [List.mem_append, not_or]
    exact ⟨by decide, fun hmem => (queryEscape_plain buf _ hmem).1 rfl⟩
  · simp [testFields, MAX_FIELDS]
  · rw [hstripped, sendTestCase_eq]
    intro _ hamp
    have hhead : (ascii "hash=sha256" ++ ampersand :: (ascii "input=" ++ queryEscape buf)).head? =
      some 0x68 := rfl
    rw [hhead] at hamp
    exact absurd hamp (by decide)

theorem valueOf_testFields (buf : List UInt8) :
    valueOf (ascii "input") (testFields buf) = some buf ∧
      asked (testFields buf) = some (.sha256, .hex .sha256) := by
  have hdecoded := (encodes_queryEscape buf).decoded_eq
  have hsplit : ascii "input=" ++ queryEscape buf =
      ascii "input" ++ equals :: queryEscape buf := rfl
  have hown : ∀ name, ownValue name (ascii "input=" ++ queryEscape buf) =
      if ascii "input" = name then some buf else none := by
    intro name
    rw [hsplit, ownValue_split (by decide), hdecoded,
      show (decoded (ascii "input")).takeWhile (· ≠ 0) = ascii "input" by decide +kernel]
  have hinput : valueOf (ascii "input") (testFields buf) = some buf := by
    rw [testFields, valueOf_cons, valueOf_cons, hown]
    rfl
  have hhash : valueOf (ascii "hash") (testFields buf) = some (ascii "sha256") := by
    rw [testFields, valueOf_cons, valueOf_cons, hown, if_neg (by decide)]
    decide +kernel
  have houtput : valueOf (ascii "output") (testFields buf) = none := by
    rw [testFields, valueOf_cons, valueOf_cons, hown, if_neg (by decide)]
    decide +kernel
  refine ⟨hinput, ?_⟩
  rw [asked, hhash, houtput]
  decide +kernel

theorem leBytes_eq_iff {bs : List UInt8} (hbs : bs.length = 4) (t : UInt32) :
    leBytes 4 t.toNat = bs ↔ ofLe bs = t.toNat := by
  have hle := ofLe_leBytes 4 t.toNat
  rw [Nat.mod_eq_of_lt (show t.toNat < 256 ^ 4 from t.toNat_lt)] at hle
  constructor
  · intro h
    rw [← h, hle]
  · intro h
    match bs, hbs with
    | [a, b, c, d], _ =>
      have ha := a.toNat_lt
      have hb := b.toNat_lt
      have hc := c.toNat_lt
      have hd := d.toNat_lt
      simp only [ofLe] at h
      simp only [leBytes, List.cons.injEq, and_true]
      refine ⟨?_, ?_, ?_, ?_⟩ <;>
      · apply UInt8.toNat_inj.mp
        rw [UInt8.toNat_ofNat']
        omega

theorem hashMatches_iff {digest : List UInt8} (h : HASH_SIZE + 4 ≤ digest.length) :
    hashMatches digest = true ↔
      ∃ t ∈ targets, ofLe ((digest.drop HASH_SIZE).take 4) = t.toNat := by
  have hsub : ((digest.drop HASH_OFFSET).take 4).length = 4 := by
    have hoffset : HASH_OFFSET = HASH_SIZE := rfl
    rw [List.length_take, List.length_drop, hoffset]
    omega
  simp only [hashMatches, targetBytes, List.any_map, List.any_eq_true, Function.comp_apply,
    decide_eq_true_eq, leBytes_eq_iff hsub]
  rfl

/-- The solution's request makes the program call one of its targets just when the digest that it
looks at matches. -/
theorem hijacked_iff (digests : Digests) (address : Printer → UInt32) (r : Region) (input : Old)
    (input_len : Nat) (block : Vector UInt8 BUF_SIZE) (buf : Vector UInt8 32) :
    (∃ printed output, ∃ t ∈ targets,
      main digests address r (some .cleared) (initial input input_len) block
          (sendTestCase buf.toList) = some (.called printed t.toNat output)) ↔
      hashMatches (digests .sha256 buf.toList).toList = true := by
  have hlength : buf.toList.length = 32 := Vector.length_toList
  have hshort : 18 + 3 * buf.toList.length < BUF_SIZE := by
    rw [hlength]
    decide
  obtain ⟨hv, hasked⟩ := valueOf_testFields buf.toList
  obtain ⟨printed, output, hcalled, -⟩ := main_called digests address r input input_len block
    (sendTestCase_wellFormed hshort) hasked hv
  rw [if_neg (by decide)] at hcalled
  have hdigest : (digests .sha256 buf.toList).toList.length = 32 := Vector.length_toList
  rw [hashMatches_iff (by rw [hdigest]; decide), hcalled]
  constructor
  · rintro ⟨printed', output', t, ht, h⟩
    rw [Option.some.injEq, Ending.called.injEq] at h
    exact ⟨t, ht, h.2.1⟩
  · rintro ⟨t, ht, h⟩
    exact ⟨printed, output, t, ht, by rw [h]⟩

/-- What is to be printed for a digest. -/
def Printer.answer (digest : List UInt8) : Printer → List UInt8
  | hex _ => Hex.encode digest ++ [Base64.newline]
  | b64 _ => Base64.lines digest 0 ++ [Base64.newline]

/-- A printer of the hash whose digest stands at `output` prints it. -/
theorem Printer.print_eq {malloc : (n : Nat) → Option (Vector UInt8 n)}
    (hmalloc : ∀ n, (malloc n).isSome) {h : Hash} {p : Printer} (hp : p = .hex h ∨ p = .b64 h)
    {output : Mem} {digest : Vector UInt8 h.size} (htake : output.take h.size = digest.toList) :
    p.print malloc output = some (p.answer digest.toList) := by
  obtain rfl | rfl := hp
  · rw [Printer.print, htake, Printer.answer]
  · have hlength : digest.toList.length = h.size := Vector.length_toList
    have hle := (hash_size_le h).1
    obtain ⟨r, hr, hnone, hout⟩ := Base64.base64_encode_eq (by decide) malloc
      (show digest.toList.length < 4294967296 by omega)
    have hwrap : ¬ Base64.encodedSize 4294967296 digest.toList.length < digest.toList.length := by
      rw [hlength]
      cases h <;> decide
    cases r with
    | none =>
      have hfail := (hnone.mp rfl).resolve_left hwrap
      have hgot := hmalloc (Base64.encodedSize 4294967296 digest.toList.length)
      rw [hfail] at hgot
      cases hgot
    | some out =>
      obtain ⟨mem, pos⟩ := out
      obtain ⟨rfl, hmem⟩ := hout mem pos rfl
      have hstring : StringAt mem 0 (Base64.lines digest.toList 0) := by
        rw [stringAt_iff, List.drop_zero, ← hmem]
        exact ⟨Base64.nul_not_mem_lines _ _, List.take_prefix _ _⟩
      simp [Printer.print, htake, hr, cstr_eq_some hstring, Printer.answer]

/-- A request for MD5 is answered by the digest of its input in the form that it asks for. After any
other hash the program goes on at the address in the bytes of the digest behind the sixteenth. -/
theorem request_answered (digests : Digests) (address : Printer → UInt32) (r : Region) (input : Old)
    (input_len : Nat) (buf : Vector UInt8 BUF_SIZE) {malloc : (n : Nat) → Option (Vector UInt8 n)}
    (hmalloc : ∀ n, (malloc n).isSome) {stdin : List UInt8} {fs : List (List UInt8)}
    (h : WellFormed stdin fs) {hash : Hash} {p : Printer} (hasked : asked fs = some (hash, p))
    {v : List UInt8} (hv : valueOf (ascii "input") fs = some v) :
    ∃ printed called output,
      main digests address r (some .cleared) (initial input input_len) buf stdin =
        some (.called printed called output) ∧
      (hash = .md5 → called = (address p).toNat ∧
        p.print malloc output = some (p.answer (digests hash v).toList)) ∧
      (hash ≠ .md5 → called = ofLe (((digests hash v).toList.drop HASH_SIZE).take 4)) := by
  obtain ⟨printed, output, hcalled, htake⟩ := main_called digests address r input input_len buf h
    hasked hv
  refine ⟨printed, _, output, hcalled, fun hmd5 => ?_, fun hother => if_neg hother⟩
  exact ⟨if_pos hmd5, Printer.print_eq hmalloc (choose_printer hasked) htake⟩

/-- `hash=sha256&input=a` for functions that return zeros. -/
theorem request_answered_a :
    ∃ printed called output,
      main (fun h _ => Vector.replicate h.size 0) (fun _ => 0x0804a000)
          ⟨Vector.replicate HASH_SIZE 0, List.replicate 44 0, by decide⟩ (some .cleared)
          (initial none 0) (Vector.replicate BUF_SIZE 0) (sendTestCase [0x61]) =
        some (.called printed called output) ∧
      (Hash.sha256 = .md5 → called = (0x0804a000 : UInt32).toNat ∧
        (Printer.hex .sha256).print (fun n => some (Vector.replicate n 0)) output =
          some ((Printer.hex .sha256).answer (Vector.replicate 32 0).toList)) ∧
      (Hash.sha256 ≠ .md5 → called = ofLe (((Vector.replicate 32 0).toList.drop HASH_SIZE).take 4)) :=
  request_answered _ _ _ none 0 _ (fun _ => rfl) (sendTestCase_wellFormed (by decide))
    (valueOf_testFields [0x61]).2 (valueOf_testFields [0x61]).1

end CtfChallenges.Hashpop
