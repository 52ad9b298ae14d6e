import CtfChallenges.Framework.Gzip
import CtfChallenges.Framework.Run
import CtfChallenges.Matroyshka.Encoder
import Mathlib.Data.List.Chain
import Mathlib.Data.List.Nodup

/-!
# The stack can be undone

What one encoding writes, the next one can read; and the outputs of every encoding tell its inputs,
whatever the time of the call.
-/

namespace CtfChallenges.Matroyshka
open Framework UniqueCode
open Hex (digit upperDigit)

/-- The entries for one character, as bytes. -/
def morseTable : List (UInt8 × Bytes) := [
  (0x41, [0x2e, 0x2d]), (0x42, [0x2d, 0x2e, 0x2e, 0x2e]), (0x43, [0x2d, 0x2e, 0x2d, 0x2e]),
  (0x44, [0x2d, 0x2e, 0x2e]), (0x45, [0x2e]), (0x46, [0x2e, 0x2e, 0x2d, 0x2e]),
  (0x47, [0x2d, 0x2d, 0x2e]), (0x48, [0x2e, 0x2e, 0x2e, 0x2e]), (0x49, [0x2e, 0x2e]),
  (0x4a, [0x2e, 0x2d, 0x2d, 0x2d]), (0x4b, [0x2d, 0x2e, 0x2d]), (0x4c, [0x2e, 0x2d, 0x2e, 0x2e]),
  (0x4d, [0x2d, 0x2d]), (0x4e, [0x2d, 0x2e]), (0x4f, [0x2d, 0x2d, 0x2d]),
  (0x50, [0x2e, 0x2d, 0x2d, 0x2e]), (0x51, [0x2d, 0x2d, 0x2e, 0x2d]), (0x52, [0x2e, 0x2d, 0x2e]),
  (0x53, [0x2e, 0x2e, 0x2e]), (0x54, [0x2d]), (0x55, [0x2e, 0x2e, 0x2d]),
  (0x56, [0x2e, 0x2e, 0x2e, 0x2d]), (0x57, [0x2e, 0x2d, 0x2d]), (0x58, [0x2d, 0x2e, 0x2e, 0x2d]),
  (0x59, [0x2d, 0x2e, 0x2d, 0x2d]), (0x5a, [0x2d, 0x2d, 0x2e, 0x2e]),
  (0x31, [0x2e, 0x2d, 0x2d, 0x2d, 0x2d]), (0x32, [0x2e, 0x2e, 0x2d, 0x2d, 0x2d]),
  (0x33, [0x2e, 0x2e, 0x2e, 0x2d, 0x2d]), (0x34, [0x2e, 0x2e, 0x2e, 0x2e, 0x2d]),
  (0x35, [0x2e, 0x2e, 0x2e, 0x2e, 0x2e]), (0x36, [0x2d, 0x2e, 0x2e, 0x2e, 0x2e]),
  (0x37, [0x2d, 0x2d, 0x2e, 0x2e, 0x2e]), (0x38, [0x2d, 0x2d, 0x2d, 0x2e, 0x2e]),
  (0x39, [0x2d, 0x2d, 0x2d, 0x2d, 0x2e]), (0x30, [0x2d, 0x2d, 0x2d, 0x2d, 0x2d]),
  (0x2e, [0x2e, 0x2d, 0x2e, 0x2d, 0x2e, 0x2d]), (0x3f, [0x2e, 0x2e, 0x2d, 0x2d, 0x2e, 0x2e]),
  (0x2f, [0x2d, 0x2e, 0x2e, 0x2d, 0x2e]), (0x2d, [0x2d, 0x2e, 0x2e, 0x2e, 0x2e, 0x2d]),
  (0x28, [0x2d, 0x2e, 0x2d, 0x2d, 0x2e]), (0x29, [0x2d, 0x2e, 0x2d, 0x2d, 0x2e, 0x2d]),
  (0x3d, [0x2d, 0x2e, 0x2e, 0x2e, 0x2d])]

private def byteEntry : List Char × String → Option (UInt8 × Bytes)
  | ([c], word) => some (UInt8.ofNat c.toNat, ascii word)
  | _ => none

private theorem morseTable_eq : morseTable = MORSE_CODE_DICT.filterMap byteEntry := by
  decide +kernel

private theorem toNat_ofNat : ∀ n < 256, (Char.ofNat n).toNat = n := by decide +kernel

private theorem dict_ascii :
    MORSE_CODE_DICT.all (fun e => e.1.all fun c => decide (c.toNat < 256)) = true := by
  decide +kernel

private theorem lookup_byteEntry {dict : List (List Char × String)}
    (hdict : ∀ e ∈ dict, ∀ c ∈ e.1, c.toNat < 256) (b : UInt8) :
    (dict.lookup [Char.ofNat b.toNat]).map ascii = (dict.filterMap byteEntry).lookup b := by
  induction dict with
  | nil => rfl
  | cons e dict ih =>
    rw [List.forall_mem_cons] at hdict
    obtain ⟨key, word⟩ := e
    have hrest := ih hdict.2
    match key with
    | [] => exact hrest
    | c :: c' :: key =>
      have hother : ([Char.ofNat b.toNat] == c :: c' :: key) = false :=
        beq_false_of_ne (by simp)
      rw [List.lookup_cons, hother]
      exact hrest
    | [c] =>
      have hc : c.toNat < 256 := hdict.1 c List.mem_cons_self
      have hchar : b = UInt8.ofNat c.toNat ↔ Char.ofNat b.toNat = c := by
        constructor
        · rintro rfl
          rw [UInt8.toNat_ofNat_of_lt' hc, Char.ofNat_toNat]
        · rintro rfl
          rw [toNat_ofNat _ b.toNat_lt, UInt8.ofNat_toNat]
      have hentry : (([c], word) :: dict).filterMap byteEntry =
          (UInt8.ofNat c.toNat, ascii word) :: dict.filterMap byteEntry := rfl
      rw [hentry, List.lookup_cons, List.lookup_cons]
      by_cases hsame : b = UInt8.ofNat c.toNat
      · rw [hchar.mp hsame, ← hsame, BEq.rfl, BEq.rfl]
        rfl
      · have hother : ([Char.ofNat b.toNat] == [c]) = false :=
          beq_false_of_ne fun h => hsame (hchar.mpr (List.singleton_inj.mp h))
        rw [hother, beq_false_of_ne hsame]
        exact hrest

theorem morse_eq (c : UInt8) : morse c = morseTable.lookup c := by
  rw [morse, morseTable_eq]
  apply lookup_byteEntry
  intro e he c hc
  exact of_decide_eq_true (List.all_eq_true.mp (List.all_eq_true.mp dict_ascii e he) c hc)

private theorem morseTable_words : (∀ e ∈ morseTable, e.2 ≠ [] ∧ ∀ c ∈ e.2, c = 0x2e ∨ c = 0x2d) ∧
    (morseTable.map Prod.snd).Nodup := by
  decide +kernel

/-- The word of a character. -/
def morseWord (c : UInt8) : Bytes := (morseTable.lookup c).getD []

def InMorse (c : UInt8) : Prop := (morseTable.lookup c).isSome = true

instance (c : UInt8) : Decidable (InMorse c) := inferInstanceAs (Decidable (_ = true))

private theorem mem_morseTable {c : UInt8} (h : InMorse c) : (c, morseWord c) ∈ morseTable := by
  obtain ⟨w, hw⟩ := Option.isSome_iff_exists.mp h
  obtain ⟨l₁, l₂, hsplit, -⟩ := List.lookup_eq_some_iff.mp hw
  rw [morseWord, hw, Option.getD_some, hsplit]
  simp

private theorem morse_words : Words InMorse 0x20 morseWord := by
  obtain ⟨hwords, hnodup⟩ := morseTable_words
  constructor
  · exact fun a ha => (hwords _ (mem_morseTable ha)).1
  · intro a ha hspace
    obtain h | h := (hwords _ (mem_morseTable ha)).2 _ hspace <;> cases h
  · intro a b ha hb heq
    have hpair := List.inj_on_of_nodup_map hnodup (mem_morseTable ha) (mem_morseTable hb) heq
    exact (Prod.ext_iff.mp hpair).1

theorem morse_encode_eq {s : Bytes} (h : ∀ c ∈ s, InMorse c) :
    morse_encode s = some (joined [0x20] morseWord s) := by
  have hall : ∀ c ∈ s, morse c = some (morseWord c) := by
    intro c hc
    obtain ⟨w, hw⟩ := Option.isSome_iff_exists.mp (h c hc)
    rw [morse_eq, morseWord, hw, Option.getD_some]
  rw [morse_encode, mapM_some hall]
  rfl

private theorem words_of_reader {c : UInt8} {code : UInt8 → Bytes} (read : Bytes → Nat)
    (h : ∀ n < 256, let a := UInt8.ofNat n
      code a ≠ [] ∧ c ∉ code a ∧ read (code a) = n) :
    Words (fun _ => True) c code := by
  have hbyte : ∀ a : UInt8, code a ≠ [] ∧ c ∉ code a ∧ read (code a) = a.toNat := by
    intro a
    have ha := h a.toNat a.toNat_lt
    rwa [UInt8.ofNat_toNat] at ha
  refine ⟨fun a _ => (hbyte a).1, fun a _ => (hbyte a).2.1, fun a b _ _ heq => ?_⟩
  rw [← UInt8.toNat_inj, ← (hbyte a).2.2, ← (hbyte b).2.2, heq]

private def undigit (c : UInt8) : Nat := if c ≤ 0x39 then c.toNat - 0x30 else c.toNat - 0x57

private theorem decimal_words : Words (fun _ => True) 0x20 decimal :=
  words_of_reader (fun w => w.foldl (fun v c => 10 * v + undigit c) 0) (by decide +kernel)

private theorem hex_words : Words (fun _ => True) 0x2c hex :=
  words_of_reader (fun w => w.foldl (fun v c => 16 * v + undigit c) 0) (by decide +kernel)

private theorem oct_words : Words (fun _ => True) 0x2c oct :=
  words_of_reader (fun w => w.tail.foldl (fun v c => 8 * v + undigit c) 0) (by decide +kernel)

private def upperVal (c : UInt8) : Nat := if c ≤ 0x39 then c.toNat - 0x30 else c.toNat - 0x37

/-- The first byte of a quoted text. -/
private def unquote : Bytes → Nat
  | [] => 0
  | c :: rest =>
    if c = 0x25 then 16 * upperVal (rest.getD 0 0) + upperVal (rest.getD 1 0)
    else if c = 0x2b then 0x20
    else c.toNat

private theorem upperVal_upperDigit : ∀ d < 16, upperVal (upperDigit d) = d := by decide

private theorem unquote_quoted (a : UInt8) (x : Bytes) : unquote (quoted a ++ x) = a.toNat := by
  unfold quoted
  split
  · rename_i hsafe
    have hpercent : a ≠ 0x25 := by
      rintro rfl
      exact absurd hsafe (by decide)
    have hplus : a ≠ 0x2b := by
      rintro rfl
      exact absurd hsafe (by decide)
    rw [List.singleton_append, unquote, if_neg hpercent, if_neg hplus]
  · split
    · rename_i hspace
      rw [hspace]
      rfl
    · have ha := a.toNat_lt
      simp only [List.cons_append, unquote, if_true, List.getD_cons_zero, List.getD_cons_succ,
        upperVal_upperDigit _ (show a.toNat / 16 < 16 by omega),
        upperVal_upperDigit _ (show a.toNat % 16 < 16 by omega)]
      omega

private theorem quoted_inj {s t : Bytes} (h : s.flatMap quoted = t.flatMap quoted) : s = t := by
  refine flatMap_inj (P := fun _ => True) ?_ ?_ (fun _ _ => trivial) (fun _ _ => trivial) h
  · intro a _ hnil
    unfold quoted at hnil
    split at hnil
    · cases hnil
    · split at hnil <;> cases hnil
  · intro a b x y _ _ heq
    rw [← UInt8.toNat_inj, ← unquote_quoted a x, heq, unquote_quoted]

theorem urlencode_eq {s : Bytes} (h : ∀ c ∈ s, c < 0x80) :
    urlencode s = some (s.flatMap quoted) := by
  obtain ⟨text, htext⟩ := Option.isSome_iff_exists.mp (Text.fromUtf8_isSome h)
  rw [urlencode, htext, Option.map_some, Text.asBytes_of_fromUtf8 htext]

/-- The bytes that an encoding can read. -/
def Encoding.reads : Encoding → UInt8 → Bool
  | .morse_encode, c => decide (InMorse c)
  | .urlencode, c => c < 0x80
  | _, _ => true

/-- The bytes that an encoding writes, where the next one asks. -/
def Encoding.writes : Encoding → UInt8 → Bool
  | .b32encode, c => BaseCodec.b32.alphabet.contains c || BaseCodec.b32.pad == some c
  | .b85encode, c => BaseCodec.b85.alphabet.contains c
  | _, _ => true

def Readable (e : Encoding) (s : Bytes) : Prop := ∀ c ∈ s, e.reads c = true

variable (gzip : Gzip)

theorem call_isSome (e : Encoding) (time : gzip.Time) {s : Bytes} (h : Readable e s) :
    ∃ out, e.call gzip time s = some out ∧ ∀ c ∈ out, e.writes c = true := by
  cases e with
  | b32encode =>
    refine ⟨_, rfl, fun c hc => ?_⟩
    obtain halphabet | hpad := BaseCodec.mem_encode _ hc
    · simp [Encoding.writes, halphabet]
    · simp [Encoding.writes, Option.mem_def.mp hpad]
  | b85encode =>
    refine ⟨_, rfl, fun c hc => ?_⟩
    obtain halphabet | hpad := BaseCodec.mem_encode _ hc
    · simp [Encoding.writes, halphabet]
    · cases hpad
  | morse_encode =>
    have hmorse : ∀ c ∈ s, InMorse c := fun c hc => of_decide_eq_true (h c hc)
    exact ⟨_, morse_encode_eq hmorse, fun _ _ => rfl⟩
  | urlencode =>
    have hascii : ∀ c ∈ s, c < 0x80 := fun c hc => of_decide_eq_true (h c hc)
    exact ⟨_, urlencode_eq hascii, fun _ _ => rfl⟩
  | _ => exact ⟨_, rfl, fun _ _ => rfl⟩

/-- An output tells the input, whatever the times of the calls. -/
theorem call_inj (e : Encoding) {time time' : gzip.Time} {s t out : Bytes} (hs : Readable e s)
    (ht : Readable e t) (hout : e.call gzip time s = some out)
    (hout' : e.call gzip time' t = some out) : s = t := by
  rw [← hout'] at hout
  cases e with
  | b16encode => exact BaseCodec.encode_injective _ (Option.some.inj hout)
  | b32encode => exact BaseCodec.encode_injective _ (Option.some.inj hout)
  | b64encode => exact BaseCodec.encode_injective _ (Option.some.inj hout)
  | b85encode => exact BaseCodec.encode_injective _ (Option.some.inj hout)
  | compress =>
    have hplain := congrArg gzip.decompress (Option.some.inj hout)
    rw [gzip.decompress_compress, gzip.decompress_compress] at hplain
    exact Option.some.inj hplain
  | morse_encode =>
    have hs' : ∀ c ∈ s, InMorse c := fun c hc => of_decide_eq_true (hs c hc)
    have ht' : ∀ c ∈ t, InMorse c := fun c hc => of_decide_eq_true (ht c hc)
    simp only [Encoding.call, morse_encode_eq hs', morse_encode_eq ht'] at hout
    exact joined_inj morse_words rfl hs' ht' (Option.some.inj hout)
  | decimal_bytes =>
    exact joined_inj decimal_words rfl (fun _ _ => trivial) (fun _ _ => trivial)
      (Option.some.inj hout)
  | hex_bytes =>
    exact joined_inj hex_words rfl (fun _ _ => trivial) (fun _ _ => trivial) (Option.some.inj hout)
  | oct_bytes =>
    exact joined_inj oct_words rfl (fun _ _ => trivial) (fun _ _ => trivial) (Option.some.inj hout)
  | urlencode =>
    have hs' : ∀ c ∈ s, c < 0x80 := fun c hc => of_decide_eq_true (hs c hc)
    have ht' : ∀ c ∈ t, c < 0x80 := fun c hc => of_decide_eq_true (ht c hc)
    simp only [Encoding.call, urlencode_eq hs', urlencode_eq ht'] at hout
    exact quoted_inj (Option.some.inj hout)

/-- Only two encodings ask for something, and what stands before them in the stack. -/
def Follows (e next : Encoding) : Prop :=
  (next ≠ .morse_encode ∧ next ≠ .urlencode) ∨ (e = .b32encode ∧ next = .morse_encode) ∨
    (e = .b85encode ∧ next = .urlencode)

instance (e next : Encoding) : Decidable (Follows e next) := inferInstanceAs (Decidable (_ ∨ _))

private theorem b32_morse : (0x3d :: BaseCodec.b32.alphabet).all Encoding.morse_encode.reads := by
  decide +kernel

private theorem b85_urlencode : BaseCodec.b85.alphabet.all Encoding.urlencode.reads := by
  decide +kernel

/-- What the first encoding writes, the second can read. -/
theorem Follows.readable {e next : Encoding} (h : Follows e next) {s : Bytes}
    (hs : ∀ c ∈ s, e.writes c = true) : Readable next s := by
  intro c hc
  have hwrites := hs c hc
  obtain ⟨hmorse, hurl⟩ | ⟨rfl, rfl⟩ | ⟨rfl, rfl⟩ := h
  · cases next with
    | morse_encode => exact absurd rfl hmorse
    | urlencode => exact absurd rfl hurl
    | _ => rfl
  · refine List.all_eq_true.mp b32_morse c ?_
    rw [Encoding.writes, Bool.or_eq_true, List.contains_iff_mem] at hwrites
    obtain halphabet | hpad := hwrites
    · exact List.mem_cons_of_mem _ halphabet
    · exact List.mem_cons.mpr (Or.inl (Option.some.inj (eq_of_beq hpad)).symm)
  · refine List.all_eq_true.mp b85_urlencode c ?_
    rwa [Encoding.writes, List.contains_iff_mem] at hwrites

private def encodeFrom (times : Nat → gzip.Time) (stack : List Encoding) (i : Nat) (buf : Bytes) :
    Option Bytes :=
  (stack.zipIdx i).foldlM (fun buf (s, i) => s.call gzip (times i) buf) buf

private theorem encodeFrom_cons (times : Nat → gzip.Time) (e : Encoding) (stack : List Encoding)
    (i : Nat) (buf : Bytes) : encodeFrom gzip times (e :: stack) i buf =
      (e.call gzip (times i) buf).bind (encodeFrom gzip times stack (i + 1)) := rfl

private theorem readable_of_chain {e : Encoding} {stack : List Encoding}
    (h : (e :: stack).IsChain Follows) {s : Bytes} (hs : ∀ c ∈ s, e.writes c = true) :
    ∀ next ∈ stack.head?, Readable next s := by
  intro next hnext
  cases stack with
  | nil => cases hnext
  | cons next' stack =>
    cases hnext
    exact (List.isChain_cons_cons.mp h).1.readable hs

/-- Where every encoding can read what the one before it writes, a text that the first can read
has an output, and the output tells the text. -/
private theorem encodeFrom_spec {stack : List Encoding} (hchain : stack.IsChain Follows)
    (times times' : Nat → gzip.Time) (i : Nat) {s t : Bytes}
    (hs : ∀ e ∈ stack.head?, Readable e s) (ht : ∀ e ∈ stack.head?, Readable e t) :
    (∃ out, encodeFrom gzip times stack i s = some out) ∧
      ∀ out, encodeFrom gzip times stack i s = some out →
        encodeFrom gzip times' stack i t = some out → s = t := by
  induction stack generalizing i s t with
  | nil =>
    refine ⟨⟨s, rfl⟩, ?_⟩
    intro out hout hout'
    exact (Option.some.inj hout).trans (Option.some.inj hout').symm
  | cons e stack ih =>
    have hs' : Readable e s := hs e rfl
    have ht' : Readable e t := ht e rfl
    obtain ⟨u, hu, hwrites⟩ := call_isSome gzip e (times i) hs'
    obtain ⟨v, hv, hwrites'⟩ := call_isSome gzip e (times' i) ht'
    have htail : stack.IsChain Follows := hchain.tail
    obtain ⟨hdefined, htells⟩ := ih htail (i + 1) (readable_of_chain hchain hwrites)
      (readable_of_chain hchain hwrites')
    simp only [encodeFrom_cons, hu, hv, Option.bind_some]
    refine ⟨hdefined, ?_⟩
    intro out hout hout'
    have huv := htells out hout hout'
    rw [← huv] at hv
    exact call_inj gzip e hs' ht' hu hv

private theorem stack_chain : STACK.IsChain Follows := by
  decide

/-- Every file has an output: all stages are defined. And there is a decoder that makes of the
output the contents of the file without the white space at both ends, whenever it was encoded. -/
theorem stack_decodes : (∀ times contents, ∃ out, main gzip times contents = some out) ∧
    ∃ decoder : Bytes → Bytes, ∀ times contents out, main gzip times contents = some out →
      decoder out = strip contents := by
  have hreadable : ∀ s : Bytes, ∀ e ∈ STACK.head?, Readable e s := by
    intro s e he
    cases he
    exact fun _ _ => rfl
  have hspec := fun times times' contents contents' =>
    encodeFrom_spec gzip stack_chain times times' 0 (hreadable (strip contents))
      (hreadable (strip contents'))
  refine ⟨fun times contents => (hspec times times contents contents).1, ?_⟩
  classical
  refine ⟨fun out => if h : ∃ times contents, main gzip times contents = some out then
    strip h.choose_spec.choose else [], ?_⟩
  intro times contents out hout
  have hexists : ∃ times contents, main gzip times contents = some out := ⟨times, contents, hout⟩
  beta_reduce
  rw [dif_pos hexists]
  exact (hspec _ times _ contents).2 out hexists.choose_spec.choose_spec hout

/-- The module `gzip` at the level 0. -/
def storedGzip : Gzip where
  Time := UInt32
  compress := Framework.Gzip.compress
  decompress := Framework.Gzip.decompress
  decompress_compress := Framework.Gzip.decompress_compress

theorem stack_decodes_hello : ∃ decoder : Bytes → Bytes,
    (∀ times contents out, main storedGzip times contents = some out →
      decoder out = strip contents) ∧
    ∃ out, main storedGzip (fun _ => (1583020800 : UInt32)) (ascii "hello\n") = some out ∧
      decoder out = ascii "hello" := by
  obtain ⟨hdefined, decoder, hdecoder⟩ := stack_decodes storedGzip
  obtain ⟨out, hout⟩ := hdefined (fun _ => (1583020800 : UInt32)) (ascii "hello\n")
  have hstrip : strip (ascii "hello\n") = ascii "hello" := by decide
  exact ⟨decoder, hdecoder, out, hout, (hdecoder _ _ _ hout).trans hstrip⟩

end CtfChallenges.Matroyshka
