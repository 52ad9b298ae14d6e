import CtfChallenges.Decrypto.File
import CtfChallenges.Framework.CString
import CtfChallenges.Framework.Ascii

/-!
# The key on the command line of decrypto-3

`hex_decode_inplace` of `crypto.c` writes the bytes over the digits it reads. Nothing looks at the
0xFF that `decode_nibble` returns for a character that is no digit.
-/

namespace CtfChallenges.Decrypto
open Framework CString Hex

def decode_nibble (b : UInt8) : UInt8 :=
  if 0x61 ≤ b ∧ b ≤ 0x66 then b - 0x61 + 10
  else if 0x41 ≤ b ∧ b ≤ 0x46 then b - 0x41 + 10
  else if 0x30 ≤ b ∧ b ≤ 0x39 then b - 0x30
  else 0xFF

/-- An access of the loop to the string. -/
inductive Access
  | read (p : Nat)
  | write (p : Nat)
  deriving DecidableEq, Repr

/-- The loop, for at most `fuel` passes, with what it has accessed. A pass moves `buf` on by two
bytes, so the size of the block is enough (`hex_decode_loop_spec`). -/
def hex_decode_loop : Nat → Mem → Nat → Nat → Nat → Option (Nat × Mem × List Access)
  | 0, _, _, _, _ => none
  | fuel + 1, mem, buf, out, l => do
    let c ← mem[buf]?
    if c = 0 then return (l, mem, [.read buf])
    let c' ← mem[buf + 1]?
    let mem ← store mem out (decode_nibble c <<< 4 ||| decode_nibble c')
    let (l, mem, accesses) ← hex_decode_loop fuel mem (buf + 2) (out + 1) (l + 1)
    return (l, mem, [.read buf, .read (buf + 1), .write out] ++ accesses)

/-- The argument stands at the start of the block. -/
def hex_decode_inplace (mem : Mem) : Option (Nat × Mem × List Access) := do
  let s ← cstr mem 0
  if s.length % 2 = 1 then return (0, mem, [])
  hex_decode_loop mem.length mem 0 0 0

/-- What the loop makes of the characters. -/
def pairs : List UInt8 → List UInt8
  | c :: c' :: s => (decode_nibble c <<< 4 ||| decode_nibble c') :: pairs s
  | _ => []

/-- What is written is behind everything that is read later. -/
def NeverOvertakes (accesses : List Access) : Prop :=
  accesses.Pairwise fun a b => ∀ p q, a = .write p → b = .read q → p < q

@[simp] theorem pairs_nil : pairs [] = [] := by simp [pairs]

theorem length_pairs : ∀ s : List UInt8, (pairs s).length = s.length / 2
  | [] => by simp
  | [_] => by simp [pairs]
  | c :: c' :: s => by
    simp only [pairs, List.length_cons, length_pairs s]
    omega

section
variable {mem : Mem} {fuel buf out l : Nat} {c c' : UInt8} {s : List UInt8}

private theorem getElem?_of_drop {rest : List UInt8} (h : mem.drop buf = c :: rest) :
    mem[buf]? = some c := by
  rw [← List.head?_drop, h, List.head?_cons]

theorem getElem?_of_stringAt (h : StringAt mem buf (c :: s)) : mem[buf]? = some c ∧ c ≠ 0 := by
  obtain ⟨hs, rest, hdrop⟩ := h
  exact ⟨getElem?_of_drop hdrop, fun hc => hs (hc ▸ List.mem_cons_self)⟩

theorem hex_decode_loop_end (h : StringAt mem buf []) :
    hex_decode_loop (fuel + 1) mem buf out l = some (l, mem, [.read buf]) := by
  obtain ⟨-, rest, hdrop⟩ := h
  simp [hex_decode_loop, getElem?_of_drop hdrop]

/-- A pass reads two characters and writes in front of the rest of the string. -/
theorem hex_decode_loop_pass (fuel l : Nat) (h : StringAt mem buf (c :: c' :: s))
    (hout : out ≤ buf) :
    let byte := decode_nibble c <<< 4 ||| decode_nibble c'
    StringAt (overwrite mem out [byte]) (buf + 2) s ∧
      hex_decode_loop (fuel + 1) mem buf out l =
        (hex_decode_loop fuel (overwrite mem out [byte]) (buf + 2) (out + 1) (l + 1)).map
          fun (l, mem, accesses) =>
            (l, mem, [.read buf, .read (buf + 1), .write out] ++ accesses) := by
  intro byte
  have hlen : out < mem.length := Nat.lt_of_le_of_lt hout (by have := h.length_lt; omega)
  obtain ⟨hc, hne⟩ := getElem?_of_stringAt h
  have h' : StringAt mem (buf + 1) (c' :: s) := h.drop (t := [c])
  obtain ⟨hc', -⟩ := getElem?_of_stringAt h'
  constructor
  · have hbehind : out + [byte].length ≤ buf + 2 := by
      rw [List.length_singleton]
      omega
    exact (h'.drop (t := [c'])).congr (drop_overwrite hlen.le hbehind)
  · simp only [hex_decode_loop, hc, hc', hne, store_eq hlen, Option.bind_eq_bind, Option.bind_some,
      if_false, Option.map_eq_bind]
    rfl

end

/-- The loop puts the bytes of the pairs at `out`, and what it writes is always behind. -/
theorem hex_decode_loop_spec : ∀ (s : List UInt8) {mem : Mem} {fuel buf out l : Nat},
    s.length % 2 = 0 → StringAt mem buf s → out ≤ buf → s.length / 2 < fuel →
    ∃ accesses, hex_decode_loop fuel mem buf out l =
        some (l + s.length / 2, overwrite mem out (pairs s), accesses) ∧
      NeverOvertakes accesses ∧ ∀ q, .read q ∈ accesses → buf ≤ q
  | [], mem, fuel + 1, buf, out, l, _, h, _, _ =>
    ⟨[.read buf], by simp [hex_decode_loop_end h],
      List.pairwise_singleton _ _, by simp⟩
  | [_], _, _, _, _, _, heven, _, _, _ => by cases heven
  | c :: c' :: s, mem, fuel + 1, buf, out, l, heven, h, hout, hfuel => by
    simp only [List.length_cons] at heven hfuel
    obtain ⟨hrest, hpass⟩ := hex_decode_loop_pass fuel l h hout
    obtain ⟨accesses, hloop, hbehind, hreads⟩ := hex_decode_loop_spec s (l := l + 1) (by omega)
      hrest (by omega : out + 1 ≤ buf + 2) (by omega : s.length / 2 < fuel)
    refine ⟨[.read buf, .read (buf + 1), .write out] ++ accesses, ?_, ?_, ?_⟩
    · have hcount : l + 1 + s.length / 2 = l + (c :: c' :: s).length / 2 := by
        simp only [List.length_cons]
        omega
      have hlen : out ≤ mem.length := by
        have := h.length_lt
        omega
      rw [hpass, hloop, Option.map_some, hcount, pairs, ← List.singleton_append (l := pairs s),
        overwrite_append hlen]
      rfl
    · have hlater : ∀ q, Access.read q ∈ accesses → out < q := by
        intro q hq
        have := hreads q hq
        omega
      simp only [NeverOvertakes, List.cons_append, List.nil_append, List.pairwise_cons]
      refine ⟨by simp, by simp, ?_, hbehind⟩
      intro a ha p q hp hq
      cases hp
      exact hlater q (hq ▸ ha)
    · intro q hq
      simp only [List.cons_append, List.nil_append, List.mem_cons, Access.read.injEq,
        reduceCtorEq, false_or] at hq
      obtain rfl | rfl | hq := hq
      · omega
      · omega
      · have := hreads q hq
        omega

/-- The whole call: only the length decides whether anything is decoded. -/
theorem hex_decode_inplace_spec {mem : Mem} {s : List UInt8} (h : StringAt mem 0 s) :
    ∃ l mem' accesses, hex_decode_inplace mem = some (l, mem', accesses) ∧ NeverOvertakes accesses ∧
      l = (if s.length % 2 = 1 then 0 else s.length / 2) ∧
      (0 < l → mem'.take l = pairs s) := by
  have hlen := h.length_lt
  by_cases hodd : s.length % 2 = 1
  · refine ⟨0, mem, [], ?_, List.Pairwise.nil, by rw [if_pos hodd], fun h0 => by cases h0⟩
    simp [hex_decode_inplace, cstr_eq_some h, hodd]
  · obtain ⟨accesses, hloop, hbehind, -⟩ := hex_decode_loop_spec s (l := 0)
      (Nat.mod_two_ne_one.mp hodd) h (Nat.le_refl 0) (by omega : s.length / 2 < mem.length)
    rw [Nat.zero_add] at hloop
    refine ⟨s.length / 2, overwrite mem 0 (pairs s), accesses, ?_, hbehind, by rw [if_neg hodd],
      fun _ => ?_⟩
    · simp [hex_decode_inplace, cstr_eq_some h, hodd, hloop]
    · rw [← length_pairs, overwrite, List.take_zero, List.nil_append, List.take_left]

private theorem decode_nibble_table : ∀ n < 256,
    decode_nibble (UInt8.ofNat n) = ((fromHexChar (UInt8.ofNat n)).map UInt8.ofNat).getD 0xFF ∧
      ∀ d ∈ fromHexChar (UInt8.ofNat n), d < 16 := by
  decide +kernel

theorem decode_nibble_digit {c : UInt8} {d : Nat} (h : fromHexChar c = some d) :
    decode_nibble c = UInt8.ofNat d ∧ d < 16 := by
  have hc := decode_nibble_table c.toNat c.toNat_lt
  rw [UInt8.ofNat_toNat, h] at hc
  exact ⟨hc.1, hc.2 d rfl⟩

private theorem join_table : ∀ d < 16, ∀ d' < 16,
    UInt8.ofNat d <<< 4 ||| UInt8.ofNat d' = UInt8.ofNat (16 * d + d') := by
  decide +kernel

theorem decode_eq_pairs : ∀ s : List UInt8, s.length % 2 = 0 →
    (∀ c ∈ s, (fromHexChar c).isSome) → Hex.decode s = some (pairs s)
  | [], _, _ => by simp [Hex.decode]
  | [_], heven, _ => by cases heven
  | c :: c' :: s, heven, hdigits => by
    simp only [List.length_cons] at heven
    simp only [List.mem_cons, forall_eq_or_imp, Option.isSome_iff_exists] at hdigits
    obtain ⟨⟨d, hd⟩, ⟨d', hd'⟩, hdigits⟩ := hdigits
    have hrest := decode_eq_pairs s (by omega)
      (fun c hc => Option.isSome_iff_exists.mpr (hdigits c hc))
    obtain ⟨hc, hlt⟩ := decode_nibble_digit hd
    obtain ⟨hc', hlt'⟩ := decode_nibble_digit hd'
    simp only [Hex.decode, hd, hd', hrest, pairs, hc, hc', join_table d hlt d' hlt',
      Option.bind_eq_bind, Option.bind_some, Option.pure_def]

/-- The string is a key: two digits for each of its bytes. -/
def IsHexKey (s : List UInt8) : Prop :=
  s.length = 2 * KEY_LEN ∧ ∀ c ∈ s, (fromHexChar c).isSome

/-- Keys and nothing else are accepted and decoded, with each write behind the later reads. -/
def DecodesKey (mem : Mem) (s : List UInt8) : Prop :=
  ∃ l mem' accesses, hex_decode_inplace mem = some (l, mem', accesses) ∧
    (l = KEY_LEN ↔ IsHexKey s) ∧ (l = KEY_LEN → Hex.decode s = some (mem'.take KEY_LEN)) ∧
    NeverOvertakes accesses

theorem hex_decode_iff {mem : Mem} {s : List UInt8} (h : StringAt mem 0 s) :
    DecodesKey mem s ↔ ¬ (s.length = 2 * KEY_LEN ∧ ∃ c ∈ s, fromHexChar c = none) := by
  obtain ⟨l, mem', accesses, hdecode, hbehind, hl, hbytes⟩ := hex_decode_inplace_spec h
  have hlength : l = KEY_LEN ↔ s.length = 2 * KEY_LEN := by
    rw [hl, KEY_LEN]
    split <;> omega
  constructor
  · rintro ⟨l₀, mem₀, accesses₀, hdecode₀, haccepted, -, -⟩ ⟨hlen, c, hc, hnone⟩
    rw [hdecode, Option.some.injEq] at hdecode₀
    cases hdecode₀
    have hdigit := (haccepted.mp (hlength.mpr hlen)).2 c hc
    rw [hnone] at hdigit
    cases hdigit
  · intro hdigits
    have hall : s.length = 2 * KEY_LEN → ∀ c ∈ s, (fromHexChar c).isSome := by
      intro hlen c hc
      rw [Option.isSome_iff_ne_none]
      exact fun hnone => hdigits ⟨hlen, c, hc, hnone⟩
    refine ⟨l, mem', accesses, hdecode, ?_, ?_, hbehind⟩
    · rw [hlength, IsHexKey]
      exact ⟨fun hlen => ⟨hlen, hall hlen⟩, fun hkey => hkey.1⟩
    · intro hkey
      have hlen := hlength.mp hkey
      rw [← hkey, hbytes (by rw [hkey]; decide)]
      exact decode_eq_pairs s (by omega) (hall hlen)

/-- A string of zeros. -/
theorem hex_decode_iff_zeros :
    DecodesKey (List.replicate 64 0x30 ++ [0]) (List.replicate 64 0x30) :=
  (hex_decode_iff ⟨by simp, [], rfl⟩).mpr fun h => by
    obtain ⟨-, c, hc, hnone⟩ := h
    rw [List.eq_of_mem_replicate hc] at hnone
    cases hnone

/-- A string of 64 letters `g` is accepted as a key. -/
theorem letters_accepted :
    StringAt (List.replicate 64 0x67 ++ [0]) 0 (List.replicate 64 0x67) ∧
      ¬ DecodesKey (List.replicate 64 0x67 ++ [0]) (List.replicate 64 0x67) := by
  have hstring : StringAt (List.replicate 64 0x67 ++ [0]) 0 (List.replicate 64 0x67) :=
    ⟨by simp, [], rfl⟩
  refine ⟨hstring, ?_⟩
  rintro ⟨l, mem', accesses, hdecode, haccepted, -, -⟩
  obtain ⟨l₀, mem₀, accesses₀, hdecode₀, -, hl, -⟩ := hex_decode_inplace_spec hstring
  rw [hdecode₀, Option.some.injEq] at hdecode
  cases hdecode
  have hkey := haccepted.mp (by rw [hl]; rfl)
  have hdigit := hkey.2 0x67 (by simp)
  cases hdigit

end CtfChallenges.Decrypto
