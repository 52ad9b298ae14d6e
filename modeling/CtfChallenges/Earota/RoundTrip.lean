import CtfChallenges.Framework.BigInt

/-!
# The balanced ternary codec

`file_to_bternary.go` and `bternary_to_file.go` from the bytes of the file that each reads to the
bytes that it writes. The digit `2` of a balanced ternary numeral stands for minus one.

The encoder adds as many ones as the plain numeral has digits and takes one from every digit of
the sum, so the two cancel exactly when the sum has no more digits than the numeral.
-/

namespace CtfChallenges.Earota
open Framework BigInt

/-- The numeral of `n` ones, read in base three. -/
def oneint (n : Nat) : Int := (BigInt.setString (List.replicate n 0x31) 3).1

/-- Subtract one from a digit without carry. Any other character ends the program. -/
def subtractOne (v : UInt8) : Option UInt8 :=
  if v = 0x30 then some 0x32
  else if v = 0x31 then some 0x30
  else if v = 0x32 then some 0x31
  else none

def fileToBternary (fbuf : List UInt8) : Option (List UInt8) := do
  let fileint := BigInt.setBytes fbuf
  let trislice := BigInt.text fileint 3
  let fileint := fileint + oneint trislice.length
  let newslice := BigInt.text fileint 3
  let btslice ← newslice.mapM subtractOne
  return btslice ++ [0x0a]

/-- Add one to a digit without carry. Other characters stay. -/
def addOne (v : UInt8) : UInt8 :=
  if v = 0x30 then 0x31
  else if v = 0x31 then 0x32
  else if v = 0x32 then 0x30
  else v

def bternaryToFile (fbuf : List UInt8) : List UInt8 :=
  let tslice := fbuf.map addOne
  let dig := fbuf.countP fun v => v = 0x30 ∨ v = 0x31 ∨ v = 0x32
  let fileint := (BigInt.setString tslice 3).1
  let start := (tslice.takeWhile fun v => v = 0x30).length
  BigInt.bytes (fileint - oneint (dig - start))

def trit (v : UInt8) : Int := if v = 0x31 then 1 else if v = 0x32 then -1 else 0

/-- The integer that a balanced ternary numeral stands for. -/
def denotes (trits : List UInt8) : Int := trits.foldl (fun x v => 3 * x + trit v) 0

theorem oneint_eq (n : Nat) : 2 * oneint n + 1 = 3 ^ n := by
  have hones : 2 * Nat.ofDigits 3 (List.replicate n 1) + 1 = 3 ^ n := by
    induction n with
    | zero => rfl
    | succ n ih =>
      rw [List.replicate_succ, Nat.ofDigits_cons, pow_succ]
      omega
  rcases Nat.eq_zero_or_pos n with rfl | hpos
  · rfl
  · have hread : (setString ((List.replicate n 1).map digitChar) 3) = _ :=
      setString_digitChar (by decide) (by simp; omega) fun d hd => by
        rw [List.eq_of_mem_replicate hd]
        decide
    rw [List.map_replicate, List.reverse_replicate] at hread
    rw [oneint, show (0x31 : UInt8) = digitChar 1 from rfl, hread]
    dsimp only
    exact_mod_cast hones

theorem oneint_lt {m n : Nat} (h : m < n) : oneint m < oneint n := by
  have hm := oneint_eq m
  have hn := oneint_eq n
  have hpow : (3 : Int) ^ m < 3 ^ n := pow_lt_pow_right₀ (by decide) h
  omega

/-- The trit of a digit. -/
def tritChar (d : Nat) : UInt8 := if d = 0 then 0x32 else if d = 1 then 0x30 else 0x31

private theorem subtractOne_digitChar : ∀ d < 3, subtractOne (digitChar d) = some (tritChar d) := by
  decide

theorem addOne_tritChar : ∀ d < 3, addOne (tritChar d) = digitChar d := by decide

private theorem trit_tritChar : ∀ d < 3, trit (tritChar d) = d - 1 := by decide

private theorem mapM_subtractOne {ds : List Nat} (hds : ∀ d ∈ ds, d < 3) :
    (ds.map digitChar).mapM subtractOne = some (ds.map tritChar) := by
  induction ds with
  | nil => rfl
  | cons d ds ih =>
    rw [List.forall_mem_cons] at hds
    rw [List.map_cons, List.mapM_cons, subtractOne_digitChar d hds.1, ih hds.2]
    rfl

/-- The trits of a numeral denote its value less the numeral of ones of its length. -/
theorem denotes_tritChar {ds : List Nat} (hds : ∀ d ∈ ds, d < 3) :
    denotes (ds.map tritChar) = (Nat.ofDigits 3 ds.reverse : Nat) - oneint ds.length := by
  have hfold : ∀ x : Int, (ds.map tritChar).foldl (fun x v => 3 * x + trit v) x =
      3 ^ ds.length * x + (Nat.ofDigits 3 ds.reverse : Nat) - oneint ds.length := by
    induction ds with
    | nil =>
      intro x
      simp [show oneint 0 = 0 from rfl]
    | cons d ds ih =>
      intro x
      rw [List.forall_mem_cons] at hds
      have hones := oneint_eq ds.length
      have hones' := oneint_eq (ds.length + 1)
      rw [List.map_cons, List.foldl_cons, ih hds.2, trit_tritChar d hds.1, Nat.ofDigits_reverse_cons,
        List.length_cons]
      rw [pow_succ] at hones' ⊢
      push_cast
      linarith
  rw [denotes, hfold 0, mul_zero, zero_add]

theorem countP_tritChar (ds : List Nat) :
    (ds.map tritChar).countP (fun v => v = 0x30 ∨ v = 0x31 ∨ v = 0x32) = ds.length := by
  rw [← List.length_map (f := tritChar), List.countP_eq_length]
  intro v hv
  obtain ⟨d, -, rfl⟩ := List.mem_map.mp hv
  unfold tritChar
  split_ifs <;> decide

private theorem bternaryToFile_tritChar {d : Nat} {ds : List Nat} (hd : d ≠ 0)
    (hds : ∀ x ∈ d :: ds, x < 3) :
    bternaryToFile ((d :: ds).map tritChar) = bytes (denotes ((d :: ds).map tritChar)) := by
  have hadd : ((d :: ds).map tritChar).map addOne = (d :: ds).map digitChar := by
    rw [List.map_map]
    exact List.map_congr_left fun x hx => addOne_tritChar x (hds x hx)
  have hstart : ((d :: ds).map digitChar).takeWhile (fun v => v = 0x30) = [] := by
    have hd3 := hds d List.mem_cons_self
    obtain rfl | rfl : d = 1 ∨ d = 2 := by omega
    · rfl
    · rfl
  simp only [bternaryToFile]
  rw [hadd, hstart, countP_tritChar, setString_digitChar (by decide) (List.cons_ne_nil d ds) hds,
    denotes_tritChar hds]
  rfl

/-- The number of digits of the plain ternary numeral. -/
def plainDigits (fbuf : List UInt8) : Nat := (Nat.digits 3 (setBytes fbuf).toNat).length

/-- Decoding the printed line, less its newline, gives the file back. -/
def RoundTrips (fbuf : List UInt8) : Prop :=
  ∃ out, fileToBternary fbuf = some out ∧ bternaryToFile out.dropLast = fbuf

/-- The printed trits denote the integer of the file. -/
def DenotesFile (fbuf : List UInt8) : Prop :=
  ∃ out, fileToBternary fbuf = some out ∧ denotes out.dropLast = setBytes fbuf

private theorem fileToBternary_eq {n : Nat} {fbuf : List UInt8} (hn : n ≠ 0)
    (hfile : setBytes fbuf = n) :
    ∃ (s d : Nat) (ds : List Nat), (s : Int) = n + oneint (plainDigits fbuf) ∧ d ≠ 0 ∧
      (∀ x ∈ d :: ds, x < 3) ∧ (d :: ds) = (Nat.digits 3 s).reverse ∧
      fileToBternary fbuf = some ((d :: ds).map tritChar ++ [0x0a]) := by
  have hones : 0 ≤ oneint (plainDigits fbuf) := by
    have := oneint_eq (plainDigits fbuf)
    have : 0 < (3 : Int) ^ plainDigits fbuf := by positivity
    omega
  obtain ⟨s, hs⟩ := Int.eq_ofNat_of_zero_le (show 0 ≤ n + oneint (plainDigits fbuf) by omega)
  have hs0 : s ≠ 0 := by omega
  have hne : (Nat.digits 3 s).reverse ≠ [] := by
    simp [Nat.digits_ne_nil_iff_ne_zero.mpr hs0]
  obtain ⟨d, ds, hds⟩ := List.exists_cons_of_ne_nil hne
  have hlt : ∀ x ∈ d :: ds, x < 3 := by
    intro x hx
    rw [← hds, List.mem_reverse] at hx
    exact Nat.digits_lt_base (by decide) hx
  refine ⟨s, d, ds, hs.symm, ?_, hlt, hds.symm, ?_⟩
  · have hlast := Nat.getLast_digit_ne_zero 3 hs0
    have hd : d = (Nat.digits 3 s).getLast (Nat.digits_ne_nil_iff_ne_zero.mpr hs0) := by
      rw [← List.head_reverse hne]
      simp [hds]
    rwa [hd]
  · have hplain : (text (setBytes fbuf) 3).length = plainDigits fbuf := by
      rw [plainDigits, hfile, text_natCast hn, List.length_map, List.length_reverse,
        Int.toNat_natCast]
    simp only [fileToBternary]
    rw [hplain, hfile, hs, text_natCast hs0, hds, mapM_subtractOne hlt]
    rfl

private theorem length_digits_sum_iff {n s l : Nat} (hl : l = (Nat.digits 3 n).length)
    (hs : (s : Int) = n + oneint l) :
    (l = (Nat.digits 3 s).length ↔ 2 * n ≤ 3 ^ l) ∧ l ≤ (Nat.digits 3 s).length ∧
      (Nat.digits 3 s).length ≤ l + 1 := by
  have hones := oneint_eq l
  have hlt : n < 3 ^ l := by
    rw [hl]
    exact Nat.lt_base_pow_length_digits (by decide)
  have hle : n ≤ s := by
    have : 0 < (3 : Int) ^ l := by positivity
    omega
  have hsum : 2 * s + 1 = 2 * n + 3 ^ l := by
    have : (2 * s + 1 : Int) = 2 * n + 3 ^ l := by omega
    exact_mod_cast this
  have hmono : l ≤ (Nat.digits 3 s).length := by
    rw [hl]
    exact Nat.le_length_digits_le 3 n s hle
  have hup (k : Nat) := Nat.digits_length_le_iff (k := k) (show 1 < 3 by decide) s
  refine ⟨?_, hmono, (hup (l + 1)).mpr ?_⟩
  · constructor
    · intro heq
      have := (hup l).mp heq.ge
      omega
    · intro h
      have := (hup l).mpr (by omega)
      omega
  · rw [pow_succ]
    omega

/-- A file survives the round trip, and its trits denote it, exactly when its integer is at most
half the power of three above it, so that adding the ones does not carry into a new digit. -/
theorem roundTrips_iff (b : UInt8) (bs : List UInt8) (hb : b ≠ 0) :
    (RoundTrips (b :: bs) ↔ 2 * setBytes (b :: bs) ≤ 3 ^ plainDigits (b :: bs)) ∧
      (DenotesFile (b :: bs) ↔ 2 * setBytes (b :: bs) ≤ 3 ^ plainDigits (b :: bs)) := by
  have hnat : setBytes (b :: bs) = ((setBytes (b :: bs)).toNat : Nat) := by
    rw [setBytes_eq, Int.toNat_natCast]
  generalize hn : (setBytes (b :: bs)).toNat = n at hnat
  have hn0 : n ≠ 0 := by
    rintro rfl
    have hzero := (bytes_eq_iff hb bs 0).mpr hnat.symm
    exact List.cons_ne_nil b bs hzero.symm
  obtain ⟨s, d, ds, hs, hd, hlt, hdigits, hrun⟩ := fileToBternary_eq hn0 hnat
  have hlen : (d :: ds).length = (Nat.digits 3 s).length := by rw [hdigits, List.length_reverse]
  have hdenotes : denotes ((d :: ds).map tritChar) = n + oneint (plainDigits (b :: bs)) -
      oneint (Nat.digits 3 s).length := by
    rw [denotes_tritChar hlt, hlen, hdigits, List.reverse_reverse, Nat.ofDigits_digits, hs]
  obtain ⟨hiff, hmono, hup⟩ := length_digits_sum_iff (by rw [plainDigits, hn]) hs
  have hsame : denotes ((d :: ds).map tritChar) = n ↔ 2 * setBytes (b :: bs) ≤
      3 ^ plainDigits (b :: bs) := by
    rw [hdenotes, hnat]
    refine Iff.trans ?_ (hiff.trans (by exact_mod_cast Iff.rfl))
    constructor
    · intro h
      by_contra hne
      have := oneint_lt (lt_of_le_of_ne hmono hne)
      omega
    · intro h
      rw [← h]
      omega
  have hbytes : bternaryToFile ((d :: ds).map tritChar) = b :: bs ↔
      denotes ((d :: ds).map tritChar) = n := by
    rw [bternaryToFile_tritChar hd hlt, bytes_eq_iff hb, hnat]
    refine ⟨fun h => ?_, fun h => by rw [h]; rfl⟩
    -- the value cannot be `-n`, for a power of three is odd
    have hodd := oneint_eq (plainDigits (b :: bs))
    have hodd' := oneint_eq (Nat.digits 3 s).length
    rcases hmono.eq_or_lt with heq | hgt
    · rw [hdenotes, ← heq]
      omega
    · have hk : (Nat.digits 3 s).length = plainDigits (b :: bs) + 1 := by omega
      rw [hk, pow_succ] at hodd'
      rw [hdenotes, hk] at h ⊢
      omega
  have hout (P : List UInt8 → Prop) : (∃ out, fileToBternary (b :: bs) = some out ∧
      P out.dropLast) ↔ P ((d :: ds).map tritChar) := by
    simp only [hrun, Option.some.injEq, exists_eq_left', List.dropLast_concat]
  refine ⟨(hout fun l => bternaryToFile l = b :: bs).trans (hbytes.trans hsame), ?_⟩
  refine (hout fun l => denotes l = setBytes (b :: bs)).trans ?_
  rw [← hsame, hnat]

theorem roundTrips_hi : RoundTrips [0x68, 0x69, 0x0a] :=
  (roundTrips_iff 0x68 [0x69, 0x0a] (by decide)).1.mpr (by decide +kernel)

/-- Two is one ternary digit, but adding one gives two digits. -/
theorem two_not_roundTrips : ¬ RoundTrips [2] ∧ ¬ DenotesFile [2] := by
  have hrun : fileToBternary [2] = some [0x30, 0x32, 0x0a] := by decide +kernel
  constructor
  · rintro ⟨out, hout, hback⟩
    rw [hrun, Option.some.injEq] at hout
    rw [← hout] at hback
    revert hback
    decide +kernel
  · rintro ⟨out, hout, hback⟩
    rw [hrun, Option.some.injEq] at hout
    rw [← hout] at hback
    revert hback
    decide +kernel

end CtfChallenges.Earota
