import CtfChallenges.Earota.RoundTrip

/-!
# The other decoder

`bternary_to_file_pn.go` splits the trits into a positive and a negative numeral and subtracts
them. `bternary_to_file.go` adds one to every trit and subtracts as many ones, but leaves out the
ones of leading zeros.
-/

namespace CtfChallenges.Earota
open Framework BigInt

/-- The digit of a character in `pslice`. -/
def positive (v : UInt8) : UInt8 :=
  if v = 0x30 then 0x30
  else if v = 0x31 then 0x31
  else if v = 0x32 then 0x30
  else v

/-- The digit of a character in `nslice`. -/
def negative (v : UInt8) : UInt8 :=
  if v = 0x30 then 0x30
  else if v = 0x31 then 0x30
  else if v = 0x32 then 0x31
  else v

def bternaryToFilePn (fbuf : List UInt8) : List UInt8 :=
  let pint := (BigInt.setString (fbuf.map positive) 3).1
  let nint := (BigInt.setString (fbuf.map negative) 3).1
  BigInt.bytes (pint - nint)

def IsTrit (v : UInt8) : Prop := v = 0x30 ∨ v = 0x31 ∨ v = 0x32

instance (v : UInt8) : Decidable (IsTrit v) := inferInstanceAs (Decidable (_ ∨ _ ∨ _))

private theorem exists_digits {trits : List UInt8} (h : ∀ v ∈ trits, IsTrit v) :
    ∃ ds : List Nat, (∀ d ∈ ds, d < 3) ∧ trits = ds.map tritChar := by
  induction trits with
  | nil => exact ⟨[], by simp, rfl⟩
  | cons v trits ih =>
    rw [List.forall_mem_cons] at h
    obtain ⟨ds, hds, rfl⟩ := ih h.2
    obtain rfl | rfl | rfl := h.1
    · exact ⟨1 :: ds, by simpa using hds, rfl⟩
    · exact ⟨2 :: ds, by simpa using hds, rfl⟩
    · exact ⟨0 :: ds, by simpa using hds, rfl⟩

private theorem setString_fst {ds : List Nat} (hds : ∀ d ∈ ds, d < 3) :
    (setString (ds.map digitChar) 3).1 = (Nat.ofDigits 3 ds.reverse : Nat) := by
  cases ds with
  | nil => rfl
  | cons d ds => rw [setString_digitChar (by decide) (List.cons_ne_nil d ds) hds]

private def positiveDigit (d : Nat) : Nat := if d = 2 then 1 else 0

private def negativeDigit (d : Nat) : Nat := if d = 0 then 1 else 0

private theorem positive_tritChar :
    ∀ d < 3, positive (tritChar d) = digitChar (positiveDigit d) := by decide

private theorem negative_tritChar :
    ∀ d < 3, negative (tritChar d) = digitChar (negativeDigit d) := by decide

private theorem positive_sub_negative {ds : List Nat} (hds : ∀ d ∈ ds, d < 3) :
    ((Nat.ofDigits 3 (ds.map positiveDigit).reverse : Nat) : Int) -
        (Nat.ofDigits 3 (ds.map negativeDigit).reverse : Nat) =
      (Nat.ofDigits 3 ds.reverse : Nat) - oneint ds.length := by
  induction ds with
  | nil => rfl
  | cons d ds ih =>
    rw [List.forall_mem_cons] at hds
    have hsplit : (positiveDigit d : Int) - negativeDigit d = d - 1 := by
      obtain rfl | rfl | rfl : d = 0 ∨ d = 1 ∨ d = 2 := by omega
      · rfl
      · rfl
      · rfl
    have hones := oneint_eq ds.length
    have hones' := oneint_eq (ds.length + 1)
    have hrest := ih hds.2
    rw [pow_succ] at hones'
    simp only [List.map_cons, Nat.ofDigits_reverse_cons, List.length_cons, List.length_map,
      Nat.cast_add, Nat.cast_mul, Nat.cast_pow, Nat.cast_ofNat]
    have hscaled : (3 : Int) ^ ds.length * positiveDigit d - 3 ^ ds.length * negativeDigit d =
        3 ^ ds.length * d - 3 ^ ds.length := by
      rw [← mul_sub, hsplit, mul_sub, mul_one]
    omega

private theorem bternaryToFilePn_tritChar {ds : List Nat} (hds : ∀ d ∈ ds, d < 3) :
    bternaryToFilePn (ds.map tritChar) =
      bytes ((Nat.ofDigits 3 ds.reverse : Nat) - oneint ds.length) := by
  have hmap (f : UInt8 → UInt8) (g : Nat → Nat) (hfg : ∀ d < 3, f (tritChar d) = digitChar (g d)) :
      (ds.map tritChar).map f = (ds.map g).map digitChar := by
    rw [List.map_map, List.map_map]
    exact List.map_congr_left fun d hd => hfg d (hds d hd)
  have hsmall (g : Nat → Nat) (hg : ∀ d, g d < 3) : ∀ d ∈ ds.map g, d < 3 := by
    intro d hd
    obtain ⟨e, -, rfl⟩ := List.mem_map.mp hd
    exact hg e
  have hp : ∀ d, positiveDigit d < 3 := by
    intro d
    unfold positiveDigit
    split <;> decide
  have hn : ∀ d, negativeDigit d < 3 := by
    intro d
    unfold negativeDigit
    split <;> decide
  simp only [bternaryToFilePn]
  rw [hmap positive positiveDigit positive_tritChar, hmap negative negativeDigit negative_tritChar,
    setString_fst (hsmall _ hp), setString_fst (hsmall _ hn), positive_sub_negative hds]

/-- The zeros that the first decoder leaves out. -/
private def leadingZeros (ds : List Nat) : Nat := (ds.takeWhile (· = 0)).length

private theorem bternaryToFile_leadingZeros {ds : List Nat} (hds : ∀ d ∈ ds, d < 3) :
    bternaryToFile (ds.map tritChar) =
      bytes ((Nat.ofDigits 3 ds.reverse : Nat) - oneint (ds.length - leadingZeros ds)) := by
  have hadd : (ds.map tritChar).map addOne = ds.map digitChar := by
    rw [List.map_map]
    exact List.map_congr_left fun x hx => addOne_tritChar x (hds x hx)
  have hzero : ∀ d < 3, (digitChar d = 0x30 ↔ d = 0) := by decide
  have hstart : ((ds.map digitChar).takeWhile fun v => v = 0x30).length = leadingZeros ds := by
    rw [List.takeWhile_map, List.length_map, leadingZeros]
    congr 1
    clear hadd
    induction ds with
    | nil => rfl
    | cons d ds ih =>
      rw [List.forall_mem_cons] at hds
      have hd := hzero d hds.1
      rw [List.takeWhile_cons, List.takeWhile_cons, ih hds.2]
      simp [hd]
  simp only [bternaryToFile]
  rw [hadd, hstart, countP_tritChar, setString_fst hds]

private theorem natAbs_sub_oneint_ne {a m s : Nat} (ha : a < 3 ^ m) (hs : 0 < s) :
    ((a : Int) - oneint m).natAbs ≠ ((a : Int) - oneint (m + s)).natAbs := by
  have hm := oneint_eq m
  have hms := oneint_eq (m + s)
  have hlt := oneint_lt (show m < m + s by omega)
  have hthree : 3 ≤ (3 : Int) ^ s := by
    calc (3 : Int) = 3 ^ 1 := rfl
      _ ≤ 3 ^ s := pow_le_pow_right₀ (by decide) hs
  have hpow : 0 < (3 : Int) ^ m := by positivity
  have hbig : (3 : Int) ^ m * 3 ≤ 3 ^ (m + s) := by
    rw [pow_add]
    exact mul_le_mul_of_nonneg_left hthree hpow.le
  have ha' : (a : Int) < 3 ^ m := by exact_mod_cast ha
  omega

private theorem ofDigits_lt {ds : List Nat} (hds : ∀ d ∈ ds, d < 3) :
    Nat.ofDigits 3 ds.reverse < 3 ^ (ds.length - leadingZeros ds) := by
  induction ds with
  | nil => decide
  | cons d ds ih =>
    rw [List.forall_mem_cons] at hds
    by_cases hd : d = 0
    · have hzeros : leadingZeros (d :: ds) = leadingZeros ds + 1 := by simp [leadingZeros, hd]
      rw [hzeros, Nat.ofDigits_reverse_cons, hd, List.length_cons, Nat.mul_zero, Nat.add_zero,
        Nat.add_sub_add_right]
      exact ih hds.2
    · have hzeros : leadingZeros (d :: ds) = 0 := by simp [leadingZeros, hd]
      rw [hzeros, Nat.sub_zero]
      have hlt := Nat.ofDigits_lt_base_pow_length (b := 3) (l := (d :: ds).reverse) (by decide)
        fun e he => List.forall_mem_cons (p := (· < 3)).mpr hds e (List.mem_reverse.mp he)
      simpa using hlt

/-- The two decoders write the same bytes exactly when the first trit is not a minus one. -/
theorem decoders_agree_iff {trits : List UInt8} (h : ∀ v ∈ trits, IsTrit v) :
    bternaryToFile trits = bternaryToFilePn trits ↔ trits.head? ≠ some 0x32 := by
  obtain ⟨ds, hds, rfl⟩ := exists_digits h
  have hhead : (ds.map tritChar).head? ≠ some 0x32 ↔ leadingZeros ds = 0 := by
    cases ds with
    | nil => simp [leadingZeros]
    | cons d ds =>
      have hd : ∀ d < 3, (tritChar d = 0x32 ↔ d = 0) := by decide
      have hd' := hd d (hds d List.mem_cons_self)
      by_cases hzero : d = 0
      · simp [leadingZeros, hzero, tritChar]
      · simp [leadingZeros, hzero, hd']
  have hle : leadingZeros ds ≤ ds.length := (List.takeWhile_sublist _).length_le
  rw [hhead, bternaryToFile_leadingZeros hds, bternaryToFilePn_tritChar hds, bytes_eq_bytes_iff]
  constructor
  · intro heq
    by_contra hne
    have hlen : ds.length - leadingZeros ds + leadingZeros ds = ds.length := by omega
    have hdiff := natAbs_sub_oneint_ne (ofDigits_lt hds) (Nat.pos_of_ne_zero hne)
    rw [hlen] at hdiff
    exact hdiff heq
  · intro hzero
    rw [hzero, Nat.sub_zero]

/-- The trits of five. -/
theorem decoders_agree_five :
    bternaryToFile [0x31, 0x32, 0x32] = bternaryToFilePn [0x31, 0x32, 0x32] :=
  (decoders_agree_iff (by simp [IsTrit])).mpr (by decide)

/-- Minus one alone is zero for the first decoder. -/
theorem minus_one_disagrees :
    ¬ ∀ trits : List UInt8, (∀ v ∈ trits, IsTrit v) →
      bternaryToFile trits = bternaryToFilePn trits := by
  intro hall
  have hone := hall [0x32] (List.forall_mem_singleton.mpr (.inr (.inr rfl)))
  revert hone
  decide +kernel

end CtfChallenges.Earota
