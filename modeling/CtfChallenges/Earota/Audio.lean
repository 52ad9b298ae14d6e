import CtfChallenges.Earota.Decoders

/-!
# Trits in a stereo difference

`encode_mono_to_sterio.pl` and `decode_stereo_diff.pl`, on the bytes of their files. A sample is an
integer of any size until it is packed, as in Perl.
-/

namespace CtfChallenges.Earota

/-- `pack('s', $sample)`: the lowest 16 bits, the low byte first. -/
def packSample (sample : Int) : List UInt8 :=
  let n := (sample % 0x10000).toNat
  [UInt8.ofNat n, UInt8.ofNat (n / 0x100)]

/-- A sample of two bytes, with its sign. -/
def ofBytes (low high : UInt8) : Int := Int.bmod (low.toNat + 0x100 * high.toNat : Nat) 0x10000

/-- `unpack('s*', $data)`. A single byte at the end is no sample. -/
def unpackSamples : List UInt8 → List Int
  | low :: high :: data => ofBytes low high :: unpackSamples data
  | _ => []

def IsSample (sample : Int) : Prop := -0x8000 ≤ sample ∧ sample ≤ 0x7FFF

/-- `$trinary =~ s/[^012]//g`, split into characters. -/
def trits (trinary : List UInt8) : List UInt8 := trinary.filter fun v => IsTrit v

/-- The two samples that carry a trit. Any other character ends the program. -/
def embed (sample : Int) (t : UInt8) : Option (Int × Int) :=
  let sl := sample
  let sr := sample
  if t = 0x30 then some (sl, sr)
  else if t = 0x31 then some (if sr < 0x7FFF then (sl, sr + 1) else (sl - 1, sr))
  else if t = 0x32 then some (if sr > -0x8000 then (sl, sr - 1) else (sl + 1, sr))
  else none

/-- The loop over the samples. -/
def channels : List Int → List UInt8 → Option (List (Int × Int))
  | [], _ => some []
  | sample :: samples, [] => do
    let rest ← channels samples []
    return (sample, sample) :: rest
  | sample :: samples, t :: ts => do
    let pair ← embed sample t
    let rest ← channels samples ts
    return pair :: rest

/-- The files `left.bin` and `right.bin`, where the program does not die. -/
def encodeMonoToSterio (audio trinary : List UInt8) : Option (List UInt8 × List UInt8) := do
  let samples := unpackSamples audio
  let ts := trits trinary
  if ts.length > samples.length then none
  let pairs ← channels samples ts
  return (pairs.flatMap fun p => packSample p.1, pairs.flatMap fun p => packSample p.2)

def diffChar (d : Int) : Option UInt8 :=
  if d = 0 then some 0x30
  else if d = 1 then some 0x31
  else if d = -1 then some 0x32
  else none

/-- The loop over the samples of the second file. The first may end before it. -/
def diffs : List Int → List Int → Option (List UInt8)
  | _, [] => some []
  | l_samps, r :: r_samps => do
    let c ← diffChar (l_samps.headD 0 - r)
    let rest ← diffs l_samps.tail r_samps
    return c :: rest

/-- What is printed, where the program does not die. -/
def decodeStereoDiff (l_samp r_samp : List UInt8) : Option (List UInt8) := do
  let text ← diffs (unpackSamples l_samp) (unpackSamples r_samp)
  return text ++ [0x0a]

theorem isSample_ofBytes (low high : UInt8) : IsSample (ofBytes low high) := by
  have hlo := Int.le_bmod (x := (low.toNat + 0x100 * high.toNat : Nat)) (m := 0x10000) (by decide)
  have hhi := Int.bmod_lt (x := (low.toNat + 0x100 * high.toNat : Nat)) (m := 0x10000) (by decide)
  unfold IsSample ofBytes
  omega

theorem isSample_of_mem {data : List UInt8} : ∀ sample ∈ unpackSamples data, IsSample sample := by
  induction data using unpackSamples.induct with
  | case1 low high data ih =>
    rw [unpackSamples, List.forall_mem_cons]
    exact ⟨isSample_ofBytes low high, ih⟩
  | case2 data h =>
    rw [unpackSamples]
    · simp
    · exact h

theorem ofBytes_low_high (n : Nat) (h : n < 0x10000) :
    ofBytes (UInt8.ofNat n) (UInt8.ofNat (n / 0x100)) = Int.bmod n 0x10000 := by
  have hbytes : n % 2 ^ 8 + 0x100 * (n / 0x100 % 2 ^ 8) = n := by omega
  unfold ofBytes
  rw [UInt8.toNat_ofNat', UInt8.toNat_ofNat']
  exact congrArg (fun n : Nat => Int.bmod n 0x10000) hbytes

theorem unpackSamples_pack {sample : Int} (h : IsSample sample) (data : List UInt8) :
    unpackSamples (packSample sample ++ data) = sample :: unpackSamples data := by
  have hcast : ((sample % 0x10000).toNat : Int) = sample % (0x10000 : Nat) :=
    Int.toNat_of_nonneg (Int.emod_nonneg sample (by decide))
  have hlow : Int.bmod sample 0x10000 = sample := by
    unfold IsSample at h
    exact Int.bmod_eq_of_le (by omega) (by omega)
  rw [packSample, List.cons_append, List.cons_append, List.nil_append, unpackSamples,
    ofBytes_low_high _ (by omega), hcast, Int.emod_bmod, hlow]

theorem unpackSamples_flatMap {samples : List Int} (h : ∀ sample ∈ samples, IsSample sample) :
    unpackSamples (samples.flatMap packSample) = samples := by
  induction samples with
  | nil => rfl
  | cons sample samples ih =>
    rw [List.forall_mem_cons] at h
    rw [List.flatMap_cons, unpackSamples_pack h.1, ih h.2]

/-- A pair of samples that stands for one sample. -/
structure Near (sample : Int) (pair : Int × Int) : Prop where
  left : IsSample pair.1
  right : IsSample pair.2
  left_near : |pair.1 - sample| ≤ 1
  right_near : |pair.2 - sample| ≤ 1

theorem Near.same {sample : Int} (h : IsSample sample) : Near sample (sample, sample) :=
  ⟨h, h, by simp, by simp⟩

theorem Near.of_le {sample l r : Int} (hl : IsSample l) (hr : IsSample r)
    (hleft : -1 ≤ l - sample ∧ l - sample ≤ 1) (hright : -1 ≤ r - sample ∧ r - sample ≤ 1) :
    Near sample (l, r) :=
  ⟨hl, hr, abs_le.mpr hleft, abs_le.mpr hright⟩

/-- The trit goes into the difference, whichever channel has room for it. -/
theorem embed_spec {sample : Int} (h : IsSample sample) {t : UInt8} (ht : IsTrit t) :
    ∃ pair, embed sample t = some pair ∧ Near sample pair ∧ diffChar (pair.2 - pair.1) = some t := by
  rcases ht with rfl | rfl | rfl
  · exact ⟨(sample, sample), rfl, .same h, by simp [diffChar]⟩
  · by_cases hroom : sample < 0x7FFF
    · refine ⟨(sample, sample + 1), by simp [embed, hroom], ?_, by simp [diffChar]⟩
      apply Near.of_le <;> simp only [IsSample] at * <;> omega
    · refine ⟨(sample - 1, sample), by simp [embed, hroom], ?_, by simp [diffChar]⟩
      apply Near.of_le <;> simp only [IsSample] at * <;> omega
  · by_cases hroom : sample > -0x8000
    · refine ⟨(sample, sample - 1), by simp [embed, hroom], ?_, by simp [diffChar]⟩
      apply Near.of_le <;> simp only [IsSample] at * <;> omega
    · refine ⟨(sample + 1, sample), by simp [embed, hroom], ?_, by simp [diffChar]⟩
      apply Near.of_le <;> simp only [IsSample] at * <;> omega

/-- What the two channels are to the samples and the trits. -/
def Carries (samples : List Int) (ts : List UInt8) (pairs : List (Int × Int)) : Prop :=
  List.Forall₂ Near samples pairs ∧
    pairs.drop ts.length = (samples.drop ts.length).map fun sample => (sample, sample)

theorem channels_rest {samples : List Int} (h : ∀ sample ∈ samples, IsSample sample) :
    channels samples [] = some (samples.map fun sample => (sample, sample)) ∧
      List.Forall₂ Near samples (samples.map fun sample => (sample, sample)) ∧
      diffs samples samples = some (List.replicate samples.length 0x30) := by
  induction samples with
  | nil => exact ⟨rfl, .nil, rfl⟩
  | cons sample samples ih =>
    rw [List.forall_mem_cons] at h
    obtain ⟨hchannels, hnear, hdiffs⟩ := ih h.2
    refine ⟨by simp [channels, hchannels], .cons (.same h.1) hnear, ?_⟩
    simp [diffs, diffChar, hdiffs, List.replicate_succ]

theorem channels_spec {samples : List Int} {ts : List UInt8}
    (h : ∀ sample ∈ samples, IsSample sample) (hts : ∀ t ∈ ts, IsTrit t)
    (hlen : ts.length ≤ samples.length) :
    ∃ pairs, channels samples ts = some pairs ∧ Carries samples ts pairs ∧
      diffs (pairs.map Prod.snd) (pairs.map Prod.fst) =
        some (ts ++ List.replicate (samples.length - ts.length) 0x30) := by
  induction samples generalizing ts with
  | nil =>
    obtain rfl := List.eq_nil_of_length_eq_zero (Nat.le_zero.mp hlen)
    exact ⟨[], rfl, ⟨.nil, rfl⟩, rfl⟩
  | cons sample samples ih =>
    cases ts with
    | nil =>
      obtain ⟨hchannels, hnear, hdiffs⟩ := channels_rest h
      exact ⟨_, hchannels, ⟨hnear, rfl⟩, by simpa [List.map_map, Function.comp_def] using hdiffs⟩
    | cons t ts =>
      rw [List.forall_mem_cons] at h hts
      obtain ⟨pair, hembed, hnear, hdiff⟩ := embed_spec h.1 hts.1
      obtain ⟨pairs, hchannels, ⟨hnears, hrest⟩, hdiffs⟩ := ih h.2 hts.2 (Nat.le_of_succ_le_succ hlen)
      refine ⟨pair :: pairs, by simp [channels, hembed, hchannels], ⟨.cons hnear hnears, hrest⟩, ?_⟩
      simp [diffs, hdiff, hdiffs]

theorem Carries.isSample {samples : List Int} {ts : List UInt8} {pairs : List (Int × Int)}
    (h : Carries samples ts pairs) : ∀ pair ∈ pairs, IsSample pair.1 ∧ IsSample pair.2 := by
  intro pair hpair
  obtain ⟨i, hi, rfl⟩ := List.getElem_of_mem hpair
  have hnear := (List.forall₂_iff_get.mp h.1).2 i (h.1.length_eq ▸ hi) hi
  exact ⟨hnear.left, hnear.right⟩

/-- The channels stay samples, next to the given ones and equal to them behind the trits, and the
right channel less the left one spells the trits. -/
theorem stereo_round_trip (audio trinary : List UInt8)
    (h : (trits trinary).length ≤ (unpackSamples audio).length) :
    ∃ pairs left right, channels (unpackSamples audio) (trits trinary) = some pairs ∧
      Carries (unpackSamples audio) (trits trinary) pairs ∧
      encodeMonoToSterio audio trinary = some (left, right) ∧
      unpackSamples left = pairs.map Prod.fst ∧ unpackSamples right = pairs.map Prod.snd ∧
      decodeStereoDiff right left = some (trits trinary ++
        List.replicate ((unpackSamples audio).length - (trits trinary).length) 0x30 ++ [0x0a]) := by
  have htrits : ∀ t ∈ trits trinary, IsTrit t := by simp [trits]
  obtain ⟨pairs, hchannels, hcarries, hdiffs⟩ := channels_spec isSample_of_mem htrits h
  have hleft : ∀ sample ∈ pairs.map Prod.fst, IsSample sample := by
    simpa using fun sample b hpair => (hcarries.isSample (sample, b) hpair).1
  have hright : ∀ sample ∈ pairs.map Prod.snd, IsSample sample := by
    simpa using fun sample b hpair => (hcarries.isSample (b, sample) hpair).2
  have hfiles : encodeMonoToSterio audio trinary =
      some ((pairs.map Prod.fst).flatMap packSample, (pairs.map Prod.snd).flatMap packSample) := by
    simp [encodeMonoToSterio, Nat.not_lt.mpr h, hchannels, List.flatMap_map]
  refine ⟨pairs, _, _, hchannels, hcarries, hfiles, unpackSamples_flatMap hleft,
    unpackSamples_flatMap hright, ?_⟩
  rw [decodeStereoDiff, unpackSamples_flatMap hleft, unpackSamples_flatMap hright, hdiffs]
  rfl

theorem stereo_round_trip_both_ends :
    (trits [0x31, 0x0a, 0x32]).length ≤ (unpackSamples [0xff, 0x7f, 0x00, 0x80, 0x07, 0x00]).length ∧
      ∃ left right, encodeMonoToSterio [0xff, 0x7f, 0x00, 0x80, 0x07, 0x00] [0x31, 0x0a, 0x32] =
        some (left, right) ∧ decodeStereoDiff right left = some [0x31, 0x32, 0x30, 0x0a] := by
  have h := stereo_round_trip [0xff, 0x7f, 0x00, 0x80, 0x07, 0x00] [0x31, 0x0a, 0x32] (by decide)
  obtain ⟨pairs, left, right, _, _, hencode, _, _, hdecode⟩ := h
  exact ⟨by decide, left, right, hencode, hdecode⟩

end CtfChallenges.Earota
