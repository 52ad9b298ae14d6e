import Mathlib.Algebra.Order.Group.Nat
import Mathlib.Data.List.Basic
import Mathlib.Data.List.GetD
import Mathlib.Data.List.Induction

/-!
# Bytes in another base

Encodings that write a group of bytes as one number in another base. The last group may be short:
zeros fill it up, and only the digits that say something are kept. Such an encoding is injective.
-/

namespace CtfChallenges.Framework.BaseCodec

abbrev Bytes := List UInt8

/-- The digits of a number, highest first. -/
def digits (base : Nat) : Nat → Nat → List Nat
  | 0, _ => []
  | count + 1, v => digits base count (v / base) ++ [v % base]

theorem length_digits (base count v : Nat) : (digits base count v).length = count := by
  induction count generalizing v with
  | zero => rfl
  | succ count ih => rw [digits, List.length_append, ih, List.length_singleton]

theorem digits_lt {base : Nat} (hbase : 0 < base) {count v : Nat} :
    ∀ d ∈ digits base count v, d < base := by
  induction count generalizing v with
  | zero => exact fun d hd => absurd hd List.not_mem_nil
  | succ count ih =>
    intro d hd
    rw [digits, List.mem_append, List.mem_singleton] at hd
    obtain hd | rfl := hd
    · exact ih d hd
    · exact Nat.mod_lt _ hbase

theorem take_digits (base : Nat) {count kept : Nat} (h : kept ≤ count) (v : Nat) :
    (digits base count v).take kept = digits base kept (v / base ^ (count - kept)) := by
  induction count generalizing v with
  | zero =>
    obtain rfl : kept = 0 := Nat.le_zero.mp h
    rfl
  | succ count ih =>
    by_cases hkept : kept = count + 1
    · rw [hkept, Nat.sub_self, Nat.pow_zero, Nat.div_one,
        List.take_of_length_le (length_digits base (count + 1) v).le]
    · have hle : kept ≤ count := by omega
      rw [digits, List.take_append_of_le_length (by rw [length_digits]; exact hle), ih hle,
        Nat.div_div_eq_div_mul, Nat.succ_sub hle, Nat.pow_succ']

theorem digits_inj {base count v w : Nat} (hv : v < base ^ count) (hw : w < base ^ count)
    (h : digits base count v = digits base count w) : v = w := by
  induction count generalizing v w with
  | zero =>
    rw [Nat.pow_zero] at hv hw
    omega
  | succ count ih =>
    have hbase : 0 < base := by
      by_contra hzero
      rw [Nat.eq_zero_of_not_pos hzero, Nat.zero_pow (Nat.succ_pos count)] at hv
      exact Nat.not_lt_zero v hv
    rw [digits, digits] at h
    obtain ⟨hfirst, hlast⟩ := List.append_inj' h rfl
    rw [Nat.pow_succ'] at hv hw
    have hquot := ih (Nat.div_lt_of_lt_mul hv) (Nat.div_lt_of_lt_mul hw) hfirst
    have hrem : v % base = w % base := List.singleton_inj.mp hlast
    rw [← Nat.div_add_mod v base, ← Nat.div_add_mod w base, hquot, hrem]

/-- The number that bytes are, highest first. -/
def value (bs : Bytes) : Nat := bs.foldl (fun v b => 256 * v + b.toNat) 0

theorem value_concat (bs : Bytes) (b : UInt8) : value (bs ++ [b]) = 256 * value bs + b.toNat := by
  rw [value, List.foldl_append]
  rfl

theorem digits_value (bs : Bytes) : digits 256 bs.length (value bs) = bs.map UInt8.toNat := by
  induction bs using List.reverseRecOn with
  | nil => rfl
  | append_singleton bs b ih =>
    have hb := b.toNat_lt
    rw [List.length_append, List.length_singleton, digits, value_concat,
      show (256 * value bs + b.toNat) / 256 = value bs by omega,
      show (256 * value bs + b.toNat) % 256 = b.toNat by omega, ih, List.map_append]
    rfl

theorem value_lt (bs : Bytes) : value bs < 256 ^ bs.length := by
  induction bs using List.reverseRecOn with
  | nil => decide
  | append_singleton bs b ih =>
    have hb := b.toNat_lt
    rw [value_concat, List.length_append, List.length_singleton, Nat.pow_succ]
    omega

theorem value_inj {bs cs : Bytes} (hlength : bs.length = cs.length) (h : value bs = value cs) :
    bs = cs := by
  have hdigits := digits_value bs
  rw [hlength, h, digits_value cs] at hdigits
  exact (List.map_injective_iff.mpr fun _ _ => UInt8.toNat_inj.mp) hdigits.symm

/-- How groups of bytes are written: so many bytes as so many digits of a base, and of a shorter
group only the first digits, with a padding character in place of the others or without. -/
structure Scheme where
  group : Nat
  count : Nat
  base : Nat
  kept : Nat → Nat
  pad : Option UInt8
  alphabet : Bytes
  group_pos : 0 < group
  length_alphabet : alphabet.length = base
  nodup_alphabet : alphabet.Nodup
  pad_not_mem : ∀ p ∈ pad, p ∉ alphabet
  fits : 256 ^ group ≤ base ^ count
  kept_zero : kept 0 = 0
  kept_lt : ∀ r < group, kept r < kept (r + 1)
  kept_group : kept group = count
  enough : ∀ r ≤ group, 0 < r → base ^ (count - kept r) ≤ 256 ^ (group - r)

variable (s : Scheme)

/-- The characters of a group that is not longer than the groups of the scheme. -/
def encodeGroup (g : Bytes) : Bytes :=
  let v := value g * 256 ^ (s.group - g.length)
  ((digits s.base s.count v).take (s.kept g.length)).map (s.alphabet.getD · 0) ++
    match s.pad with
    | none => []
    | some p => List.replicate (s.count - s.kept g.length) p

def encode (bs : Bytes) : Bytes :=
  if _h : bs = [] then []
  else encodeGroup s (bs.take s.group) ++ encode (bs.drop s.group)
termination_by bs.length
decreasing_by
  have hpos := s.group_pos
  have hlength := List.length_pos_iff.mpr _h
  rw [List.length_drop]
  omega

theorem encode_nil : encode s [] = [] := by
  rw [encode, dif_pos rfl]

theorem encode_of_ne_nil {bs : Bytes} (h : bs ≠ []) :
    encode s bs = encodeGroup s (bs.take s.group) ++ encode s (bs.drop s.group) := by
  rw [encode, dif_neg h]

theorem kept_strictMono {r r' : Nat} (h : r < r') (hle : r' ≤ s.group) : s.kept r < s.kept r' := by
  induction r' with
  | zero => exact absurd h (Nat.not_lt_zero r)
  | succ r' ih =>
    have hstep := s.kept_lt r' (by omega)
    by_cases heq : r = r'
    · rwa [heq]
    · exact lt_trans (ih (by omega) (by omega)) hstep

theorem kept_le {r : Nat} (h : r ≤ s.group) : s.kept r ≤ s.count := by
  rw [← s.kept_group]
  by_cases heq : r = s.group
  · rw [heq]
  · exact (kept_strictMono s (Nat.lt_of_le_of_ne h heq) le_rfl).le

theorem kept_inj {r r' : Nat} (h : r ≤ s.group) (h' : r' ≤ s.group)
    (heq : s.kept r = s.kept r') : r = r' := by
  obtain hlt | heq' | hlt := Nat.lt_trichotomy r r'
  · exact absurd heq (kept_strictMono s hlt h').ne
  · exact heq'
  · exact absurd heq (kept_strictMono s hlt h).ne'

/-- The digits of a group that are kept. -/
def groupDigits (g : Bytes) : List Nat :=
  digits s.base (s.kept g.length)
    (value g * 256 ^ (s.group - g.length) / s.base ^ (s.count - s.kept g.length))

theorem length_groupDigits (g : Bytes) : (groupDigits s g).length = s.kept g.length :=
  length_digits _ _ _

theorem base_pos : 0 < s.base := by
  by_contra hzero
  have hfits := s.fits
  have hkept := kept_strictMono s s.group_pos le_rfl
  rw [s.kept_zero, s.kept_group] at hkept
  rw [Nat.eq_zero_of_not_pos hzero, Nat.zero_pow hkept] at hfits
  exact absurd hfits (Nat.not_le_of_lt (Nat.pow_pos (by decide)))

private theorem encodeGroup_eq {g : Bytes} (h : g.length ≤ s.group) :
    encodeGroup s g = (groupDigits s g).map (s.alphabet.getD · 0) ++
      match s.pad with
      | none => []
      | some p => List.replicate (s.count - s.kept g.length) p := by
  rw [encodeGroup, groupDigits, take_digits s.base (kept_le s h)]

private theorem getD_mem_alphabet {d : Nat} (hd : d < s.base) : s.alphabet.getD d 0 ∈ s.alphabet := by
  have hd' : d < s.alphabet.length := s.length_alphabet ▸ hd
  rw [List.getD_eq_getElem _ _ hd']
  exact List.getElem_mem hd'

private theorem idxOf_getD {d : Nat} (hd : d < s.base) :
    s.alphabet.idxOf (s.alphabet.getD d 0) = d := by
  have hd' : d < s.alphabet.length := s.length_alphabet ▸ hd
  rw [List.getD_eq_getElem _ _ hd']
  exact s.nodup_alphabet.idxOf_getElem d hd'

private theorem map_getD_inj {ds es : List Nat} (hds : ∀ d ∈ ds, d < s.base)
    (hes : ∀ d ∈ es, d < s.base)
    (h : ds.map (s.alphabet.getD · 0) = es.map (s.alphabet.getD · 0)) : ds = es := by
  have hback : ∀ ds : List Nat, (∀ d ∈ ds, d < s.base) →
      (ds.map (s.alphabet.getD · 0)).map s.alphabet.idxOf = ds := by
    intro ds hds
    rw [List.map_map]
    exact (List.map_congr_left fun d hd => idxOf_getD s (hds d hd)).trans (List.map_id ds)
  rw [← hback ds hds, h, hback es hes]

private theorem eq_of_mul_div_eq {a b p q : Nat} (hq : 0 < q) (hle : q ≤ p)
    (h : a * p / q = b * p / q) : a = b := by
  have hlt : ∀ a b : Nat, a < b → a * p / q < b * p / q := by
    intro a b hab
    calc a * p / q < a * p / q + 1 := Nat.lt_succ_self _
      _ = (a * p + q) / q := (Nat.add_div_right _ hq).symm
      _ ≤ (a * p + p) / q := Nat.div_le_div_right (Nat.add_le_add_left hle _)
      _ = (a + 1) * p / q := by rw [Nat.succ_mul]
      _ ≤ b * p / q := Nat.div_le_div_right (Nat.mul_le_mul_right p hab)
  obtain hab | hab | hab := Nat.lt_trichotomy a b
  · exact absurd h (hlt a b hab).ne
  · exact hab
  · exact absurd h (hlt b a hab).ne'

private theorem groupDigits_inj {g h : Bytes} (hg : g.length ≤ s.group)
    (hlength : g.length = h.length) (heq : groupDigits s g = groupDigits s h) : g = h := by
  by_cases hpos : 0 < g.length
  case neg =>
    have hzero : g.length = 0 := Nat.eq_zero_of_not_pos hpos
    have hzero' : h.length = 0 := hlength ▸ hzero
    rw [List.length_eq_zero_iff.mp hzero, List.length_eq_zero_iff.mp hzero']
  have hsmall : ∀ g : Bytes, g.length ≤ s.group →
      value g * 256 ^ (s.group - g.length) / s.base ^ (s.count - s.kept g.length) <
        s.base ^ s.kept g.length := by
    intro g hg
    apply Nat.div_lt_of_lt_mul
    rw [← Nat.pow_add, Nat.sub_add_cancel (kept_le s hg)]
    calc value g * 256 ^ (s.group - g.length)
        < 256 ^ g.length * 256 ^ (s.group - g.length) :=
          Nat.mul_lt_mul_of_pos_right (value_lt g) (Nat.pow_pos (by decide))
      _ = 256 ^ s.group := by rw [← Nat.pow_add, Nat.add_sub_cancel' hg]
      _ ≤ s.base ^ s.count := s.fits
  have hsmall' := hsmall h (hlength ▸ hg)
  rw [groupDigits, groupDigits, hlength] at heq
  rw [← hlength] at hsmall'
  have hquot := digits_inj (hlength ▸ hsmall g hg) (hlength ▸ hsmall') heq
  rw [← hlength] at hquot
  exact value_inj hlength
    (eq_of_mul_div_eq (Nat.pow_pos (base_pos s)) (s.enough _ hg hpos) hquot)

theorem length_encodeGroup {g : Bytes} (hg : g.length ≤ s.group) :
    (encodeGroup s g).length = if s.pad.isSome then s.count else s.kept g.length := by
  have hle := kept_le s hg
  rw [encodeGroup_eq s hg, List.length_append, List.length_map, length_groupDigits]
  cases s.pad with
  | none => rfl
  | some p =>
    rw [List.length_replicate, Nat.add_sub_cancel' hle]
    rfl

theorem encodeGroup_inj {g h : Bytes} (hg : g.length ≤ s.group) (hh : h.length ≤ s.group)
    (heq : encodeGroup s g = encodeGroup s h) : g = h := by
  have hmem : ∀ g : Bytes, ∀ c ∈ (groupDigits s g).map (s.alphabet.getD · 0), c ∈ s.alphabet := by
    intro g c hc
    obtain ⟨d, hd, rfl⟩ := List.mem_map.mp hc
    exact getD_mem_alphabet s (digits_lt (base_pos s) d hd)
  rw [encodeGroup_eq s hg, encodeGroup_eq s hh] at heq
  have hchars : (groupDigits s g).map (s.alphabet.getD · 0) =
      (groupDigits s h).map (s.alphabet.getD · 0) := by
    cases hpad : s.pad with
    | none => simpa [hpad] using heq
    | some p =>
      have hnot := s.pad_not_mem p hpad
      have hfilter : ∀ (cs : Bytes) (k : Nat), (∀ c ∈ cs, c ∈ s.alphabet) →
          (cs ++ List.replicate k p).filter (fun c => decide (c ∈ s.alphabet)) = cs := by
        intro cs k hcs
        rw [List.filter_append, List.filter_eq_self.mpr (by simpa using hcs),
          List.filter_replicate_of_neg (by simpa using hnot), List.append_nil]
      rw [hpad] at heq
      rw [← hfilter _ _ (hmem g), heq, hfilter _ _ (hmem h)]
  have hdigits : groupDigits s g = groupDigits s h :=
    map_getD_inj s (digits_lt (base_pos s)) (digits_lt (base_pos s)) hchars
  have hkept := congrArg List.length hdigits
  rw [length_groupDigits, length_groupDigits] at hkept
  exact groupDigits_inj s hg (kept_inj s hg hh hkept) hdigits

private theorem encodeGroup_ne_nil {g : Bytes} (hne : g ≠ []) (hg : g.length ≤ s.group) :
    0 < (encodeGroup s g).length := by
  have hpos := kept_strictMono s (List.length_pos_iff.mpr hne) hg
  have hle := kept_le s hg
  rw [length_encodeGroup s hg]
  split <;> omega

private theorem encode_eq_nil_iff (bs : Bytes) : encode s bs = [] ↔ bs = [] := by
  refine ⟨fun h => ?_, fun h => h ▸ encode_nil s⟩
  by_contra hne
  have hgroup : bs.take s.group ≠ [] := by
    have hpos := s.group_pos
    simp only [ne_eq, List.take_eq_nil_iff, hne, or_false]
    omega
  have hpos := encodeGroup_ne_nil s hgroup (List.length_take_le _ _)
  rw [encode_of_ne_nil s hne, List.append_eq_nil_iff] at h
  rw [h.1] at hpos
  exact absurd hpos (Nat.lt_irrefl 0)

private theorem short_group_inj {g h y : Bytes} (hg : g.length ≤ s.group)
    (hh : h.length ≤ s.group) (hy : h.length < s.group → y = [])
    (heq : encodeGroup s g = encodeGroup s h ++ y) : g = h ∧ y = [] := by
  have hnil : y = [] := by
    by_cases hfull : h.length = s.group
    · have hlength := congrArg List.length heq
      have hle := kept_le s hg
      have hkept := s.kept_group
      rw [List.length_append, length_encodeGroup s hg, length_encodeGroup s hh, hfull] at hlength
      apply List.length_eq_zero_iff.mp
      split at hlength <;> omega
    · exact hy (Nat.lt_of_le_of_ne hh hfull)
  rw [hnil, List.append_nil] at heq
  exact ⟨encodeGroup_inj s hg hh heq, hnil⟩

private theorem group_append_inj {g h x y : Bytes} (hg : g.length ≤ s.group)
    (hh : h.length ≤ s.group) (hx : g.length < s.group → x = [])
    (hy : h.length < s.group → y = [])
    (heq : encodeGroup s g ++ x = encodeGroup s h ++ y) : g = h ∧ x = y := by
  by_cases hgfull : g.length = s.group
  · by_cases hhfull : h.length = s.group
    · have hlength : (encodeGroup s g).length = (encodeGroup s h).length := by
        rw [length_encodeGroup s hg, length_encodeGroup s hh, hgfull, hhfull]
      obtain ⟨hgroup, hrest⟩ := List.append_inj heq hlength
      exact ⟨encodeGroup_inj s hg hh hgroup, hrest⟩
    · have hnil := hy (Nat.lt_of_le_of_ne hh hhfull)
      rw [hnil, List.append_nil] at heq
      obtain ⟨hgroup, hrest⟩ := short_group_inj s hh hg hx heq.symm
      exact ⟨hgroup.symm, hrest.trans hnil.symm⟩
  · have hnil := hx (Nat.lt_of_le_of_ne hg hgfull)
    rw [hnil, List.append_nil] at heq
    obtain ⟨hgroup, hrest⟩ := short_group_inj s hg hh hy heq
    exact ⟨hgroup, hnil.trans hrest.symm⟩

/-- The encoding of a text tells the text. -/
theorem encode_injective : Function.Injective (encode s) := by
  have hrest : ∀ bs : Bytes, (bs.take s.group).length < s.group →
      encode s (bs.drop s.group) = [] := by
    intro bs hshort
    rw [encode_eq_nil_iff, List.drop_eq_nil_iff]
    rw [List.length_take] at hshort
    omega
  intro bs cs h
  induction bs using encode.induct s generalizing cs with
  | case1 => exact ((encode_eq_nil_iff s cs).mp (h ▸ encode_nil s)).symm
  | case2 bs hne ih =>
    have hne' : cs ≠ [] := by
      rintro rfl
      rw [encode_nil, encode_eq_nil_iff] at h
      exact hne h
    rw [encode_of_ne_nil s hne, encode_of_ne_nil s hne'] at h
    obtain ⟨hgroup, htail⟩ := group_append_inj s (List.length_take_le _ _)
      (List.length_take_le _ _) (hrest bs) (hrest cs) h
    rw [← List.take_append_drop s.group bs, hgroup, ih htail, List.take_append_drop]

/-- The characters of the scheme and its padding. -/
theorem mem_encode {bs : Bytes} {c : UInt8} (h : c ∈ encode s bs) :
    c ∈ s.alphabet ∨ c ∈ s.pad := by
  induction bs using encode.induct s with
  | case1 =>
    rw [encode_nil] at h
    cases h
  | case2 bs hne ih =>
    rw [encode_of_ne_nil s hne, List.mem_append] at h
    obtain h | h := h
    · rw [encodeGroup_eq s (List.length_take_le _ _), List.mem_append] at h
      obtain h | h := h
      · obtain ⟨d, hd, rfl⟩ := List.mem_map.mp h
        exact .inl (getD_mem_alphabet s (digits_lt (base_pos s) d hd))
      · cases hpad : s.pad with
        | none => simp [hpad] at h
        | some p =>
          rw [hpad] at h
          rw [List.eq_of_mem_replicate h]
          exact .inr rfl
    · exact ih h

/-- Characters in a row. -/
def span (first count : Nat) : Bytes := (List.range count).map fun i => UInt8.ofNat (first + i)

def upper : Bytes := span 0x41 26
def lower : Bytes := span 0x61 26
def decimals : Bytes := span 0x30 10

/-- `base64.b16encode` -/
def b16 : Scheme where
  group := 1
  count := 2
  base := 16
  kept r := 2 * r
  pad := none
  alphabet := decimals ++ span 0x41 6
  group_pos := by decide
  length_alphabet := by decide +kernel
  nodup_alphabet := by decide +kernel
  pad_not_mem := by simp
  fits := by decide
  kept_zero := rfl
  kept_lt := by decide
  kept_group := rfl
  enough := by decide

/-- `base64.b32encode` -/
def b32 : Scheme where
  group := 5
  count := 8
  base := 32
  kept r := [0, 2, 4, 5, 7, 8].getD r 0
  pad := some 0x3d
  alphabet := upper ++ span 0x32 6
  group_pos := by decide
  length_alphabet := by decide +kernel
  nodup_alphabet := by decide +kernel
  pad_not_mem := by
    intro p hp
    cases hp
    decide +kernel
  fits := by decide
  kept_zero := rfl
  kept_lt := by decide
  kept_group := rfl
  enough := by decide

/-- `base64.b64encode` -/
def b64 : Scheme where
  group := 3
  count := 4
  base := 64
  kept r := [0, 2, 3, 4].getD r 0
  pad := some 0x3d
  alphabet := upper ++ lower ++ decimals ++ [0x2b, 0x2f]
  group_pos := by decide
  length_alphabet := by decide +kernel
  nodup_alphabet := by decide +kernel
  pad_not_mem := by
    intro p hp
    cases hp
    decide +kernel
  fits := by decide
  kept_zero := rfl
  kept_lt := by decide
  kept_group := rfl
  enough := by decide

/-- `base64.b85encode` -/
def b85 : Scheme where
  group := 4
  count := 5
  base := 85
  kept r := [0, 2, 3, 4, 5].getD r 0
  pad := none
  -- !#$%&()*+-;<=>?@^_`{|}~ after the letters
  alphabet := decimals ++ upper ++ lower ++ [0x21, 0x23, 0x24, 0x25, 0x26, 0x28, 0x29, 0x2a, 0x2b,
    0x2d, 0x3b, 0x3c, 0x3d, 0x3e, 0x3f, 0x40, 0x5e, 0x5f, 0x60, 0x7b, 0x7c, 0x7d, 0x7e]
  group_pos := by decide
  length_alphabet := by decide +kernel
  nodup_alphabet := by decide +kernel
  pad_not_mem := by simp
  fits := by decide
  kept_zero := rfl
  kept_lt := by decide
  kept_group := rfl
  enough := by decide

end CtfChallenges.Framework.BaseCodec
