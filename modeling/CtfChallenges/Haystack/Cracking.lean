import CtfChallenges.Haystack.Winnowing
import Mathlib.Data.List.AList

/-!
# Reading a chaffed message without the key

`cracker.py` counts how often each byte has each signature. A fake signature is drawn anew for every
record, and the true one of a byte is always the same: where a byte is seen twice with one signature,
the cracker takes it for the true one.
-/

namespace CtfChallenges.Haystack
open Framework Framework.Blocks

def char_len : Nat := 17

/-- How often each signature has been seen. -/
abbrev Counter := AList fun _ : List UInt8 => Nat

/-- A counter for each byte. -/
abbrev CharCounter := AList fun _ : UInt8 => Counter

/-- `char_counter[c_val][hash_val] += 1` -/
def countRecord (char_counter : CharCounter) (p : UInt8 × List UInt8) : CharCounter :=
  let ctr := (char_counter.lookup p.1).getD ∅
  char_counter.insert p.1 (ctr.insert p.2 ((ctr.lookup p.2).getD 0 + 1))

/-- The first records of a buffer. All of them lie in it. -/
def records (buf : List UInt8) : Msgs :=
  (List.range (buf.length / char_len)).map fun i : Nat =>
    let chunk := slice buf (char_len * i) (char_len * (i + 1))
    (chunk.headD 0, chunk.tail)

/-- The greatest of the counts. -/
def maxCount (ctr : Counter) : Nat := ctr.entries.foldl (fun max_ct e => max max_ct e.2) 0

/-- A pass of the loop over the counters: every signature that was seen most often, unless that was
only once. -/
def addLookup (lookup : AList fun _ : List UInt8 => UInt8) (e : Σ _ : UInt8, Counter) :
    AList fun _ : List UInt8 => UInt8 :=
  let max_ct := maxCount e.2
  if max_ct = 1 then lookup
  else
    e.2.entries.foldl (fun lookup h => if h.2 ≠ max_ct then lookup else lookup.insert h.1 e.1) lookup

/-- The byte of the first record whose signature is known. -/
def crackByte (lookup : AList fun _ : List UInt8 => UInt8) (chunk : List UInt8) : Option UInt8 :=
  (records chunk).findSome? fun p => if p.2 ∈ lookup then some p.1 else none

def decode_buf (buf : List UInt8) : Option (List UInt8) := do
  let msglen ← unpack (buf.take 4)
  let buf := buf.drop 4
  let char_counter := (records buf).foldl countRecord ∅
  let lookup := char_counter.entries.foldl addLookup ∅
  return (List.range msglen).filterMap fun ck =>
    let cklen := buf.length / msglen
    crackByte lookup (slice buf (cklen * ck) (cklen * (ck + 1)))

theorem lookup_getD (o : Option Counter) (h : List UInt8) :
    (o.getD ∅).lookup h = o.bind fun ctr => ctr.lookup h := by
  cases o with
  | none => exact AList.lookup_empty h
  | some ctr => rfl

theorem lookup_countRecords (ps : Msgs) (c : UInt8) (h : List UInt8) :
    ((ps.foldl countRecord ∅).lookup c).bind (fun ctr => ctr.lookup h) =
      if ps.count (c, h) = 0 then none else some (ps.count (c, h)) := by
  induction ps using List.reverseRecOn with
  | nil => simp
  | append_singleton ps p ih =>
    rw [List.foldl_append, List.foldl_cons, List.foldl_nil, List.count_append]
    generalize ps.foldl countRecord ∅ = cc at ih
    obtain ⟨d, g⟩ := p
    unfold countRecord
    by_cases hc : c = d
    · subst hc
      rw [AList.lookup_insert, Option.bind_some]
      by_cases hh : h = g
      · subst hh
        rw [AList.lookup_insert, lookup_getD, ih]
        by_cases hzero : ps.count (c, h) = 0 <;> simp [hzero]
      · rw [AList.lookup_insert_ne hh, lookup_getD, ih]
        simp [Ne.symm hh]
    · rw [AList.lookup_insert_ne hc, ih]
      simp [Ne.symm hc]

theorem le_maxCount {ctr : Counter} {h : List UInt8} {n : Nat} (hn : ctr.lookup h = some n) :
    n ≤ maxCount ctr := by
  have hmem := AList.mem_lookup_iff.mp (Option.mem_def.mpr hn)
  have hfold : ∀ (es : List (Σ _ : List UInt8, Nat)) (m : Nat),
      m ≤ es.foldl (fun max_ct e => max max_ct e.2) m ∧
        ∀ e ∈ es, e.2 ≤ es.foldl (fun max_ct e => max max_ct e.2) m := by
    intro es
    induction es with
    | nil => simp
    | cons e es ih =>
      intro m
      obtain ⟨hm, hes⟩ := ih (max m e.2)
      rw [List.foldl_cons, List.forall_mem_cons]
      exact ⟨le_trans (le_max_left _ _) hm, le_trans (le_max_right _ _) hm, hes⟩
  exact (hfold ctr.entries 0).2 ⟨h, n⟩ hmem

theorem exists_maxCount {ctr : Counter} (hpos : 0 < maxCount ctr) :
    ∃ h, ctr.lookup h = some (maxCount ctr) := by
  have hfold : ∀ (es : List (Σ _ : List UInt8, Nat)) (m : Nat),
      es.foldl (fun max_ct e => max max_ct e.2) m = m ∨
        ∃ e ∈ es, e.2 = es.foldl (fun max_ct e => max max_ct e.2) m := by
    intro es
    induction es with
    | nil => simp
    | cons e es ih =>
      intro m
      rw [List.foldl_cons]
      obtain hm | ⟨e', he', heq⟩ := ih (max m e.2)
      · rw [hm]
        obtain hle | hle := Nat.le_total e.2 m
        · exact .inl (max_eq_left hle)
        · exact .inr ⟨e, List.mem_cons_self, (max_eq_right hle).symm⟩
      · exact .inr ⟨e', List.mem_cons_of_mem e he', heq⟩
  obtain hzero | ⟨e, he, heq⟩ := hfold ctr.entries 0
  · exact absurd hzero hpos.ne'
  · exact ⟨e.1, AList.mem_lookup_iff.mpr (by rw [maxCount, ← heq]; exact he)⟩

/-- A pass takes the signatures with the greatest count. -/
theorem mem_addLookup (lookup : AList fun _ : List UInt8 => UInt8) (e : Σ _ : UInt8, Counter)
    (h : List UInt8) :
    h ∈ addLookup lookup e ↔
      h ∈ lookup ∨ maxCount e.2 ≠ 1 ∧ e.2.lookup h = some (maxCount e.2) := by
  have hfold : ∀ (es : List (Σ _ : List UInt8, Nat)) (lookup : AList fun _ : List UInt8 => UInt8),
      h ∈ es.foldl (fun lookup g => if g.2 ≠ maxCount e.2 then lookup else
          lookup.insert g.1 e.1) lookup ↔ h ∈ lookup ∨ ⟨h, maxCount e.2⟩ ∈ es := by
    intro es
    induction es with
    | nil => simp
    | cons g es ih =>
      intro lookup
      rw [List.foldl_cons, ih, List.mem_cons]
      obtain ⟨g, n⟩ := g
      by_cases hn : n = maxCount e.2
      · simp [hn, AList.mem_insert, or_assoc, or_left_comm]
      · simp [hn, Ne.symm hn]
  unfold addLookup
  by_cases hone : maxCount e.2 = 1
  · simp [hone]
  · simp only [hone, if_false, hfold, ne_eq, not_false_eq_true, true_and]
    rw [← AList.mem_lookup_iff, Option.mem_def]

/-- The signatures that are known: for some byte they have been seen twice at least, and no other as
often. -/
theorem mem_lookup_iff (ps : Msgs) (h : List UInt8) :
    h ∈ (ps.foldl countRecord ∅).entries.foldl addLookup ∅ ↔
      ∃ c, 2 ≤ ps.count (c, h) ∧ ∀ g, ps.count (c, g) ≤ ps.count (c, h) := by
  have hfold : ∀ (es : List (Σ _ : UInt8, Counter)) (lookup : AList fun _ : List UInt8 => UInt8),
      h ∈ es.foldl addLookup lookup ↔ h ∈ lookup ∨
        ∃ e ∈ es, maxCount e.2 ≠ 1 ∧ e.2.lookup h = some (maxCount e.2) := by
    intro es
    induction es with
    | nil => simp
    | cons e es ih =>
      intro lookup
      rw [List.foldl_cons, ih, mem_addLookup]
      simp [or_assoc]
  have hcount := lookup_countRecords ps
  rw [hfold]
  generalize ps.foldl countRecord ∅ = cc at hcount
  simp only [AList.notMem_empty, false_or]
  constructor
  · rintro ⟨⟨c, ctr⟩, he, hone, hmax⟩
    have hctr : cc.lookup c = some ctr := AList.mem_lookup_iff.mpr he
    have hh := hcount c h
    rw [hctr, Option.bind_some, hmax] at hh
    split_ifs at hh with hzero
    rw [Option.some.injEq] at hh
    refine ⟨c, by omega, fun g => ?_⟩
    by_cases hg : ps.count (c, g) = 0
    · omega
    · have hlookup := hcount c g
      rw [hctr, Option.bind_some, if_neg hg] at hlookup
      rw [← hh]
      exact le_maxCount hlookup
  · rintro ⟨c, htwo, hmax⟩
    have hh := hcount c h
    rw [if_neg (by omega), Option.bind_eq_some_iff] at hh
    obtain ⟨ctr, hctr, hlookup⟩ := hh
    have hle := le_maxCount hlookup
    have hpos : 0 < maxCount ctr := by omega
    obtain ⟨g, hg⟩ := exists_maxCount hpos
    have hcg := hcount c g
    rw [hctr, Option.bind_some, hg] at hcg
    have hge : maxCount ctr ≤ ps.count (c, h) := by
      split_ifs at hcg
      rw [Option.some.inj hcg]
      exact hmax g
    refine ⟨⟨c, ctr⟩, AList.mem_lookup_iff.mp hctr, ?_, ?_⟩
    · show maxCount ctr ≠ 1
      omega
    · show ctr.lookup h = some (maxCount ctr)
      rw [hlookup, le_antisymm hle hge]

theorem records_flatten {ps : Msgs} (hsig : ∀ p ∈ ps, p.2.length = SIG_SIZE) :
    records (ps.map piece).flatten = ps := by
  have hpiece : ∀ l ∈ ps.map piece, l.length = char_len := by
    intro l hl
    obtain ⟨p, hp, rfl⟩ := List.mem_map.mp hl
    rw [piece, List.length_cons, hsig p hp]
    rfl
  have hlength : (ps.map piece).flatten.length / char_len = ps.length := by
    rw [length_flatten hpiece, List.length_map]
    exact Nat.mul_div_cancel_left _ (by decide)
  apply List.ext_getElem
  · rw [records, List.length_map, List.length_range, hlength]
  · intro i hi hi'
    have hget : (ps.map piece)[i]? = some (piece ps[i]) := by simp [hi']
    simp only [records, List.getElem_map, List.getElem_range, slice_flatten hpiece hget]
    rfl

variable {hmac : Hmac}

/-- The records that come out for one byte: the true one, and fakes for other bytes. -/
structure Chaffed (hmac : Hmac) (key : List UInt8) (draws : Draws) (b : UInt8) (ps : Msgs) : Prop where
  msgs : ∃ msgs, chaffMsgs hmac [b] key draws = .ok msgs ∧ ps.Perm msgs
  genuine : (b, sign_byte hmac [b] key) ∈ ps
  length : ps.length = CHAFF_SIZE
  nodup : (ps.map Prod.fst).Nodup
  sig : ∀ p ∈ ps, p.2.length = SIG_SIZE

theorem chaff_byte_records (hmac : Hmac) (key : List UInt8) (b : UInt8) (draws : Draws) :
    ∃ ps, chaff_byte hmac [b] key draws = .ok (ps.map piece).flatten ∧
      Chaffed hmac key draws b ps := by
  obtain ⟨msgs, hmsgs, hmem, hlength, hnodup, hsig⟩ := chaffMsgs_spec hmac key b draws
  obtain ⟨ps, hps, hperm⟩ : ∃ ps : Msgs,
      (draws.shuffle (msgs.map piece)).1 = ps.map piece ∧ ps.Perm msgs :=
    (congrFun₂ (List.eq_map_comp_perm piece) _ msgs).mpr (draws.shuffle (msgs.map piece)).2
  refine ⟨ps, ?_, ⟨msgs, hmsgs, hperm⟩, hperm.mem_iff.mpr hmem, hperm.length_eq.trans hlength,
    (hperm.map Prod.fst).nodup_iff.mpr hnodup, fun p hp => hsig p (hperm.subset hp)⟩
  rw [chaff_byte, hmsgs]
  exact congrArg (fun l => Except.ok (List.flatten l)) hps

theorem length_chaffed {key : List UInt8} {draws : Draws} {b : UInt8} {ps : Msgs}
    (h : Chaffed hmac key draws b ps) :
    (ps.map piece).flatten.length = (SIG_SIZE + 1) * CHAFF_SIZE := by
  have hpiece : ∀ l ∈ ps.map piece, l.length = SIG_SIZE + 1 := by
    intro l hl
    obtain ⟨p, hp, rfl⟩ := List.mem_map.mp hl
    rw [piece, List.length_cons, h.sig p hp]
  rw [length_flatten hpiece, List.length_map, h.length]

/-- The records of a message, byte by byte. -/
def Records (hmac : Hmac) (m key : List UInt8) (draws : Nat → Draws) (pss : List Msgs) : Prop :=
  pss.length = m.length ∧ ∀ (i : Nat) b, m[i]? = some b →
    ∃ ps, pss[i]? = some ps ∧ Chaffed hmac key (draws i) b ps

/-- A chaffed message: a header, and then the records of each byte in turn. -/
theorem chaff_msg_records (hmac : Hmac) (m : Val) (key : List UInt8) (draws : Nat → Draws)
    (hlength : m.encode.length < 2 ^ 32) :
    ∃ pss : List Msgs, chaff_msg hmac m key draws = .ok (bigEndian m.encode.length ++
        (pss.map fun ps => (ps.map piece).flatten).flatten) ∧
      Records hmac m.encode key draws pss := by
  have hbytes : ∀ b ∈ m.encode.zipIdx, ∃ ps : Msgs,
      chaff_byte hmac [b.1] key (draws b.2) = .ok (ps.map piece).flatten ∧
        Chaffed hmac key (draws b.2) b.1 ps :=
    fun b _ => chaff_byte_records hmac key b.1 (draws b.2)
  obtain ⟨pss, hpss⟩ := exists_forall₂ hbytes
  have hmapM : m.encode.zipIdx.mapM (fun b => chaff_byte hmac [b.1] key (draws b.2)) =
      .ok (pss.map fun ps => (ps.map piece).flatten) := by
    apply mapM_ok
    rw [List.forall₂_map_right_iff]
    exact hpss.imp fun _ _ hb => hb.1
  refine ⟨pss, ?_, by rw [← hpss.length_eq, List.length_zipIdx], ?_⟩
  · simp only [chaff_msg, hmapM, pack, if_pos hlength]
    rfl
  · intro i b hb
    obtain ⟨hi, rfl⟩ := List.getElem?_eq_some_iff.mp hb
    have hi' : i < m.encode.zipIdx.length := by rwa [List.length_zipIdx]
    have hlt : i < pss.length := hpss.length_eq ▸ hi'
    have hget := (hpss.get hi' hlt).2
    simp only [List.get_eq_getElem, List.getElem_zipIdx, Nat.zero_add] at hget
    exact ⟨pss[i], List.getElem?_eq_getElem hlt, hget⟩

/-- A fake record of the byte with the index. -/
def Fake (hmac : Hmac) (m key : List UInt8) (draws : Nat → Draws) (i : Nat)
    (p : UInt8 × List UInt8) : Prop :=
  ∃ b msgs, m[i]? = some b ∧ chaffMsgs hmac [b] key (draws i) = .ok msgs ∧ p ∈ msgs ∧ p.1 ≠ b

/-- No fake signature is a true one, and no record is faked twice. -/
structure NoCoincidence (hmac : Hmac) (m key : List UInt8) (draws : Nat → Draws) : Prop where
  genuine : ∀ i p, Fake hmac m key draws i p → ∀ c, p.2 ≠ sign_byte hmac [c] key
  once : ∀ i j p, Fake hmac m key draws i p → Fake hmac m key draws j p → i = j

section
variable {m key : List UInt8} {draws : Nat → Draws} {pss : List Msgs}

theorem Chaffed.fake {i : Nat} {b : UInt8} {ps : Msgs} (h : Chaffed hmac key (draws i) b ps)
    (hb : m[i]? = some b) {p : UInt8 × List UInt8} (hp : p ∈ ps) (hne : p.1 ≠ b) :
    Fake hmac m key draws i p := by
  obtain ⟨msgs, hmsgs, hperm⟩ := h.msgs
  exact ⟨b, msgs, hb, hmsgs, hperm.subset hp, hne⟩

/-- A fake record has a signature that was drawn. -/
theorem Fake.sig {i : Nat} {p : UInt8 × List UInt8} (h : Fake hmac m key draws i p) :
    i < m.length ∧ ∃ k, p.2 = ((draws i).fake_sig k).1 := by
  obtain ⟨b, msgs, hb, hmsgs, hp, hne⟩ := h
  refine ⟨(List.getElem?_eq_some_iff.mp hb).1, (mem_addChaff hmsgs hp).resolve_left ?_⟩
  intro hmem
  exact hne (congrArg Prod.fst (List.mem_singleton.mp hmem))

/-- The true record of a byte is in its own records once, and in no others. -/
theorem count_genuine (hno : NoCoincidence hmac m key draws) {i : Nat} {b : UInt8} {ps : Msgs}
    (h : Chaffed hmac key (draws i) b ps) (hb : m[i]? = some b) (c : UInt8) :
    ps.count (c, sign_byte hmac [c] key) = [b].count c := by
  by_cases hc : b = c
  · subst hc
    rw [List.count_eq_one_of_mem h.nodup.of_map h.genuine, List.count_singleton_self]
  · have hnot : (c, sign_byte hmac [c] key) ∉ ps := by
      intro hmem
      exact hno.genuine i _ (h.fake hb hmem (Ne.symm hc)) c rfl
    rw [List.count_eq_zero_of_not_mem hnot, List.count_singleton]
    simp [hc]

theorem count_flatten_le_one {ps : UInt8 × List UInt8} {pss : List Msgs}
    (hone : ∀ l ∈ pss, l.count ps ≤ 1) (hpair : pss.Pairwise fun l l' => ps ∈ l → ps ∉ l') :
    pss.flatten.count ps ≤ 1 := by
  induction pss with
  | nil => simp
  | cons l pss ih =>
    rw [List.forall_mem_cons] at hone
    rw [List.pairwise_cons] at hpair
    rw [List.flatten_cons, List.count_append]
    by_cases hmem : ps ∈ l
    · have hrest : ps ∉ pss.flatten := by
        rw [List.mem_flatten]
        rintro ⟨l', hl', hps⟩
        exact hpair.1 l' hl' hmem hps
      rw [List.count_eq_zero_of_not_mem hrest]
      exact hone.1
    · rw [List.count_eq_zero_of_not_mem hmem, Nat.zero_add]
      exact ih hone.2 hpair.2

/-- The true record of a byte is seen as often as the byte is in the message. -/
theorem count_flatten_genuine (hno : NoCoincidence hmac m key draws)
    (hrecords : Records hmac m key draws pss) (c : UInt8) :
    pss.flatten.count (c, sign_byte hmac [c] key) = m.count c := by
  have hmaps : pss.map (List.count (c, sign_byte hmac [c] key)) = m.map fun b => [b].count c := by
    apply List.ext_getElem?
    intro i
    rw [List.getElem?_map, List.getElem?_map]
    cases hb : m[i]? with
    | none =>
      rw [List.getElem?_eq_none_iff, ← hrecords.1, ← List.getElem?_eq_none_iff] at hb
      rw [hb]
      rfl
    | some b =>
      obtain ⟨ps, hps, hchaffed⟩ := hrecords.2 i b hb
      rw [hps, Option.map_some, Option.map_some, count_genuine hno hchaffed hb]
  have hm : m = (m.map fun b => [b]).flatten := by
    rw [← List.flatMap_def, List.flatMap_singleton']
  rw [List.count_flatten, hmaps]
  conv_rhs => rw [hm, List.count_flatten, List.map_map]
  rfl

theorem count_flatten_fake (hno : NoCoincidence hmac m key draws)
    (hrecords : Records hmac m key draws pss) {c : UInt8} {h : List UInt8}
    (hfake : h ≠ sign_byte hmac [c] key) : pss.flatten.count (c, h) ≤ 1 := by
  have hat : ∀ i (hi : i < pss.length), ∃ b, m[i]? = some b ∧ Chaffed hmac key (draws i) b pss[i] := by
    intro i hi
    have hi' : i < m.length := hrecords.1 ▸ hi
    obtain ⟨ps, hps, hchaffed⟩ := hrecords.2 i m[i] (List.getElem?_eq_getElem hi')
    rw [List.getElem?_eq_getElem hi] at hps
    cases hps
    exact ⟨m[i], List.getElem?_eq_getElem hi', hchaffed⟩
  have hisFake : ∀ i (hi : i < pss.length), (c, h) ∈ pss[i] → Fake hmac m key draws i (c, h) := by
    intro i hi hmem
    obtain ⟨b, hb, hchaffed⟩ := hat i hi
    apply hchaffed.fake hb hmem
    intro hcb
    have heq := List.inj_on_of_nodup_map hchaffed.nodup hmem hchaffed.genuine hcb
    cases heq
    exact hfake rfl
  apply count_flatten_le_one
  · intro ps hps
    obtain ⟨i, hi, rfl⟩ := List.mem_iff_getElem.mp hps
    obtain ⟨b, -, hchaffed⟩ := hat i hi
    exact List.nodup_iff_count_le_one.mp hchaffed.nodup.of_map _
  · rw [List.pairwise_iff_getElem]
    intro i j hi hj hij hmemi hmemj
    exact absurd (hno.once i j _ (hisFake i hi hmemi) (hisFake j hj hmemj)) hij.ne

/-- A byte whose signature gives it away: it is that of a byte that the message has twice. -/
def Exposed (hmac : Hmac) (m key : List UInt8) (b : UInt8) : Prop :=
  ∃ c ∈ m, 2 ≤ m.count c ∧ sign_byte hmac [c] key = sign_byte hmac [b] key

instance (hmac : Hmac) (m key : List UInt8) (b : UInt8) : Decidable (Exposed hmac m key b) :=
  inferInstanceAs (Decidable (∃ c ∈ m, _))

theorem known_iff (hno : NoCoincidence hmac m key draws)
    (hrecords : Records hmac m key draws pss) (h : List UInt8) :
    h ∈ (pss.flatten.foldl countRecord ∅).entries.foldl addLookup ∅ ↔
      ∃ c ∈ m, 2 ≤ m.count c ∧ sign_byte hmac [c] key = h := by
  rw [mem_lookup_iff]
  constructor
  · rintro ⟨c, htwo, _⟩
    by_cases hfake : h = sign_byte hmac [c] key
    · rw [hfake, count_flatten_genuine hno hrecords] at htwo
      exact ⟨c, List.count_pos_iff.mp (by omega), htwo, hfake.symm⟩
    · have hle := count_flatten_fake hno hrecords hfake
      omega
  · rintro ⟨c, _, htwo, hh⟩
    subst hh
    rw [← count_flatten_genuine hno hrecords] at htwo
    refine ⟨c, htwo, fun g => ?_⟩
    by_cases hfake : g = sign_byte hmac [c] key
    · rw [hfake]
    · have hle := count_flatten_fake hno hrecords hfake
      omega

/-- In the records of a byte only the true one can have a known signature. -/
theorem crackByte_eq (hno : NoCoincidence hmac m key draws)
    (hrecords : Records hmac m key draws pss) {i : Nat} {b : UInt8} {ps : Msgs}
    (h : Chaffed hmac key (draws i) b ps) (hb : m[i]? = some b) :
    crackByte ((pss.flatten.foldl countRecord ∅).entries.foldl addLookup ∅) (ps.map piece).flatten =
      if Exposed hmac m key b then some b else none := by
  rw [crackByte, records_flatten h.sig]
  simp only [known_iff hno hrecords]
  split_ifs with hexposed
  · have hsome : (ps.findSome? fun p => if ∃ c ∈ m, 2 ≤ m.count c ∧ sign_byte hmac [c] key = p.2
        then some p.1 else none).isSome := by
      rw [List.findSome?_isSome_iff]
      refine ⟨_, h.genuine, ?_⟩
      rw [if_pos]
      · rfl
      · exact hexposed
    obtain ⟨b', hb'⟩ := Option.isSome_iff_exists.mp hsome
    obtain ⟨p, hp, hfound⟩ := List.exists_of_findSome?_eq_some hb'
    split_ifs at hfound with hknown
    cases hfound
    obtain ⟨c, -, -, hc⟩ := hknown
    have hbyte : p.1 = b := by
      by_contra hne
      exact hno.genuine i p (h.fake hb hp hne) c hc.symm
    rw [hb', hbyte]
  · rw [List.findSome?_eq_none_iff]
    intro p hp
    rw [if_neg]
    rintro ⟨c, hcm, htwo, hc⟩
    by_cases hbyte : p.1 = b
    · have heq := List.inj_on_of_nodup_map h.nodup hp h.genuine hbyte
      rw [heq] at hc
      exact hexposed ⟨c, hcm, htwo, hc⟩
    · exact hno.genuine i p (h.fake hb hp hbyte) c hc.symm

end

theorem filterMap_range {α β : Type*} (f : α → Option β) (xs : List α) :
    (List.range xs.length).filterMap (fun i => xs[i]?.bind f) = xs.filterMap f := by
  induction xs with
  | nil => rfl
  | cons x xs ih =>
    rw [List.length_cons, List.range_succ_eq_map, List.filterMap_cons, List.filterMap_cons,
      List.filterMap_map]
    have hfirst : (x :: xs)[0]?.bind f = f x := rfl
    rw [hfirst]
    cases f x with
    | none => exact ih
    | some y => exact congrArg (y :: ·) ih

/-- Without the key, the cracker reads the bytes of a message that are given away by a signature that
comes twice, in their order, and no others. -/
theorem decode_chaff (hmac : Hmac) (m : Val) (key : List UInt8) (draws : Nat → Draws)
    (hlength : m.encode.length < 2 ^ 32) (hno : NoCoincidence hmac m.encode key draws) :
    ∃ out, chaff_msg hmac m key draws = .ok out ∧
      decode_buf out = some (m.encode.filter fun b => Exposed hmac m.encode key b) := by
  obtain ⟨pss, hchaff, hrecords⟩ := chaff_msg_records hmac m key draws hlength
  refine ⟨_, hchaff, ?_⟩
  have hheader : ∀ rest, (bigEndian m.encode.length ++ rest).take 4 = bigEndian m.encode.length :=
    fun _ => rfl
  have hdrop : ∀ rest, (bigEndian m.encode.length ++ rest).drop 4 = rest := fun _ => rfl
  have hmem : ∀ ps ∈ pss, ∃ i b, m.encode[i]? = some b ∧ Chaffed hmac key (draws i) b ps := by
    intro ps hps
    obtain ⟨i, hi, rfl⟩ := List.mem_iff_getElem.mp hps
    have hi' : i < m.encode.length := hrecords.1 ▸ hi
    obtain ⟨ps, hget, hchaffed⟩ := hrecords.2 i m.encode[i] (List.getElem?_eq_getElem hi')
    rw [List.getElem?_eq_getElem hi] at hget
    cases hget
    exact ⟨i, _, List.getElem?_eq_getElem hi', hchaffed⟩
  have hchunk : ∀ l ∈ pss.map fun ps => (ps.map piece).flatten,
      l.length = (SIG_SIZE + 1) * CHAFF_SIZE := by
    intro l hl
    obtain ⟨ps, hps, rfl⟩ := List.mem_map.mp hl
    obtain ⟨i, b, -, hchaffed⟩ := hmem ps hps
    exact length_chaffed hchaffed
  have hall : records (pss.map fun ps => (ps.map piece).flatten).flatten = pss.flatten := by
    have hsame : (pss.map fun ps => (ps.map piece).flatten).flatten =
        (pss.flatten.map piece).flatten := by
      rw [List.map_flatten, List.flatten_flatten, List.map_map]
      rfl
    rw [hsame, records_flatten]
    intro p hp
    obtain ⟨ps, hps, hpps⟩ := List.mem_flatten.mp hp
    obtain ⟨i, b, -, hchaffed⟩ := hmem ps hps
    exact hchaffed.sig p hpps
  have hbytes : ∀ ck ∈ List.range m.encode.length,
      crackByte ((pss.flatten.foldl countRecord ∅).entries.foldl addLookup ∅)
        (slice (pss.map fun ps => (ps.map piece).flatten).flatten
          ((pss.map fun ps => (ps.map piece).flatten).flatten.length / m.encode.length * ck)
          ((pss.map fun ps => (ps.map piece).flatten).flatten.length / m.encode.length * (ck + 1))) =
      m.encode[ck]?.bind fun b => if Exposed hmac m.encode key b then some b else none := by
    intro ck hck
    rw [List.mem_range] at hck
    obtain ⟨ps, hps, hchaffed⟩ := hrecords.2 ck m.encode[ck] (List.getElem?_eq_getElem hck)
    have hget : (pss.map fun ps => (ps.map piece).flatten)[ck]? = some (ps.map piece).flatten := by
      rw [List.getElem?_map, hps, Option.map_some]
    rw [length_flatten hchunk, List.length_map, hrecords.1, Nat.mul_div_cancel _ (by omega),
      slice_flatten hchunk hget, crackByte_eq hno hrecords hchaffed (List.getElem?_eq_getElem hck),
      List.getElem?_eq_getElem hck, Option.bind_some]
  have hfilter : m.encode.filter (fun b => Exposed hmac m.encode key b) =
      m.encode.filterMap fun b => if Exposed hmac m.encode key b then some b else none := by
    rw [← List.filterMap_eq_filter]
    apply List.filterMap_congr
    intro b _
    by_cases hb : Exposed hmac m.encode key b <;> simp [hb, Option.guard]
  simp only [decode_buf, hheader, hdrop, unpack_bigEndian hlength, hall, Option.bind_eq_bind,
    Option.bind_some, Option.pure_def]
  rw [List.filterMap_congr hbytes, filterMap_range, hfilter]

/-- The answers of `firstDraws`, with the index of the byte in the fake signatures. -/
def indexDraws (i : Nat) : Draws :=
  { firstDraws with
    fake_sig := fun _ => ⟨0 :: UInt8.ofNat i :: List.replicate 14 0, rfl⟩ }

/-- Of `Hi, H` only the first letter comes twice. -/
theorem decode_chaff_letters :
    let hmac : Hmac := fun _ val => ⟨1 :: val.headD 0 :: List.replicate 30 0, rfl⟩
    ∃ out, chaff_msg hmac (.bytes [72, 105, 44, 32, 72]) [1] indexDraws = .ok out ∧
      decode_buf out = some ([72, 105, 44, 32, 72].filter fun b =>
        Exposed hmac [72, 105, 44, 32, 72] [1] b) := by
  intro hmac
  apply decode_chaff hmac (.bytes [72, 105, 44, 32, 72]) [1] indexDraws (by decide)
  constructor
  · intro i p hp c heq
    obtain ⟨-, k, hk⟩ := hp.sig
    rw [hk] at heq
    exact absurd (congrArg List.head? heq) (by simp [indexDraws, sign_byte, hmac, SIG_SIZE])
  · intro i j p hi hj
    obtain ⟨hilt, k, hk⟩ := hi.sig
    obtain ⟨hjlt, k', hk'⟩ := hj.sig
    have heq : UInt8.ofNat i = UInt8.ofNat j := by
      have hsig := hk.symm.trans hk'
      simpa [indexDraws] using hsig
    have hnat := congrArg UInt8.toNat heq
    simp only [Val.encode_bytes, List.length_cons, List.length_nil] at hilt hjlt
    have hsize : UInt8.size = 256 := rfl
    rwa [UInt8.toNat_ofNat_of_lt' (by omega), UInt8.toNat_ofNat_of_lt' (by omega)] at hnat

end CtfChallenges.Haystack
