import CtfChallenges.Framework.Run
import CtfChallenges.Haystack.Chaffing
import Mathlib.Data.List.Nodup
import Mathlib.Data.List.Perm.Basic
import Mathlib.Data.List.Perm.Subperm

/-!
# Winnowing finds the message

The chaff of a byte is 32 records for different bytes in some order, and only the true one verifies
as long as no fake signature is right by chance.
-/

namespace CtfChallenges.Haystack
open Framework Framework.Blocks

variable (hmac : Hmac)

def verifies (key : List UInt8) (p : UInt8 × List UInt8) : Bool := sign_byte hmac [p.1] key = p.2

/-- No fake signature is the true one of its byte. -/
def NoForgery (key : List UInt8) (b : UInt8) (draws : Draws) : Prop :=
  ∀ msgs, chaffMsgs hmac [b] key draws = .ok msgs →
    ∀ p ∈ msgs, p.1 ≠ b → p.2 ≠ sign_byte hmac [p.1] key

/-- The chunk is 32 records for different bytes, of which only the one for `b` verifies. -/
def Carries (key : List UInt8) (b : UInt8) (chunk : List UInt8) : Prop :=
  ∃ records : Msgs, chunk = (records.map piece).flatten ∧ records.length = CHAFF_SIZE ∧
    (∀ p ∈ records, p.2.length = SIG_SIZE) ∧ (records.map Prod.fst).Nodup ∧
    records.filter (verifies hmac key) = [(b, sign_byte hmac [b] key)]

variable {hmac}

@[simp] theorem length_sign_byte (val key : List UInt8) :
    (sign_byte hmac val key).length = SIG_SIZE := by
  rw [sign_byte, List.length_take, (hmac key val).2]
  rfl

private theorem nodup_ALL_BYTES : ALL_BYTES.Nodup := by
  apply List.Nodup.map_on _ List.nodup_range
  intro i hi j hj heq
  have hnat : (UInt8.ofNat i).toNat = (UInt8.ofNat j).toNat := congrArg UInt8.toNat heq
  rw [List.mem_range] at hi hj
  rwa [UInt8.toNat_ofNat_of_lt' hi, UInt8.toNat_ofNat_of_lt' hj] at hnat

private theorem unused_ne_nil {msgs : Msgs} (h : msgs.length < CHAFF_SIZE) : unused msgs ≠ [] := by
  intro hnil
  have hsub : ALL_BYTES ⊆ msgs.map Prod.fst := by
    intro c hc
    have hnot := List.filter_eq_nil_iff.mp hnil c hc
    simpa using hnot
  have hle := (nodup_ALL_BYTES.subperm hsub).length_le
  rw [ALL_BYTES, List.length_map, List.length_range, List.length_map] at hle
  exact absurd (hle.trans_lt h) (by decide)

private theorem addChaff_spec (draws : Draws) {msgs : Msgs} (hlength : msgs.length ≤ CHAFF_SIZE)
    (hnodup : (msgs.map Prod.fst).Nodup) (hsig : ∀ p ∈ msgs, p.2.length = SIG_SIZE) :
    ∃ all, addChaff draws msgs = .ok all ∧ msgs <+: all ∧ all.length = CHAFF_SIZE ∧
      (all.map Prod.fst).Nodup ∧ ∀ p ∈ all, p.2.length = SIG_SIZE := by
  induction msgs using addChaff.induct draws with
  | case1 msgs hfull =>
    rw [addChaff, if_pos hfull]
    exact ⟨msgs, rfl, List.prefix_rfl, Nat.le_antisymm hlength hfull, hnodup, hsig⟩
  | case2 msgs hfull hnil => exact absurd hnil (unused_ne_nil (Nat.lt_of_not_le hfull))
  | case3 msgs hfull hne c ih =>
    have hc : c.1 ∉ msgs.map Prod.fst := not_mem_of_mem_unused c.2
    rw [setItem_of_not_mem hc] at ih
    rw [addChaff, if_neg hfull, dif_neg hne]
    have hlength' : (msgs ++ [(c.1, (draws.fake_sig msgs.length).1)]).length ≤ CHAFF_SIZE := by
      rw [List.length_append, List.length_singleton]
      exact Nat.lt_of_not_le hfull
    have hnodup' : ((msgs ++ [(c.1, (draws.fake_sig msgs.length).1)]).map Prod.fst).Nodup := by
      rw [List.map_append, List.map_singleton, ← List.concat_eq_append]
      exact hnodup.concat hc
    have hsig' : ∀ p ∈ msgs ++ [(c.1, (draws.fake_sig msgs.length).1)], p.2.length = SIG_SIZE := by
      intro p hp
      rw [List.mem_append, List.mem_singleton] at hp
      obtain hp | rfl := hp
      · exact hsig p hp
      · exact (draws.fake_sig msgs.length).2
    obtain ⟨all, hall, hpre, hrest⟩ := ih hlength' hnodup' hsig'
    refine ⟨all, ?_, (List.prefix_append _ _).trans hpre, hrest⟩
    exact (congrArg (addChaff draws) (setItem_of_not_mem hc _)).trans hall

/-- The records that `chaff_byte` shuffles, the true one among them. -/
theorem chaffMsgs_spec (hmac : Hmac) (key : List UInt8) (b : UInt8) (draws : Draws) :
    ∃ all, chaffMsgs hmac [b] key draws = .ok all ∧ (b, sign_byte hmac [b] key) ∈ all ∧
      all.length = CHAFF_SIZE ∧ (all.map Prod.fst).Nodup ∧ ∀ p ∈ all, p.2.length = SIG_SIZE := by
  have hsig : ∀ p ∈ [(b, sign_byte hmac [b] key)], p.2.length = SIG_SIZE := by
    intro p hp
    rw [List.mem_singleton.mp hp]
    exact length_sign_byte [b] key
  obtain ⟨all, hall, hpre, hrest⟩ :=
    addChaff_spec draws (Nat.le_of_ble_eq_true rfl) (by exact List.nodup_singleton b) hsig
  exact ⟨all, hall, hpre.subset List.mem_cons_self, hrest⟩

/-- Chaff has the signatures that are drawn for it. -/
theorem mem_addChaff {draws : Draws} {msgs all : Msgs} (h : addChaff draws msgs = .ok all)
    {p : UInt8 × List UInt8} (hp : p ∈ all) : p ∈ msgs ∨ ∃ k, p.2 = (draws.fake_sig k).1 := by
  induction msgs using addChaff.induct draws with
  | case1 msgs hfull =>
    rw [addChaff, if_pos hfull] at h
    cases h
    exact .inl hp
  | case2 msgs hfull hnil =>
    rw [addChaff, if_neg hfull, dif_pos hnil] at h
    cases h
  | case3 msgs hfull hne c ih =>
    have hset := setItem_of_not_mem (not_mem_of_mem_unused c.2) (draws.fake_sig msgs.length).1
    rw [hset] at ih
    rw [addChaff, if_neg hfull, dif_neg hne] at h
    have hold := ih ((congrArg (addChaff draws) hset).symm.trans h)
    rw [List.mem_append, List.mem_singleton] at hold
    obtain (hmem | rfl) | hfake := hold
    · exact .inl hmem
    · exact .inr ⟨msgs.length, rfl⟩
    · exact .inr hfake

/-- Signatures that are right for no byte forge nothing. -/
theorem noForgery_of_fake {key : List UInt8} (b : UInt8) {draws : Draws}
    (h : ∀ k c, (draws.fake_sig k).1 ≠ sign_byte hmac [c] key) : NoForgery hmac key b draws := by
  intro msgs hmsgs p hp hpb
  obtain hmem | ⟨k, hk⟩ := mem_addChaff hmsgs hp
  · rw [show p = (b, sign_byte hmac [b] key) from List.mem_singleton.mp hmem] at hpb
    exact absurd rfl hpb
  · rw [hk]
    exact h k p.1

private theorem verifies_true (key : List UInt8) (b : UInt8) :
    verifies hmac key (b, sign_byte hmac [b] key) = true :=
  decide_eq_true rfl

private theorem winnow_byte_records (key : List UInt8) {records : Msgs}
    (hsig : ∀ p ∈ records, p.2.length = SIG_SIZE) {p : UInt8 × List UInt8}
    (hfind : records.find? (verifies hmac key) = some p) :
    winnow_byte hmac key (records.map piece).flatten = .ok [p.1] := by
  induction records with
  | nil => cases hfind
  | cons q records ih =>
    rw [List.forall_mem_cons] at hsig
    have htake : (q.2 ++ (records.map piece).flatten).take SIG_SIZE = q.2 :=
      List.take_left' hsig.1
    have hdrop : (q.2 ++ (records.map piece).flatten).drop SIG_SIZE =
        (records.map piece).flatten := List.drop_left' hsig.1
    rw [List.map_cons, List.flatten_cons, piece, List.cons_append, winnow_byte, htake, hdrop]
    cases hq : verifies hmac key q with
    | true =>
      rw [List.find?_cons_of_pos hq] at hfind
      cases hfind
      rw [if_pos (of_decide_eq_true hq)]
    | false =>
      rw [List.find?_cons_of_neg (by rw [hq]; exact Bool.false_ne_true)] at hfind
      rw [if_neg (of_decide_eq_false hq)]
      exact ih hsig.2 hfind

private theorem winnow_byte_of_carries {key : List UInt8} {b : UInt8} {chunk : List UInt8}
    (h : Carries hmac key b chunk) : winnow_byte hmac key chunk = .ok [b] := by
  obtain ⟨records, rfl, -, hsig, -, hfilter⟩ := h
  have hfind : records.find? (verifies hmac key) = some (b, sign_byte hmac [b] key) := by
    rw [← List.head?_filter, hfilter]
    rfl
  exact winnow_byte_records key hsig hfind

private theorem chaff_byte_carries {key : List UInt8} {b : UInt8} {draws : Draws}
    (h : NoForgery hmac key b draws) :
    ∃ chunk, chaff_byte hmac [b] key draws = .ok chunk ∧ Carries hmac key b chunk := by
  obtain ⟨msgs, hmsgs, hmem, hlength, hnodup, hsig⟩ := chaffMsgs_spec hmac key b draws
  refine ⟨(draws.shuffle (msgs.map piece)).1.flatten, ?_, ?_⟩
  · rw [chaff_byte, hmsgs]
    rfl
  · -- The shuffled pieces are the pieces of the records in another order.
    obtain ⟨records, hrecords, hperm⟩ : ∃ records : Msgs,
        (draws.shuffle (msgs.map piece)).1 = records.map piece ∧ records.Perm msgs :=
      (congrFun₂ (List.eq_map_comp_perm piece) _ msgs).mpr (draws.shuffle (msgs.map piece)).2
    refine ⟨records, congrArg List.flatten hrecords, hperm.length_eq.trans hlength, ?_, ?_, ?_⟩
    · intro p hp
      exact hsig p (hperm.subset hp)
    · exact (hperm.map Prod.fst).nodup_iff.mpr hnodup
    · have hsame : ∀ p ∈ msgs, verifies hmac key p = (p == (b, sign_byte hmac [b] key)) := by
        intro p hp
        by_cases hpb : p.1 = b
        · have heq := List.inj_on_of_nodup_map hnodup hp hmem hpb
          rw [heq, verifies_true, beq_self_eq_true]
        · have hfalse : verifies hmac key p = false :=
            decide_eq_false (Ne.symm (h msgs hmsgs p hp hpb))
          have hne : p ≠ (b, sign_byte hmac [b] key) := fun heq => hpb (congrArg Prod.fst heq)
          rw [hfalse, beq_false_of_ne hne]
      have hcount : msgs.count (b, sign_byte hmac [b] key) = 1 :=
        List.count_eq_one_of_mem hnodup.of_map hmem
      have hfilter : msgs.filter (verifies hmac key) = [(b, sign_byte hmac [b] key)] := by
        rw [List.filter_congr hsame, List.filter_beq, hcount]
        rfl
      have hfiltered := hperm.filter (verifies hmac key)
      rw [hfilter] at hfiltered
      exact List.perm_singleton.mp hfiltered

private theorem length_of_carries {key : List UInt8} {b : UInt8} {chunk : List UInt8}
    (h : Carries hmac key b chunk) : chunk.length = (SIG_SIZE + 1) * CHAFF_SIZE := by
  obtain ⟨records, rfl, hlength, hsig, -⟩ := h
  have hpiece : ∀ l ∈ records.map piece, l.length = SIG_SIZE + 1 := by
    intro l hl
    obtain ⟨p, hp, rfl⟩ := List.mem_map.mp hl
    rw [piece, List.length_cons, hsig p hp]
  rw [length_flatten hpiece, List.length_map, hlength]

private theorem exists_chunks {key : List UInt8} {draws : Nat → Draws} {val : List UInt8}
    (hforge : ∀ (i : Nat) b, val[i]? = some b → NoForgery hmac key b (draws i)) :
    ∃ chunks, val.zipIdx.mapM (fun b => chaff_byte hmac [b.1] key (draws b.2)) = .ok chunks ∧
      chunks.length = val.length ∧
      ∀ (i : Nat) b, val[i]? = some b →
        ∃ chunk, chunks[i]? = some chunk ∧ Carries hmac key b chunk := by
  have hbytes : ∀ b ∈ val.zipIdx, ∃ chunk,
      chaff_byte hmac [b.1] key (draws b.2) = .ok chunk ∧ Carries hmac key b.1 chunk := by
    intro b hb
    exact chaff_byte_carries (hforge b.2 b.1 (List.mem_zipIdx_iff_getElem?.mp hb))
  obtain ⟨chunks, hchunks⟩ := exists_forall₂ hbytes
  refine ⟨chunks, mapM_ok (hchunks.imp fun _ _ h => h.1), ?_, ?_⟩
  · rw [← hchunks.length_eq, List.length_zipIdx]
  · intro i b hb
    obtain ⟨hi, rfl⟩ := List.getElem?_eq_some_iff.mp hb
    have hi' : i < val.zipIdx.length := by rwa [List.length_zipIdx]
    have hlt : i < chunks.length := hchunks.length_eq ▸ hi'
    have hget := (hchunks.get hi' hlt).2
    simp only [List.get_eq_getElem, List.getElem_zipIdx, Nat.zero_add] at hget
    exact ⟨chunks[i], List.getElem?_eq_getElem hlt, hget⟩

/-- Without a forged signature, winnowing returns the message, and every byte of it is in a chunk of
32 records of which only the true one verifies. -/
theorem winnow_chaff (hmac : Hmac) (m : Val) (key : List UInt8) (draws : Nat → Draws)
    (hlength : m.encode.length < 2 ^ 32)
    (hforge : ∀ (i : Nat) b, m.encode[i]? = some b → NoForgery hmac key b (draws i)) :
    ∃ out, chaff_msg hmac m key draws = .ok out ∧
      winnow_msg hmac (.bytes out) key = .ok m.encode ∧
      ∀ (i : Nat) b, m.encode[i]? = some b → Carries hmac key b
        (slice (out.drop 4) ((SIG_SIZE + 1) * CHAFF_SIZE * i)
          ((SIG_SIZE + 1) * CHAFF_SIZE * (i + 1))) := by
  obtain ⟨chunks, hchunks, hcount, hcarries⟩ := exists_chunks hforge
  have hchunk : ∀ chunk ∈ chunks, chunk.length = (SIG_SIZE + 1) * CHAFF_SIZE := by
    intro chunk hmem
    obtain ⟨i, hi⟩ := List.mem_iff_getElem?.mp hmem
    have hlt : i < m.encode.length := hcount ▸ (List.getElem?_eq_some_iff.mp hi).1
    obtain ⟨chunk', hi', hcarry⟩ := hcarries i m.encode[i] (List.getElem?_eq_getElem hlt)
    rw [hi] at hi'
    cases hi'
    exact length_of_carries hcarry
  have hslice : ∀ (i : Nat) b, m.encode[i]? = some b → Carries hmac key b
      (slice chunks.flatten ((SIG_SIZE + 1) * CHAFF_SIZE * i)
        ((SIG_SIZE + 1) * CHAFF_SIZE * (i + 1))) := by
    intro i b hb
    obtain ⟨chunk, hi, hcarry⟩ := hcarries i b hb
    rw [slice_flatten hchunk hi]
    exact hcarry
  have hwinnow : (List.range m.encode.length).mapM (fun i => winnow_byte hmac key
      (slice chunks.flatten ((SIG_SIZE + 1) * CHAFF_SIZE * i)
        ((SIG_SIZE + 1) * CHAFF_SIZE * (i + 1)))) = .ok (m.encode.map fun b => [b]) := by
    apply mapM_ok
    rw [List.forall₂_iff_get]
    refine ⟨by simp, ?_⟩
    intro i hi _
    rw [List.length_range] at hi
    simp only [List.get_eq_getElem, List.getElem_range, List.getElem_map]
    exact winnow_byte_of_carries (hslice i m.encode[i] (List.getElem?_eq_getElem hi))
  refine ⟨bigEndian m.encode.length ++ chunks.flatten, ?_, ?_, hslice⟩
  · simp only [chaff_msg, hchunks, pack, if_pos hlength]
    rfl
  · have hexpected : chunks.flatten.length = (SIG_SIZE + 1) * CHAFF_SIZE * m.encode.length := by
      rw [length_flatten hchunk, hcount]
    have hheader : (bigEndian m.encode.length ++ chunks.flatten).take 4 =
      bigEndian m.encode.length := rfl
    have hdrop : (bigEndian m.encode.length ++ chunks.flatten).drop 4 = chunks.flatten := rfl
    have hpieces : (m.encode.map fun b => [b]).flatten = m.encode := by
      rw [← List.flatMap_def, List.flatMap_singleton']
    simp only [winnow_msg, Val.encode_bytes]
    rw [hheader, unpack_bigEndian hlength]
    refine (if_neg (not_not.mpr hexpected)).trans ?_
    rw [hdrop, hwinnow]
    exact congrArg Except.ok hpieces

/-- The answers of a generator that takes the first byte, signs with zeros and reverses. -/
def firstDraws : Draws where
  choice _ vals h := ⟨vals.head h, List.head_mem h⟩
  fake_sig _ := ⟨List.replicate SIG_SIZE 0, List.length_replicate⟩
  shuffle pieces := ⟨pieces.reverse, List.reverse_perm pieces⟩

theorem winnow_chaff_two_bytes :
    let hmac : Hmac := fun _ val => ⟨1 :: val.headD 0 :: List.replicate 30 0, rfl⟩
    ∃ out, chaff_msg hmac (.bytes [72, 105]) [1] (fun _ => firstDraws) = .ok out ∧
      winnow_msg hmac (.bytes out) [1] = .ok [72, 105] := by
  intro hmac
  have hforge : ∀ b, NoForgery hmac [1] b firstDraws := by
    intro b
    apply noForgery_of_fake
    intro k c heq
    exact absurd (congrArg List.head? heq) (by simp [firstDraws, sign_byte, hmac, SIG_SIZE])
  obtain ⟨out, hchaff, hwinnow, -⟩ := winnow_chaff hmac (.bytes [72, 105]) [1]
    (fun _ => firstDraws) (by decide) (fun i b _ => hforge b)
  exact ⟨out, hchaff, hwinnow⟩

end CtfChallenges.Haystack
