import CtfChallenges.Framework.Rc4
import CtfChallenges.Ripc4.Workspace

/-!
# ripc4 is RC4

Read as unsigned bytes, the signed state of the workspace goes through the states of the RC4
cipher, and the buffer is combined with its keystream.
-/

namespace CtfChallenges.Ripc4
open Framework

/-- A state of the workspace, read as unsigned bytes. -/
def unsigned (s : Vector Int8 256) : Rc4.State := s.map Int8.toUInt8

def bytes (l : List Int8) : List UInt8 := l.map Int8.toUInt8

private def byte (i : Fin 256) : UInt8 := UInt8.ofNat i.val

private theorem byte_toNat (i : Fin 256) : (byte i).toNat = i.val := by
  rw [byte, UInt8.toNat_ofNat']
  exact Nat.mod_eq_of_lt i.isLt

private theorem toInt_emod (c : Int8) : c.toInt % 256 = c.toUInt8.toNat := by
  rw [← Int8.toInt_toBitVec, ← Int8.toNat_toBitVec, BitVec.toInt_eq_toNat_cond]
  have := c.toBitVec.isLt
  split <;> omega

private theorem byte_mask_add (x : Fin 256) (c : Int8) :
    byte (mask (x.val + c.toInt)) = byte x + c.toUInt8 := by
  apply UInt8.toNat_inj.mp
  have hc := toInt_emod c
  rw [byte_toNat, UInt8.toNat_add, byte_toNat, mask]
  dsimp only
  omega

private theorem byte_mask_add_add (x : Fin 256) (c d : Int8) :
    byte (mask (x.val + c.toInt + d.toInt)) = byte x + c.toUInt8 + d.toUInt8 := by
  apply UInt8.toNat_inj.mp
  have hc := toInt_emod c
  have hd := toInt_emod d
  rw [byte_toNat, UInt8.toNat_add, UInt8.toNat_add, byte_toNat, mask]
  dsimp only
  omega

private theorem byte_mask_toInt_add (c d : Int8) :
    byte (mask (c.toInt + d.toInt)) = c.toUInt8 + d.toUInt8 := by
  apply UInt8.toNat_inj.mp
  have hc := toInt_emod c
  have hd := toInt_emod d
  rw [byte_toNat, UInt8.toNat_add, mask]
  dsimp only
  omega

private theorem byte_mask_succ (x : Fin 256) : byte (mask (x.val + 1)) = byte x + 1 := by
  apply UInt8.toNat_inj.mp
  rw [byte_toNat, UInt8.toNat_add, byte_toNat, mask]
  dsimp only
  simp only [UInt8.toNat_one]
  omega

private theorem cell_unsigned (s : Vector Int8 256) {i : Nat} (hi : i < 256) :
    Rc4.cell (unsigned s) (byte ⟨i, hi⟩) = s[i].toUInt8 := by
  simp only [Rc4.cell, unsigned, Fin.getElem_fin, Vector.getElem_map, UInt8.toFin_val, byte_toNat]

private theorem exchange_unsigned (s : Vector Int8 256) {i j : Nat} (hi : i < 256) (hj : j < 256) :
    unsigned ((s.set i s[j]).set j s[i]) =
      Rc4.exchange (unsigned s) (byte ⟨i, hi⟩) (byte ⟨j, hj⟩) := by
  ext k hk
  simp only [unsigned, Rc4.exchange, Vector.getElem_map, Vector.getElem_set, Vector.getElem_swap,
    byte_toNat]
  by_cases hjk : j = k
  · by_cases hik : i = k
    · simp only [hjk, hik, if_true]
    · simp only [hjk, hik, if_true, Ne.symm hik, if_false]
  · by_cases hik : i = k
    · simp only [hjk, hik, if_true, if_false]
    · simp only [hjk, hik, if_false, Ne.symm hik, Ne.symm hjk]

private theorem toUInt8_ofInt (n : Nat) : (Int8.ofInt n).toUInt8 = UInt8.ofNat n := by
  apply UInt8.toBitVec_inj.mp
  rw [Int8.toBitVec_toUInt8, Int8.toBitVec_ofInt, BitVec.ofInt_natCast, UInt8.toBitVec_ofNat']

private theorem unsigned_initialState : unsigned initialState = Rc4.identity := by
  ext k hk
  simp only [unsigned, initialState, Rc4.identity, Vector.getElem_map, Vector.getElem_ofFn,
    toUInt8_ofInt]

private theorem schedulePass_unsigned (key_data : List Int8) (key : List UInt8)
    (hkey : bytes (key_data.take key.length) = key) (hlen : 0 < key.length)
    (p : Vector Int8 256 × Fin 256) (i : Fin 256) :
    (unsigned (schedulePass key_data key.length p i).1,
        byte (schedulePass key_data key.length p i).2) =
      Rc4.schedulePass key (unsigned p.1, byte p.2) i := by
  have hmod : i.val % key.length < key.length := Nat.mod_lt _ hlen
  have hkeychar : (key_data.getD (i.val % key.length) 0).toUInt8 =
      key.getD (i.val % key.length) 0 := by
    have hget : (bytes (key_data.take key.length)).getD (i.val % key.length) 0 =
        (key_data.getD (i.val % key.length) 0).toUInt8 := by
      simp only [bytes, List.getD_eq_getElem?_getD, List.getElem?_map, List.getElem?_take_of_lt hmod]
      cases key_data[i.val % key.length]? <;> rfl
    rw [← hget, hkey]
  have hj : byte (mask (p.2.val + p.1[i.val].toInt + (key_data.getD (i.val % key.length) 0).toInt)) =
      byte p.2 + Rc4.cell (unsigned p.1) (byte i) + key.getD (i.val % key.length) 0 := by
    rw [byte_mask_add_add, hkeychar, cell_unsigned]
  simp only [schedulePass, Rc4.schedulePass, Fin.getElem_fin]
  rw [exchange_unsigned, hj]
  rfl

private theorem schedule_unsigned (key_data : List Int8) (key : List UInt8)
    (hkey : bytes (key_data.take key.length) = key) (hlen : 0 < key.length) :
    unsigned ((List.finRange 256).foldl (schedulePass key_data key.length) (initialState, 0)).1 =
      Rc4.schedule key := by
  have hfold : ∀ (is : List (Fin 256)) (p : Vector Int8 256 × Fin 256),
      (unsigned (is.foldl (schedulePass key_data key.length) p).1,
          byte (is.foldl (schedulePass key_data key.length) p).2) =
        is.foldl (Rc4.schedulePass key) (unsigned p.1, byte p.2) := by
    intro is
    induction is with
    | nil => exact fun _ => rfl
    | cons i is ih =>
      intro p
      rw [List.foldl_cons, List.foldl_cons, ih, schedulePass_unsigned key_data key hkey hlen]
  have hall := hfold (List.finRange 256) (initialState, 0)
  rw [unsigned_initialState] at hall
  rw [Rc4.schedule]
  exact congrArg Prod.fst hall

/-- The characters spell the bytes in hexadecimal, two digits each. -/
inductive Spells : List Int8 → List UInt8 → Prop
  | nil : Spells [] []
  | cons {c c' : Int8} {d d' : Nat} {line : List Int8} {key : List UInt8} :
      hexDigit c = some d → hexDigit c' = some d' → Spells line key →
        Spells (c :: c' :: line) (UInt8.ofNat (16 * d + d') :: key)

theorem Spells.length {line : List Int8} {key : List UInt8} (h : Spells line key) :
    line.length = 2 * key.length := by
  induction h with
  | nil => rfl
  | cons _ _ _ ih =>
    simp only [List.length_cons]
    omega

private theorem not_special_of_hexDigit {c : Int8} {d : Nat} (h : hexDigit c = some d) :
    isSpace c = false ∧ c ≠ 0x2d ∧ c ≠ 0x2b := by
  refine ⟨?_, ?_, ?_⟩
  · have hne : c ≠ 0x20 := by
      rintro rfl
      cases h
    unfold hexDigit at h
    simp only [isSpace, Int8.le_iff_toInt_le, Int8.reduceToInt] at h ⊢
    have hle : ¬ c.toInt ≤ 13 := by
      intro hle
      rw [if_neg (by omega), if_neg (by omega), if_neg (by omega)] at h
      cases h
    simp [hne, hle]
  · rintro rfl
    cases h
  · rintro rfl
    cases h

private theorem sscanf02x_digits {c c' : Int8} {d d' : Nat} (h : hexDigit c = some d)
    (h' : hexDigit c' = some d') (line : List Int8) :
    sscanf02x (c :: c' :: line) = some (16 * d + d' : Int) := by
  obtain ⟨hspace, hminus, hplus⟩ := not_special_of_hexDigit h
  rw [sscanf02x, List.dropWhile_cons_of_neg (by simp [hspace])]
  simp only [if_neg hminus, if_neg hplus, h, List.head?_cons, Option.bind_some, h']

/-- Decoding in place: after `n` pairs the buffer holds `n` bytes and the line from `n` on. -/
theorem decodeKey_prefix {line : List Int8} (bs : List Int8)
    (h : ∀ n < bs.length, (sscanf02x (line.drop (2 * n))).map (fun byte =>
      Int8.ofInt (mask byte).val) = bs[n]?) (hlen : 2 * bs.length ≤ line.length) (n : Nat)
    (hn : n ≤ bs.length) :
    (List.range n).foldlM (fun key_data n =>
      (sscanf02x (key_data.drop (2 * n))).map fun byte =>
        key_data.set n (Int8.ofInt (mask byte).val)) line = some (bs.take n ++ line.drop n) := by
  induction n with
  | zero => rfl
  | succ n ih =>
    have hdrop : (bs.take n ++ line.drop n).drop (2 * n) = line.drop (2 * n) := by
      have htake : (bs.take n).length = n := by
        rw [List.length_take]
        omega
      rw [List.drop_append, List.drop_eq_nil_of_le (by omega), htake, List.drop_drop,
        List.nil_append]
      congr 1
      omega
    rw [List.range_succ, List.foldlM_append, ih (by omega)]
    simp only [Option.bind_eq_bind, Option.bind_some, List.foldlM_cons, List.foldlM_nil,
      Option.pure_def, Option.bind_fun_some]
    rw [hdrop]
    have hbyte := h n (by omega)
    rw [List.getElem?_eq_getElem (by omega), Option.map_eq_some_iff] at hbyte
    obtain ⟨byte, hscan, hbyte⟩ := hbyte
    have htake : (bs.take n).length = n := by
      rw [List.length_take]
      omega
    rw [hscan, Option.map_some, hbyte, List.set_append_right _ _ (by omega), htake, Nat.sub_self,
      List.drop_eq_getElem_cons (by omega), List.set_cons_zero,
      List.take_succ_eq_append_getElem (by omega), List.append_assoc, List.singleton_append]

private theorem Spells.scan {line : List Int8} {key : List UInt8} (h : Spells line key) (n : Nat)
    (hn : n < key.length) : (sscanf02x (line.drop (2 * n))).map (fun byte =>
      Int8.ofInt (mask byte).val) = (key.map UInt8.toInt8)[n]? := by
  induction h generalizing n with
  | nil => cases hn
  | @cons c c' d d' line key hc hc' _ ih =>
    cases n with
    | zero =>
      rw [List.drop_zero, sscanf02x_digits hc hc', Option.map_some, List.map_cons,
        List.getElem?_cons_zero, Option.some.injEq]
      rw [← Int8.toInt8_toUInt8 (Int8.ofInt _), toUInt8_ofInt]
      congr 1
      apply UInt8.toNat_inj.mp
      simp only [UInt8.toNat_ofNat', mask]
      omega
    | succ n =>
      have hlt : n < key.length := Nat.lt_of_succ_lt_succ hn
      rw [List.map_cons, List.getElem?_cons_succ, ← ih n hlt]
      rfl

/-- A hexadecimal key puts the state of its RC4 schedule into the workspace. -/
theorem set_key_spells {line : List Int8} {key : List UInt8} (h : Spells line key)
    (hmin : 1 ≤ key.length) (hmax : key.length ≤ 256) (ws : Workspace) :
    ∃ s, set_key ws (some line) = { ws with enc := .enc_state s } ∧
      unsigned s = Rc4.schedule key := by
  have hlen := h.length
  have hhalf : line.length / 2 = key.length := by omega
  have hdecode : decodeKey line line.length =
      some (key.map UInt8.toInt8 ++ line.drop key.length) := by
    have hall := decodeKey_prefix (key.map UInt8.toInt8)
      (fun n hn => h.scan n (by simpa using hn)) (by simp [hlen]) key.length (by simp)
    rw [List.take_of_length_le (by simp)] at hall
    rw [decodeKey, hhalf]
    exact hall
  have hvalid : ¬ (line.length > KEY_LEN_MAX * 2 ∨ line.length < KEY_LEN_MIN * 2 ∨
      line.length % 2 ≠ 0) := by
    unfold KEY_LEN_MAX KEY_LEN_MIN
    omega
  have hkey : bytes ((key.map UInt8.toInt8 ++ line.drop key.length).take key.length) = key := by
    rw [List.take_left' (by simp), bytes, List.map_map]
    exact (List.map_congr_left fun b _ => UInt8.toUInt8_toInt8 b).trans (List.map_id key)
  have hschedule := schedule_unsigned _ key hkey hmin
  simp only [set_key]
  rw [if_neg hvalid, hdecode, hhalf]
  exact ⟨_, rfl, hschedule⟩

/-- The variables of the loop as a state of the generator. -/
private def Loop.generator (l : Loop) : Rc4.Generator := ⟨unsigned l.enc_state, byte l.i, byte l.j⟩

private theorem encryptPass_generator (l : Loop) (k : Nat) :
    (encryptPass l k).generator = l.generator.step := by
  have hi : byte (mask (l.i.val + 1)) = byte l.i + 1 := byte_mask_succ l.i
  simp only [Loop.generator, encryptPass, Rc4.Generator.step, Fin.getElem_fin]
  rw [exchange_unsigned, byte_mask_add, hi, ← cell_unsigned, hi]

private theorem bytes_modify (l : List Int8) (k : Nat) (c : Int8) :
    bytes (l.modify k (· ^^^ c)) = (bytes l).modify k (· ^^^ c.toUInt8) := by
  apply List.ext_getElem?
  intro n
  simp only [bytes, List.getElem?_map, List.getElem?_modify]
  by_cases hkn : k = n
  · simp only [hkn, if_true]
    cases l[n]? <;> rfl
  · simp only [hkn, if_false]
    cases l[n]? <;> rfl

private theorem encryptPass_buf (l : Loop) (k : Nat) :
    bytes (encryptPass l k).input_buf =
      (bytes l.input_buf).modify k (· ^^^ l.generator.step.out) := by
  have hout : (encryptPass l k).generator.out = ((encryptPass l k).enc_state[mask
      ((encryptPass l k).enc_state[(encryptPass l k).i].toInt +
        (encryptPass l k).enc_state[(encryptPass l k).j].toInt)]).toUInt8 := by
    simp only [Rc4.Generator.out, Fin.getElem_fin]
    rw [← cell_unsigned, byte_mask_toInt_add, ← cell_unsigned, ← cell_unsigned]
    rfl
  rw [← encryptPass_generator, hout, ← bytes_modify]
  rfl

private theorem modify_append_cons {α : Type} {f : α → α} {l : List α} {n : Nat}
    (h : l.length = n) (x : α) (l' : List α) : (l ++ x :: l').modify n f = l ++ f x :: l' := by
  induction l generalizing n with
  | nil =>
    subst h
    rfl
  | cons y l ih =>
    subst h
    rw [List.cons_append, List.length_cons, List.modify_succ_cons, ih rfl, List.cons_append]

private theorem encrypt_prefix (s : Vector Int8 256) (buf : List Int8) (n : Nat)
    (hn : n ≤ buf.length) :
    ((List.range n).foldl encryptPass ⟨s, 0, 0, buf⟩).generator =
        Rc4.Generator.step^[n] (Rc4.start (unsigned s)) ∧
      bytes ((List.range n).foldl encryptPass ⟨s, 0, 0, buf⟩).input_buf =
        Rc4.crypt (unsigned s) ((bytes buf).take n) ++ (bytes buf).drop n := by
  induction n with
  | zero => exact ⟨rfl, rfl⟩
  | succ n ih =>
    obtain ⟨hgen, hbuf⟩ := ih (by omega)
    have hlen : (bytes buf).length = buf.length := List.length_map _
    rw [List.range_succ, List.foldl_append, List.foldl_cons, List.foldl_nil, encryptPass_generator,
      encryptPass_buf, hgen, hbuf, ← Function.iterate_succ_apply' Rc4.Generator.step]
    refine ⟨rfl, ?_⟩
    have htake : ((bytes buf).take n).length = n := by
      rw [List.length_take]
      omega
    have hcrypt : (Rc4.crypt (unsigned s) ((bytes buf).take n)).length = n := by
      rw [Rc4.length_crypt, htake]
    rw [List.drop_eq_getElem_cons (by omega), List.take_succ_eq_append_getElem (by omega),
      Rc4.crypt_concat, htake, modify_append_cons hcrypt, List.append_assoc, List.singleton_append]

/-- What `do_encrypt` leaves of a state and a buffer. -/
theorem do_encrypt_spec (ws : Workspace) {s : Vector Int8 256} {buf : List Int8}
    (hs : ws.enc = .enc_state s) (hbuf : ws.input_buf = some buf)
    (hlen : ws.buf_len ≤ buf.length) :
    ∃ s' buf', do_encrypt ws = some { ws with enc := .enc_state s', input_buf := some buf' } ∧
      unsigned s' = (Rc4.Generator.step^[ws.buf_len] (Rc4.start (unsigned s))).s ∧
      bytes buf' = Rc4.crypt (unsigned s) ((bytes buf).take ws.buf_len) ++
        (bytes buf).drop ws.buf_len := by
  unfold do_encrypt
  split
  · rename_i hzero
    exact ⟨s, buf, by rw [← hs, ← hbuf], by rw [hzero]; rfl, by rw [hzero]; rfl⟩
  · obtain ⟨hgen, hout⟩ := encrypt_prefix s buf ws.buf_len hlen
    rw [hs, hbuf]
    dsimp only
    rw [if_pos hlen]
    exact ⟨_, _, rfl, congrArg Rc4.Generator.s hgen, hout⟩

private theorem crypt_prefix_twice (s : Rc4.State) (buf : List UInt8) {n : Nat}
    (hn : n ≤ buf.length) :
    Rc4.crypt s ((Rc4.crypt s (buf.take n) ++ buf.drop n).take n) ++
      (Rc4.crypt s (buf.take n) ++ buf.drop n).drop n = buf := by
  have hlen : (Rc4.crypt s (buf.take n)).length = n := by
    rw [Rc4.length_crypt, List.length_take]
    omega
  rw [List.take_left' hlen, List.drop_left' hlen, Rc4.crypt_crypt, List.take_append_drop]

private theorem bytes_injective : Function.Injective bytes := by
  apply List.map_injective_iff.mpr
  intro c d h
  rw [← Int8.toInt8_toUInt8 c, h, Int8.toInt8_toUInt8]

/-- For a hexadecimal key of 1 to 256 bytes, `set_key` stores the state of the RC4 schedule, a
rearrangement of all bytes. From any state, `do_encrypt` combines the message with the RC4
keystream and rearranges the state. Setting the key and encrypting twice restores the buffer. -/
theorem ripc4_is_rc4 (key : List UInt8) (hmin : 1 ≤ key.length) (hmax : key.length ≤ 256)
    (line : List Int8) (hline : Spells line key) :
    (∀ ws, ∃ s, set_key ws (some line) = { ws with enc := .enc_state s } ∧
      unsigned s = Rc4.schedule key ∧ (unsigned s).Perm Rc4.identity) ∧
    (∀ ws s buf, ws.enc = .enc_state s → ws.input_buf = some buf → ws.buf_len ≤ buf.length →
      ∃ s' buf', do_encrypt ws = some { ws with enc := .enc_state s', input_buf := some buf' } ∧
        (unsigned s').Perm (unsigned s) ∧
        bytes buf' = List.zipWith (· ^^^ ·) ((bytes buf).take ws.buf_len)
            (Rc4.keystream (unsigned s) ws.buf_len) ++ (bytes buf).drop ws.buf_len) ∧
    (∀ ws buf, ws.input_buf = some buf → ws.buf_len ≤ buf.length →
      ∃ ws₁ ws₂, do_encrypt (set_key ws (some line)) = some ws₁ ∧
        do_encrypt (set_key ws₁ (some line)) = some ws₂ ∧ ws₂.input_buf = some buf) := by
  have hset := set_key_spells hline hmin hmax
  refine ⟨fun ws => ?_, fun ws s buf hs hbuf hlen => ?_, fun ws buf hbuf hlen => ?_⟩
  · obtain ⟨s, hrun, hs⟩ := hset ws
    exact ⟨s, hrun, hs, hs ▸ Rc4.schedule_perm key⟩
  · obtain ⟨s', buf', hrun, hs', hbuf'⟩ := do_encrypt_spec ws hs hbuf hlen
    have htake : ((bytes buf).take ws.buf_len).length = ws.buf_len := by
      rw [List.length_take, bytes, List.length_map]
      omega
    rw [Rc4.crypt, htake] at hbuf'
    exact ⟨s', buf', hrun, hs' ▸ Rc4.iterate_step_perm _ _, hbuf'⟩
  · obtain ⟨s, hkey, hs⟩ := hset ws
    obtain ⟨s₁, buf₁, hrun₁, -, hbuf₁⟩ := do_encrypt_spec { ws with enc := .enc_state s }
      rfl hbuf hlen
    have hlen₁ : ws.buf_len ≤ buf₁.length := by
      have hlength := congrArg List.length hbuf₁
      simp only [bytes, List.length_append, Rc4.length_crypt, List.length_take, List.length_drop,
        List.length_map] at hlength
      omega
    obtain ⟨s', hkey', hs'⟩ := hset { ws with enc := .enc_state s₁, input_buf := some buf₁ }
    obtain ⟨s₂, buf₂, hrun₂, -, hbuf₂⟩ := do_encrypt_spec
      { ws with enc := .enc_state s', input_buf := some buf₁ } rfl rfl hlen₁
    refine ⟨_, _, by rw [hkey]; exact hrun₁, by rw [hkey']; exact hrun₂, ?_⟩
    have hsame : bytes buf₂ = bytes buf := by
      rw [hbuf₂, hbuf₁, hs', hs]
      exact crypt_prefix_twice _ _ (by rw [bytes, List.length_map]; exact hlen)
    rw [bytes_injective hsame]

/-- Two bytes and their terminator under the key `4b6579`, there and back. -/
theorem ripc4_is_rc4_key : ∃ s ws₁ ws₂,
    set_key ⟨3, some [0x68, 0x69, 0], 2, .null⟩ (some [0x34, 0x62, 0x36, 0x35, 0x37, 0x39]) =
        ⟨3, some [0x68, 0x69, 0], 2, .enc_state s⟩ ∧
      unsigned s = Rc4.schedule [0x4b, 0x65, 0x79] ∧
      do_encrypt ⟨3, some [0x68, 0x69, 0], 2, .enc_state s⟩ = some ws₁ ∧
      do_encrypt (set_key ws₁ (some [0x34, 0x62, 0x36, 0x35, 0x37, 0x39])) = some ws₂ ∧
      ws₂.input_buf = some [0x68, 0x69, 0] := by
  have hline : Spells [0x34, 0x62, 0x36, 0x35, 0x37, 0x39] [0x4b, 0x65, 0x79] :=
    @Spells.cons _ _ 4 11 _ _ (by decide) (by decide)
      (@Spells.cons _ _ 6 5 _ _ (by decide) (by decide)
        (@Spells.cons _ _ 7 9 [] [] (by decide) (by decide) .nil))
  obtain ⟨hset, -, hback⟩ := ripc4_is_rc4 [0x4b, 0x65, 0x79] (by decide) (by decide) _ hline
  obtain ⟨s, hs, hschedule, -⟩ := hset ⟨3, some [0x68, 0x69, 0], 2, .null⟩
  obtain ⟨ws₁, ws₂, hfirst, hsecond, hinput⟩ :=
    hback ⟨3, some [0x68, 0x69, 0], 2, .null⟩ [0x68, 0x69, 0] rfl (by decide)
  rw [hs] at hfirst
  exact ⟨s, ws₁, ws₂, hs, hschedule, hfirst, hsecond, hinput⟩

end CtfChallenges.Ripc4
