import CtfChallenges.Ripc4.Cipher

/-!
# Lines for set_key

Which lines `set_key` of `ripc4.c` takes for a key. The length is tested for two digits a byte, but
`%2x` is content with less: with white space, with a sign, or with one digit and any other character.
-/

namespace CtfChallenges.Ripc4
open Framework

/-- The lines that are keys. -/
def IsKeyLine (line : List Int8) : Prop :=
  line.length % 2 = 0 ∧ 2 ≤ line.length ∧ line.length ≤ 512 ∧ ∀ c ∈ line, (hexDigit c).isSome

/-- A key line installs the state of its key, any other line leaves the workspace as it was. -/
def ParsesKey (line : List Int8) : Prop :=
  ∀ ws, (IsKeyLine line → ∃ key s, Spells line key ∧
      set_key ws (some line) = { ws with enc := .enc_state s } ∧ unsigned s = Rc4.schedule key) ∧
    (¬IsKeyLine line → set_key ws (some line) = ws)

/-- Behind white space there is a digit, with a sign or without. -/
def StartsNumber (s : List Int8) : Prop :=
  match s.dropWhile isSpace with
  | [] => False
  | c :: cs =>
    if c = 0x2d ∨ c = 0x2b then ∃ c' ∈ cs.head?, (hexDigit c').isSome else (hexDigit c).isSome

/-- The length is wrong, or all characters are digits, or at an even place no number starts. -/
def KeyLineFits (line : List Int8) : Prop :=
  line.length % 2 = 1 ∨ line.length < 2 ∨ 512 < line.length ∨ (∀ c ∈ line, (hexDigit c).isSome) ∨
    ∃ n, 2 * n < line.length ∧ ¬StartsNumber (line.drop (2 * n))

theorem sscanf02x_isSome (s : List Int8) : (sscanf02x s).isSome ↔ StartsNumber s := by
  have hsigned (cs : List Int8) : (cs.head?.bind hexDigit).isSome ↔
      ∃ c' ∈ cs.head?, (hexDigit c').isSome := by
    cases cs <;> simp
  rw [sscanf02x, StartsNumber]
  rcases s.dropWhile isSpace with _ | ⟨c, cs⟩
  · simp
  · by_cases hminus : c = 0x2d
    · simp only [hminus, if_true, true_or, Option.isSome_map, hsigned]
    · by_cases hplus : c = 0x2b
      · dsimp only
        rw [if_neg hminus, if_pos hplus, if_pos (.inr hplus), Option.isSome_map, hsigned]
      · simp only [hminus, hplus, if_false, or_false]
        cases hexDigit c with
        | none => simp
        | some d => cases cs.head?.bind hexDigit <;> simp

variable {line : List Int8}

theorem exists_spells (heven : line.length % 2 = 0) (h : ∀ c ∈ line, (hexDigit c).isSome) :
    ∃ key, Spells line key := by
  obtain ⟨k, hk⟩ : ∃ k, line.length = 2 * k := ⟨line.length / 2, by omega⟩
  clear heven
  induction k generalizing line with
  | zero =>
    rw [Nat.mul_zero, List.length_eq_zero_iff] at hk
    exact ⟨[], hk ▸ .nil⟩
  | succ k ih =>
    rcases line with _ | ⟨c, _ | ⟨c', line⟩⟩
    · simp at hk
    · simp only [List.length_cons, List.length_nil] at hk
      omega
    · simp only [List.forall_mem_cons, Option.isSome_iff_exists] at h
      obtain ⟨⟨d, hd⟩, ⟨d', hd'⟩, hline⟩ := h
      simp only [List.length_cons] at hk
      obtain ⟨key, hkey⟩ := @ih line (by simpa [Option.isSome_iff_exists] using hline) (by omega)
      exact ⟨_, .cons hd hd' hkey⟩

/-- The passes over pairs in which numbers start. -/
theorem decode_pairs {n : Nat} (hn : 2 * n ≤ line.length)
    (h : ∀ i < n, (sscanf02x (line.drop (2 * i))).isSome) :
    ∃ bs : List Int8, bs.length = n ∧ (List.range n).foldlM (fun key_data n =>
      (sscanf02x (key_data.drop (2 * n))).map fun byte =>
        key_data.set n (Int8.ofInt (mask byte).val)) line = some (bs ++ line.drop n) := by
  let bs := (List.range n).map fun i =>
    ((sscanf02x (line.drop (2 * i))).map fun byte => Int8.ofInt (mask byte).val).getD 0
  have hlen : bs.length = n := by simp [bs]
  have hscan : ∀ i < bs.length, (sscanf02x (line.drop (2 * i))).map (fun byte =>
      Int8.ofInt (mask byte).val) = bs[i]? := by
    intro i hi
    rw [hlen] at hi
    obtain ⟨byte, hbyte⟩ := Option.isSome_iff_exists.mp (h i hi)
    simp [bs, hi, hbyte]
  have hall := decodeKey_prefix bs hscan (by omega) n hlen.ge
  rw [List.take_of_length_le hlen.le] at hall
  exact ⟨bs, hlen, hall⟩

/-- Decoding succeeds when at each pair a number starts in the line itself. -/
theorem decodeKey_isSome (line : List Int8) : (decodeKey line line.length).isSome ↔
    ∀ n < line.length / 2, StartsNumber (line.drop (2 * n)) := by
  simp only [← sscanf02x_isSome]
  constructor
  · intro hsome n
    induction n using Nat.strong_induction_on with
    | _ n ih =>
      intro hn
      -- The first pair that is not read ends the loop.
      obtain ⟨bs, hlen, hrun⟩ := decode_pairs (show 2 * n ≤ line.length by omega)
        fun i hi => ih i hi (by omega)
      have hdrop : (bs ++ line.drop n).drop (2 * n) = line.drop (2 * n) := by
        rw [List.drop_append, List.drop_eq_nil_of_le (by omega), hlen, List.drop_drop,
          List.nil_append]
        congr 1
        omega
      have hsplit : List.range (line.length / 2) =
          List.range n ++ n :: List.range' (n + 1) (line.length / 2 - (n + 1)) := by
        have hlast : line.length / 2 = n + (line.length / 2 - (n + 1) + 1) := by omega
        rw [List.range_eq_range', List.range_eq_range', hlast, ← List.range'_append_1,
          Nat.zero_add, List.range'_succ]
        congr 3
        omega
      rw [decodeKey, hsplit, List.foldlM_append, hrun, Option.bind_eq_bind, Option.bind_some,
        List.foldlM_cons, hdrop] at hsome
      by_contra hnone
      rw [Option.not_isSome_iff_eq_none] at hnone
      rw [hnone] at hsome
      cases hsome
  · intro h
    obtain ⟨bs, -, hrun⟩ := decode_pairs (by omega) h
    rw [decodeKey, hrun]
    rfl

theorem set_key_of_length (h : ¬(line.length % 2 = 0 ∧ 2 ≤ line.length ∧ line.length ≤ 512))
    (ws : Workspace) : set_key ws (some line) = ws := by
  have hinvalid : line.length > KEY_LEN_MAX * 2 ∨ line.length < KEY_LEN_MIN * 2 ∨
      line.length % 2 ≠ 0 := by
    unfold KEY_LEN_MAX KEY_LEN_MIN
    omega
  simp only [set_key]
  rw [if_pos hinvalid]

/-- A line of a good length changes the workspace if and only if it is decoded. -/
theorem set_key_eq_self_iff (h : line.length % 2 = 0 ∧ 2 ≤ line.length ∧ line.length ≤ 512) :
    (∀ ws, set_key ws (some line) = ws) ↔ ¬(decodeKey line line.length).isSome := by
  have hvalid : ¬(line.length > KEY_LEN_MAX * 2 ∨ line.length < KEY_LEN_MIN * 2 ∨
      line.length % 2 ≠ 0) := by
    unfold KEY_LEN_MAX KEY_LEN_MIN
    omega
  simp only [set_key, if_neg hvalid]
  cases decodeKey line line.length with
  | none => simp
  | some key_data =>
    simp only [Option.isSome_some, not_true_eq_false, iff_false]
    intro hall
    have henc := congrArg Workspace.enc (hall ⟨0, none, 0, .null⟩)
    cases henc

/-- `set_key` takes exactly the hexadecimal keys from a line unless the line has a good length, a
character that is no digit, and a number at each even place. -/
theorem set_key_iff (line : List Int8) : ParsesKey line ↔ KeyLineFits line := by
  by_cases hlen : line.length % 2 = 0 ∧ 2 ≤ line.length ∧ line.length ≤ 512
  · by_cases hdigits : ∀ c ∈ line, (hexDigit c).isSome
    · have hkeyLine : IsKeyLine line := ⟨hlen.1, hlen.2.1, hlen.2.2, hdigits⟩
      obtain ⟨key, hkey⟩ := exists_spells hlen.1 hdigits
      have hlength := hkey.length
      have hparses : ParsesKey line := by
        refine fun ws => ⟨fun _ => ?_, fun hno => absurd hkeyLine hno⟩
        obtain ⟨s, hset, hs⟩ := set_key_spells hkey (by omega) (by omega) ws
        exact ⟨key, s, hkey, hset, hs⟩
      exact iff_of_true hparses (.inr (.inr (.inr (.inl hdigits))))
    · have hno : ¬IsKeyLine line := fun h => hdigits h.2.2.2
      have hsame : ParsesKey line ↔ ∀ ws, set_key ws (some line) = ws :=
        forall_congr' fun ws => by simp [hno]
      rw [hsame, set_key_eq_self_iff hlen, decodeKey_isSome]
      simp only [not_forall, exists_prop]
      rw [KeyLineFits]
      constructor
      · rintro ⟨n, hn, hnumber⟩
        exact .inr (.inr (.inr (.inr ⟨n, by omega, hnumber⟩)))
      · rintro (hodd | hshort | hlong | hall | ⟨n, hn, hnumber⟩)
        · omega
        · omega
        · omega
        · exact absurd hall hdigits
        · exact ⟨n, by omega, hnumber⟩
  · have hno : ¬IsKeyLine line := fun h => hlen ⟨h.1, h.2.1, h.2.2.1⟩
    have hparses : ParsesKey line :=
      fun ws => ⟨fun h => absurd h hno, fun _ => set_key_of_length hlen ws⟩
    have hfits : KeyLineFits line := by
      rw [KeyLineFits]
      omega
    exact iff_of_true hparses hfits

/-- One digit and another letter are taken for a key of one byte. -/
theorem key_1g_taken : ¬ParsesKey [0x31, 0x67] := by
  intro h
  have hno : ¬IsKeyLine [0x31, 0x67] := fun hline => absurd (hline.2.2.2 0x67 (by simp)) (by decide)
  have hsame := (set_key_eq_self_iff (by decide)).mp fun ws => (h ws).2 hno
  exact hsame (by decide)

end CtfChallenges.Ripc4
