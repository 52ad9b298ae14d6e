import CtfChallenges.ConfigMe.Config

/-!
# Saving and loading a configuration

A line of the file is cut at its first colon, and a value that begins with `E$` is taken for an
encrypted one. Loading gives a saved configuration back as long as no key has a colon and no
plain value has that beginning.
-/

namespace CtfChallenges.ConfigMe
open Framework Text

/-- All entries of a configuration have the property. -/
def All (P : List Char → MaybeEncrypted → Prop) (c : Config) : Prop :=
  ∀ k v, c.lookup k = some v → P k v

/-- Keys and values come from prompts or from lines of a file. -/
def Typed (k : List Char) (v : MaybeEncrypted) : Prop :=
  (trim k = k ∧ '\n' ∉ k) ∧ ∀ s, v = .NotEncrypted s → trim s = s ∧ '\n' ∉ s

/-- Neither the key nor a plain value misleads the reader of a file. -/
def Readable (k : List Char) (v : MaybeEncrypted) : Prop :=
  ':' ∉ k ∧ ∀ s, v = .NotEncrypted s → ¬ ['E', '$'] <+: s

/-- In whatever order the entries are written, the file loads to the same keys and values. -/
def Survives (hex : HexCrate) (salsa20 : List UInt8 → List UInt8 → Nat → UInt8) (c : Config) :
    Prop :=
  ∀ entries, entries.Perm c.entries → ∃ c', load hex (some (save hex entries)) = some c' ∧
    (∀ k, k ∈ c' ↔ k ∈ c) ∧ ∀ k, Config.get salsa20 c' k = Config.get salsa20 c k

theorem All.empty (P : List Char → MaybeEncrypted → Prop) : All P ∅ := by
  intro k v h
  cases h

theorem All.insert {P : List Char → MaybeEncrypted → Prop} {c : Config} (h : All P c)
    {k : List Char} {v : MaybeEncrypted} (hk : P k v) : All P (c.insert k v) := by
  intro k' v' hlookup
  by_cases heq : k' = k
  · subst heq
    rw [AList.lookup_insert, Option.some.injEq] at hlookup
    rwa [← hlookup]
  · rw [AList.lookup_insert_ne heq] at hlookup
    exact h k' v' hlookup

theorem All.erase {P : List Char → MaybeEncrypted → Prop} {c : Config} (h : All P c)
    (k : List Char) : All P (c.erase k) := by
  intro k' v' hlookup
  by_cases heq : k' = k
  · subst heq
    rw [AList.lookup_erase] at hlookup
    cases hlookup
  · rw [AList.lookup_erase_ne heq] at hlookup
    exact h k' v' hlookup

theorem All.of_mem {P : List Char → MaybeEncrypted → Prop} {c : Config} (h : All P c)
    {k : List Char} (hk : k ∈ c) : ∃ v, P k v := by
  obtain ⟨v, hv⟩ := Option.isSome_iff_exists.mp (AList.lookup_isSome.mpr hk)
  exact ⟨v, h k v hv⟩

variable {hex : HexCrate}

theorem deserialize_plain {s s' : List Char}
    (h : MaybeEncrypted.deserialize hex s = some (.NotEncrypted s')) :
    s' = s ∧ ¬ ['E', '$'] <+: s := by
  unfold MaybeEncrypted.deserialize at h
  split at h
  · obtain ⟨e, -, he⟩ := Option.map_eq_some_iff.mp h
    cases he
  · rename_i hne
    cases h
    refine ⟨rfl, ?_⟩
    rintro ⟨cs, rfl⟩
    exact hne cs rfl

theorem deserialize_of_not_prefix {s : List Char} (h : ¬ ['E', '$'] <+: s) :
    MaybeEncrypted.deserialize hex s = some (.NotEncrypted s) := by
  unfold MaybeEncrypted.deserialize
  split
  · rename_i cs
    exact absurd ⟨cs, rfl⟩ h
  · rfl

private theorem loadLine_all {data data' : Config} {line : List Char}
    (h : All (fun k v => Typed k v ∧ Readable k v) data) (hline : '\n' ∉ line)
    (hload : loadLine hex data line = some data') :
    All (fun k v => Typed k v ∧ Readable k v) data' := by
  unfold loadLine at hload
  split at hload
  · cases hload
  · rename_i k v hsplit
    obtain ⟨hcolon, hk, hv⟩ := splitOnce_eq_some hsplit
    have hkline : '\n' ∉ trim k := fun hin => hline (hk _ (mem_of_mem_trim hin))
    have hvline : '\n' ∉ trim v := fun hin => hline (hv _ (mem_of_mem_trim hin))
    split at hload
    · cases hload
      exact h
    · rename_i value hvalue
      cases hload
      have hplain (s : List Char) (heq : value = .NotEncrypted s) :
          s = trim v ∧ ¬ ['E', '$'] <+: trim v := deserialize_plain (by rw [hvalue, heq])
      refine h.insert ⟨⟨⟨trim_trim k, hkline⟩, fun s heq => ?_⟩,
        fun hin => hcolon (mem_of_mem_trim hin), fun s heq => ?_⟩
      · rw [(hplain s heq).1]
        exact ⟨trim_trim v, hvline⟩
      · rw [(hplain s heq).1]
        exact (hplain s heq).2

/-- What is loaded from a file could be typed and is readable. -/
theorem load_all {file : Option (List Char)} {c : Config} (h : load hex file = some c) :
    All (fun k v => Typed k v ∧ Readable k v) c := by
  unfold load at h
  split at h
  · cases h
    exact All.empty _
  · rename_i text
    suffices hfold : ∀ ls : List (List Char), (∀ line ∈ ls, '\n' ∉ line) → ∀ data : Config,
        All (fun k v => Typed k v ∧ Readable k v) data → ls.foldlM (loadLine hex) data = some c →
          All (fun k v => Typed k v ∧ Readable k v) c from
      hfold (lines text) (fun _ hl => newline_not_mem_lines hl) ∅ (All.empty _) h
    intro ls hls
    induction ls with
    | nil =>
      intro data hdata hrun
      cases hrun
      exact hdata
    | cons line ls ih =>
      intro data hdata hrun
      rw [List.forall_mem_cons] at hls
      rw [List.foldlM_cons, Option.bind_eq_bind, Option.bind_eq_some_iff] at hrun
      obtain ⟨data', hline, hrest⟩ := hrun
      exact ih hls.2 data' (loadLine_all hdata hls.1 hline) hrest

private theorem Typed.serialize (hex : HexCrate) {k : List Char} {v : MaybeEncrypted}
    (h : Typed k v) :
    trim (v.serialize hex) = v.serialize hex ∧ '\n' ∉ v.serialize hex := by
  cases v with
  | NotEncrypted s => exact h.2 s rfl
  | Encrypted e =>
    have hspace : ∀ c ∈ MaybeEncrypted.serialize hex (.Encrypted e), isWhitespace c = false := by
      intro c hc
      simp only [MaybeEncrypted.serialize, List.mem_cons] at hc
      rcases hc with rfl | rfl | hc
      · decide
      · decide
      · exact hexDigits_not_whitespace (hex.mem_encode e c hc)
    refine ⟨trim_eq_self hspace, fun hin => ?_⟩
    have := hspace _ hin
    revert this
    decide

/-- The line of an entry, without its newline. -/
private def lineOf (hex : HexCrate) (entry : Σ _ : List Char, MaybeEncrypted) : List Char :=
  entry.1 ++ ':' :: ' ' :: entry.2.serialize hex

private theorem lines_save {entries : List (Σ _ : List Char, MaybeEncrypted)}
    (h : ∀ e ∈ entries, Typed e.1 e.2) : lines (save hex entries) = entries.map (lineOf hex) := by
  have hsave : save hex entries = (entries.map (lineOf hex)).flatMap (· ++ ['\n']) := by
    rw [List.flatMap_map]
    rfl
  rw [hsave, lines_flatMap]
  intro line hline
  obtain ⟨e, he, rfl⟩ := List.mem_map.mp hline
  obtain ⟨htrim, hnl⟩ := (h e he).serialize hex
  constructor
  · simp only [lineOf, List.mem_append, List.mem_cons, not_or]
    exact ⟨(h e he).1.2, by decide, by decide, hnl⟩
  · rw [lineOf, List.getLast?_append, List.getLast?_cons_cons, List.getLast?_cons]
    have hlast := getLast?_ne_of_trim htrim (show isWhitespace '\r' = true by decide)
    cases hser : (e.2.serialize hex).getLast? with
    | none => simp
    | some c =>
      rw [hser] at hlast
      simpa using hlast

private theorem loadLine_lineOf {k : List Char} {v : MaybeEncrypted} (h : Typed k v)
    (hcolon : ':' ∉ k) (data : Config) :
    loadLine hex data (lineOf hex ⟨k, v⟩) =
      some (match MaybeEncrypted.deserialize hex (v.serialize hex) with
        | none => data
        | some value => data.insert k value) := by
  rw [loadLine, lineOf, splitOnce_append hcolon]
  dsimp only
  rw [trim_space_cons, (h.serialize hex).1, h.1.1]
  cases MaybeEncrypted.deserialize hex (v.serialize hex) <;> rfl

private theorem load_save (hex : HexCrate) {entries : List (Σ _ : List Char, MaybeEncrypted)}
    (hnd : entries.NodupKeys) (h : ∀ e ∈ entries, Typed e.1 e.2 ∧ ':' ∉ e.1) :
    ∃ c, load hex (some (save hex entries)) = some c ∧ ∀ k, c.lookup k =
      (entries.dlookup k).bind fun v => MaybeEncrypted.deserialize hex (v.serialize hex) := by
  suffices hfold : ∀ data : Config, (∀ e ∈ entries, data.lookup e.1 = none) →
      ∃ c, (entries.map (lineOf hex)).foldlM (loadLine hex) data = some c ∧ ∀ k, c.lookup k =
        match entries.dlookup k with
        | some v => MaybeEncrypted.deserialize hex (v.serialize hex)
        | none => data.lookup k by
    obtain ⟨c, hrun, hlookup⟩ := hfold ∅ fun _ _ => rfl
    refine ⟨c, by rw [load, lines_save fun e he => (h e he).1]; exact hrun, fun k => ?_⟩
    rw [hlookup]
    cases entries.dlookup k <;> rfl
  induction entries with
  | nil => exact fun data _ => ⟨data, rfl, fun k => rfl⟩
  | cons e entries ih =>
    obtain ⟨k, v⟩ := e
    intro data hdata
    rw [List.forall_mem_cons] at h hdata
    rw [List.nodupKeys_cons] at hnd
    have hfresh : ∀ e ∈ entries, e.1 ≠ k := by
      intro e he heq
      have hmem : e.1 ∈ entries.keys := List.mem_keys_of_mem he
      rw [heq] at hmem
      exact hnd.1 hmem
    obtain ⟨c, hrun, hlookup⟩ := ih hnd.2 h.2
      (match MaybeEncrypted.deserialize hex (v.serialize hex) with
      | none => data
      | some value => data.insert k value) (by
        intro e he
        split
        · exact hdata.2 e he
        · rw [AList.lookup_insert_ne (hfresh e he)]
          exact hdata.2 e he)
    refine ⟨c, ?_, fun k' => ?_⟩
    · rw [List.map_cons, List.foldlM_cons, loadLine_lineOf h.1.1 h.1.2]
      exact hrun
    · rw [hlookup]
      by_cases heq : k' = k
      · subst heq
        rw [List.dlookup_cons_eq, List.dlookup_eq_none.mpr hnd.1]
        dsimp only
        cases hv : MaybeEncrypted.deserialize hex (v.serialize hex) with
        | none => exact hdata.1
        | some value => exact AList.lookup_insert data
      · rw [List.dlookup_cons_ne _ _ heq]
        cases entries.dlookup k' with
        | some v' => rfl
        | none =>
          cases MaybeEncrypted.deserialize hex (v.serialize hex) with
          | none => rfl
          | some value => exact AList.lookup_insert_ne heq

variable {salsa20 : List UInt8 → List UInt8 → Nat → UInt8}

private theorem get_ne_of_decode {cs : List Char} {e : List UInt8} (h : hex.decode cs = some e) :
    MaybeEncrypted.get salsa20 (.Encrypted e) ≠ some ('E' :: '$' :: cs) := by
  intro hget
  unfold MaybeEncrypted.get at hget
  dsimp only at hget
  split at hget
  · cases hget
  · have hbytes := congrArg List.length (asBytes_of_fromUtf8 hget)
    have hlen := length_le_length_asBytes ('E' :: '$' :: cs)
    rw [hbytes, apply_keystream, List.length_mapIdx, List.length_drop, List.length_cons,
      List.length_cons, hex.length_decode _ _ h] at hlen
    omega

private theorem deserialize_serialize {k : List Char} {v : MaybeEncrypted} (h : Readable k v) :
    MaybeEncrypted.deserialize hex (v.serialize hex) = some v := by
  cases v with
  | NotEncrypted s => exact deserialize_of_not_prefix (h.2 s rfl)
  | Encrypted e =>
    rw [MaybeEncrypted.serialize, MaybeEncrypted.deserialize, hex.decode_encode]
    rfl

theorem survives_iff {c : Config} (htyped : All Typed c) :
    Survives hex salsa20 c ↔ All Readable c := by
  have hentries {entries : List (Σ _ : List Char, MaybeEncrypted)}
      (hperm : entries.Perm c.entries) {P : List Char → MaybeEncrypted → Prop} (hall : All P c) :
      ∀ e ∈ entries, P e.1 e.2 := by
    intro e he
    exact hall e.1 e.2 (AList.mem_lookup_iff.mpr (hperm.subset he))
  have hload {entries : List (Σ _ : List Char, MaybeEncrypted)}
      (hperm : entries.Perm c.entries) (hcolon : ∀ k ∈ c, ':' ∉ k) :
      ∃ c', load hex (some (save hex entries)) = some c' ∧ ∀ k, c'.lookup k =
        (c.lookup k).bind fun v => MaybeEncrypted.deserialize hex (v.serialize hex) := by
    have hnd : entries.NodupKeys := (List.perm_nodupKeys hperm).mpr c.nodupKeys
    obtain ⟨c', hrun, hlookup⟩ := load_save hex hnd fun e he => ⟨hentries hperm htyped e he,
      hcolon e.1 (List.mem_keys_of_mem (hperm.subset he))⟩
    refine ⟨c', hrun, fun k => ?_⟩
    rw [hlookup, List.perm_dlookup k hnd hperm]
    rfl
  constructor
  · intro hsurvives
    obtain ⟨c', hrun, hkeys, hget⟩ := hsurvives c.entries (List.Perm.refl _)
    have hcolon : ∀ k ∈ c, ':' ∉ k := by
      intro k hk
      obtain ⟨v, hv⟩ := (load_all hrun).of_mem ((hkeys k).mpr hk)
      exact hv.2.1
    obtain ⟨c'', hrun', hlookup⟩ := hload (List.Perm.refl _) hcolon
    rw [hrun, Option.some.injEq] at hrun'
    subst hrun'
    refine fun k v hv => ⟨hcolon k (AList.lookup_isSome.mp (by rw [hv]; rfl)), ?_⟩
    rintro s rfl ⟨cs, rfl⟩
    have hgetk := hget k
    rw [Config.get, Config.get, hlookup, hv] at hgetk
    have hdecode : ((hex.decode cs).map MaybeEncrypted.Encrypted).bind
        (MaybeEncrypted.get salsa20) = some ('E' :: '$' :: cs) := hgetk
    obtain ⟨v', hv', hv''⟩ := Option.bind_eq_some_iff.mp hdecode
    obtain ⟨e, he, rfl⟩ := Option.map_eq_some_iff.mp hv'
    exact get_ne_of_decode he hv''
  · intro hreadable entries hperm
    have hcolon : ∀ k ∈ c, ':' ∉ k := fun k hk => (hreadable.of_mem hk).elim fun v hv => hv.1
    obtain ⟨c', hrun, hlookup⟩ := hload hperm hcolon
    have hsame (k : List Char) : c'.lookup k = c.lookup k := by
      rw [hlookup]
      cases hk : c.lookup k with
      | none => rfl
      | some v => exact deserialize_serialize (hreadable k v hk)
    refine ⟨c', hrun, fun k => ?_, fun k => ?_⟩
    · rw [← AList.lookup_isSome, hsame, AList.lookup_isSome]
    · rw [Config.get, hsame, Config.get]

/-- What happens to the configuration: a turn of the menu, or the question for the name that the
next turn begins with. -/
inductive Event
  | turn (t : Turn)
  | ask_name (name : Line)

def step (hex : HexCrate) (salsa20 : List UInt8 → List UInt8 → Nat → UInt8) (c : Config) :
    Event → Option Config
  | .turn t => turn hex salsa20 c t
  | .ask_name name => some (ask_name salsa20 c name)

/-- The event enters no key with a colon and no plain value that begins like an encrypted one. -/
def Event.Readable : Event → Prop
  | .turn t => ':' ∉ prompt t.key ∧
      (isYes (prompt t.encrypt) = false → ¬ ['E', '$'] <+: prompt t.value) ∧
      ¬ ['E', '$'] <+: prompt t.name
  | .ask_name name => ¬ ['E', '$'] <+: prompt name

private theorem prompt_trim (line : Line) : trim (prompt line) = prompt line ∧ '\n' ∉ prompt line :=
  ⟨trim_trim line.val, fun hin => line.property (mem_of_mem_trim hin)⟩

private theorem new_eq_plain {value s : List Char} {encrypt : Bool} {nonce : Vector UInt8 8}
    (h : MaybeEncrypted.new salsa20 value encrypt nonce = .NotEncrypted s) :
    s = value ∧ encrypt = false := by
  cases encrypt with
  | false =>
    cases h
    exact ⟨rfl, rfl⟩
  | true => cases h

private theorem add_typed {c : Config} (h : All Typed c) {k : List Char} (value : Line)
    (hk : trim k = k ∧ '\n' ∉ k) (encrypt : Bool) (nonce : Vector UInt8 8) :
    All Typed (Config.add salsa20 c k (prompt value) encrypt nonce) := by
  refine h.insert ⟨hk, fun s hs => ?_⟩
  rw [(new_eq_plain hs).1]
  exact prompt_trim value

private theorem add_readable {c : Config} (h : All Readable c) {k value : List Char}
    (hk : ':' ∉ k) {encrypt : Bool} (hvalue : encrypt = false → ¬ ['E', '$'] <+: value)
    (nonce : Vector UInt8 8) : All Readable (Config.add salsa20 c k value encrypt nonce) := by
  refine h.insert ⟨hk, fun s hs => ?_⟩
  rw [(new_eq_plain hs).1]
  exact hvalue (new_eq_plain hs).2

private theorem ask_name_typed {c : Config} (h : All Typed c) (name : Line) :
    All Typed (ask_name salsa20 c name) := by
  unfold ask_name
  split
  · exact h
  · exact add_typed h name (by decide) _ _

private theorem ask_name_readable {c : Config} (h : All Readable c) {name : Line}
    (hname : ¬ ['E', '$'] <+: prompt name) : All Readable (ask_name salsa20 c name) := by
  unfold ask_name
  split
  · exact h
  · exact add_readable h (by decide) (fun _ => hname) _

private theorem turn_cases {c c' : Config} {t : Turn} (h : turn hex salsa20 c t = some c') :
    c' = ask_name salsa20 c t.name ∨
      c' = Config.add salsa20 (ask_name salsa20 c t.name) (prompt t.key) (prompt t.value)
        (isYes (prompt t.encrypt)) t.nonce ∨
      c' = (ask_name salsa20 c t.name).erase (prompt t.key) ∨ load hex t.file = some c' := by
  unfold turn at h
  dsimp only at h
  split_ifs at h
  · exact .inl (Option.some.inj h).symm
  · exact .inl (Option.some.inj h).symm
  · exact .inr (.inl (Option.some.inj h).symm)
  · exact .inl (Option.some.inj h).symm
  · exact .inr (.inr (.inl (Option.some.inj h).symm))
  · exact .inl (Option.some.inj h).symm
  · exact .inr (.inr (.inr h))
  · exact .inl (Option.some.inj h).symm

private theorem step_typed {c c' : Config} {e : Event} (h : All Typed c)
    (hstep : step hex salsa20 c e = some c') : All Typed c' := by
  cases e with
  | turn t =>
    have hname : All Typed (ask_name salsa20 c t.name) := ask_name_typed h t.name
    rcases turn_cases hstep with rfl | rfl | rfl | hload
    · exact hname
    · exact add_typed hname t.value (prompt_trim t.key) _ _
    · exact hname.erase _
    · exact fun k v hv => (load_all hload k v hv).1
  | ask_name name =>
    cases hstep
    exact ask_name_typed h name

private theorem step_readable {c c' : Config} {e : Event} (h : All Readable c)
    (he : e.Readable) (hstep : step hex salsa20 c e = some c') : All Readable c' := by
  cases e with
  | turn t =>
    have hname : All Readable (ask_name salsa20 c t.name) := ask_name_readable h he.2.2
    rcases turn_cases hstep with rfl | rfl | rfl | hload
    · exact hname
    · exact add_readable hname he.1 he.2.1 _
    · exact hname.erase _
    · exact fun k v hv => (load_all hload k v hv).2
  | ask_name name =>
    cases hstep
    exact ask_name_readable h he

/-- A configuration that the menu reaches survives saving and loading exactly when no key of it
has a colon and no plain value begins with `E$`; so does every configuration of a run in which no
such key or value is entered. -/
theorem save_load_iff (hex : HexCrate) (salsa20 : List UInt8 → List UInt8 → Nat → UInt8)
    (file : Option (List Char)) (events : List Event) (c : Config)
    (hrun : (load hex file).bind (run (step hex salsa20) events) = some c) :
    (Survives hex salsa20 c ↔ All Readable c) ∧
      ((∀ e ∈ events, e.Readable) → Survives hex salsa20 c) := by
  obtain ⟨c₀, hload, hrun⟩ := Option.bind_eq_some_iff.mp hrun
  have htyped : All Typed c := run_invariant (fun _ _ _ h hstep => step_typed h hstep) events
    (fun k v hv => (load_all hload k v hv).1) hrun
  refine ⟨survives_iff htyped, fun hall => (survives_iff htyped).mpr ?_⟩
  exact run_invariant_of_forall (fun _ _ _ he h hstep => step_readable h he hstep) hall
    (fun k v hv => (load_all hload k v hv).2) hrun

/-- The name is given, and one entry is encrypted. -/
def secretTurn : Turn where
  name := ⟨['b', 'o'], by decide⟩
  choice := ⟨['a'], by decide⟩
  key := ⟨['p', 'w'], by decide⟩
  value := ⟨['E', '$', 'x'], by decide⟩
  encrypt := ⟨['y', 'e', 's'], by decide⟩
  nonce := .replicate 8 1
  file := none

theorem save_load_secret :
    ∃ c, (load hexCrate none).bind
        (run (step hexCrate fun _ _ _ => 7) [.turn secretTurn]) = some c ∧
      ['p', 'w'] ∈ c ∧ Survives hexCrate (fun _ _ _ => 7) c := by
  refine ⟨_, rfl, by decide +kernel,
    (save_load_iff hexCrate (fun _ _ _ => 7) none [.turn secretTurn] _ rfl).2 ?_⟩
  intro e he
  obtain rfl := List.mem_singleton.mp he
  exact ⟨by decide, fun hplain => absurd hplain (by decide), by decide⟩

/-- The turn that adds the value `v` under the key `a:b`. -/
def colonTurn : Turn where
  name := ⟨['b', 'o'], by decide⟩
  choice := ⟨['a'], by decide⟩
  key := ⟨['a', ':', 'b'], by decide⟩
  value := ⟨['v'], by decide⟩
  encrypt := ⟨['n', 'o'], by decide⟩
  nonce := .replicate 8 0
  file := none

/-- A key with a colon is cut in two. -/
theorem colonTurn_not_survives :
    ∃ c, (load hexCrate none).bind (run (step hexCrate fun _ _ _ => 0) [.turn colonTurn]) = some c ∧
      ¬ Survives hexCrate (fun _ _ _ => 0) c := by
  refine ⟨_, rfl, fun hsurvives => ?_⟩
  obtain ⟨c', hload, hkeys, -⟩ := hsurvives _ (List.Perm.refl _)
  have hmem : ['a', ':', 'b'] ∈ c' := by
    rw [hkeys]
    decide
  obtain ⟨v, -, hcolon, -⟩ := (load_all hload).of_mem hmem
  exact hcolon (by decide)

end CtfChallenges.ConfigMe
