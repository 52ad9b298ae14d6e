import CtfChallenges.Cards.Sealing

/-!
# Which bodies have an answer

A sealed text is read back as what was sealed. The rest of a body can still take the server to a
nil pointer or past the end of a slice; the members for the sealed text tell which bodies do.
-/

namespace CtfChallenges.Cards
open Framework Json Decoder

private theorem gives_card (c : Card) : Gives Raw.Card.decode c.json c.raw := by
  have hsuit : c.suit.toUint8 < 2 ^ 8 := by
    cases c.suit <;> decide
  have hrank : c.rank.toUint8 < 2 ^ 8 := by
    cases c.rank <;> decide
  intro old
  rw [Card.json, Raw.Card.decode, object_cons lookup_head (gives_uint hsuit),
    object_cons (lookup_tail (by decide) lookup_head) (gives_uint hrank), object_nil]
  rfl

private theorem gives_deck {d : Deck} (hpos : d.pos < 2 ^ 8) : Gives Raw.Deck.decode d.json d.raw := by
  have hcards : Gives (array 52 Raw.Card.zero Raw.Card.decode)
      (.array (d.cards.toList.map Card.json)) (d.cards.toList.map Card.raw) :=
    gives_array Vector.length_toList fun c _ => gives_card c
  intro old
  rw [Deck.json, Raw.Deck.decode, object_cons lookup_head hcards,
    object_cons (lookup_tail (by decide) lookup_head) (gives_uint hpos), object_nil]
  rfl

private theorem gives_hand (h : Hand) :
    Gives (slice Raw.Card.zero Raw.Card.decode) (Hand.json h) (some (h.map Card.raw)) :=
  gives_slice fun c _ => gives_card c

private theorem gives_secret {ss : SecretState} (h : ss.Fits) :
    Gives Raw.SecretState.decode ss.json ss.raw := by
  have hgame : Gives Raw.Game.decode ss.game.json ss.game.raw := by
    intro old
    rw [Game.json, Raw.Game.decode,
      object_cons lookup_head ((gives_deck h.pos).pointer (by rw [Deck.json]; nofun)),
      object_cons (lookup_tail (by decide) lookup_head) (gives_hand ss.game.player),
      object_cons (lookup_tail (by decide) (lookup_tail (by decide) lookup_head))
        (gives_hand ss.game.dealer),
      object_cons (lookup_tail (by decide) (lookup_tail (by decide) (lookup_tail (by decide)
        lookup_head))) (gives_bool ss.game.stood),
      object_cons (lookup_tail (by decide) (lookup_tail (by decide) (lookup_tail (by decide)
        (lookup_tail (by decide) lookup_head)))) (gives_int h.bet_low h.bet_high), object_nil]
    rfl
  intro old
  rw [SecretState.json, Raw.SecretState.decode,
    object_cons lookup_head (hgame.pointer (by rw [Game.json]; nofun)),
    object_cons (lookup_tail (by decide) lookup_head) (gives_int h.balance_low h.balance_high),
    object_nil]
  rfl

private theorem plain_uint (n : Nat) : Plain (.number (formatUint n)) := ⟨.ofNat n, rfl⟩

private theorem plain_cards (cs : List Card) : Plain (.array (cs.map Card.json)) := by
  have hsuit : ∀ c ∈ word "Suit", safe c = true := List.all_eq_true.mp (by decide)
  have hrank : ∀ c ∈ word "Rank", safe c = true := List.all_eq_true.mp (by decide)
  rw [Plain]
  induction cs with
  | nil => trivial
  | cons c cs ih =>
    exact ⟨⟨hsuit, plain_uint _, hrank, plain_uint _, trivial⟩, ih⟩

private theorem plain_secret (ss : SecretState) : Plain ss.json := by
  have hkeys : ∀ key ∈ [word "Game", word "Balance", word "Deck", word "Player", word "Dealer",
      word "Stood", word "Bet", word "Cards", word "Pos"], ∀ c ∈ key, safe c = true := by
    have hall : [word "Game", word "Balance", word "Deck", word "Player", word "Dealer",
        word "Stood", word "Bet", word "Cards", word "Pos"].all (·.all safe) = true := by
      decide
    exact fun key hkey => List.all_eq_true.mp (List.all_eq_true.mp hall key hkey)
  have hdeck : Plain ss.game.deck.json :=
    ⟨hkeys _ (by simp), plain_cards _, hkeys _ (by simp), plain_uint _, trivial⟩
  have hgame : Plain ss.game.json :=
    ⟨hkeys _ (by simp), hdeck, hkeys _ (by simp), plain_cards _, hkeys _ (by simp), plain_cards _,
      hkeys _ (by simp), trivial, hkeys _ (by simp), ⟨_, rfl⟩, trivial⟩
  exact ⟨hkeys _ (by simp), hgame, hkeys _ (by simp), ⟨_, rfl⟩, trivial⟩

/-- A sealed text gives the game that was sealed, whatever was there before. -/
theorem unmarshal_sealed {ss : SecretState} (h : ss.Fits) (old : Raw.SecretState) :
    unmarshal Raw.SecretState.decode (render ss.json) old = .ok ss.raw := by
  rw [unmarshal, parse_render (plain_secret ss)]
  dsimp only
  rw [gives_secret h old]

/-- No room for a nonce and the overhead of a box. -/
def Short (text : Bytes) : Prop := ∃ buf, Hex.decode text = some buf ∧ buf.length < 24 + overhead

/-- No hexadecimal text, or a box that does not open. -/
def Refused (server : Server) (text : Bytes) : Prop :=
  Hex.decode text = none ∨ ∃ buf, Hex.decode text = some buf ∧ 24 + overhead ≤ buf.length ∧
    server.Open (nonceOf buf) (buf.drop 24) = none

/-- The text gives a game that this server has sealed. -/
def Opens (server : Server) (text : Bytes) : Prop :=
  ∃ nonce ss, server.issued nonce ss ∧
    ∀ old, unmarshalText server text old = some (.ok ss.raw)

theorem unmarshalText_short {text : Bytes} (h : Short text) (server : Server)
    (old : Raw.SecretState) : unmarshalText server text old = none := by
  obtain ⟨buf, hbuf, hlen⟩ := h
  rw [unmarshalText, hbuf]
  dsimp only
  split
  · rfl
  · rw [if_pos (by rw [List.length_drop]; omega)]

theorem unmarshalText_refused {server : Server} {text : Bytes} (h : Refused server text)
    (old : Raw.SecretState) : ∃ e, unmarshalText server text old = some (.error e) := by
  unfold unmarshalText
  obtain hhex | ⟨buf, hbuf, hlen, hopen⟩ := h
  · rw [hhex]
    exact ⟨_, rfl⟩
  · rw [hbuf]
    dsimp only
    rw [if_neg (by omega), if_neg (by rw [List.length_drop]; omega), hopen]
    exact ⟨_, rfl⟩

theorem opens_of_not {server : Server} {text : Bytes} (hshort : ¬Short text)
    (hrefused : ¬Refused server text) : Opens server text := by
  cases hbuf : Hex.decode text with
  | none => exact absurd (.inl hbuf) hrefused
  | some buf =>
    have hlen : 24 + overhead ≤ buf.length := by
      by_contra hlen
      exact hshort ⟨buf, hbuf, Nat.lt_of_not_le hlen⟩
    cases hopen : server.Open (nonceOf buf) (buf.drop 24) with
    | none => exact absurd (.inr ⟨buf, hbuf, hlen, hopen⟩) hrefused
    | some m =>
      obtain ⟨ss, hissued, -, rfl⟩ := (server.open_iff _ _ _).mp hopen
      refine ⟨_, ss, hissued, fun old => ?_⟩
      rw [unmarshalText, hbuf]
      dsimp only
      rw [if_neg (by omega), if_neg (by rw [List.length_drop]; omega), hopen]
      dsimp only
      rw [unmarshal_sealed (server.fits _ _ hissued)]

/-- The text that `MarshalText` has made is read back. -/
theorem unmarshalText_marshalText {server : Server} {nonce : Nonce} {ss : SecretState}
    (h : server.issued nonce ss) (old : Raw.SecretState) :
    unmarshalText server (SecretState.marshalText server.toSecretbox nonce ss) old =
      some (.ok ss.raw) := by
  have hlen : nonce.toList.length = 24 := Vector.length_toList
  have hnonce : nonceOf (nonce.toList ++ server.Seal nonce (render ss.json)) = nonce := by
    apply Vector.ext
    intro i hi
    have hi' : i < nonce.toList.length := hlen.symm ▸ hi
    rw [nonceOf, Vector.getElem_ofFn, List.getD_eq_getElem?_getD, List.getElem?_append_left hi',
      List.getElem?_eq_getElem hi', Option.getD_some, Vector.getElem_toList]
  have hopen : server.Open nonce (server.Seal nonce (render ss.json)) = some (render ss.json) :=
    (server.open_iff _ _ _).mpr ⟨ss, h, rfl, rfl⟩
  have hbox := server.length_Seal nonce (render ss.json)
  rw [unmarshalText, SecretState.marshalText, Hex.decode_encode]
  dsimp only
  rw [if_neg (by rw [List.length_append]; omega), hnonce, List.drop_left' hlen,
    if_neg (by omega), hopen]
  dsimp only
  rw [unmarshal_sealed (server.fits _ _ h)]

theorem not_short_of_refused {server : Server} {text : Bytes} (h : Refused server text) :
    ¬Short text := by
  intro hshort
  have hnone := unmarshalText_short hshort server Raw.SecretState.zero
  obtain ⟨e, he⟩ := unmarshalText_refused h Raw.SecretState.zero
  rw [hnone] at he
  cases he

def isSecret (key : Bytes) : Bool := fieldOf sessionFields key == some (word "SecretState")

/-- The values given for the sealed text, in their order. -/
def secrets (members : List (Bytes × Value)) : List Value :=
  (members.filter fun m => isSecret m.1).map Prod.snd

/-- The value is of another type than the field that the key is for. -/
def misfits (m : Bytes × Value) : Bool :=
  match fieldOf sessionFields m.1 with
  | none => false
  | some name =>
    if name = word "SecretState" then
      match m.2 with
      | .null => false
      | .string _ => false
      | _ => true
    else if name = word "Bet" then (Decoder.int m.2 0).2
    else mistyped name m.2

/-- A text is refused before a short one comes, or there is no short one and either a member does
not fit, so that its error is the answer, or the last sealed text is not missing. -/
def Answered (server : Server) (members : List (Bytes × Value)) : Prop :=
  (∃ before text after, secrets members = before ++ .string text :: after ∧
      Refused server text ∧ ∀ t, .string t ∈ before → ¬Short t) ∨
    ((∀ t, .string t ∈ secrets members → ¬Short t) ∧
      (members.any misfits = true ∨ ∃ t, (secrets members).getLast? = some (.string t)))

private theorem isSecret_iff {key : Bytes} :
    isSecret key = true ↔ fieldOf sessionFields key = some (word "SecretState") := by
  rw [isSecret, beq_iff_eq]

private theorem secrets_cons (m : Bytes × Value) (members : List (Bytes × Value)) :
    secrets (m :: members) = (if isSecret m.1 then [m.2] else []) ++ secrets members := by
  unfold secrets
  rw [List.filter_cons]
  split <;> rfl

private theorem secrets_append (ms ms' : List (Bytes × Value)) :
    secrets (ms ++ ms') = secrets ms ++ secrets ms' := by
  rw [secrets, List.filter_append, List.map_append]
  rfl

private theorem int_misfit (v : Value) (old : Int) : (Decoder.int v old).2 = (Decoder.int v 0).2 := by
  cases v with
  | number text =>
    rw [Decoder.int, Decoder.int]
    cases parseInt 64 text <;> rfl
  | _ => rfl

/-- What is known of the pointer after a member for it. -/
def Held (server : Server) (v : Value) (ss : Option Raw.SecretState) : Prop :=
  match v with
  | .null => ss = none
  | .string _ => ∃ nonce sealed, server.issued nonce sealed ∧ ss = some sealed.raw
  | _ => True

private theorem decodeMember_ok {server : Server} {key name : Bytes} {v : Value}
    (hname : fieldOf sessionFields key = some name)
    (hopens : isSecret key = true → ∀ t, v = .string t → Opens server t) (jss : JsonSession) :
    ∃ jss', decodeMember server name v jss = some (.ok (jss', misfits (key, v))) ∧
      (isSecret key = true → Held server v jss'.secretState) ∧
        (isSecret key = false → jss'.secretState = jss.secretState) := by
  unfold decodeMember misfits
  rw [hname]
  dsimp only
  by_cases hsecret : name = word "SecretState"
  · have hkey : isSecret key = true := isSecret_iff.mpr (hsecret ▸ hname)
    rw [if_pos hsecret, if_pos hsecret, hkey]
    cases v with
    | null => exact ⟨_, rfl, fun _ => rfl, nofun⟩
    | string text =>
      obtain ⟨nonce, ss, hissued, hopen⟩ := hopens hkey text rfl
      rw [decodeSecret]
      dsimp only
      rw [hopen]
      exact ⟨_, rfl, fun _ => ⟨nonce, ss, hissued, rfl⟩, nofun⟩
    | _ => exact ⟨_, rfl, fun _ => trivial, nofun⟩
  · have hkey : isSecret key = false := by
      rw [Bool.eq_false_iff, ne_eq, isSecret_iff, hname]
      exact fun h => hsecret (Option.some.inj h)
    rw [if_neg hsecret, if_neg hsecret, hkey]
    by_cases hbet : name = word "Bet"
    · rw [if_pos hbet, if_pos hbet, ← int_misfit v jss.bet]
      exact ⟨_, rfl, nofun, fun _ => rfl⟩
    · rw [if_neg hbet, if_neg hbet]
      exact ⟨_, rfl, nofun, fun _ => rfl⟩

private theorem decodeMembers_ok {server : Server} {ms : List (Bytes × Value)}
    (h : ∀ t, .string t ∈ secrets ms → Opens server t) (jss : JsonSession) (e : Bool) :
    ∃ jss', (∀ more, decodeMembers server (ms ++ more) jss e =
        decodeMembers server more jss' (e || ms.any misfits)) ∧
      match (secrets ms).getLast? with
      | none => jss'.secretState = jss.secretState
      | some v => Held server v jss'.secretState := by
  induction ms generalizing jss e with
  | nil => exact ⟨jss, fun more => by rw [List.nil_append, List.any_nil, Bool.or_false], rfl⟩
  | cons m ms ih =>
    obtain ⟨key, v⟩ := m
    rw [secrets_cons] at h ⊢
    have hrest : ∀ t, .string t ∈ secrets ms → Opens server t :=
      fun t ht => h t (List.mem_append_right _ ht)
    cases hname : fieldOf sessionFields key with
    | none =>
      have hkey : isSecret key = false := by
        rw [isSecret, hname]
        rfl
      have hfits : misfits (key, v) = false := by
        rw [misfits, hname]
      obtain ⟨jss', hrun, hheld⟩ := ih hrest jss e
      refine ⟨jss', fun more => ?_, ?_⟩
      · rw [List.cons_append, decodeMembers, hname, List.any_cons, hfits, Bool.false_or]
        exact hrun more
      · rw [hkey]
        exact hheld
    | some name =>
      have hopens : isSecret key = true → ∀ t, v = .string t → Opens server t := by
        rintro hkey t rfl
        exact h t (List.mem_append_left _ (by rw [hkey]; exact List.mem_singleton.mpr rfl))
      obtain ⟨jss₁, hmember, hheld₁, hsame⟩ := decodeMember_ok hname hopens jss
      obtain ⟨jss', hrun, hheld⟩ := ih hrest jss₁ (e || misfits (key, v))
      refine ⟨jss', fun more => ?_, ?_⟩
      · rw [List.cons_append, decodeMembers, hname]
        dsimp only
        rw [hmember, List.any_cons, ← Bool.or_assoc]
        exact hrun more
      · cases hlast : (secrets ms).getLast? with
        | some w =>
          rw [hlast] at hheld
          rw [List.getLast?_append, hlast]
          exact hheld
        | none =>
          rw [hlast] at hheld
          rw [List.getLast?_append, hlast, Option.none_or]
          cases hkey : isSecret key with
          | true =>
            rw [if_pos rfl]
            exact hheld ▸ hheld₁ hkey
          | false =>
            rw [if_neg Bool.false_ne_true]
            exact hheld.trans (hsame hkey)

private theorem first_stop (server : Server) (ms : List (Bytes × Value)) :
    (∀ t, .string t ∈ secrets ms → Opens server t) ∨
      ∃ before key text after, ms = before ++ (key, .string text) :: after ∧
        isSecret key = true ∧ (∀ t, .string t ∈ secrets before → Opens server t) ∧
          (Short text ∨ Refused server text) := by
  induction ms with
  | nil => exact .inl nofun
  | cons m ms ih =>
    obtain ⟨key, v⟩ := m
    by_cases hstop : isSecret key = true ∧ ∃ t, v = .string t ∧ (Short t ∨ Refused server t)
    · obtain ⟨hkey, text, rfl, htext⟩ := hstop
      exact .inr ⟨[], key, text, ms, rfl, hkey, nofun, htext⟩
    · have hfirst : ∀ t, .string t ∈ (if isSecret key then [v] else []) → Opens server t := by
        intro t ht
        split at ht
        · rename_i hkey
          have hv := List.mem_singleton.mp ht
          refine opens_of_not (fun hshort => hstop ⟨hkey, t, hv.symm, .inl hshort⟩)
            fun hrefused => hstop ⟨hkey, t, hv.symm, .inr hrefused⟩
        · cases ht
      have hcons : ∀ l : List (Bytes × Value), (∀ t, .string t ∈ secrets l → Opens server t) →
          ∀ t, .string t ∈ secrets ((key, v) :: l) → Opens server t := by
        intro l hl t ht
        rw [secrets_cons] at ht
        exact (List.mem_append.mp ht).elim (hfirst t) (hl t)
      obtain hall | ⟨before, key', text, after, rfl, hkey, hbefore, htext⟩ := ih
      · exact .inl (hcons ms hall)
      · exact .inr ⟨(key, v) :: before, key', text, after, rfl, hkey, hcons before hbefore, htext⟩

private theorem not_stop_of_opens {server : Server} {t : Bytes} (h : Opens server t) :
    ¬Short t ∧ ¬Refused server t := by
  obtain ⟨nonce, ss, -, hopen⟩ := h
  have hopen := hopen Raw.SecretState.zero
  constructor
  · intro hshort
    rw [unmarshalText_short hshort] at hopen
    cases hopen
  · intro hrefused
    obtain ⟨e, he⟩ := unmarshalText_refused hrefused Raw.SecretState.zero
    rw [he] at hopen
    cases hopen

private theorem fits_of_not_misfits {ms : List (Bytes × Value)} (h : ms.any misfits = false)
    {v : Value} (hv : v ∈ secrets ms) : v = .null ∨ ∃ t, v = .string t := by
  obtain ⟨m, hm, rfl⟩ := List.mem_map.mp hv
  obtain ⟨hmem, hkey⟩ := List.mem_filter.mp hm
  have hfits := List.any_eq_false.mp h m hmem
  rw [misfits, isSecret_iff.mp hkey] at hfits
  dsimp only at hfits
  rw [if_pos rfl] at hfits
  cases hv : m.2 with
  | null => exact .inl rfl
  | string t => exact .inr ⟨t, rfl⟩
  | _ =>
    rw [hv] at hfits
    exact absurd rfl hfits

/-- An error, or a session with a game, which this server has sealed. -/
def Total (server : Server) : Option (Except DecodeError Raw.Session) → Prop
  | none => False
  | some (.error _) => True
  | some (.ok session) => ∃ nonce ss, server.issued nonce ss ∧
      session.game = some ss.game.raw ∧ session.balance = ss.balance

private theorem total_of_opens {server : Server} {ms : List (Bytes × Value)}
    (h : ∀ t, .string t ∈ secrets ms → Opens server t) :
    Total server (sessionOf (decodeMembers server ms ⟨none, 0⟩ false)) ↔ Answered server ms := by
  obtain ⟨jss, hrun, hheld⟩ := decodeMembers_ok h ⟨none, 0⟩ false
  have hrun := hrun []
  rw [List.append_nil, Bool.false_or, decodeMembers] at hrun
  have hnoShort : ∀ t, .string t ∈ secrets ms → ¬Short t := fun t ht => (not_stop_of_opens (h t ht)).1
  have hanswered : Answered server ms ↔
      ms.any misfits = true ∨ ∃ t, (secrets ms).getLast? = some (.string t) := by
    constructor
    · rintro (⟨before, text, after, hsplit, hrefused, -⟩ | ⟨-, hlast⟩)
      · have hmem : .string text ∈ secrets ms := by
          rw [hsplit]
          simp
        exact absurd hrefused (not_stop_of_opens (h text hmem)).2
      · exact hlast
    · exact fun hlast => .inr ⟨hnoShort, hlast⟩
  rw [hrun, hanswered]
  cases hany : ms.any misfits with
  | true => exact ⟨fun _ => .inl rfl, fun _ => trivial⟩
  | false =>
    rw [or_iff_right Bool.false_ne_true]
    cases hlast : (secrets ms).getLast? with
    | none =>
      rw [hlast] at hheld
      dsimp only at hheld
      rw [sessionOf, hheld]
      exact ⟨False.elim, nofun⟩
    | some v =>
      rw [hlast] at hheld
      obtain rfl | ⟨t, rfl⟩ := fits_of_not_misfits hany (List.mem_of_getLast? hlast)
      · have hnil : jss.secretState = none := hheld
        rw [sessionOf, hnil]
        exact ⟨False.elim, nofun⟩
      · obtain ⟨nonce, ss, hissued, hss⟩ := hheld
        rw [sessionOf, hss]
        exact ⟨fun _ => ⟨t, rfl⟩, fun _ => ⟨nonce, ss, hissued, rfl, rfl⟩⟩

private theorem total_of_stop {server : Server} {before after : List (Bytes × Value)} {key text : Bytes}
    (hkey : isSecret key = true) (hbefore : ∀ t, .string t ∈ secrets before → Opens server t)
    (hstop : Short text ∨ Refused server text) :
    Total server (sessionOf (decodeMembers server (before ++ (key, .string text) :: after) ⟨none, 0⟩
      false)) ↔ Answered server (before ++ (key, .string text) :: after) := by
  obtain ⟨jss, hrun, -⟩ := decodeMembers_ok hbefore ⟨none, 0⟩ false
  have hsecrets : secrets (before ++ (key, .string text) :: after) =
      secrets before ++ .string text :: secrets after := by
    rw [secrets_append, secrets_cons, if_pos hkey, List.singleton_append]
  have hclean : ∀ t, .string t ∈ secrets before → ¬Short t :=
    fun t ht => (not_stop_of_opens (hbefore t ht)).1
  rw [hrun, decodeMembers, isSecret_iff.mp hkey]
  dsimp only
  rw [decodeMember, if_pos rfl, decodeSecret]
  obtain hshort | hrefused := hstop
  · rw [unmarshalText_short hshort]
    constructor
    · exact False.elim
    · rintro (⟨b, t, a, hsplit, hrefused, hb⟩ | ⟨hall, -⟩)
      · rw [hsecrets] at hsplit
        -- the refused text cannot stand before the short one, nor be it, nor come after it
        obtain ⟨l, hl, hr⟩ | ⟨l, hl, hr⟩ := List.append_eq_append_iff.mp hsplit
        · cases l with
          | nil =>
            cases hr
            exact not_short_of_refused hrefused hshort
          | cons w l =>
            obtain ⟨rfl, -⟩ := List.cons.inj hr
            exact hb text (by rw [hl]; simp) hshort
        · cases l with
          | nil =>
            cases hr
            exact not_short_of_refused hrefused hshort
          | cons w l =>
            cases hr
            exact (not_stop_of_opens (hbefore t (by rw [hl]; simp))).2 hrefused
      · exact hall text (by rw [hsecrets]; simp) hshort
  · obtain ⟨e, he⟩ := unmarshalText_refused hrefused (jss.secretState.getD Raw.SecretState.zero)
    rw [he]
    exact ⟨fun _ => .inl ⟨_, text, _, hsecrets, hrefused, hclean⟩, fun _ => trivial⟩

/-- A body has an answer if and only if it is no JSON, or is not null and, as an object, does not
take the server to a short text or a missing one. -/
theorem unmarshalJSON_total_iff (server : Server) (body : Bytes) :
    Total server (unmarshalJSON server body) ↔ ∀ v, parse body = some v →
      v ≠ .null ∧ ∀ members, v = .object members → Answered server members := by
  unfold unmarshalJSON
  cases parse body with
  | none => exact ⟨nofun, fun _ => trivial⟩
  | some v =>
    simp only [Option.some.injEq, forall_eq']
    cases v with
    | null => exact ⟨False.elim, fun h => h.1 rfl⟩
    | object ms =>
      simp only [ne_eq, reduceCtorEq, not_false_eq_true, true_and, Value.object.injEq, forall_eq']
      obtain hopens | ⟨before, key, text, after, rfl, hkey, hbefore, hstop⟩ := first_stop server ms
      · exact total_of_opens hopens
      · exact total_of_stop hkey hbefore hstop
    | _ => exact ⟨fun _ => ⟨nofun, nofun⟩, fun _ => trivial⟩

/-- A server that has not sealed anything yet. -/
def newServer : Server where
  toSecretbox := plainBox
  Open _ _ := none
  issued _ _ := False
  fits _ _ h := h.elim
  open_iff _ _ _ := ⟨nofun, fun ⟨_, h, _⟩ => h.elim⟩

theorem empty_body_panics : ¬Total newServer (unmarshalJSON newServer (word "\x7b\x7d")) := by
  have hparse : parse (word "\x7b\x7d") = some (.object []) := parse_render (v := .object []) trivial
  rw [unmarshalJSON, hparse]
  exact id

end CtfChallenges.Cards
