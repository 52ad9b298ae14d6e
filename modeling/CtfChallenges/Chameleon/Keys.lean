import CtfChallenges.Chameleon.Server

/-!
# What the server keeps as a key

The pattern of a key is anchored at lines, not at the ends of the body. A body of more lines gets
in when one of them is a key.
-/

namespace CtfChallenges.Chameleon
open Framework LineMatch

/-- Sixteen hexadecimal characters in lower case. -/
def IsKey (key : Bytes) : Prop := key.length = 16 ∧ ∀ c ∈ key, hexClass c = true

theorem fits_keyClasses (key : Bytes) : fits keyClasses key = true ↔ IsKey key :=
  fits_replicate hexClass key 16

/-- An accepted body is a key exactly when it is one line. -/
theorem isKey_iff {body : Bytes} (h : matchesLine 0x0a keyClasses body = true) :
    IsKey body ↔ 0x0a ∉ body := by
  have hclasses : ∀ p ∈ keyClasses, p 0x0a = false := by
    intro p hp
    rw [(List.mem_replicate.mp hp).2]
    decide
  rw [← fits_keyClasses, fits_iff_of_matchesLine hclasses h]

variable (host : Host)

theorem retrieve_cases {DATABASE : Database} {id : Option Bytes} {text : Bytes}
    (h : retrieve DATABASE id = .status 200 text) :
    ∃ body entry, DATABASE.lookup body = some entry ∧ text = entry.key := by
  unfold retrieve at h
  split at h
  · cases h
  · rename_i body
    split at h
    · cases h
    · split at h
      · cases h
      · rename_i entry hlookup
        cases h
        exact ⟨body, entry, hlookup, rfl⟩

theorem retrieve_of_lookup {DATABASE : Database} {id : Bytes} {entry : Entry}
    (hid : fits uuidClasses id = true) (h : DATABASE.lookup id = some entry) :
    retrieve DATABASE (some id) = .status 200 entry.key := by
  simp only [retrieve, matchesLine_of_fits hid, Bool.not_true, Bool.false_eq_true, if_false, h]

/-- A store keeps a body that the pattern accepts. -/
theorem serve_store (DATABASE : Database) (body uuid : Bytes) :
    (serve host DATABASE (.store body uuid)).2 =
      if matchesLine 0x0a keyClasses body then DATABASE.put uuid ⟨uuid, body⟩ else DATABASE := by
  simp only [serve, store]
  cases matchesLine 0x0a keyClasses body with
  | false => rfl
  | true =>
    simp only [Bool.not_true, Bool.false_eq_true, if_false, if_true]
    split <;> rfl

theorem lookup_put_self (DATABASE : Database) (id : Bytes) (entry : Entry) :
    (DATABASE.put id entry).lookup id = some entry := List.lookup_cons_self

theorem lookup_put_of_ne (DATABASE : Database) {id id' : Bytes} (h : id' ≠ id) (entry : Entry) :
    (DATABASE.put id entry).lookup id' = DATABASE.lookup id' := by
  suffices hrest : (DATABASE.filter fun held => held.1 != id).lookup id' = DATABASE.lookup id' by
    rw [Database.put, List.lookup_cons, beq_false_of_ne h, hrest]
  induction DATABASE with
  | nil => rfl
  | cons e DATABASE ih =>
    obtain ⟨held, kept⟩ := e
    by_cases hheld : held = id
    · have hother : (id' == held) = false := beq_false_of_ne (hheld ▸ h)
      rw [List.filter_cons_of_neg (by simp [hheld]), List.lookup_cons, hother, ih]
    · rw [List.filter_cons_of_pos (by simpa using hheld), List.lookup_cons, List.lookup_cons, ih]

/-- The keys of the hash, and those that are answered with. -/
structure KeysHeld (DATABASE : Database) : Prop where
  held : ∀ e ∈ DATABASE, IsKey e.2.key
  answered : ∀ id text, retrieve DATABASE id = .status 200 text → IsKey text

theorem keysHeld_iff (DATABASE : Database) :
    KeysHeld DATABASE ↔ ∀ e ∈ DATABASE, IsKey e.2.key := by
  refine ⟨KeysHeld.held, fun hheld => ⟨hheld, ?_⟩⟩
  intro id text hanswer
  obtain ⟨body, entry, hlookup, rfl⟩ := retrieve_cases hanswer
  obtain ⟨l₁, l₂, hsplit, -⟩ := List.lookup_eq_some_iff.mp hlookup
  exact hheld (body, entry) (by simp [hsplit])

/-- A body of one line. -/
def OneLine : Request → Prop
  | .store body _ => matchesLine 0x0a keyClasses body = true → 0x0a ∉ body
  | .retrieve _ => True

private theorem serve_held_iff {DATABASE : Database} (h : ∀ e ∈ DATABASE, IsKey e.2.key)
    (request : Request) :
    (∀ e ∈ (serve host DATABASE request).2, IsKey e.2.key) ↔ OneLine request := by
  cases request with
  | retrieve body => exact iff_of_true h trivial
  | store body uuid =>
    rw [serve_store, OneLine]
    split
    · rename_i hmatch
      rw [Database.put, List.forall_mem_cons, isKey_iff hmatch]
      constructor
      · exact fun hheld _ => hheld.1
      · exact fun hline => ⟨hline hmatch, fun e he => h e (List.mem_filter.mp he).1⟩
    · rename_i hmatch
      exact iff_of_true h fun hmatch' => absurd hmatch' hmatch

private theorem serveAll_held_iff (requests : List Request) {DATABASE : Database} :
    (∀ before, before <+: requests → ∀ e ∈ serveAll host before DATABASE, IsKey e.2.key) ↔
      (∀ e ∈ DATABASE, IsKey e.2.key) ∧ ∀ request ∈ requests, OneLine request := by
  induction requests generalizing DATABASE with
  | nil => simp [serveAll]
  | cons request requests ih =>
    rw [List.forall_mem_cons]
    constructor
    · intro hheld
      have hstart : ∀ e ∈ DATABASE, IsKey e.2.key := hheld [] List.nil_prefix
      have hrest := (@ih (serve host DATABASE request).2).mp
        fun before hbefore => hheld (request :: before) (List.cons_prefix_cons.mpr ⟨rfl, hbefore⟩)
      exact ⟨hstart, (serve_held_iff host hstart request).mp hrest.1, hrest.2⟩
    · rintro ⟨hstart, hline, hlines⟩ before hbefore
      cases before with
      | nil => exact hstart
      | cons request' before =>
        obtain ⟨rfl, hrest⟩ := List.cons_prefix_cons.mp hbefore
        exact ih.mpr ⟨(serve_held_iff host hstart request').mpr hline, hlines⟩ before hrest

private theorem strtol_digits : ∀ b < 256,
    UInt8.ofInt (Strtol.strtol 16 [Hex.digit (b / 16), Hex.digit (b % 16)]).value = UInt8.ofNat b := by
  decide +kernel

private theorem hexClass_digit : ∀ d < 16, hexClass (Hex.digit d) = true := by decide

theorem isKey_to_hex (key : Vector UInt8 DES_KEY_SIZE) : IsKey (to_hex key) := by
  constructor
  · rw [to_hex, Blocks.length_flatten (w := 2) (by simp), List.length_map, Vector.length_toList]
    rfl
  · intro c hc
    obtain ⟨digits, hdigits, hc⟩ := List.mem_flatten.mp hc
    obtain ⟨b, -, rfl⟩ := List.mem_map.mp hdigits
    have hb := b.toNat_lt
    simp only [List.mem_cons, List.not_mem_nil, or_false] at hc
    obtain rfl | rfl := hc <;> exact hexClass_digit _ (by omega)

theorem from_hex_to_hex (key : Vector UInt8 DES_KEY_SIZE) :
    from_hex (to_hex key) = some key.toList := by
  have hread : ∀ i (hi : i < DES_KEY_SIZE),
      Blocks.slice (to_hex key) (2 * i) (2 * (i + 1)) =
        [Hex.digit (key[i].toNat / 16), Hex.digit (key[i].toNat % 16)] := by
    intro i hi
    apply Blocks.slice_flatten (by simp)
    rw [List.getElem?_map, List.getElem?_eq_getElem (by simpa using hi), Vector.getElem_toList]
    rfl
  have hbyte : ∀ i ∈ List.range DES_KEY_SIZE,
      (if (Blocks.slice (to_hex key) (2 * i) (2 * (i + 1))).length = 2 then
        some (UInt8.ofInt
          (Strtol.strtol 16 (Blocks.slice (to_hex key) (2 * i) (2 * (i + 1)))).value) else none) =
      some (key.toList[i]?.getD 0) := by
    intro i hi
    have hi' : i < DES_KEY_SIZE := List.mem_range.mp hi
    have hlength : (Blocks.slice (to_hex key) (2 * i) (2 * (i + 1))).length = 2 := by
      rw [hread i hi']
      rfl
    rw [if_pos hlength, hread i hi', strtol_digits _ key[i].toNat_lt, UInt8.ofNat_toNat,
      List.getElem?_eq_getElem (by simpa using hi'), Vector.getElem_toList, Option.getD_some]
  rw [from_hex, mapM_some hbyte, Option.some.injEq]
  apply List.ext_getElem (by simp)
  intro i hi hi'
  rw [List.getElem_map, List.getElem_range, List.getElem?_eq_getElem hi', Option.getD_some]

/-- A key that is stored is answered for ever with a text that is the key again. -/
structure Returns (DATABASE : Database) (key : Vector UInt8 DES_KEY_SIZE) (uuid : Bytes)
    (later : List Request) : Prop where
  reply : (serve host DATABASE (.store (to_hex key) uuid)).1 = .raised ∨
    (serve host DATABASE (.store (to_hex key) uuid)).1 = .status 200 uuid
  answer : ∃ text,
    retrieve (serveAll host later (serve host DATABASE (.store (to_hex key) uuid)).2) (some uuid) =
      .status 200 text ∧ from_hex text = some key.toList

private theorem serveAll_lookup {later : List Request} {uuid : Bytes}
    (hnot : uuid ∉ later.filterMap Request.uuid) (DATABASE : Database) :
    (serveAll host later DATABASE).lookup uuid = DATABASE.lookup uuid := by
  induction later generalizing DATABASE with
  | nil => rfl
  | cons request later ih =>
    cases request with
    | retrieve body => exact ih hnot DATABASE
    | store body uuid' =>
      simp only [List.filterMap_cons, Request.uuid, List.mem_cons, not_or] at hnot
      refine (ih hnot.2 (serve host DATABASE (.store body uuid')).2).trans ?_
      rw [serve_store]
      split
      · exact lookup_put_of_ne DATABASE hnot.1 _
      · rfl

private theorem store_returns (DATABASE : Database) (key : Vector UInt8 DES_KEY_SIZE) {uuid : Bytes}
    {later : List Request} (hfits : fits uuidClasses uuid = true)
    (hnot : uuid ∉ later.filterMap Request.uuid) : Returns host DATABASE key uuid later := by
  have hmatch : matchesLine 0x0a keyClasses (to_hex key) = true :=
    matchesLine_of_fits ((fits_keyClasses _).mpr (isKey_to_hex key))
  constructor
  · simp only [serve, store, hmatch, Bool.not_true, Bool.false_eq_true, if_false]
    split
    · exact .inl rfl
    · exact .inr rfl
  · rw [serve_store, if_pos hmatch]
    have hlookup := serveAll_lookup host hnot (DATABASE.put uuid ⟨uuid, to_hex key⟩)
    rw [lookup_put_self] at hlookup
    exact ⟨_, retrieve_of_lookup hfits hlookup, from_hex_to_hex key⟩

/-- In every run every key of the hash and of an answer is sixteen hexadecimal characters, and
what the client stores comes back, exactly when the keys of the file were such and every accepted
body was one line. -/
theorem keys_held_iff (traffic : Traffic) :
    ((∀ before, before <+: traffic.requests → KeysHeld (serveAll host before host.data)) ∧
      ∀ before key uuid later, traffic.requests = before ++ .store (to_hex key) uuid :: later →
        Returns host (serveAll host before host.data) key uuid later) ↔
    (∀ e ∈ host.data, IsKey e.2.key) ∧ ∀ request ∈ traffic.requests, OneLine request := by
  have hreturns : ∀ before key uuid later,
      traffic.requests = before ++ .store (to_hex key) uuid :: later →
        Returns host (serveAll host before host.data) key uuid later := by
    intro before key uuid later hsplit
    have hfits := traffic.uuid_fits
    have hnodup := traffic.uuid_nodup
    rw [hsplit, List.filterMap_append] at hfits hnodup
    simp only [List.filterMap_cons, Request.uuid] at hfits hnodup
    rw [List.nodup_append, List.nodup_cons] at hnodup
    exact store_returns host _ key (hfits uuid (by simp)) hnodup.2.1.1
  simp only [keysHeld_iff]
  rw [serveAll_held_iff]
  exact and_iff_left hreturns

/-- A key and a line below it. -/
def twoLines : Bytes := ascii "0123456789abcdef\nx"

/-- A body of two lines is kept. -/
theorem two_lines_kept : ¬ ∀ (traffic : Traffic) before, before <+: traffic.requests →
    KeysHeld (serveAll ⟨data_json, fun _ => true⟩ before data_json) := by
  intro hheld
  let uuid : Bytes := ascii "a5c0a1f2-0000-4000-8000-000000000000"
  let traffic : Traffic := ⟨[.store twoLines uuid], by decide +kernel, by decide +kernel⟩
  have hkey := (hheld traffic _ List.prefix_rfl).held (uuid, ⟨uuid, twoLines⟩) (by decide +kernel)
  have hlength : twoLines.length ≠ 16 := by decide +kernel
  exact hlength hkey.1

end CtfChallenges.Chameleon
