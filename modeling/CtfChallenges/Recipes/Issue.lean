import CtfChallenges.Recipes.Auth
import Mathlib.Algebra.Ring.Int.Defs
import Mathlib.Data.List.DropRight
import Mathlib.Data.List.Nodup
import Mathlib.Logic.Equiv.List

/-!
# Issuing tokens

`getSignedJWTForUser` and what it uses of the package `jwt`. A token that was issued is read back, and
lives for one hour.
-/

namespace CtfChallenges.Recipes
open Framework (ascii)

def base64Char (v : Nat) : UInt8 :=
  if v < 26 then UInt8.ofNat (0x41 + v)
  else if v < 52 then UInt8.ofNat (0x61 + (v - 26))
  else if v < 62 then UInt8.ofNat (0x30 + (v - 52))
  else if v = 62 then 0x2d
  else 0x5f

/-- `base64.URLEncoding.EncodeToString` -/
def encodeToString : Bytes → Bytes
  | [] => []
  | [x] => [base64Char (x.toNat / 4), base64Char (x.toNat % 4 * 16), 0x3d, 0x3d]
  | [x, y] => [base64Char (x.toNat / 4), base64Char (x.toNat % 4 * 16 + y.toNat / 16),
      base64Char (y.toNat % 16 * 4), 0x3d]
  | x :: y :: z :: rest => base64Char (x.toNat / 4) ::
      base64Char (x.toNat % 4 * 16 + y.toNat / 16) ::
      base64Char (y.toNat % 16 * 4 + z.toNat / 64) :: base64Char (z.toNat % 64) ::
        encodeToString rest

def EncodeSegment (seg : Bytes) : Bytes := (encodeToString seg).rdropWhile (· == 0x3d)

/-- The characters that base64 uses for URLs. -/
def IsBase64Char (c : UInt8) : Prop := ∃ v < 64, c = base64Char v

theorem base64Value_base64Char : ∀ v < 64, base64Value (base64Char v) = some v := by decide

theorem base64Char_plain : ∀ v < 64, base64Char v ≠ 0x3d ∧ base64Char v ≠ 0x0d ∧
    base64Char v ≠ 0x0a ∧ base64Char v ≠ 0x2e := by decide

theorem IsBase64Char.plain {c : UInt8} (h : IsBase64Char c) :
    c ≠ 0x3d ∧ c ≠ 0x0d ∧ c ≠ 0x0a ∧ c ≠ 0x2e := by
  obtain ⟨v, hv, rfl⟩ := h
  exact base64Char_plain v hv

private theorem ofNat_byte {x : UInt8} {n : Nat} (h : n = x.toNat) : UInt8.ofNat n = x := by
  rw [h, UInt8.ofNat_toNat]

/-- A text is some characters of the alphabet with padding to whole groups. -/
theorem encodeToString_padded (seg : Bytes) : ∃ body k, (∀ c ∈ body, IsBase64Char c) ∧
    encodeToString seg = body ++ List.replicate k 0x3d ∧ k < 4 ∧ (body.length + k) % 4 = 0 := by
  have hchar {v : Nat} (hv : v < 64) : IsBase64Char (base64Char v) := ⟨v, hv, rfl⟩
  induction seg using encodeToString.induct with
  | case1 => exact ⟨[], 0, nofun, rfl, by decide, rfl⟩
  | case2 x =>
    have hx := x.toNat_lt
    refine ⟨[base64Char (x.toNat / 4), base64Char (x.toNat % 4 * 16)], 2, ?_, rfl, by decide, by simp⟩
    simp only [List.mem_cons, List.not_mem_nil, or_false, forall_eq_or_imp, forall_eq]
    exact ⟨hchar (by omega), hchar (by omega)⟩
  | case3 x y =>
    have hx := x.toNat_lt
    have hy := y.toNat_lt
    refine ⟨[base64Char (x.toNat / 4), base64Char (x.toNat % 4 * 16 + y.toNat / 16),
      base64Char (y.toNat % 16 * 4)], 1, ?_, rfl, by decide, by simp⟩
    simp only [List.mem_cons, List.not_mem_nil, or_false, forall_eq_or_imp, forall_eq]
    exact ⟨hchar (by omega), hchar (by omega), hchar (by omega)⟩
  | case4 x y z rest ih =>
    have hx := x.toNat_lt
    have hy := y.toNat_lt
    have hz := z.toNat_lt
    obtain ⟨body, k, hbody, heq, hk, hlen⟩ := ih
    refine ⟨base64Char (x.toNat / 4) :: base64Char (x.toNat % 4 * 16 + y.toNat / 16) ::
      base64Char (y.toNat % 16 * 4 + z.toNat / 64) :: base64Char (z.toNat % 64) :: body, k, ?_, ?_,
      hk, ?_⟩
    · simp only [List.mem_cons, forall_eq_or_imp]
      exact ⟨hchar (by omega), hchar (by omega), hchar (by omega), hchar (by omega), hbody⟩
    · rw [encodeToString, heq]
      rfl
    · simp only [List.length_cons]
      omega

theorem EncodeSegment_padded (seg : Bytes) : ∃ k, (∀ c ∈ EncodeSegment seg, IsBase64Char c) ∧
    encodeToString seg = EncodeSegment seg ++ List.replicate k 0x3d ∧ k < 4 ∧
      ((EncodeSegment seg).length + k) % 4 = 0 := by
  obtain ⟨body, k, hbody, heq, hk, hlen⟩ := encodeToString_padded seg
  have hsame : EncodeSegment seg = body := by
    rw [EncodeSegment, heq, List.rdropWhile, List.reverse_append, List.reverse_replicate,
      List.dropWhile_append, List.dropWhile_replicate]
    simp only [beq_self_eq_true, if_true, List.isEmpty_nil]
    rw [List.dropWhile_eq_self_iff.mpr, List.reverse_reverse]
    intro hl heq'
    have hmem : body.reverse[0] ∈ body := List.mem_reverse.mp (List.getElem_mem hl)
    exact (hbody _ hmem).plain.1 (by simpa using heq')
  rw [hsame]
  exact ⟨k, hbody, heq, hk, hlen⟩

theorem decodeQuanta_encodeToString (seg : Bytes) : decodeQuanta (encodeToString seg) = some seg := by
  induction seg using encodeToString.induct with
  | case1 => rfl
  | case2 x =>
    have hx := x.toNat_lt
    have hhigh : UInt8.ofNat (x.toNat / 4 * 4 + x.toNat % 4 * 16 / 16) = x := ofNat_byte (by omega)
    simp only [encodeToString, decodeQuanta,
      base64Value_base64Char _ (by omega : x.toNat / 4 < 64),
      base64Value_base64Char _ (by omega : x.toNat % 4 * 16 < 64), Option.bind_eq_bind,
      Option.bind_some, hhigh]
    simp
  | case3 x y =>
    have hx := x.toNat_lt
    have hy := y.toNat_lt
    have hhigh : UInt8.ofNat (x.toNat / 4 * 4 + (x.toNat % 4 * 16 + y.toNat / 16) / 16) = x :=
      ofNat_byte (by omega)
    have hmid : UInt8.ofNat ((x.toNat % 4 * 16 + y.toNat / 16) % 16 * 16 + y.toNat % 16 * 4 / 4) = y :=
      ofNat_byte (by omega)
    have hlast := (base64Char_plain (y.toNat % 16 * 4) (by omega)).1
    simp only [encodeToString, decodeQuanta,
      base64Value_base64Char _ (by omega : x.toNat / 4 < 64),
      base64Value_base64Char _ (by omega : x.toNat % 4 * 16 + y.toNat / 16 < 64),
      base64Value_base64Char _ (by omega : y.toNat % 16 * 4 < 64), Option.bind_eq_bind,
      Option.bind_some, hlast, hhigh, hmid]
    simp
  | case4 x y z rest ih =>
    have hx := x.toNat_lt
    have hy := y.toNat_lt
    have hz := z.toNat_lt
    have hhigh : UInt8.ofNat (x.toNat / 4 * 4 + (x.toNat % 4 * 16 + y.toNat / 16) / 16) = x :=
      ofNat_byte (by omega)
    have hmid : UInt8.ofNat ((x.toNat % 4 * 16 + y.toNat / 16) % 16 * 16 +
        (y.toNat % 16 * 4 + z.toNat / 64) / 4) = y := ofNat_byte (by omega)
    have hlow : UInt8.ofNat ((y.toNat % 16 * 4 + z.toNat / 64) % 4 * 64 + z.toNat % 64) = z :=
      ofNat_byte (by omega)
    have hthird := (base64Char_plain (y.toNat % 16 * 4 + z.toNat / 64) (by omega)).1
    have hlast := (base64Char_plain (z.toNat % 64) (by omega)).1
    simp only [encodeToString, decodeQuanta,
      base64Value_base64Char _ (by omega : x.toNat / 4 < 64),
      base64Value_base64Char _ (by omega : x.toNat % 4 * 16 + y.toNat / 16 < 64),
      base64Value_base64Char _ (by omega : y.toNat % 16 * 4 + z.toNat / 64 < 64),
      base64Value_base64Char _ (by omega : z.toNat % 64 < 64), Option.bind_eq_bind,
      Option.bind_some, hthird, hlast, hhigh, hmid, hlow, ih]
    simp

theorem DecodeSegment_EncodeSegment (seg : Bytes) : DecodeSegment (EncodeSegment seg) = some seg := by
  obtain ⟨k, hchars, heq, hk, hlen⟩ := EncodeSegment_padded seg
  have hpad : (if 0 < (EncodeSegment seg).length % 4 then
      EncodeSegment seg ++ List.replicate (4 - (EncodeSegment seg).length % 4) 0x3d
      else EncodeSegment seg) = encodeToString seg := by
    rw [heq]
    split
    · rename_i hpos
      have hk' : 4 - (EncodeSegment seg).length % 4 = k := by omega
      rw [hk']
    · rename_i hzero
      have hk' : k = 0 := by omega
      rw [hk', List.replicate_zero, List.append_nil]
  have hline : (encodeToString seg).filter (fun c => c ≠ 0x0d ∧ c ≠ 0x0a) = encodeToString seg := by
    rw [List.filter_eq_self, heq]
    intro c hc
    apply (List.mem_append.mp hc).elim
    · intro hbody
      have hplain := (hchars c hbody).plain
      simp [hplain.2.1, hplain.2.2.1]
    · intro hpadding
      rw [List.eq_of_mem_replicate hpadding]
      decide
  rw [DecodeSegment, hpad, decodeString, hline, decodeQuanta_encodeToString]

/-- The times are of the type `int64`. -/
def StandardClaims.Fits (c : StandardClaims) : Prop :=
  ∀ t ∈ [c.ExpiresAt, c.IssuedAt, c.NotBefore], -2 ^ 63 ≤ t ∧ t < 2 ^ 63

/-- What the other packages do for a token that is issued: `Marshal` writes what is read back, and the
hash is linked in. -/
structure Issuing extends Env where
  /-- The header with the type `JWT` and the given method. -/
  marshalHeader : String → Bytes
  marshalClaims : StandardClaims → Bytes
  header_marshal : ∃ h, unmarshalHeader (marshalHeader "HS256") = some h ∧
    h "alg" = some (.string "HS256")
  claims_marshal : ∀ c, c.Fits → decodeClaims (marshalClaims c) = some c
  available_sha256 : available .SHA256 = true

/-- `Sign` of an HMAC method, with no value for an error. -/
def Sign (env : Env) (hash : Hash) (signingString key : Bytes) : Option Bytes :=
  if env.available hash then some (EncodeSegment (env.hmac hash key signingString)) else none

def SigningString (packages : Issuing) (alg : String) (claims : StandardClaims) : Bytes :=
  EncodeSegment (packages.marshalHeader alg) ++ 0x2e :: EncodeSegment (packages.marshalClaims claims)

def SignedString (packages : Issuing) (alg : String) (hash : Hash) (claims : StandardClaims)
    (key : Bytes) : Option Bytes := do
  let sstr := SigningString packages alg claims
  let sig ← Sign packages.toEnv hash sstr key
  return sstr ++ 0x2e :: sig

def claimsFor (u : User) (now : Int) : StandardClaims where
  Audience := ""
  ExpiresAt := now + 3600
  Id := ""
  IssuedAt := now
  Issuer := Issuer
  NotBefore := now
  Subject := u.ID

/-- The token is empty after an error. -/
def getSignedJWTForUser (packages : Issuing) (u : User) (now : Int) : Bytes :=
  (SignedString packages "HS256" .SHA256 (claimsFor u now) signingSecret).getD []

variable (packages : Issuing) (sql : MySQL)

/-- A moment whose time and the one an hour later are given in claims. -/
def Clock (now : Int) : Prop := 0 < now ∧ now + 3600 < 2 ^ 63

theorem claimsFor_fits {now : Int} (h : Clock now) (u : User) : (claimsFor u now).Fits := by
  obtain ⟨hpos, hmax⟩ := h
  intro t ht
  simp only [claimsFor, List.mem_cons, List.not_mem_nil, or_false] at ht
  omega

theorem claimsFor_inTime_iff {issued : Int} (h : Clock issued) (u : User) (now : Int) :
    (claimsFor u issued).InTime now ↔ issued ≤ now ∧ now ≤ issued + 3600 := by
  obtain ⟨hpos, -⟩ := h
  simp only [StandardClaims.InTime, claimsFor]
  omega

theorem getSignedJWTForUser_segments (u : User) {issued : Int} (h : Clock issued) :
    ∃ header claims signature hd, Segments packages.toEnv (getSignedJWTForUser packages u issued)
        header claims signature hd (claimsFor u issued) ∧
      hd "alg" = some (.string "HS256") ∧
      DecodeSegment signature =
        some (packages.hmac .SHA256 signingSecret (header ++ 0x2e :: claims)) := by
  obtain ⟨hd, hunmarshal, halg⟩ := packages.header_marshal
  have hdot : ∀ seg, (0x2e : UInt8) ∉ EncodeSegment seg := by
    intro seg hmem
    obtain ⟨_, hchars, -⟩ := EncodeSegment_padded seg
    exact (hchars _ hmem).plain.2.2.2 rfl
  let header := EncodeSegment (packages.marshalHeader "HS256")
  let claims := EncodeSegment (packages.marshalClaims (claimsFor u issued))
  let signature := EncodeSegment (packages.hmac .SHA256 signingSecret (header ++ 0x2e :: claims))
  have htoken : getSignedJWTForUser packages u issued =
      [(0x2e : UInt8)].intercalate [header, claims, signature] := by
    simp [getSignedJWTForUser, SignedString, Sign, packages.available_sha256, SigningString,
      List.intercalate, header, claims, signature]
  refine ⟨header, claims, signature, hd, ⟨?_, ?_, ?_⟩, halg, DecodeSegment_EncodeSegment _⟩
  · rw [htoken]
    apply List.splitOn_intercalate
    · intro seg hseg
      simp only [List.mem_cons, List.not_mem_nil, or_false] at hseg
      obtain rfl | rfl | rfl := hseg
      · exact hdot _
      · exact hdot _
      · exact hdot _
    · exact List.cons_ne_nil _ _
  · rw [DecodeSegment_EncodeSegment]
    exact hunmarshal
  · rw [DecodeSegment_EncodeSegment]
    exact packages.claims_marshal _ (claimsFor_fits h u)

/-- A token that was issued for a user gives the user with its identifier, and only within the hour. -/
theorem GetUserFromRequest_issued (users : List User) (u : User) {issued : Int} (h : Clock issued)
    (now : Int) :
    GetUserFromRequest packages.toEnv sql users now (some (getSignedJWTForUser packages u issued)) =
      if issued ≤ now ∧ now ≤ issued + 3600 then GetByID sql users u.ID else none := by
  obtain ⟨header, claims, signature, hd, hsegments, halg, hsig⟩ :=
    getSignedJWTForUser_segments packages u h
  have hmethod : GetSigningMethod "HS256" = some (.HMAC "HS256" .SHA256) := by decide
  ext v
  have hiff := GetUserFromRequest_iff packages.toEnv sql users now
    (getSignedJWTForUser packages u issued) v
  rw [hiff]
  constructor
  · rintro ⟨header', claims', signature', hd', c, alg, m, hsegments', _, _, htime, _, _, hid⟩
    -- the segments are those of the token
    have hsame := hsegments.split.symm.trans hsegments'.split
    simp only [List.cons.injEq, and_true] at hsame
    obtain ⟨rfl, rfl, rfl⟩ := hsame
    have hc := hsegments.claims.symm.trans hsegments'.claims
    cases hc
    rw [if_pos ((claimsFor_inTime_iff h u now).mp htime)]
    exact hid
  · intro hv
    split at hv
    · rename_i htime
      refine ⟨header, claims, signature, hd, _, "HS256", _, hsegments, halg, hmethod,
        (claimsFor_inTime_iff h u now).mpr htime, ?_, rfl, hv⟩
      exact (Verify_bytes_iff _ _ _ _ _).mpr
        (.inr ⟨"HS256", .SHA256, rfl, packages.available_sha256, hsig⟩)
    · cases hv

theorem GetByID_of_mem {users : List User} (hunique : (users.map fun u => sql.collate u.ID).Nodup)
    {u : User} (hu : u ∈ users) : GetByID sql users u.ID = some u := by
  obtain ⟨v, hv⟩ : ∃ v, GetByID sql users u.ID = some v := GetByID_isSome hu rfl
  obtain ⟨hmem, hsame⟩ := of_GetByID hv
  rw [hv, List.inj_on_of_nodup_map hunique hmem hu hsame]

/-- Where no two IDs are the same for the database, the cookie that a user gets is the user's for one
hour, and nobody's before and after. -/
theorem cookie_lives {users : List User} (hunique : (users.map fun u => sql.collate u.ID).Nodup)
    {u : User} (hu : u ∈ users) {issued : Int} (h : Clock issued) (now : Int) :
    GetUserFromRequest packages.toEnv sql users now (some (getSignedJWTForUser packages u issued)) =
      if issued ≤ now ∧ now ≤ issued + 3600 then some u else none := by
  rw [GetUserFromRequest_issued packages sql users u h, GetByID_of_mem sql hunique hu]

deriving instance DecidableEq for StandardClaims

/-- The numbers of the characters. -/
def points (s : String) : List Nat := s.toList.map Char.toNat

def ofPoints (ns : List Nat) : String := String.ofList (ns.map Char.ofNat)

theorem ofPoints_points (s : String) : ofPoints (points s) = s := by
  have hchar : Char.ofNat ∘ Char.toNat = id := funext Char.ofNat_toNat
  rw [ofPoints, points, List.map_map, hchar, List.map_id, String.ofList_toList]

instance : Encodable StandardClaims :=
  Encodable.ofLeftInjection
    (fun c => (points c.Audience, c.ExpiresAt, points c.Id, c.IssuedAt, points c.Issuer,
      c.NotBefore, points c.Subject))
    (fun (aud, exp, id, iat, iss, nbf, sub) =>
      some ⟨ofPoints aud, exp, ofPoints id, iat, ofPoints iss, nbf, ofPoints sub⟩)
    fun c => by simp only [ofPoints_points]

/-- The user whose token is written out. -/
def sampleUser : User := ⟨"7", "admin", ""⟩

def sampleHeader : Bytes := ascii "\x7b\"alg\":\"HS256\",\"typ\":\"JWT\"\x7d"

def sampleClaims : Bytes :=
  ascii "\x7b\"exp\":3601,\"iat\":1,\"iss\":\"recipebot\",\"nbf\":1,\"sub\":\"7\"\x7d"

def sampleAvailable (_ : Hash) : Bool := true

def sampleHmac (h : Hash) (_ _ : Bytes) : Bytes := List.replicate h.Size 0

theorem length_sampleHmac (h : Hash) (key text : Bytes) : (sampleHmac h key text).length = h.Size :=
  List.length_replicate

/-- JSON for one token; all other claims are given by their number. -/
def sampleIssuing : Issuing where
  unmarshalHeader bytes :=
    if bytes = sampleHeader then
      some fun name => if name = "alg" then some (.string "HS256") else none
    else none
  decodeClaims bytes :=
    if bytes = sampleClaims then some (claimsFor sampleUser 1) else Encodable.decode bytes.length
  available := sampleAvailable
  hmac := sampleHmac
  length_hmac := length_sampleHmac
  marshalHeader _ := sampleHeader
  marshalClaims c :=
    if c = claimsFor sampleUser 1 then sampleClaims else List.replicate (Encodable.encode c) 0
  header_marshal := ⟨_, if_pos rfl, rfl⟩
  claims_marshal c _ := by
    by_cases hc : c = claimsFor sampleUser 1
    · rw [if_pos hc, if_pos rfl, hc]
    · have hne : List.replicate (Encodable.encode c) 0 ≠ sampleClaims := by
        intro heq
        have hmem : (0x7b : UInt8) ∈ List.replicate (Encodable.encode c) 0 := by
          rw [heq]
          decide
        exact absurd (List.eq_of_mem_replicate hmem) (by decide)
      rw [if_neg hc, if_neg hne, List.length_replicate, Encodable.encodek]
  available_sha256 := rfl

theorem cookie_lives_seven :
    GetUserFromRequest sampleIssuing.toEnv sampleSQL [⟨"a6", "matir", ""⟩, sampleUser] 2
      (some (getSignedJWTForUser sampleIssuing sampleUser 1)) = some sampleUser := by
  rw [cookie_lives sampleIssuing sampleSQL (by decide) (by decide) ⟨by decide, by decide⟩]
  decide

end CtfChallenges.Recipes
