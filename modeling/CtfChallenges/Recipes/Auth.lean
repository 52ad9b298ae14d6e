import CtfChallenges.Recipes.Jwt

/-!
# Authentication in the recipe server

`GetUserFromRequest` of `handlers.go`. A token is checked by the method its header names, and the
method `none` asks for no key, so a token without signature passes for anyone.
-/

namespace CtfChallenges.Recipes
open Framework (ascii)

structure User where
  ID : String
  Username : String
  PWHash : String
deriving DecidableEq, Repr

def Issuer : String := "recipebot"

def signingSecret : Bytes := ascii "foobarbazbang!"

def getSigningSecret (_ : Token) : Except (ValidationError ⊕ Cause) Key :=
  .ok (.bytes signingSecret)

/-- The queries of a database. It compares texts by a collation, without regard to letter case, and
gives the rows for a condition in any order. -/
structure MySQL where
  collate : String → String
  One {α : Type} : List α → (α → Bool) → Option α
  All {α : Type} : List α → (α → Bool) → List α
  of_One {α : Type} {rows : List α} {cond : α → Bool} {row : α} :
    One rows cond = some row → row ∈ rows ∧ cond row = true
  One_isSome {α : Type} {rows : List α} {cond : α → Bool} {row : α} :
    row ∈ rows → cond row = true → (One rows cond).isSome
  All_perm {α : Type} (rows : List α) (cond : α → Bool) : (All rows cond).Perm (rows.filter cond)

/-- `WHERE id = ?` -/
def GetByID (sql : MySQL) (users : List User) (id : String) : Option User :=
  sql.One users fun u => sql.collate u.ID = sql.collate id

/-- The user of a request that carries the given cookie, if any. -/
def GetUserFromRequest (env : Env) (sql : MySQL) (users : List User) (now : Int)
    (cookie : Option Bytes) : Option User :=
  match cookie with
  | none => none
  | some value =>
    match ParseWithClaims env newParser value (some getSigningSecret) now with
    | .error _ => none
    | .ok token =>
      if !token.Valid then none
      else if !verifyIss token.Claims.Issuer Issuer true then none
      else GetByID sql users token.Claims.Subject

/-- The times of the claims that are given bound the moment of the request. -/
def StandardClaims.InTime (c : StandardClaims) (now : Int) : Prop :=
  (c.ExpiresAt = 0 ∨ now ≤ c.ExpiresAt) ∧ (c.IssuedAt = 0 ∨ c.IssuedAt ≤ now) ∧
    (c.NotBefore = 0 ∨ c.NotBefore ≤ now)

private theorem verifyExp_iff (exp now : Int) :
    verifyExp exp now false = true ↔ exp = 0 ∨ now ≤ exp := by
  by_cases h : exp = 0 <;> simp [verifyExp, h]

private theorem verifyIat_iff (iat now : Int) :
    verifyIat iat now false = true ↔ iat = 0 ∨ iat ≤ now := by
  by_cases h : iat = 0 <;> simp [verifyIat, h]

private theorem verifyNbf_iff (nbf now : Int) :
    verifyNbf nbf now false = true ↔ nbf = 0 ∨ nbf ≤ now := by
  by_cases h : nbf = 0 <;> simp [verifyNbf, h]

theorem Valid_eq_none_iff (c : StandardClaims) (now : Int) :
    c.Valid now = none ↔ c.InTime now := by
  rw [StandardClaims.InTime, ← verifyExp_iff, ← verifyIat_iff, ← verifyNbf_iff]
  unfold StandardClaims.Valid
  cases verifyExp c.ExpiresAt now false <;> cases verifyIat c.IssuedAt now false <;>
    cases verifyNbf c.NotBefore now false <;> decide

private theorem not_valid_of_Valid {c : StandardClaims} {now : Int} {e : ValidationError}
    (h : c.Valid now = some e) : e.valid = false := by
  have hsome (v : ValidationError) (hv : (if v.valid then none else some v) = some e) :
      e.valid = false := by
    split at hv
    · cases hv
    · rename_i hvalid
      cases hv
      exact Bool.eq_false_iff.mpr hvalid
  exact hsome _ h

/-- With a secret for a key, only the method `none` and the HMAC methods verify anything. -/
theorem Verify_bytes_iff (env : Env) (m : SigningMethod) (signingString signature secret : Bytes) :
    m.Verify env signingString signature (.bytes secret) = none ↔
      (m = .none ∧ signature = []) ∨ ∃ name hash, m = .HMAC name hash ∧
        env.available hash = true ∧
          DecodeSegment signature = some (env.hmac hash secret signingString) := by
  cases m with
  | none => by_cases h : signature = [] <;> simp [SigningMethod.Verify, h]
  | HMAC name hash =>
    cases hsig : DecodeSegment signature with
    | none => simp [SigningMethod.Verify, hsig]
    | some sig =>
      cases havail : env.available hash with
      | false => simp [SigningMethod.Verify, hsig, havail]
      | true =>
        by_cases heq : sig = env.hmac hash secret signingString <;>
          simp [SigningMethod.Verify, hsig, havail, heq]
  | RSA name hash => cases hsig : DecodeSegment signature <;> simp [SigningMethod.Verify, hsig]
  | RSAPSS name hash => cases hsig : DecodeSegment signature <;> simp [SigningMethod.Verify, hsig]
  | ECDSA name hash size => cases hsig : DecodeSegment signature <;> simp [SigningMethod.Verify, hsig]

/-- The segments of a token and what they decode to. -/
structure Segments (env : Env) (tokenString header claims signature : Bytes) (h : Header)
    (c : StandardClaims) : Prop where
  split : tokenString.splitOn 0x2e = [header, claims, signature]
  header : (DecodeSegment header).bind env.unmarshalHeader = some h
  claims : (DecodeSegment claims).bind env.decodeClaims = some c

theorem ParseUnverified_ok_iff (env : Env) (s : Bytes) (t : Token) (parts : List Bytes) :
    ParseUnverified env s = .ok (t, parts) ↔
      ∃ header claims signature h c alg m, Segments env s header claims signature h c ∧
        h "alg" = some (.string alg) ∧ GetSigningMethod alg = some m ∧
          t = ⟨s, m, h, c, [], false⟩ ∧ parts = [header, claims, signature] := by
  constructor
  · intro hrun
    unfold ParseUnverified at hrun
    dsimp only at hrun
    split at hrun
    case h_2 => cases hrun
    case h_1 header claims signature hsplit =>
      split at hrun
      case h_1 => split at hrun <;> cases hrun
      case h_2 headerBytes hheader =>
        split at hrun
        case h_1 => cases hrun
        case h_2 h hunmarshal =>
          split at hrun
          case h_1 => cases hrun
          case h_2 claimBytes hclaims =>
            split at hrun
            case h_1 => cases hrun
            case h_2 c hdecode =>
              split at hrun
              case h_2 => cases hrun
              case h_1 alg halg =>
                split at hrun
                case h_1 => cases hrun
                case h_2 m hm =>
                  cases hrun
                  exact ⟨header, claims, signature, h, c, alg, m,
                    ⟨hsplit, by rw [hheader]; exact hunmarshal, by rw [hclaims]; exact hdecode⟩,
                    halg, hm, rfl, rfl⟩
  · rintro ⟨header, claims, signature, h, c, alg, m, ⟨hsplit, hheader, hclaims⟩, halg, hm, rfl, rfl⟩
    obtain ⟨headerBytes, hheader, hunmarshal⟩ := Option.bind_eq_some_iff.mp hheader
    obtain ⟨claimBytes, hclaims, hdecode⟩ := Option.bind_eq_some_iff.mp hclaims
    simp only [ParseUnverified, hsplit, hheader, hunmarshal, hclaims, hdecode, halg, hm]

private theorem ParseWithClaims_eq {env : Env} {s : Bytes} {t : Token} {parts : List Bytes}
    (h : ParseUnverified env s = .ok (t, parts)) (now : Int) :
    ParseWithClaims env newParser s (some getSigningSecret) now =
      let vErr := (t.Claims.Valid now).getD ⟨none, 0, ""⟩
      let vErr := match t.Method.Verify env ([(0x2e : UInt8)].intercalate (parts.take 2))
          (parts.getD 2 []) (.bytes signingSecret) with
        | none => vErr
        | some cause => { vErr with
            Inner := some cause, Errors := vErr.Errors ||| ValidationErrorSignatureInvalid }
      if vErr.valid then .ok { t with Signature := parts.getD 2 [], Valid := true }
      else .error vErr := by
  simp only [ParseWithClaims, h]
  rfl

private theorem ParseWithClaims_error {env : Env} {s : Bytes} {e : ValidationError}
    (h : ParseUnverified env s = .error e) (now : Int) :
    ParseWithClaims env newParser s (some getSigningSecret) now = .error e := by
  simp only [ParseWithClaims, h]
  rfl

theorem ParseWithClaims_ok_iff (env : Env) (s : Bytes) (now : Int) (token : Token) :
    ParseWithClaims env newParser s (some getSigningSecret) now = .ok token ↔
      ∃ t parts, ParseUnverified env s = .ok (t, parts) ∧ t.Claims.InTime now ∧
        t.Method.Verify env ([(0x2e : UInt8)].intercalate (parts.take 2)) (parts.getD 2 [])
          (.bytes signingSecret) = none ∧
        token = { t with Signature := parts.getD 2 [], Valid := true } := by
  cases hparse : ParseUnverified env s with
  | error e =>
    rw [ParseWithClaims_error hparse]
    refine iff_of_false (fun h => nomatch h) ?_
    rintro ⟨t, parts, hok, -⟩
    cases hok
  | ok p =>
    obtain ⟨t, parts⟩ := p
    have hunique (P : Token → List Bytes → Prop) :
        (∃ t' parts', (.ok (t, parts) : Except ValidationError _) = .ok (t', parts') ∧
          P t' parts') ↔ P t parts := by
      constructor
      · rintro ⟨t', parts', heq, hP⟩
        cases heq
        exact hP
      · exact fun hP => ⟨t, parts, rfl, hP⟩
    rw [ParseWithClaims_eq hparse, hunique, ← Valid_eq_none_iff]
    dsimp only
    cases t.Method.Verify env ([(0x2e : UInt8)].intercalate (parts.take 2)) (parts.getD 2 [])
      (.bytes signingSecret) with
    | some cause =>
      have hflag (e : UInt32) : (e ||| ValidationErrorSignatureInvalid == 0) = false := by
        rw [beq_eq_false_iff_ne]
        intro hzero
        exact absurd (UInt32.or_eq_zero_iff.mp hzero).2 (by decide)
      simp [ValidationError.valid, hflag]
    | none =>
      cases hvalid : t.Claims.Valid now with
      | none => simp [ValidationError.valid, eq_comm]
      | some e => simp [not_valid_of_Valid hvalid]

private theorem verifyIss_iff (iss : String) : verifyIss iss Issuer true = true ↔ iss = Issuer := by
  unfold verifyIss
  split
  · rename_i h
    simp [h, Issuer]
  · simp

theorem GetUserFromRequest_iff (env : Env) (sql : MySQL) (users : List User) (now : Int)
    (cookie : Bytes) (u : User) :
    GetUserFromRequest env sql users now (some cookie) = some u ↔
      ∃ header claims signature h c alg m, Segments env cookie header claims signature h c ∧
        h "alg" = some (.string alg) ∧ GetSigningMethod alg = some m ∧ c.InTime now ∧
          m.Verify env (header ++ 0x2e :: claims) signature (.bytes signingSecret) = none ∧
          c.Issuer = Issuer ∧ GetByID sql users c.Subject = some u := by
  have hjoin (header claims signature : Bytes) :
      [(0x2e : UInt8)].intercalate ([header, claims, signature].take 2) = header ++ 0x2e :: claims := by
    simp [List.intercalate]
  constructor
  · intro hget
    unfold GetUserFromRequest at hget
    split at hget
    · cases hget
    · rename_i value hvalue
      cases hvalue
      split at hget
      · cases hget
      · rename_i token htoken
        obtain ⟨t, parts, hparse, htime, hverify, rfl⟩ := (ParseWithClaims_ok_iff _ _ _ _).mp htoken
        obtain ⟨header, claims, signature, h, c, alg, m, hsegments, halg, hm, rfl, rfl⟩ :=
          (ParseUnverified_ok_iff _ _ _ _).mp hparse
        rw [hjoin] at hverify
        dsimp only at hget
        split at hget
        · cases hget
        · split at hget
          · cases hget
          · rename_i hiss
            rw [Bool.not_eq_true', Bool.not_eq_false, verifyIss_iff] at hiss
            exact ⟨header, claims, signature, h, c, alg, m, hsegments, halg, hm, htime, hverify,
              hiss, hget⟩
  · rintro ⟨header, claims, signature, h, c, alg, m, hsegments, halg, hm, htime, hverify, hiss, hid⟩
    have hparse := (ParseUnverified_ok_iff env cookie _ _).mpr
      ⟨header, claims, signature, h, c, alg, m, hsegments, halg, hm, rfl, rfl⟩
    have htoken := (ParseWithClaims_ok_iff env cookie now _).mpr
      ⟨_, _, hparse, htime, by rw [hjoin]; exact hverify, rfl⟩
    simp only [GetUserFromRequest]
    rw [htoken]
    simp [(verifyIss_iff c.Issuer).mpr hiss, hid]

/-- The cookie is a token for the user that is signed with the secret, issued by the server and
within its times. -/
def Authentic (env : Env) (now : Int) (cookie : Bytes) (u : User) : Prop :=
  ∃ header claims signature h c hash, Segments env cookie header claims signature h c ∧
    DecodeSegment signature = some (env.hmac hash signingSecret (header ++ 0x2e :: claims)) ∧
    c.Issuer = Issuer ∧ c.Subject = u.ID ∧ c.InTime now

/-- The cookie is an unsigned token of the method `none`, issued in the server's name for a user
that the database finds and within its times. -/
def Unsigned (env : Env) (sql : MySQL) (users : List User) (now : Int) (cookie : Bytes) : Prop :=
  ∃ header claims h c, Segments env cookie header claims [] h c ∧ h "alg" = some (.string "none") ∧
    c.Issuer = Issuer ∧ c.InTime now ∧ ∃ u ∈ users, sql.collate u.ID = sql.collate c.Subject

/-- The cookie is a token that is signed with the secret, issued in the server's name and within its
times, and the database takes its subject for the other ID of a user. -/
def Misnamed (env : Env) (sql : MySQL) (users : List User) (now : Int) (cookie : Bytes) : Prop :=
  ∃ header claims signature h c name hash, Segments env cookie header claims signature h c ∧
    h "alg" = some (.string name) ∧ GetSigningMethod name = some (.HMAC name hash) ∧
    env.available hash = true ∧
    DecodeSegment signature = some (env.hmac hash signingSecret (header ++ 0x2e :: claims)) ∧
    c.Issuer = Issuer ∧ c.InTime now ∧ ∃ u, GetByID sql users c.Subject = some u ∧ u.ID ≠ c.Subject

private theorem alg_of_GetSigningMethod {alg : String} {m : SigningMethod}
    (h : GetSigningMethod alg = some m) : m.Alg = alg := by
  simpa using List.find?_some h

private theorem decodeSegment_nil : DecodeSegment [] = some [] := rfl

theorem GetByID_isSome {sql : MySQL} {users : List User} {u : User} (hu : u ∈ users) {id : String}
    (hid : sql.collate u.ID = sql.collate id) : ∃ v, GetByID sql users id = some v :=
  Option.isSome_iff_exists.mp (sql.One_isSome hu (decide_eq_true hid))

theorem of_GetByID {sql : MySQL} {users : List User} {id : String} {u : User}
    (h : GetByID sql users id = some u) : u ∈ users ∧ sql.collate u.ID = sql.collate id := by
  obtain ⟨hmem, hcond⟩ := sql.of_One h
  exact ⟨hmem, of_decide_eq_true hcond⟩

theorem Unsigned.authenticates {env : Env} {sql : MySQL} {users : List User} {now : Int}
    {cookie : Bytes} (h : Unsigned env sql users now cookie) :
    ∃ u, GetUserFromRequest env sql users now (some cookie) = some u ∧
      ¬ Authentic env now cookie u := by
  obtain ⟨header, claims, h, c, hsegments, halg, hiss, htime, u, hu, hid⟩ := h
  obtain ⟨v, hv⟩ := GetByID_isSome hu hid
  refine ⟨v, ?_, ?_⟩
  · exact (GetUserFromRequest_iff env sql users now cookie v).mpr
      ⟨header, claims, [], h, c, "none", .none, hsegments, halg, by decide, htime,
        by simp [SigningMethod.Verify], hiss, hv⟩
  · rintro ⟨header', claims', signature', h', c', hash, hsegments', hsig, -⟩
    have hsplit := hsegments.split.symm.trans hsegments'.split
    obtain ⟨-, -, rfl⟩ : header = header' ∧ claims = claims' ∧ [] = signature' := by
      simpa using hsplit
    rw [decodeSegment_nil, Option.some.injEq] at hsig
    have hlen := env.length_hmac hash signingSecret (header' ++ 0x2e :: claims')
    rw [← hsig] at hlen
    cases hash <;> cases hlen

theorem Misnamed.authenticates {env : Env} {sql : MySQL} {users : List User} {now : Int}
    {cookie : Bytes} (h : Misnamed env sql users now cookie) :
    ∃ u, GetUserFromRequest env sql users now (some cookie) = some u ∧
      ¬ Authentic env now cookie u := by
  obtain ⟨header, claims, signature, h, c, name, hash, hsegments, halg, hm, havail, hsig, hiss, htime,
    u, hu, hne⟩ := h
  refine ⟨u, ?_, ?_⟩
  · exact (GetUserFromRequest_iff env sql users now cookie u).mpr
      ⟨header, claims, signature, h, c, name, _, hsegments, halg, hm, htime,
        (Verify_bytes_iff _ _ _ _ _).mpr (.inr ⟨name, hash, rfl, havail, hsig⟩), hiss, hu⟩
  · rintro ⟨header', claims', signature', h', c', -, hsegments', -, -, hid, -⟩
    -- a token has only one subject
    have hsplit := hsegments.split.symm.trans hsegments'.split
    obtain ⟨-, rfl, -⟩ : header = header' ∧ claims = claims' ∧ signature = signature' := by
      simpa using hsplit
    obtain rfl : c = c' := Option.some.inj (hsegments.claims.symm.trans hsegments'.claims)
    exact hne hid.symm

/-- Whoever a cookie authenticates is the subject of a token signed with the secret, exactly when
the cookie is not an unsigned token that would pass otherwise, and not a signed one whose subject the
database takes for somebody else. -/
theorem authentic_iff (env : Env) (sql : MySQL) (users : List User) (now : Int) (cookie : Bytes) :
    (∀ u, GetUserFromRequest env sql users now (some cookie) = some u →
        Authentic env now cookie u) ↔
      ¬ Unsigned env sql users now cookie ∧ ¬ Misnamed env sql users now cookie := by
  constructor
  · intro hauth
    constructor
    · intro hunsigned
      obtain ⟨u, hget, hno⟩ := hunsigned.authenticates
      exact hno (hauth u hget)
    · intro hmisnamed
      obtain ⟨u, hget, hno⟩ := hmisnamed.authenticates
      exact hno (hauth u hget)
  · rintro ⟨hunsigned, hmisnamed⟩ u hget
    obtain ⟨header, claims, signature, h, c, alg, m, hsegments, halg, hm, htime, hverify, hiss, hid⟩ :=
      (GetUserFromRequest_iff env sql users now cookie u).mp hget
    obtain ⟨hu, hsame⟩ := of_GetByID hid
    apply ((Verify_bytes_iff _ _ _ _ _).mp hverify).elim
    · rintro ⟨rfl, rfl⟩
      obtain rfl : "none" = alg := alg_of_GetSigningMethod hm
      exact absurd ⟨header, claims, h, c, hsegments, halg, hiss, htime, u, hu, hsame⟩ hunsigned
    · rintro ⟨name, hash, rfl, havail, hsig⟩
      obtain rfl : name = alg := alg_of_GetSigningMethod hm
      by_cases hfound : u.ID = c.Subject
      · exact ⟨header, claims, signature, h, c, hash, hsegments, hsig, hiss, hfound.symm, htime⟩
      · exact absurd ⟨header, claims, signature, h, c, name, hash, hsegments, halg, hm, havail, hsig,
          hiss, htime, u, hid, hfound⟩ hmisnamed

/-- A decoder that knows one header and one claims segment. -/
def sampleEnv : Env where
  unmarshalHeader bytes :=
    if bytes = ascii "\x7b\"alg\":\"none\"\x7d" then
      some fun name => if name = "alg" then some (.string "none") else none
    else none
  decodeClaims bytes :=
    if bytes = ascii "\x7b\"iss\":\"recipebot\",\"sub\":\"7\"\x7d" then
      some ⟨"", 0, "", 0, "recipebot", 0, "7"⟩
    else none
  available _ := true
  hmac h _ _ := List.replicate h.Size 0
  length_hmac _ _ _ := List.length_replicate

/-- A database that gives the rows as they were inserted, and does not regard the case of a letter. -/
def sampleSQL : MySQL where
  collate text := String.ofList (text.toList.map Char.toLower)
  One rows cond := rows.find? cond
  All rows cond := rows.filter cond
  of_One h := ⟨List.mem_of_find?_eq_some h, List.find?_some h⟩
  One_isSome hrow hcond := List.find?_isSome.mpr ⟨_, hrow, hcond⟩
  All_perm _ _ := .refl _

/-- An unsigned token for the user `7`. -/
def unsignedCookie : Bytes :=
  ascii "eyJhbGciOiJub25lIn0.eyJpc3MiOiJyZWNpcGVib3QiLCJzdWIiOiI3In0."

/-- Nobody signed the cookie, and still it authenticates. -/
theorem unsignedCookie_authenticates :
    GetUserFromRequest sampleEnv sampleSQL [⟨"7", "admin", ""⟩] 0 (some unsignedCookie) =
        some ⟨"7", "admin", ""⟩ ∧
      ¬ Authentic sampleEnv 0 unsignedCookie ⟨"7", "admin", ""⟩ := by
  refine ⟨by decide +kernel, ?_⟩
  rintro ⟨header, claims, signature, h, c, hash, hsegments, hsig, -⟩
  have hsplit : unsignedCookie.splitOn 0x2e = [ascii "eyJhbGciOiJub25lIn0",
      ascii "eyJpc3MiOiJyZWNpcGVib3QiLCJzdWIiOiI3In0", []] := by decide +kernel
  obtain ⟨-, -, rfl⟩ : ascii "eyJhbGciOiJub25lIn0" = header ∧
      ascii "eyJpc3MiOiJyZWNpcGVib3QiLCJzdWIiOiI3In0" = claims ∧ [] = signature := by
    simpa using hsplit.symm.trans hsegments.split
  rw [decodeSegment_nil, Option.some.injEq] at hsig
  cases hash <;> cases congrArg List.length hsig

end CtfChallenges.Recipes
