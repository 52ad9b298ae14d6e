import CtfChallenges.Cards.Api

/-!
# The requests of the page

Each button of the page sends the sealed text of a session back. What the server does with it is what
the operation does in that session.
-/

namespace CtfChallenges.Cards
open Framework Json

inductive Button
  | deal (bet : Int)
  | hit
  | stand
  | double
  deriving DecidableEq, Repr

namespace Button

def method : Button → Bytes
  | .deal _ => word "deal"
  | .hit => word "hit"
  | .stand => word "stand"
  | .double => word "double"

def action : Button → Action
  | .deal _ => .deal
  | .hit => .hit
  | .stand => .stand
  | .double => .double

/-- The bet is sent with a deal. -/
def data : Button → List (Bytes × Value)
  | .deal bet => [(word "Bet", .number (formatInt bet))]
  | .hit => []
  | .stand => []
  | .double => []

/-- The field that is not sent is zero. -/
def bet : Button → Int
  | .deal bet => bet
  | .hit => 0
  | .stand => 0
  | .double => 0

def request (b : Button) : Request := ⟨b.action, b.bet⟩

/-- `makeRequest` -/
def makeRequest (b : Button) (secret : Bytes) : HttpRequest where
  Method := word "POST"
  Path := word "/api/" ++ b.method
  Body := some (render (.object (b.data ++ [(word "SecretState", .string secret)])))

end Button

theorem safe_words {ws : List String} (h : ws.all fun w => (word w).all safe) {w : String}
    (hw : w ∈ ws) : ∀ c ∈ word w, safe c = true :=
  List.all_eq_true.mp (List.all_eq_true.mp h w hw)

theorem safe_hex (s : Bytes) : ∀ c ∈ Hex.encode s, safe c = true := by
  have hdigit : ∀ d < 16, safe (Hex.digit d) = true := by decide
  intro c hc
  obtain ⟨b, -, hb⟩ := List.mem_flatMap.mp hc
  have hlt := b.toNat_lt
  apply (List.mem_cons.mp hb).elim
  · intro heq
    exact heq ▸ hdigit _ (by omega)
  · intro hlow
    exact List.mem_singleton.mp hlow ▸ hdigit _ (by omega)

theorem safe_marshalText (box : Secretbox) (nonce : Nonce) (ss : SecretState) :
    ∀ c ∈ SecretState.marshalText box nonce ss, safe c = true := safe_hex _

theorem Button.plain_data (b : Button) {secret : Bytes} (h : ∀ c ∈ secret, safe c = true) :
    PlainMembers (b.data ++ [(word "SecretState", .string secret)]) := by
  have hkey : ∀ c ∈ word "SecretState", safe c = true := List.all_eq_true.mp (by decide)
  have hbet : ∀ c ∈ word "Bet", safe c = true := List.all_eq_true.mp (by decide)
  cases b with
  | deal bet => exact ⟨hbet, ⟨bet, rfl⟩, hkey, h, trivial⟩
  | _ => exact ⟨hkey, h, trivial⟩

/-- The server decodes what the page has sent into the session that was sealed. -/
theorem unmarshalJSON_button {server : Server} {nonce : Nonce} {ss : SecretState}
    (h : server.issued nonce ss) (b : Button) (hlow : -2 ^ 63 ≤ b.bet) (hhigh : b.bet < 2 ^ 63) :
    unmarshalJSON server (render (.object (b.data ++
        [(word "SecretState", .string (SecretState.marshalText server.toSecretbox nonce ss))]))) =
      some (.ok ⟨some ss.game.raw, ss.balance, b.bet⟩) := by
  have hplain : Plain (.object (b.data ++
      [(word "SecretState", .string (SecretState.marshalText server.toSecretbox nonce ss))])) :=
    b.plain_data (safe_marshalText _ nonce ss)
  have hsecret : fieldOf sessionFields (word "SecretState") = some (word "SecretState") := by decide
  have hbet : fieldOf sessionFields (word "Bet") = some (word "Bet") := by decide
  have hne : word "Bet" ≠ word "SecretState" := by decide
  have hopen := unmarshalText_marshalText h Raw.SecretState.zero
  rw [unmarshalJSON, parse_render hplain]
  cases b with
  | deal bet =>
    have hint : Decoder.int (.number (formatInt bet)) 0 = (bet, false) :=
      Decoder.gives_int hlow hhigh 0
    simp [Button.data, Button.bet, decodeMembers, hbet, hsecret, decodeMember, hne, hint,
      decodeSecret, hopen, sessionOf, SecretState.raw]
  | _ =>
    simp [Button.data, Button.bet, decodeMembers, hsecret, decodeMember, decodeSecret, hopen,
      sessionOf, SecretState.raw]

/-- A bet is of the type `int`. -/
def Button.Fits (b : Button) : Prop := -2 ^ 63 ≤ b.bet ∧ b.bet < 2 ^ 63

namespace Api

variable (box : SealedBox) (flag : Bytes)

/-- The page asks for a new session. -/
def newRequest : HttpRequest := ⟨word "POST", word "/api", none⟩

def plainSealedBox : SealedBox where
  toSecretbox := plainBox
  Seal_injective _ := List.append_right_injective _

theorem newSession_fits : (⟨newSession.game, newSession.balance⟩ : SecretState).Fits := by decide

theorem apiHandler_new (log : Log) (nonce : Nonce) (src : Source) :
    apiHandler box flag log newRequest ⟨some nonce, src⟩ =
      some (log.add nonce ⟨newSession.game, newSession.balance⟩ newSession_fits,
        .sent 200 (newSession.marshalJSON box.toSecretbox nonce flag ++ [0x0a])) := by
  have hpath : (newRequest.Path.splitOn 0x2f).drop 2 = [] := by decide
  rw [apiHandler, if_neg (by simp [newRequest])]
  simp only [hpath, encode]
  exact dif_pos newSession_fits

/-- A button on the text of a session is the operation in that session. -/
theorem apiHandler_button {log : Log} {nonce : Nonce} {s : Session}
    (hissued : (nonce, ⟨s.game, s.balance⟩) ∈ log.issued) (b : Button) (hbet : b.Fits)
    (random : Random) :
    apiHandler box flag log
        (b.makeRequest (SecretState.marshalText box.toSecretbox nonce ⟨s.game, s.balance⟩)) random =
      (Cards.apiHandler s b.request random.shuffles).elim (some (log, .dropped)) fun reply =>
        reply.1.elim (encode box flag log random.nonce reply.2.1) fun err =>
          some (log, httpError (word err) 400) := by
  obtain ⟨secret, hsecret⟩ : ∃ secret,
      secret = SecretState.marshalText box.toSecretbox nonce ⟨s.game, s.balance⟩ := ⟨_, rfl⟩
  rw [← hsecret]
  have hpath : ((b.makeRequest secret).Path.splitOn 0x2f).drop 2 = [b.method] := by
    cases b <;> simp only [Button.makeRequest, Button.method] <;> decide
  have haction : actionOf b.method = some b.action := by
    cases b <;> simp only [Button.method, Button.action] <;> decide
  have hraw : unmarshalJSON (log.server box) (render (.object (b.data ++
      [(word "SecretState", .string secret)]))) = some (.ok ⟨some s.game.raw, s.balance, b.bet⟩) := by
    rw [hsecret]
    exact @unmarshalJSON_button (log.server box) _ _ hissued b hbet.1 hbet.2
  have hsession : Session.ofRaw ⟨some s.game.raw, s.balance, b.bet⟩ = some { s with bet := b.bet } := by
    simp [Session.ofRaw, Game.ofRaw_raw]
  have hbody : (b.makeRequest secret).Body = some (render (.object (b.data ++
      [(word "SecretState", .string secret)]))) := rfl
  have hmethod : ¬ (b.makeRequest secret).Method ≠ word "POST" := fun hne => hne rfl
  have hsame : Cards.apiHandler { s with bet := b.bet } ⟨b.action, b.bet⟩ random.shuffles =
      Cards.apiHandler s b.request random.shuffles := rfl
  rw [apiHandler, if_neg hmethod]
  simp only [hpath, hbody, hraw, hsession, haction, hsame]
  cases Cards.apiHandler s b.request random.shuffles with
  | none => rfl
  | some reply =>
    obtain ⟨_ | e, s', src'⟩ := reply
    · rfl
    · rfl

end Api

end CtfChallenges.Cards
