import CtfChallenges.Cards.Buttons

/-!
# Clients that keep every answer

Whatever bodies come in, the server only goes on from games that it has sealed.
-/

namespace CtfChallenges.Cards
open Framework Json

theorem unmarshalText_issued {server : Server} {text : Bytes} {old new : Raw.SecretState}
    (h : unmarshalText server text old = some (.ok new)) :
    ∃ nonce ss, server.issued nonce ss ∧ new = ss.raw := by
  unfold unmarshalText at h
  cases hbuf : Hex.decode text with
  | none => simp [hbuf] at h
  | some buf =>
    rw [hbuf] at h
    dsimp only at h
    split at h
    · cases h
    split at h
    · cases h
    cases hopen : server.Open (nonceOf buf) (buf.drop 24) with
    | none => simp [hopen] at h
    | some m =>
      obtain ⟨ss, hissued, -, hm⟩ := (server.open_iff _ _ _).mp hopen
      simp only [hopen, hm, unmarshal_sealed (server.fits _ _ hissued)] at h
      cases h
      exact ⟨_, ss, hissued, rfl⟩

/-- The sealed text of the body so far, unless an error is already kept. -/
def FromSealed (server : Server) (jss : JsonSession) (e : Bool) : Prop :=
  e = true ∨ jss.secretState = none ∨
    ∃ nonce ss, server.issued nonce ss ∧ jss.secretState = some ss.raw

theorem decodeMember_fromSealed {server : Server} {name : Bytes} {v : Value} {jss jss' : JsonSession}
    {e e' : Bool} (h : FromSealed server jss e)
    (hmember : decodeMember server name v jss = some (.ok (jss', e'))) :
    FromSealed server jss' (e || e') := by
  have hlater : ∀ {jss'}, jss'.secretState = jss.secretState → FromSealed server jss' (e || e') := by
    intro jss' hsame
    apply h.imp (fun he => by simp [he])
    rw [hsame]
    exact id
  unfold decodeMember at hmember
  split at hmember
  · cases v with
    | null =>
      cases hmember
      exact .inr (.inl rfl)
    | string text =>
      simp only [decodeSecret] at hmember
      cases htext : unmarshalText server text (jss.secretState.getD Raw.SecretState.zero) with
      | none => simp [htext] at hmember
      | some result =>
        cases result with
        | error err => simp [htext] at hmember
        | ok new =>
          obtain ⟨nonce, ss, hissued, hnew⟩ := unmarshalText_issued htext
          simp only [htext] at hmember
          cases hmember
          exact .inr (.inr ⟨nonce, ss, hissued, by rw [hnew]⟩)
    | bool _ =>
      cases hmember
      exact .inl (Bool.or_true _)
    | number _ =>
      cases hmember
      exact .inl (Bool.or_true _)
    | array _ =>
      cases hmember
      exact .inl (Bool.or_true _)
    | object _ =>
      cases hmember
      exact .inl (Bool.or_true _)
  · split at hmember
    · cases hmember
      exact hlater rfl
    · cases hmember
      exact hlater rfl

theorem decodeMembers_fromSealed {server : Server} {members : List (Bytes × Value)}
    {jss jss' : JsonSession} {e e' : Bool} (h : FromSealed server jss e)
    (hmembers : decodeMembers server members jss e = some (.ok (jss', e'))) :
    FromSealed server jss' e' := by
  induction members generalizing jss e with
  | nil =>
    cases hmembers
    exact h
  | cons m members ih =>
    obtain ⟨key, v⟩ := m
    rw [decodeMembers] at hmembers
    cases hname : fieldOf sessionFields key with
    | none =>
      rw [hname] at hmembers
      exact ih h hmembers
    | some name =>
      simp only [hname] at hmembers
      cases hmember : decodeMember server name v jss with
      | none => simp [hmember] at hmembers
      | some result =>
        cases result with
        | error err => simp [hmember] at hmembers
        | ok p =>
          obtain ⟨jss₁, e₁⟩ := p
          simp only [hmember] at hmembers
          exact ih (decodeMember_fromSealed h hmember) hmembers

/-- The session of a body is one of the sealed games, with its balance. -/
theorem unmarshalJSON_issued {server : Server} {body : Bytes} {s : Raw.Session}
    (h : unmarshalJSON server body = some (.ok s)) :
    ∃ nonce ss, server.issued nonce ss ∧ s.game = some ss.game.raw ∧ s.balance = ss.balance := by
  have hend : ∀ {result}, (∀ jss e, result = some (.ok (jss, e)) → FromSealed server jss e) →
      sessionOf result = some (.ok s) →
      ∃ nonce ss, server.issued nonce ss ∧ s.game = some ss.game.raw ∧ s.balance = ss.balance := by
    intro result hfrom hs
    match result, hs with
    | some (.ok (jss, false)), hs =>
      obtain he | hnil | ⟨nonce, ss, hissued, hss⟩ := hfrom jss false rfl
      · cases he
      · simp [sessionOf, hnil] at hs
      · simp only [sessionOf, hss] at hs
        cases hs
        exact ⟨nonce, ss, hissued, rfl, rfl⟩
  unfold unmarshalJSON at h
  cases hparse : parse body with
  | none => simp [hparse] at h
  | some v =>
    simp only [hparse] at h
    cases v with
    | null =>
      apply hend _ h
      intro jss e heq
      cases heq
      exact .inr (.inl rfl)
    | object members =>
      exact hend (fun jss e => decodeMembers_fromSealed (.inr (.inl rfl))) h
    | _ => cases h

theorem score_balance_le (s : Session) (hbet : 0 ≤ s.game.bet) :
    s.score.balance ≤ s.balance + 5 * s.game.bet / 2 := by
  unfold Session.score
  cases s.game.state with
  | playerWinsBlackjack =>
    dsimp only
    rw [Int.tdiv_eq_ediv_of_nonneg (by omega), Int.mul_comm]
  | _ =>
    dsimp only
    omega

/-- The bet of a game is at most a doubled one, also before the first deal. -/
theorem Reachable.bet {s : Session} (h : Reachable s) : 0 ≤ s.game.bet ∧ s.game.bet ≤ 2 * maxBet := by
  have hmax : maxBet = 500 := rfl
  have hmin : minBet = 10 := rfl
  induction h with
  | new => decide
  | @answer s s' r src src' hs heq ih =>
    have hstaked := reachable_staked hs
    have hserved := apiHandler_served s r src hstaked.dealt
    rw [heq] at hserved
    cases hserved with
    | deal hdeal g hg hbet =>
      obtain ⟨-, -, hlow, hhigh⟩ := hdeal
      rw [Session.score_game]
      dsimp only
      omega
    | turn hplaying hnot g hg hbet =>
      rw [Session.score_game]
      dsimp only
      omega
    | double hdouble hcan hg =>
      have hplaying := hstaked.playing hcan.1
      have hbet : s.game.afterDouble.bet = s.game.bet * 2 := by
        rw [Game.afterDouble, Game.finish_bet]
        rfl
      dsimp only
      omega

theorem Reachable.balance_le {s s' : Session} {r : Request} {src src' : Source} (h : Reachable s)
    (heq : apiHandler s r src = some (none, s', src')) : s'.balance ≤ s.balance + 1250 := by
  have hmax : maxBet = 500 := rfl
  have hmin : minBet = 10 := rfl
  have hstaked := reachable_staked h
  have hserved := apiHandler_served s r src hstaked.dealt
  rw [heq] at hserved
  cases hserved with
  | deal hdeal g hg hbet =>
    obtain ⟨-, -, hlow, hhigh⟩ := hdeal
    have hscore := score_balance_le { game := g, balance := s.balance - r.bet, bet := r.bet }
      (by dsimp only; omega)
    dsimp only at hscore
    omega
  | turn hplaying hnot g hg hbet =>
    have hlow := h.bet.1
    have hhigh := hstaked.playing hplaying
    have hscore := score_balance_le { game := g, balance := s.balance, bet := r.bet }
      (by dsimp only; omega)
    dsimp only at hscore
    omega
  | double hdouble hcan hg =>
    have hlow := h.bet.1
    dsimp only
    omega

theorem Reachable.fits {s : Session} (h : Reachable s) (hbalance : s.balance < 2 ^ 63) :
    (⟨s.game, s.balance⟩ : SecretState).Fits := by
  have hstaked := reachable_staked h
  have hbet := h.bet
  have hmax : maxBet = 500 := rfl
  have hpos := hstaked.dealt.pos_lt
  have hzero := hstaked.balance
  constructor <;> dsimp only <;> omega

/-- What has been sealed are games that were played, with balances that grow with the log. -/
structure Log.Played (log : Log) : Prop where
  reachable : ∀ p ∈ log.issued, ∃ s, Reachable s ∧ p.2 = ⟨s.game, s.balance⟩
  balance : ∀ p ∈ log.issued, p.2.balance ≤ 1000 + 1250 * log.issued.length

theorem Log.empty_played : Log.empty.Played := ⟨nofun, nofun⟩

theorem Log.Played.add {log : Log} (h : log.Played) {s : Session} (hs : Reachable s)
    (hbalance : s.balance ≤ 1000 + 1250 * (log.issued.length + 1)) (nonce : Nonce)
    (hfits : (⟨s.game, s.balance⟩ : SecretState).Fits) :
    (log.add nonce ⟨s.game, s.balance⟩ hfits).Played := by
  constructor
  · intro p hp
    apply (List.mem_cons.mp hp).elim
    · intro heq
      exact ⟨s, hs, by rw [heq]⟩
    · exact h.reachable p
  · intro p hp
    simp only [Log.add, List.length_cons, Nat.cast_add, Nat.cast_one]
    apply (List.mem_cons.mp hp).elim
    · intro heq
      rw [heq]
      exact hbalance
    · intro hold
      have hbound := h.balance p hold
      omega

namespace Api

variable (box : SealedBox) (flag : Bytes)

/-- A request is refused, or answered with a session that has been played and is sealed for it.
Neither depends on the flag but for the text of the session. -/
def Handled (log : Log) (handler : Bytes → Option (Log × Answer)) : Prop :=
  (∃ a, (∀ body, a ≠ .sent 200 body) ∧ ∀ flag, handler flag = some (log, a)) ∨
    ∃ nonce s h, Reachable s ∧ (log.add nonce ⟨s.game, s.balance⟩ h).Played ∧
      ∀ flag, handler flag = some (log.add nonce ⟨s.game, s.balance⟩ h,
        .sent 200 (s.marshalJSON box.toSecretbox nonce flag ++ [0x0a]))

theorem handled_httpError {log : Log} {f : Bytes → Option (Log × Answer)} (errMsg : Bytes)
    {code : Nat} (hcode : code ≠ 200) (hf : ∀ flag, f flag = some (log, httpError errMsg code)) :
    Handled box log f := by
  refine .inl ⟨_, fun body heq => hcode ?_, hf⟩
  injection heq

theorem encode_handled {log : Log} (h : log.Played) (hlen : log.issued.length + 1 < 2 ^ 52)
    (nonce : Option Nonce) {s : Session} (hs : Reachable s)
    (hbalance : s.balance ≤ 1000 + 1250 * (log.issued.length + 1)) :
    Handled box log fun flag => encode box flag log nonce s := by
  cases nonce with
  | none => exact handled_httpError box _ (by decide) fun _ => rfl
  | some nonce =>
    have hfits := hs.fits (by omega)
    exact .inr ⟨nonce, s, hfits, hs, h.add hs hbalance nonce hfits, fun flag => dif_pos hfits⟩

theorem apiHandler_handled {log : Log} (h : log.Played) (hlen : log.issued.length + 1 < 2 ^ 52)
    (r : HttpRequest) (random : Random) :
    Handled box log fun flag => apiHandler box flag log r random := by
  unfold apiHandler
  by_cases hmethod : r.Method ≠ word "POST"
  · exact handled_httpError box _ (by decide) fun flag => if_pos hmethod
  simp only [if_neg hmethod]
  cases hpath : (r.Path.splitOn 0x2f).drop 2 with
  | nil => exact encode_handled box h hlen random.nonce .new (by simp [newSession, amountPlayerStarts]; omega)
  | cons name path =>
    cases hbody : r.Body with
    | none => exact handled_httpError box _ (by decide) fun flag => rfl
    | some body =>
      cases hraw : unmarshalJSON (log.server box) body with
      | none => exact .inl ⟨.dropped, nofun, fun flag => by simp only [hraw]⟩
      | some result =>
        cases result with
        | error e =>
          exact handled_httpError box (word "Bad Request") (show 400 ≠ 200 by decide)
            fun flag => by simp only [hraw]
        | ok raw =>
          obtain ⟨nonce, ss, hissued, hgame, hbalance⟩ := unmarshalJSON_issued hraw
          obtain ⟨s, hs, hss⟩ := h.reachable _ hissued
          have hbound := h.balance _ hissued
          have hsession : Session.ofRaw raw = some { s with bet := raw.bet } := by
            dsimp only at hss
            rw [Session.ofRaw, hgame, hbalance, hss]
            simp [Game.ofRaw_raw]
          simp only [hraw, hsession]
          cases haction : actionOf name with
          | none => exact handled_httpError box _ (by decide) fun flag => rfl
          | some action =>
            -- the request is one on the session that was sealed
            have hsame : Cards.apiHandler { s with bet := raw.bet } ⟨action, raw.bet⟩
                random.shuffles = Cards.apiHandler s ⟨action, raw.bet⟩ random.shuffles := rfl
            have hserved := apiHandler_served s ⟨action, raw.bet⟩ random.shuffles
              (reachable_staked hs).dealt
            simp only [hsame]
            cases hreply : Cards.apiHandler s ⟨action, raw.bet⟩ random.shuffles with
            | none => exact .inl ⟨.dropped, nofun, fun flag => rfl⟩
            | some reply =>
              obtain ⟨_ | e, s', src'⟩ := reply
              · have hgain := hs.balance_le hreply
                rw [hss] at hbound
                dsimp only at hbound
                exact encode_handled box h hlen random.nonce (.answer hs hreply) (by omega)
              · exact handled_httpError box _ (by decide) fun flag => rfl

theorem apiHandler_suffix {log log' : Log} {r : HttpRequest} {random : Random} {a : Answer}
    (h : apiHandler box flag log r random = some (log', a)) : log.issued <:+ log'.issued := by
  have hencode {nonce : Option Nonce} {s : Session}
      (h : encode box flag log nonce s = some (log', a)) : log.issued <:+ log'.issued := by
    unfold encode at h
    split at h
    · cases h
      exact List.suffix_refl _
    · split at h
      · cases h
        exact List.suffix_cons _ _
      · cases h
  have hkept {answer : Answer} (h : some (log, answer) = some (log', a)) :
      log.issued <:+ log'.issued := by
    cases h
    exact List.suffix_refl _
  unfold apiHandler at h
  dsimp only at h
  repeat' split at h
  all_goals first
    | exact hencode h
    | exact hkept h
    | cases h

theorem run_suffix (requests : List (HttpRequest × Random)) {log log' : Log}
    {answers answers' : List Answer}
    (hrun : run (step box flag) requests (log, answers) = some (log', answers')) :
    log.issued <:+ log'.issued := by
  have hstep : ∀ (p : Log × List Answer) (q : HttpRequest × Random) (p' : Log × List Answer),
      log.issued <:+ p.1.issued → step box flag p q = some p' → log.issued <:+ p'.1.issued := by
    intro p q p' hsub hp
    obtain ⟨⟨log₁, a⟩, hhandler, rfl⟩ := Option.map_eq_some_iff.mp hp
    exact hsub.trans (apiHandler_suffix box flag hhandler)
  exact run_invariant hstep requests (s := (log, answers)) (List.suffix_refl _) hrun

/-- Every answer that is no error has a session that was played and sealed. -/
def Accounted (log : Log) (answers : List Answer) : Prop :=
  ∀ body, .sent 200 body ∈ answers → ∃ nonce s, Reachable s ∧
    (nonce, ⟨s.game, s.balance⟩) ∈ log.issued ∧
      body = s.marshalJSON box.toSecretbox nonce flag ++ [0x0a]

theorem run_played (requests : List (HttpRequest × Random)) {log : Log} {answers : List Answer}
    (h : log.Played) (hanswers : Accounted box flag log answers)
    (hlen : log.issued.length + requests.length < 2 ^ 52) :
    ∃ log' answers', run (step box flag) requests (log, answers) = some (log', answers') ∧
      log'.Played ∧ Accounted box flag log' answers' ∧
        answers'.length = answers.length + requests.length := by
  induction requests generalizing log answers with
  | nil => exact ⟨log, answers, rfl, h, hanswers, rfl⟩
  | cons q requests ih =>
    rw [List.length_cons] at hlen
    rw [run_cons, step]
    obtain ⟨a, ha, heq⟩ | ⟨nonce, s, hfits, hs, hplayed, heq⟩ :=
      apiHandler_handled box h (by omega) q.1 q.2
    · have hkept : Accounted box flag log (answers ++ [a]) := by
        intro body hbody
        apply (List.mem_append.mp hbody).elim (hanswers body)
        intro hnew
        exact absurd (List.mem_singleton.mp hnew).symm (ha body)
      obtain ⟨log', answers', hrun, hlog, hall, hcount⟩ := ih h hkept (by omega)
      refine ⟨log', answers', ?_, hlog, hall, ?_⟩
      · simpa only [heq flag, Option.map_some, Option.bind_some] using hrun
      · rw [hcount, List.length_append, List.length_singleton, List.length_cons]
        omega
    · have hkept : Accounted box flag (log.add nonce ⟨s.game, s.balance⟩ hfits)
          (answers ++ [.sent 200 (s.marshalJSON box.toSecretbox nonce flag ++ [0x0a])]) := by
        intro body hbody
        apply (List.mem_append.mp hbody).elim
        · intro hold
          obtain ⟨n, s', hs', hmem, hbody'⟩ := hanswers body hold
          exact ⟨n, s', hs', List.mem_cons_of_mem _ hmem, hbody'⟩
        · intro hnew
          cases List.mem_singleton.mp hnew
          exact ⟨nonce, s, hs, List.mem_cons_self, rfl⟩
      have hlen' : (log.add nonce ⟨s.game, s.balance⟩ hfits).issued.length =
          log.issued.length + 1 := rfl
      obtain ⟨log', answers', hrun, hlog, hall, hcount⟩ := ih hplayed hkept (by omega)
      refine ⟨log', answers', ?_, hlog, hall, ?_⟩
      · simpa only [heq flag, Option.map_some, Option.bind_some] using hrun
      · rw [hcount, List.length_append, List.length_singleton, List.length_cons]
        omega

/-- Whatever requests come in, in whatever order, below 2^52 of them: the server survives each; each
text that was sealed holds the game and the balance of a session that was played by the rules from a
new one; and each answer that is no error is such a session, with the text that was sealed for it. -/
theorem serve_played (requests : List (HttpRequest × Random)) (hlen : requests.length < 2 ^ 52) :
    ∃ log answers, serve box flag requests = some (log, answers) ∧
      answers.length = requests.length ∧
      (∀ p ∈ log.issued, ∃ s, Reachable s ∧ p.2 = ⟨s.game, s.balance⟩) ∧
      Accounted box flag log answers := by
  have hnone : Accounted box flag Log.empty [] := nofun
  obtain ⟨log, answers, hrun, hlog, hall, hcount⟩ :=
    run_played box flag requests Log.empty_played hnone (by simpa [Log.empty] using hlen)
  exact ⟨log, answers, hrun, by simpa using hcount, hlog.reachable, hall⟩

def sampleNonce (n : UInt8) : Nonce := Vector.replicate 24 n

/-- The session that an operation leads to with the cards as they are. -/
def sampleReply (s : Session) (b : Button) : Session :=
  ((Cards.apiHandler s b.request unshuffled).map fun reply => reply.2.1).getD s

theorem sampleReply_eq {s : Session} {b : Button}
    (h : (Cards.apiHandler s b.request unshuffled).map Prod.fst = some none) :
    ∃ src, Cards.apiHandler s b.request unshuffled = some (none, sampleReply s b, src) := by
  unfold sampleReply
  cases hreply : Cards.apiHandler s b.request unshuffled with
  | none => simp [hreply] at h
  | some reply =>
    obtain ⟨e, s', src⟩ := reply
    rw [hreply] at h
    cases h
    exact ⟨src, rfl⟩

/-- A button on the text of a session, and its answer. -/
theorem step_sample {log : Log} {answers : List Answer} (n n' : UInt8) {s : Session}
    (hissued : (sampleNonce n, ⟨s.game, s.balance⟩) ∈ log.issued) {b : Button} (hbet : b.Fits)
    (h : (Cards.apiHandler s b.request unshuffled).map Prod.fst = some none)
    (hfits : (⟨(sampleReply s b).game, (sampleReply s b).balance⟩ : SecretState).Fits) :
    step plainSealedBox flag (log, answers)
        (b.makeRequest (SecretState.marshalText plainBox (sampleNonce n) ⟨s.game, s.balance⟩),
          ⟨some (sampleNonce n'), unshuffled⟩) =
      some (log.add (sampleNonce n') _ hfits, answers ++
        [.sent 200 ((sampleReply s b).marshalJSON plainBox (sampleNonce n') flag ++ [0x0a])]) := by
  obtain ⟨src, hreply⟩ := sampleReply_eq h
  have hhandler := apiHandler_button plainSealedBox flag hissued b hbet
    ⟨some (sampleNonce n'), unshuffled⟩
  rw [hreply] at hhandler
  have hencode : encode plainSealedBox flag log (some (sampleNonce n')) (sampleReply s b) =
      some (log.add (sampleNonce n') _ hfits,
        .sent 200 ((sampleReply s b).marshalJSON plainBox (sampleNonce n') flag ++ [0x0a])) :=
    dif_pos hfits
  rw [Option.elim_some, Option.elim_none, hencode] at hhandler
  rw [step]
  dsimp only
  have hbox : plainSealedBox.toSecretbox = plainBox := rfl
  rw [← hbox, hhandler]
  rfl

def sampleDealt : Session := sampleReply newSession (.deal 10)

def sampleHit : Session := sampleReply sampleDealt .hit

theorem sampleDealt_fits : (⟨sampleDealt.game, sampleDealt.balance⟩ : SecretState).Fits := by
  decide +kernel

theorem sampleHit_fits : (⟨sampleHit.game, sampleHit.balance⟩ : SecretState).Fits := by
  decide +kernel

def sampleDeal : HttpRequest × Random :=
  ((Button.deal 10).makeRequest
    (SecretState.marshalText plainBox (sampleNonce 0) ⟨newSession.game, newSession.balance⟩),
    ⟨some (sampleNonce 1), unshuffled⟩)

def sampleCard : HttpRequest × Random :=
  (Button.hit.makeRequest
    (SecretState.marshalText plainBox (sampleNonce 1) ⟨sampleDealt.game, sampleDealt.balance⟩),
    ⟨some (sampleNonce 2), unshuffled⟩)

/-- A new session, a deal and a card, each with the text that was sealed before. -/
def sampleRequests : List (HttpRequest × Random) :=
  [(newRequest, ⟨some (sampleNonce 0), unshuffled⟩), sampleDeal, sampleCard]

def newLog : Log := Log.empty.add (sampleNonce 0) _ newSession_fits

def dealtLog : Log := newLog.add (sampleNonce 1) _ sampleDealt_fits

def sampleLog : Log := dealtLog.add (sampleNonce 2) _ sampleHit_fits

theorem serve_sample : ∃ answers,
    serve plainSealedBox flag sampleRequests = some (sampleLog, answers) := by
  obtain ⟨answers, hnew⟩ : ∃ answers, step plainSealedBox flag (Log.empty, [])
      (newRequest, ⟨some (sampleNonce 0), unshuffled⟩) = some (newLog, answers) := by
    rw [step, apiHandler_new]
    exact ⟨_, rfl⟩
  obtain ⟨answers', hdeal⟩ : ∃ answers', step plainSealedBox flag (newLog, answers) sampleDeal =
      some (dealtLog, answers') :=
    ⟨_, @step_sample flag newLog answers 0 1 newSession List.mem_cons_self (.deal 10)
      ⟨by decide, by decide⟩ (by decide +kernel) sampleDealt_fits⟩
  obtain ⟨last, hhit⟩ : ∃ last, step plainSealedBox flag (dealtLog, answers') sampleCard =
      some (sampleLog, last) :=
    ⟨_, @step_sample flag dealtLog answers' 1 2 sampleDealt List.mem_cons_self .hit
      ⟨by decide, by decide⟩ (by decide +kernel) sampleHit_fits⟩
  refine ⟨last, ?_⟩
  rw [serve, sampleRequests, run_cons, hnew, Option.bind_some, run_cons, hdeal, Option.bind_some,
    run_cons, hhit]
  rfl

theorem serve_played_sample : ∃ answers,
    serve plainSealedBox (word "CTF") sampleRequests = some (sampleLog, answers) ∧
      answers.length = 3 ∧ Accounted plainSealedBox (word "CTF") sampleLog answers := by
  obtain ⟨answers, hsample⟩ := serve_sample (word "CTF")
  obtain ⟨log, answers', hserve, hlen, -, hall⟩ :=
    serve_played plainSealedBox (word "CTF") sampleRequests (by decide)
  cases hsample.symm.trans hserve
  exact ⟨answers, hserve, hlen, hall⟩

theorem marshalJSON_flag {s : Session} (h : s.balance ≤ amountPlayerWins) (nonce : Nonce)
    (flag' : Bytes) :
    s.marshalJSON box.toSecretbox nonce flag = s.marshalJSON box.toSecretbox nonce flag' := by
  have hnot : ¬ s.balance > amountPlayerWins := not_lt.mpr h
  simp [Session.marshalJSON, Session.json, Session.fields, hnot]

theorem run_flag (flag' : Bytes) (requests : List (HttpRequest × Random)) {log log' : Log}
    {answers answers' : List Answer} (h : log.Played)
    (hlen : log.issued.length + requests.length < 2 ^ 52)
    (hrun : run (step box flag) requests (log, answers) = some (log', answers'))
    (hpoor : ∀ p ∈ log'.issued, p.2.balance ≤ amountPlayerWins) :
    run (step box flag') requests (log, answers) = some (log', answers') := by
  induction requests generalizing log answers with
  | nil =>
    rw [run_nil] at hrun ⊢
    exact hrun
  | cons q requests ih =>
    rw [List.length_cons] at hlen
    rw [run_cons, step] at hrun ⊢
    obtain ⟨a, ha, heq⟩ | ⟨nonce, s, hfits, hs, hplayed, heq⟩ :=
      apiHandler_handled box h (by omega) q.1 q.2
    · simp only [heq flag, heq flag', Option.map_some, Option.bind_some] at hrun ⊢
      exact ih h (by omega) hrun
    · simp only [heq flag, heq flag', Option.map_some, Option.bind_some] at hrun ⊢
      have hlen' : (log.add nonce ⟨s.game, s.balance⟩ hfits).issued.length =
          log.issued.length + 1 := rfl
      -- what this request seals is still in the log at the end
      have hs' : s.balance ≤ amountPlayerWins :=
        hpoor (nonce, ⟨s.game, s.balance⟩) ((run_suffix box flag requests hrun).subset List.mem_cons_self)
      rw [marshalJSON_flag box flag' hs' nonce flag]
      exact ih hplayed (by omega) hrun

/-- As long as nobody has more than `amountPlayerWins`, nothing that the server sends depends on the
flag, whatever requests come in. -/
theorem flag_to_winners (flag' : Bytes) (requests : List (HttpRequest × Random))
    (hlen : requests.length < 2 ^ 52) (log : Log) (answers : List Answer)
    (hserve : serve box flag requests = some (log, answers))
    (hpoor : ∀ p ∈ log.issued, p.2.balance ≤ amountPlayerWins) :
    serve box flag' requests = some (log, answers) :=
  run_flag box flag flag' requests Log.empty_played (by simpa [Log.empty] using hlen) hserve hpoor

/-- Nobody has won after a deal and a card. -/
theorem flag_to_winners_sample : ∃ answers,
    serve plainSealedBox (word "CTF") sampleRequests = some (sampleLog, answers) ∧
      serve plainSealedBox [] sampleRequests = some (sampleLog, answers) := by
  obtain ⟨answers, hserve⟩ := serve_sample (word "CTF")
  refine ⟨answers, hserve, flag_to_winners plainSealedBox (word "CTF") [] _ (by decide) _ _ hserve ?_⟩
  intro p hp
  simp only [sampleLog, dealtLog, newLog, Log.add, Log.empty, List.mem_cons, List.not_mem_nil,
    or_false] at hp
  obtain rfl | rfl | rfl := hp
  · decide +kernel
  · decide +kernel
  · decide

end Api

end CtfChallenges.Cards
