import CtfChallenges.Framework.BaseCodec
import CtfChallenges.Framework.NetAddr
import CtfChallenges.Recipes.Auth

/-!
# The image fetch of the recipe server

`safenet.go` and the handler of `handlers.go` that uses it. A name is looked up twice for one
connection, by the check and by the dialer, so what the resolver answers depends on the moment.
There is no proxy in the environment of the server.
-/

namespace CtfChallenges.Recipes
open Framework NetAddr

inductive Network
  | tcp
  | tcp4
  | tcp6
deriving DecidableEq, Repr

/-- What the system knows about names of hosts and of services. -/
structure Names where
  resolve : Nat → Bytes → Option (List IP)
  lookupPort : Network → Bytes → Option Nat

/-- A literal is its own address at any moment. -/
def LookupIP (names : Names) (n : Nat) (host : Bytes) : Option (List IP) :=
  if host = [] then none
  else
    match parseIPZone host with
    | some ip => some [ip]
    | none => names.resolve n host

/-- The filter `ipv4only` or `ipv6only` of the network, if any. -/
def Network.suits : Network → IP → Bool
  | .tcp, _ => true
  | .tcp4, ip => ip.To4.isSome
  | .tcp6, ip => ip.length == IPv6len && ip.To4.isNone

/-- An address that can only be bound to gets the other wildcard for company. -/
def withCompany (ips : List IP) : List IP :=
  if ips.length = 1 ∧ ips.all (·.Equal IPv6unspecified) then ips ++ [IPv4zero] else ips

/-- The addresses that the dialer tries. -/
def internetAddrList (names : Names) (n : Nat) (network : Network) (address : Bytes) :
    Except String (List IP) :=
  match SplitHostPort address with
  | .error e => .error e
  | .ok (host, port) =>
    match names.lookupPort network port with
    | none => .error "unknown port"
    | some _ =>
      if host = [] then .ok [[]]
      else
        match LookupIP names n host with
        | none => .error "no such host"
        | some ips =>
          let ips := (withCompany ips).filter network.suits
          if ips = [] then .error "no suitable address found" else .ok ips

/-- Which of the addresses answers. -/
structure Dialer where
  connect : List IP → Option IP
  connect_mem : ∀ ips ip, connect ips = some ip → ip ∈ ips

/-- The system takes the wildcard for the loopback address. -/
def peerOf (ip : IP) : IP :=
  if ip = [] then IPv6loopback
  else if ip.Equal IPv4zero then IPv4 127 0 0 1
  else if ip.Equal IPv6unspecified then IPv6loopback
  else ip

/-- The peer of the connection. -/
def Dialer.DialContext (d : Dialer) (names : Names) (n : Nat) (network : Network)
    (address : Bytes) : Except String IP :=
  match internetAddrList names n network address with
  | .error e => .error e
  | .ok ips =>
    match d.connect ips with
    | none => .error "connection refused"
    | some ip => .ok (peerOf ip)

def ErrorBlockedHost : String := "Host Blocked By Policy"

def blockedNet : List IPNet := [
  ⟨(ParseIP (ascii "10.0.0.0")).getD [], CIDRMask 8 32⟩,
  ⟨(ParseIP (ascii "169.254.0.0")).getD [], CIDRMask 16 32⟩]

def isBadIP (ip : IP) : Bool := blockedNet.any fun n => n.Contains ip

/-- The check is made at the moment `n`, the call of the dialer comes after it. -/
def SafeDialContext (names : Names) (d : Dialer) (n : Nat) (network : Network) (address : Bytes) :
    Except String IP :=
  match SplitHostPort address with
  | .error e => .error e
  | .ok (host, _) =>
    match LookupIP names n host with
    | none => .error "no such host"
    | some ips =>
      if ips.any isBadIP then .error ErrorBlockedHost
      else d.DialContext names (n + 1) network address

structure Response where
  StatusCode : Nat
  Location : Bytes
  /-- What `ReadAll` makes of the body. -/
  Body : Except String Bytes

/-- The rest of the world: what the package `url` makes of texts, and for each request of a fetch
whether an idle connection can be used again, which address answers and what is answered. -/
structure Web where
  URL : Type
  parse : Bytes → Option URL
  string : URL → Bytes
  scheme : URL → Bytes
  host : URL → Bytes
  /-- The host in ASCII and the port, also when the URL does not give it. -/
  canonicalAddr : URL → Bytes
  /-- A `Location` header is relative to the URL of its request. -/
  resolveReference : URL → Bytes → Option URL
  names : Names
  reuse : Nat → Bool
  dialer : Nat → Dialer
  respond : Nat → IP → URL → Except String Response

/-- A connection of the transport and the moment of its check. -/
structure Conn where
  scheme : Bytes
  address : Bytes
  time : Nat
  peer : IP
deriving DecidableEq, Repr

def supported (scheme : Bytes) : Bool := scheme == ascii "http" || scheme == ascii "https"

/-- The connection that request `i` of a fetch uses. The check of the request is at the moment
`2 * i`. -/
def getConn (web : Web) (i : Nat) (idle : List Conn) (u : web.URL) : Except String Conn :=
  if !supported (web.scheme u) then .error "unsupported protocol scheme"
  else if web.host u = [] then .error "http: no Host in request URL"
  else
    let address := web.canonicalAddr u
    match idle.find? fun c => web.reuse i && c.scheme == web.scheme u && c.address == address with
    | some c => .ok c
    | none =>
      match SafeDialContext web.names (web.dialer i) (2 * i) .tcp address with
      | .error e => .error e
      | .ok peer => .ok ⟨web.scheme u, address, 2 * i, peer⟩

/-- Where to go next after a response to a `GET`. -/
def redirectBehavior (resp : Response) : Except String (Option Bytes) :=
  match resp.StatusCode with
  | 301 | 302 | 303 =>
    if resp.Location = [] then .error "response missing Location header" else .ok (some resp.Location)
  | 307 | 308 => .ok (if resp.Location = [] then none else some resp.Location)
  | _ => .ok none

/-- The loop of `Client.Do`, with the connections used, when `left` more requests are allowed. -/
def Do (web : Web) : Nat → Nat → List Conn → web.URL → List Conn × Except String Bytes
  | 0, _, _, _ => ([], .error "stopped after 10 redirects")
  | left + 1, i, idle, u =>
    match getConn web i idle u with
    | .error e => ([], .error e)
    | .ok c =>
      match web.respond i c.peer u with
      | .error e => ([c], .error e)
      | .ok resp =>
        match redirectBehavior resp with
        | .error e => ([c], .error e)
        | .ok none => ([c], resp.Body)
        | .ok (some loc) =>
          match web.resolveReference u loc with
          | none => ([c], .error "failed to parse Location header")
          | some u' =>
            let (conns, result) := Do web left (i + 1) (c :: idle) u'
            (c :: conns, result)

def getImageBytes (web : Web) (u : Bytes) : List Conn × Except String Bytes :=
  match web.parse u with
  | none => ([], .error "parse error")
  | some u => Do web 10 0 [] u

structure Recipe where
  Owner : String
  Name : Bytes
  Body : Bytes
  Image : Bytes
deriving DecidableEq, Repr

def User.NewRecipe (u : User) (name body : Bytes) : Recipe := ⟨u.ID, name, body, []⟩

def magicMap : List (Bytes × String) := [
  ([0x89, 0x50, 0x4e, 0x47, 0x0d, 0x0a, 0x1a, 0x0a], "image/png"),
  ([0xff, 0xd8, 0xff], "image/jpeg")]

def makeImageBlob (buf : Bytes) : Bytes :=
  let content_type := match magicMap.find? fun e => e.1.isPrefixOf buf with
    | some e => e.2
    | none => "application/octet-stream"
  ascii "data:" ++ ascii content_type ++ ascii ";base64," ++ BaseCodec.encode BaseCodec.b64 buf

structure AddRequest where
  Method : String
  name : Bytes
  body : Bytes
  image_url : Bytes

inductive Page
  /-- The template `add.html` with its error. -/
  | add (error : String)
  | Error (text : String) (code : Nat)
  | Redirect (url : String) (code : Nat)
deriving DecidableEq, Repr

/-- The end of the handler: the database gives the recipe a number. -/
def insertRecipe (insert : Recipe → Option Int) (conns : List Conn) (recipe : Recipe) :
    Page × List Conn × Option Recipe :=
  match insert recipe with
  | none => (.Error "Server Error" 500, conns, some recipe)
  | some id => (.Redirect ("/recipe/" ++ toString id) 302, conns, some recipe)

/-- The page, the connections of the fetch and the recipe handed to the database. -/
def addRecipeHandler (web : Web) (insert : Recipe → Option Int) (u : User) (r : AddRequest) :
    Page × List Conn × Option Recipe :=
  if r.Method = "GET" then (.add "", [], none)
  else if r.Method ≠ "POST" then (.Error "Not Allowed" 405, [], none)
  else if r.name = [] then (.add "Name is required.", [], none)
  else if r.body = [] then (.add "Recipe text is required.", [], none)
  else
    let recipe := u.NewRecipe r.name r.body
    if r.image_url = [] then insertRecipe insert [] recipe
    else
      match web.parse r.image_url with
      | none => (.add "Invalid image URL", [], none)
      | some imgu =>
        if !supported (web.scheme imgu) then (.add "Only http/https are supported.", [], none)
        else
          match getImageBytes web (web.string imgu) with
          | (conns, .error _) => (.add "Error retrieving image!", conns, none)
          | (conns, .ok imgBody) =>
            insertRecipe insert conns { recipe with Image := makeImageBlob imgBody }

/-- An address of 10.0.0.0/8 or 169.254.0.0/16, in either form. -/
def Blocked (ip : IP) : Prop :=
  ∃ a b c d, (ip = [a, b, c, d] ∨ ip = IPv4 a b c d) ∧ (a = 10 ∨ (a = 169 ∧ b = 254))

private theorem To4_octets {ip x : IP} (h : ip.To4 = some x) :
    ∃ a b c d, x = [a, b, c, d] ∧ (ip = [a, b, c, d] ∨ ip = IPv4 a b c d) := by
  obtain ⟨hlen, hip⟩ := IP.To4_eq_some_iff.mp h
  match x, hlen with
  | [a, b, c, d], _ => exact ⟨a, b, c, d, rfl, hip⟩

private theorem and_zero (a : UInt8) : a &&& 0 = 0 := UInt8.and_zero

private theorem and_ones (a : UInt8) : a &&& 0xff = a := UInt8.and_neg_one

theorem isBadIP_iff (ip : IP) : isBadIP ip = true ↔ Blocked ip := by
  have hten : networkNumberAndMask ⟨(ParseIP (ascii "10.0.0.0")).getD [], CIDRMask 8 32⟩ =
      some ([10, 0, 0, 0], [0xff, 0, 0, 0]) := by decide +kernel
  have hlocal : networkNumberAndMask ⟨(ParseIP (ascii "169.254.0.0")).getD [], CIDRMask 16 32⟩ =
      some ([169, 254, 0, 0], [0xff, 0xff, 0, 0]) := by decide +kernel
  have hany : isBadIP ip = true ↔ ∃ x, ip.To4 = some x ∧
      (List.zipWith (fun a b => a &&& b) [10, 0, 0, 0] [0xff, 0, 0, 0] =
          List.zipWith (fun a b => a &&& b) x [0xff, 0, 0, 0] ∨
        List.zipWith (fun a b => a &&& b) [169, 254, 0, 0] [0xff, 0xff, 0, 0] =
          List.zipWith (fun a b => a &&& b) x [0xff, 0xff, 0, 0]) := by
    simp only [isBadIP, blockedNet, List.any_cons, List.any_nil, Bool.or_false, Bool.or_eq_true,
      IPNet.Contains_iff hten rfl, IPNet.Contains_iff hlocal rfl, and_or_left, exists_or]
  rw [hany]
  constructor
  · rintro ⟨x, hx, hnet⟩
    obtain ⟨a, b, c, d, rfl, hip⟩ := To4_octets hx
    refine ⟨a, b, c, d, hip, ?_⟩
    simpa [and_zero, and_ones, eq_comm] using hnet
  · rintro ⟨a, b, c, d, hip, hnet⟩
    refine ⟨[a, b, c, d], IP.To4_eq_some_iff.mpr ⟨rfl, hip⟩, ?_⟩
    simpa [and_zero, and_ones, eq_comm] using hnet

private theorem not_blocked {ip : IP} (h : isBadIP ip = false) : ¬Blocked ip := by
  rw [← isBadIP_iff, h]
  exact Bool.false_ne_true

theorem blocked_peerOf (ip : IP) : Blocked (peerOf ip) ↔ Blocked ip := by
  constructor
  · intro h
    unfold peerOf at h
    split at h
    · exact absurd h (not_blocked (by decide +kernel))
    · split at h
      · exact absurd h (not_blocked (by decide +kernel))
      · split at h
        · exact absurd h (not_blocked (by decide +kernel))
        · exact h
  · intro h
    have hsame : peerOf ip = ip := by
      obtain ⟨a, b, c, d, rfl | rfl, rfl | ⟨rfl, rfl⟩⟩ := h <;> rfl
    rwa [hsame]

/-- Whenever the check passes, the answer that the dialer gets next has no blocked address of the
kind that the network asks for. -/
def Guarded (names : Names) (n : Nat) (network : Network) (address : Bytes) : Prop :=
  ∀ host port, SplitHostPort address = .ok (host, port) →
    (names.lookupPort network port).isSome = true →
      ∀ ips, LookupIP names n host = some ips → (∀ ip ∈ ips, ¬Blocked ip) →
        ∀ ips', LookupIP names (n + 1) host = some ips' →
          ∀ ip ∈ ips', network.suits ip = true → ¬Blocked ip

theorem SafeDialContext_ok_iff (names : Names) (d : Dialer) (n : Nat) (network : Network)
    (address : Bytes) (peer : IP) :
    SafeDialContext names d n network address = .ok peer ↔
      ∃ host port ips, SplitHostPort address = .ok (host, port) ∧
        LookupIP names n host = some ips ∧ (∀ ip ∈ ips, ¬Blocked ip) ∧
          ∃ tried ip, internetAddrList names (n + 1) network address = .ok tried ∧
            d.connect tried = some ip ∧ peer = peerOf ip := by
  unfold SafeDialContext
  constructor
  · intro h
    split at h
    · cases h
    · rename_i host port hsplit
      split at h
      · cases h
      · rename_i ips hips
        split at h
        · cases h
        · rename_i hgood
          have hclean : ∀ ip ∈ ips, ¬Blocked ip := by
            intro ip hip hblocked
            exact hgood (List.any_eq_true.mpr ⟨ip, hip, (isBadIP_iff ip).mpr hblocked⟩)
          unfold Dialer.DialContext at h
          split at h
          · cases h
          · rename_i tried htried
            split at h
            · cases h
            · rename_i ip hconnect
              cases h
              exact ⟨host, port, ips, hsplit, hips, hclean, tried, ip, htried, hconnect, rfl⟩
  · rintro ⟨host, port, ips, hsplit, hips, hclean, tried, ip, htried, hconnect, rfl⟩
    have hgood : ips.any isBadIP = false := by
      rw [List.any_eq_false]
      exact fun ip hip hbad => hclean ip hip ((isBadIP_iff ip).mp hbad)
    simp [hsplit, hips, hgood, Dialer.DialContext, htried, hconnect]

private theorem tried_blocked (names : Names) (n : Nat) (network : Network) {address : Bytes}
    {host port : Bytes} (hsplit : SplitHostPort address = .ok (host, port)) (hhost : host ≠ [])
    (ip : IP) (hblocked : Blocked ip) :
    (∃ tried, internetAddrList names n network address = .ok tried ∧ ip ∈ tried) ↔
      (names.lookupPort network port).isSome = true ∧
        ∃ ips, LookupIP names n host = some ips ∧ ip ∈ ips ∧ network.suits ip = true := by
  have hzero : ip ≠ IPv4zero := by
    rintro rfl
    exact not_blocked (by decide +kernel) hblocked
  simp only [internetAddrList, hsplit]
  cases names.lookupPort network port with
  | none => simp
  | some p =>
    cases LookupIP names n host with
    | none => simp [hhost]
    | some ips =>
      simp only [hhost, if_false, Option.isSome_some, true_and, Option.some.injEq, exists_eq_left']
      -- the address that is added is not a blocked one
      have hmem : ip ∈ withCompany ips ↔ ip ∈ ips := by
        unfold withCompany
        split
        · simp [hzero]
        · rfl
      rw [← hmem, ← List.mem_filter]
      split
      · rename_i hnil
        rw [hnil]
        simp
      · simp only [Except.ok.injEq, exists_eq_left']

/-- No dialer ends up at a blocked address exactly if the second answer is as good as the first. -/
theorem guarded_iff (names : Names) (n : Nat) (network : Network) (address : Bytes) :
    (∀ d peer, SafeDialContext names d n network address = .ok peer → ¬Blocked peer) ↔
      Guarded names n network address := by
  constructor
  · intro hsafe host port hsplit hport ips hips hclean ips' hips' ip hip hsuits hblocked
    have hhost : host ≠ [] := by
      rintro rfl
      cases hips
    obtain ⟨tried, htried, hmem⟩ := (tried_blocked names (n + 1) network hsplit hhost ip hblocked).mpr
      ⟨hport, ips', hips', hip, hsuits⟩
    -- this dialer finds only the blocked address alive
    let d : Dialer := ⟨fun l => if ip ∈ l then some ip else none, by
      intro l x hx
      split at hx
      · cases hx
        assumption
      · cases hx⟩
    have hdial : SafeDialContext names d n network address = .ok (peerOf ip) :=
      (SafeDialContext_ok_iff ..).mpr ⟨host, port, ips, hsplit, hips, hclean, tried, ip, htried,
        if_pos hmem, rfl⟩
    exact hsafe d _ hdial ((blocked_peerOf ip).mpr hblocked)
  · intro hguarded d peer hdial hblocked
    obtain ⟨host, port, ips, hsplit, hips, hclean, tried, ip, htried, hconnect, rfl⟩ :=
      (SafeDialContext_ok_iff ..).mp hdial
    rw [blocked_peerOf] at hblocked
    have hhost : host ≠ [] := by
      rintro rfl
      cases hips
    obtain ⟨hport, ips', hips', hip, hsuits⟩ :=
      (tried_blocked names (n + 1) network hsplit hhost ip hblocked).mp
        ⟨tried, htried, d.connect_mem _ _ hconnect⟩
    exact hguarded host port hsplit hport ips hips hclean ips' hips' ip hip hsuits hblocked

/-- A literal is no way around the check, in whatever form it is written. -/
theorem literal_guarded (names : Names) (n : Nat) (network : Network) {address host port : Bytes}
    (hsplit : SplitHostPort address = .ok (host, port)) {ip : IP} (hip : parseIPZone host = some ip) :
    Guarded names n network address := by
  intro host' port' hsplit' _ ips hips hclean ips' hips' x hx _
  rw [hsplit] at hsplit'
  cases hsplit'
  have hconst : LookupIP names n host = LookupIP names (n + 1) host := by
    simp only [LookupIP, hip]
  rw [hconst, hips'] at hips
  cases hips
  exact hclean x hx

/-- What `SafeDialContext` has returned. -/
def Conn.Opened (web : Web) (c : Conn) : Prop :=
  ∃ d, SafeDialContext web.names d c.time .tcp c.address = .ok c.peer

theorem getConn_opened {web : Web} {i : Nat} {idle : List Conn} {u : web.URL} {c : Conn}
    (hidle : ∀ c ∈ idle, c.Opened web) (h : getConn web i idle u = .ok c) : c.Opened web := by
  unfold getConn at h
  split at h
  · cases h
  · split at h
    · cases h
    · dsimp only at h
      split at h
      · rename_i hfind
        cases h
        exact hidle _ (List.mem_of_find?_eq_some hfind)
      · split at h
        · cases h
        · rename_i peer hdial
          cases h
          exact ⟨_, hdial⟩

/-- All connections of a fetch are from `SafeDialContext`, those of its redirects too. -/
theorem Do_opened {web : Web} (left : Nat) {i : Nat} {idle : List Conn} {u : web.URL}
    (hidle : ∀ c ∈ idle, c.Opened web) : ∀ c ∈ (Do web left i idle u).1, c.Opened web := by
  induction left generalizing i idle u with
  | zero => exact fun c hc => absurd hc List.not_mem_nil
  | succ left ih =>
    unfold Do
    cases hconn : getConn web i idle u with
    | error e => exact fun c hc => absurd hc List.not_mem_nil
    | ok c =>
      have hc : c.Opened web := getConn_opened hidle hconn
      have hidle' : ∀ c' ∈ c :: idle, c'.Opened web := List.forall_mem_cons.mpr ⟨hc, hidle⟩
      have hone : ∀ c' ∈ [c], c'.Opened web := List.forall_mem_singleton.mpr hc
      dsimp only
      cases web.respond i c.peer u with
      | error e => exact hone
      | ok resp =>
        dsimp only
        cases redirectBehavior resp with
        | error e => exact hone
        | ok next =>
          cases next with
          | none => exact hone
          | some loc =>
            dsimp only
            cases web.resolveReference u loc with
            | none => exact hone
            | some u' => exact List.forall_mem_cons.mpr ⟨hc, ih hidle'⟩

theorem addRecipeHandler_opened (web : Web) (insert : Recipe → Option Int) (u : User)
    (r : AddRequest) : ∀ c ∈ (addRecipeHandler web insert u r).2.1, c.Opened web := by
  have hnil : ∀ c ∈ ([] : List Conn), c.Opened web := fun c hc => absurd hc List.not_mem_nil
  have hfetch : ∀ u', ∀ c ∈ (getImageBytes web u').1, c.Opened web := by
    intro u'
    unfold getImageBytes
    split
    · exact hnil
    · exact Do_opened 10 hnil
  have hfinish : ∀ conns recipe, (∀ c ∈ conns, c.Opened web) →
      ∀ c ∈ (insertRecipe insert conns recipe).2.1, Conn.Opened web c := by
    intro conns recipe hconns
    unfold insertRecipe
    cases insert recipe <;> exact hconns
  unfold addRecipeHandler
  dsimp only
  split
  · exact hnil
  · split
    · exact hnil
    · split
      · exact hnil
      · split
        · exact hnil
        · split
          · exact hfinish [] _ hnil
          · split
            · exact hnil
            · split
              · exact hnil
              · rename_i imgu _ _
                have himage := hfetch (web.string imgu)
                split
                · rename_i hget
                  rwa [hget] at himage
                · rename_i hget
                  rw [hget] at himage
                  exact hfinish _ _ himage

/-- `SafeDialContext` keeps to the policy exactly under the guard, and no connection of a fetch that
was opened under it has a blocked peer. -/
theorem safe_dial_iff (web : Web) (n : Nat) (network : Network) (address : Bytes) :
    ((∀ d peer, SafeDialContext web.names d n network address = .ok peer → ¬Blocked peer) ↔
      Guarded web.names n network address) ∧
      ∀ insert u r, ∀ c ∈ (addRecipeHandler web insert u r).2.1,
        Guarded web.names c.time .tcp c.address → ¬Blocked c.peer := by
  refine ⟨guarded_iff web.names n network address, ?_⟩
  intro insert u r c hc hguarded
  obtain ⟨d, hdial⟩ := addRecipeHandler_opened web insert u r c hc
  exact (guarded_iff _ _ _ _).mpr hguarded d c.peer hdial

/-- A resolver that changes its mind after the first answer. -/
def rebinding : Names where
  resolve n _ := some [if n = 0 then IPv4 93 184 216 34 else IPv4 169 254 169 254]
  lookupPort _ port := (dtoi port).map Prod.fst

/-- The first address answers. -/
def firstAnswers : Dialer := ⟨List.head?, fun _ _ => List.mem_of_head?⟩

theorem rebound_dial :
    SafeDialContext rebinding firstAnswers 0 .tcp (ascii "rebind.example:80") =
      .ok (IPv4 169 254 169 254) ∧ Blocked (IPv4 169 254 169 254) :=
  ⟨by rfl, 169, 254, 169, 254, .inr rfl, .inr ⟨rfl, rfl⟩⟩

end CtfChallenges.Recipes
