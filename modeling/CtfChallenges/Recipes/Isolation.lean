import CtfChallenges.Framework.Run
import CtfChallenges.Recipes.Site

/-!
# Runs of the recipe server

The tables only grow, by rows that fit the others. A client that sends no cookies but its own sees the
recipes of those users only whose password it has given.
-/

namespace CtfChallenges.Recipes
open Framework

variable (site : Site)

/-! ## What a request does to the tables -/

/-- Keys are unique for the database, recipes are numbered below the next number, and each belongs to a user. -/
structure Sound (db : Database) : Prop where
  ids : (db.users.map fun u => site.collate u.ID).Nodup
  names : (db.users.map fun u => site.collate u.Username).Nodup
  numbers : (db.recipes.map Row.ID).Nodup
  below : ∀ r ∈ db.recipes, r.ID < db.autoIncrement
  owners : ∀ r ∈ db.recipes, ∃ u ∈ db.users, u.ID = r.Owner

theorem currentUser_mem {db : Database} {r : Request} {o : Outside} {u : User}
    (h : currentUser site db r o = some u) : u ∈ db.users := by
  unfold currentUser at h
  cases hcookie : r.cookie with
  | none => simp [hcookie, GetUserFromRequest] at h
  | some cookie =>
    rw [hcookie] at h
    obtain ⟨_, _, _, _, _, _, _, -, -, -, -, -, -, hid⟩ :=
      (GetUserFromRequest_iff _ _ _ _ cookie u).mp h
    exact (of_GetByID hid).1

/-- No two users have IDs that are the same for the database. -/
theorem Sound.eq_of_collate {db : Database} (h : Sound site db) {u v : User} (hu : u ∈ db.users)
    (hv : v ∈ db.users) (hid : site.collate u.ID = site.collate v.ID) : u = v :=
  List.inj_on_of_nodup_map h.ids hu hv hid

/-- A request leaves the tables, or adds the user that registers or a recipe of the user who sends it. -/
inductive Change (db : Database) (r : Request) (o : Outside) : Database → Prop
  | same : Change db r o db
  | user (u : User) (hu : u = NewUser site o (r.FormValue "username") (r.FormValue "password"))
    (hallowed : ¬ blockedUsername u.Username)
    (hfresh : ∀ v ∈ db.users, site.collate v.ID ≠ site.collate u.ID ∧
      site.collate v.Username ≠ site.collate u.Username) :
    Change db r o { db with users := db.users ++ [u] }
  | recipe (u : User) (hu : currentUser site db r o = some u) (rec : Row)
    (howner : rec.Owner = u.ID) (hnumber : rec.ID = db.autoIncrement) :
    Change db r o { db with
      recipes := db.recipes ++ [rec], autoIncrement := site.increment db.autoIncrement }

theorem insertUser_ok {db db' : Database} {o : Outside} {u : User}
    (h : insertUser site db o u = .ok db') :
    db' = { db with users := db.users ++ [u] } ∧
      ∀ v ∈ db.users, site.collate v.ID ≠ site.collate u.ID ∧
      site.collate v.Username ≠ site.collate u.Username := by
  unfold insertUser at h
  split at h
  · cases h
  split at h
  · cases h
  rename_i users hinsert
  cases h
  obtain ⟨rfl, hfresh⟩ := site.of_Insert hinsert
  exact ⟨rfl, fun v hv => ⟨hfresh User.ID (by simp) v hv, hfresh User.Username (by simp) v hv⟩⟩

theorem registerHandler_cases (db : Database) (r : Request) (o : Outside) :
    ((registerHandler site db r o).1 = db ∧ (registerHandler site db r o).2.cookie = none ∧
      ∀ url, (registerHandler site db r o).2.body ≠ .redirect url) ∨
    ∃ u, u = NewUser site o (r.FormValue "username") (r.FormValue "password") ∧
      ¬ blockedUsername u.Username ∧
      (∀ v ∈ db.users, site.collate v.ID ≠ site.collate u.ID ∧
      site.collate v.Username ≠ site.collate u.Username) ∧
      registerHandler site db r o =
        ({ db with users := db.users ++ [u] }, ⟨addCookieForUser site o u, .redirect "/"⟩) := by
  unfold registerHandler
  dsimp only
  split
  · exact .inl ⟨rfl, rfl, nofun⟩
  split
  · exact .inl ⟨rfl, rfl, nofun⟩
  split
  · exact .inl ⟨rfl, rfl, nofun⟩
  split
  · exact .inl ⟨rfl, rfl, nofun⟩
  rename_i hallowed _
  cases hinsert : insertUser site db o
      (NewUser site o (r.FormValue "username") (r.FormValue "password")) with
  | error number => exact .inl ⟨rfl, rfl, nofun⟩
  | ok db' =>
    obtain ⟨rfl, hfresh⟩ := insertUser_ok site hinsert
    exact .inr ⟨_, rfl, hallowed, hfresh, rfl⟩

theorem addRecipeHandler_owner (web : Web) (insert : Recipe → Option Int) (u : User)
    (r : AddRequest) : ∀ recipe ∈ (addRecipeHandler web insert u r).2.2, recipe.Owner = u.ID := by
  have hinsert (conns : List Conn) (recipe : Recipe) (howner : recipe.Owner = u.ID) :
      ∀ recipe' ∈ (insertRecipe insert conns recipe).2.2, recipe'.Owner = u.ID := by
    unfold insertRecipe
    cases insert recipe <;> simp [howner]
  unfold addRecipeHandler
  dsimp only
  split
  · simp
  split
  · simp
  split
  · simp
  split
  · simp
  split
  · exact hinsert _ _ rfl
  split
  · simp
  split
  · simp
  split
  · simp
  · exact hinsert _ _ rfl

theorem newHandler_change {db : Database} {r : Request} {o : Outside} {u : User}
    (hu : currentUser site db r o = some u) : Change site db r o (newHandler site db r o u).1 := by
  let form := fun name => utf8 (r.FormValue name)
  let result := addRecipeHandler o.web (returning db o) u
    ⟨r.Method, form "name", form "body", form "image_url"⟩
  have howner : ∀ recipe ∈ result.2.2, recipe.Owner = u.ID := addRecipeHandler_owner _ _ _ _
  have heq : (newHandler site db r o u).1 = inserted site db o result.2.2 := rfl
  rw [heq]
  cases hrecipe : result.2.2 with
  | none => exact .same
  | some recipe =>
    by_cases herror : o.insertError
    · simp only [inserted, returning, herror, if_true, Option.map_none, Option.bind_some]
      exact .same
    · simp only [inserted, returning, herror, Bool.false_eq_true, if_false, Option.map_some,
        Option.bind_some]
      exact .recipe u hu _ (howner recipe hrecipe) rfl

theorem of_addCookieForUser {o : Outside} {u : User} {cookie : Bytes}
    (h : addCookieForUser site o u = some cookie) :
    cookie = getSignedJWTForUser site.toIssuing u o.now := by
  unfold addCookieForUser at h
  dsimp only at h
  split at h
  · exact (Option.some.inj h).symm
  · cases h

theorem authenticated_cases (db : Database) (r : Request) (o : Outside) (f : User → Database × Body) :
    (currentUser site db r o = none ∧
      authenticated site db r o f = (db, ⟨none, .error "Not Authorized" 401⟩)) ∨
    ∃ u, currentUser site db r o = some u ∧
      authenticated site db r o f = ((f u).1, ⟨addCookieForUser site o u, (f u).2⟩) := by
  unfold authenticated
  cases currentUser site db r o with
  | none => exact .inl ⟨rfl, rfl⟩
  | some u => exact .inr ⟨u, rfl, rfl⟩

theorem loginHandler_cases (db : Database) (r : Request) (o : Outside) :
    (loginHandler site db r o).cookie = none ∨
    ∃ u, GetByUsername site db (r.FormValue "username") = some u ∧
      loginHandler site db r o = ⟨addCookieForUser site o u, .redirect "/"⟩ := by
  unfold loginHandler
  dsimp only
  split
  · exact .inl rfl
  split
  · exact .inl rfl
  cases GetByUsername site db (r.FormValue "username") with
  | none => exact .inl rfl
  | some u =>
    dsimp only
    split
    · exact .inl rfl
    · exact .inr ⟨u, rfl, rfl⟩

theorem authenticated_fst {db : Database} {r : Request} {o : Outside} {f : User → Database × Body}
    (h : ∀ u, currentUser site db r o = some u → Change site db r o (f u).1) :
    Change site db r o (authenticated site db r o f).1 := by
  obtain ⟨-, heq⟩ | ⟨u, hu, heq⟩ := authenticated_cases site db r o f
  · rw [heq]
    exact .same
  · rw [heq]
    exact h u hu

theorem serve_change (db : Database) (r : Request) (o : Outside) :
    Change site db r o (serve site db r o).1 := by
  unfold serve
  cases route r.Path with
  | recipes => exact authenticated_fst site fun _ _ => .same
  | recipe => exact authenticated_fst site fun _ _ => .same
  | new => exact authenticated_fst site fun _ hu => newHandler_change site hu
  | register =>
    obtain ⟨hsame, -⟩ | ⟨u, hu, hallowed, hfresh, heq⟩ := registerHandler_cases site db r o
    · dsimp only
      rw [hsame]
      exact .same
    · dsimp only
      rw [heq]
      exact .user u hu hallowed hfresh
  | _ => exact .same

theorem Change.sound {db db' : Database} {r : Request} {o : Outside} (h : Sound site db)
    (hchange : Change site db r o db') : Sound site db' := by
  cases hchange with
  | same => exact h
  | user u hu hallowed hfresh =>
    refine ⟨?_, ?_, h.numbers, h.below, fun rec hrec => ?_⟩
    · rw [List.map_append, List.nodup_append]
      refine ⟨h.ids, List.nodup_singleton _, fun id hid id' hid' => ?_⟩
      obtain ⟨v, hv, rfl⟩ := List.mem_map.mp hid
      rw [List.mem_singleton.mp hid']
      exact (hfresh v hv).1
    · rw [List.map_append, List.nodup_append]
      refine ⟨h.names, List.nodup_singleton _, fun name hname name' hname' => ?_⟩
      obtain ⟨v, hv, rfl⟩ := List.mem_map.mp hname
      rw [List.mem_singleton.mp hname']
      exact (hfresh v hv).2
    · obtain ⟨v, hv, hid⟩ := h.owners rec hrec
      exact ⟨v, List.mem_append_left _ hv, hid⟩
  | recipe u hu rec howner hnumber =>
    have hmem := currentUser_mem site hu
    refine ⟨h.ids, h.names, ?_, fun rec' hrec => ?_, fun rec' hrec => ?_⟩
    · rw [List.map_append, List.nodup_append]
      refine ⟨h.numbers, List.nodup_singleton _, fun id hid id' hid' => ?_⟩
      obtain ⟨rec', hrec', rfl⟩ := List.mem_map.mp hid
      have hlt := h.below rec' hrec'
      rw [List.mem_singleton.mp hid', hnumber]
      exact hlt.ne
    · dsimp only at hrec ⊢
      apply (List.mem_append.mp hrec).elim
      · intro hold
        have hlt := h.below rec' hold
        have hnext := site.lt_increment db.autoIncrement
        omega
      · intro hnew
        rw [List.mem_singleton.mp hnew, hnumber]
        exact site.lt_increment _
    · apply (List.mem_append.mp hrec).elim (h.owners rec')
      intro hnew
      exact ⟨u, hmem, by rw [List.mem_singleton.mp hnew, howner]⟩

/-- Rows are only added, and no new user has a name that is blocked. -/
structure Grows (db db' : Database) : Prop where
  users : ∃ new, db'.users = db.users ++ new ∧ ∀ u ∈ new, ¬ blockedUsername u.Username
  recipes : db.recipes <+: db'.recipes

theorem Grows.refl (db : Database) : Grows db db :=
  ⟨⟨[], (List.append_nil _).symm, nofun⟩, List.prefix_refl _⟩

theorem Change.grows {db₀ db db' : Database} {r : Request} {o : Outside} (h : Grows db₀ db)
    (hchange : Change site db r o db') : Grows db₀ db' := by
  cases hchange with
  | same => exact h
  | user u hu hallowed hfresh =>
    obtain ⟨new, hnew, hall⟩ := h.users
    refine ⟨⟨new ++ [u], by rw [hnew, List.append_assoc], ?_⟩, h.recipes⟩
    intro v hv
    apply (List.mem_append.mp hv).elim (hall v)
    intro hlast
    rw [List.mem_singleton.mp hlast]
    exact hallowed
  | recipe u hu rec howner hnumber =>
    exact ⟨h.users, h.recipes.trans (List.prefix_append _ _)⟩

/-- The tables after the requests. -/
def serveAll (db : Database) (rs : List (Request × Outside)) : Database :=
  rs.foldl (fun db q => (serve site db q.1 q.2).1) db

/-- Whatever requests come in: keys stay unique, every recipe has an owner, no row is ever changed or
removed, and nobody registers a name that is blocked. -/
theorem tables_sound {db : Database} (h : Sound site db) (rs : List (Request × Outside)) :
    Sound site (serveAll site db rs) ∧ Grows db (serveAll site db rs) := by
  have hrun : ∀ (rs : List (Request × Outside)) (db' : Database), Sound site db' → Grows db db' →
      Sound site (serveAll site db' rs) ∧ Grows db (serveAll site db' rs) := by
    intro rs
    induction rs with
    | nil => exact fun db' hsound hgrows => ⟨hsound, hgrows⟩
    | cons q rs ih =>
      intro db' hsound hgrows
      have hchange := serve_change site db' q.1 q.2
      exact ih _ (hchange.sound site hsound) (hchange.grows site hgrows)
  exact hrun rs db h (.refl db)

def sampleInsert {α : Type} (keys : List (α → String)) (rows : List α) (row : α) :
    Except Nat (List α) :=
  if keys.any fun key => rows.any fun old => sampleSQL.collate (key old) = sampleSQL.collate (key row)
  then .error duplicate else .ok (rows ++ [row])

theorem of_sampleInsert {α : Type} {keys : List (α → String)} {rows rows' : List α} {row : α}
    (h : sampleInsert keys rows row = .ok rows') : rows' = rows ++ [row] ∧
      ∀ key ∈ keys, ∀ old ∈ rows, sampleSQL.collate (key old) ≠ sampleSQL.collate (key row) := by
  unfold sampleInsert at h
  split at h
  · cases h
  rename_i hany
  cases h
  refine ⟨rfl, fun key hkey old hold heq => hany ?_⟩
  exact List.any_eq_true.mpr ⟨key, hkey, List.any_eq_true.mpr ⟨old, hold, decide_eq_true heq⟩⟩

/-- Passwords that are their own hashes. -/
def sampleSite : Site where
  toIssuing := sampleIssuing
  toMySQL := sampleSQL
  Insert := sampleInsert
  of_Insert := of_sampleInsert
  increment n := n + 1
  lt_increment n := Int.lt_succ n
  GenerateFromPassword _ pwd := some pwd
  CompareHashAndPassword hash pwd := hash == pwd
  compare_generated _ pwd hash h := by
    cases h
    exact beq_self_eq_true _

/-- Nothing can be fetched. -/
def sampleWeb : Web where
  URL := Unit
  parse _ := none
  string _ := []
  scheme _ := []
  host _ := []
  canonicalAddr _ := []
  resolveReference _ _ := none
  names := rebinding
  reuse _ := false
  dialer _ := firstAnswers
  respond _ _ _ := .error "no answer"

def sampleOutside : Outside where
  now := 1
  lookup := []
  uuid := "7"
  salt := []
  insertError := false
  web := sampleWeb

/-- A form with a name and a password. -/
def sampleForm (path username : String) : Request where
  Method := "POST"
  Path := path
  cookie := none
  FormValue name := if name = "username" then username else "secret"

theorem empty_sound (n : Int) : Sound site ⟨[], [], n⟩ :=
  ⟨List.nodup_nil, List.nodup_nil, List.nodup_nil, nofun, nofun⟩

theorem tables_sound_register : Sound sampleSite (serveAll sampleSite ⟨[], [], 1⟩
    [(sampleForm "/register" "admin", sampleOutside)]) :=
  (tables_sound sampleSite (empty_sound sampleSite 1) _).1

/-! ## Logging in -/

theorem GetByUsername_of_mem {db : Database} (h : Sound site db) {u : User} (hu : u ∈ db.users)
    {username : String} (hname : u.Username = username) : GetByUsername site db username = some u := by
  have hfound : (GetByUsername site db username).isSome :=
    site.One_isSome hu (decide_eq_true (by rw [hname]))
  obtain ⟨v, hv⟩ := Option.isSome_iff_exists.mp hfound
  obtain ⟨hmem, hcond⟩ := site.of_One hv
  have hsame : site.collate v.Username = site.collate u.Username := by
    rw [of_decide_eq_true hcond, hname]
  rw [hv, List.inj_on_of_nodup_map h.names hmem hu hsame]

/-- Who has registered can log in with the same name and password from then on, and is given the
user that was made. -/
theorem registered_login {db : Database} (h : Sound site db) (before after : List (Request × Outside))
    (q : Request × Outside) (hroute : route q.1.Path = .register) {url : String}
    (hdone : (serve site (serveAll site db before) q.1 q.2).2.body = .redirect url)
    {hash : String}
    (hhash : site.GenerateFromPassword q.2.salt (q.1.FormValue "password") = some hash)
    (r : Request) (hlogin : route r.Path = .login) (hpost : r.Method = "POST")
    (hname : r.FormValue "username" = q.1.FormValue "username")
    (hpassword : r.FormValue "password" = q.1.FormValue "password") (o : Outside) :
    (serve site (serveAll site db (before ++ q :: after)) r o).2 =
      ⟨addCookieForUser site o ⟨q.2.uuid, q.1.FormValue "username", hash⟩, .redirect "/"⟩ := by
  let db₁ := serveAll site db before
  obtain ⟨hsound, -⟩ := tables_sound site h before
  have hbody : (registerHandler site db₁ q.1 q.2).2.body = .redirect url := by
    rw [serve, hroute] at hdone
    exact hdone
  obtain ⟨-, -, hnot⟩ | ⟨u, hu, hallowed, hfresh, heq⟩ := registerHandler_cases site db₁ q.1 q.2
  · exact absurd hbody (hnot url)
  have hu' : u = ⟨q.2.uuid, q.1.FormValue "username", hash⟩ := by
    rw [hu, NewUser, hhash]
    rfl
  -- the user is there, and stays
  have hmem : u ∈ (serve site db₁ q.1 q.2).1.users := by
    have hserve : serve site db₁ q.1 q.2 = registerHandler site db₁ q.1 q.2 := by
      rw [serve, hroute]
    rw [hserve, heq]
    exact List.mem_append_right _ List.mem_cons_self
  have hall : serveAll site db (before ++ q :: after) =
      serveAll site (serve site db₁ q.1 q.2).1 after := by
    rw [serveAll, List.foldl_append]
    rfl
  obtain ⟨hsound', hgrows⟩ := tables_sound site ((serve_change site db₁ q.1 q.2).sound site hsound) after
  obtain ⟨new, hnew, -⟩ := hgrows.users
  have hlater : u ∈ (serveAll site db (before ++ q :: after)).users := by
    rw [hall, hnew]
    exact List.mem_append_left _ hmem
  rw [← hall] at hsound'
  have hfound := @GetByUsername_of_mem site _ hsound' _ hlater (r.FormValue "username")
    (by rw [hname, hu'])
  have hcompare : site.CompareHashAndPassword u.PWHash (r.FormValue "password") = true := by
    rw [hpassword, hu']
    exact site.compare_generated _ _ _ hhash
  have hserve : (serve site (serveAll site db (before ++ q :: after)) r o).2 =
      loginHandler site (serveAll site db (before ++ q :: after)) r o := by
    rw [serve, hlogin]
  rw [hserve, loginHandler, ← hu']
  simp [hpost, hfound, hcompare]

/-- Another user has come before, and one after it is refused for its name. -/
theorem registered_login_admin :
    (serve sampleSite (serveAll sampleSite ⟨[], [], 1⟩
        [(sampleForm "/register" "matir", { sampleOutside with uuid := "a6" }),
          (sampleForm "/register" "admin", sampleOutside),
          (sampleForm "/register" "Admin", { sampleOutside with uuid := "b5" })])
      (sampleForm "/login" "admin") sampleOutside).2 =
        ⟨addCookieForUser sampleSite sampleOutside ⟨"7", "admin", "secret"⟩, .redirect "/"⟩ :=
  @registered_login sampleSite _ (empty_sound sampleSite 1)
    [(sampleForm "/register" "matir", { sampleOutside with uuid := "a6" })]
    [(sampleForm "/register" "Admin", { sampleOutside with uuid := "b5" })]
    (sampleForm "/register" "admin", sampleOutside) rfl "/" rfl _ rfl (sampleForm "/login" "admin") rfl
    rfl rfl rfl sampleOutside

/-! ## Who sees a recipe -/

/-- The user that the request registers or logs in. -/
def entered (db : Database) (r : Request) (o : Outside) : Option User :=
  match route r.Path with
  | .register =>
    match (registerHandler site db r o).2.body with
    | .redirect _ => some (NewUser site o (r.FormValue "username") (r.FormValue "password"))
    | _ => none
  | .login =>
    match (loginHandler site db r o).body with
    | .redirect _ => GetByUsername site db (r.FormValue "username")
    | _ => none
  | _ => none

/-- The page has the recipe on it. -/
inductive Shows : Body → Row → Prop
  | recipes (u : User) (rs : List Row) (r : Row) (h : r ∈ rs) : Shows (.page (.recipes u rs)) r
  | recipe (u : User) (r : Row) : Shows (.page (.recipe u r)) r

/-- A cookie is set for the user who is authenticated or has entered now. -/
theorem serve_cookie {db : Database} {r : Request} {o : Outside} {cookie : Bytes}
    (h : (serve site db r o).2.cookie = some cookie) : cookie = [] ∨
      ∃ u, cookie = getSignedJWTForUser site.toIssuing u o.now ∧
        (currentUser site db r o = some u ∨ entered site db r o = some u) := by
  have hauth {f : User → Database × Body}
      (hcookie : (authenticated site db r o f).2.cookie = some cookie) :
      ∃ u, cookie = getSignedJWTForUser site.toIssuing u o.now ∧
        (currentUser site db r o = some u ∨ entered site db r o = some u) := by
    obtain ⟨-, heq⟩ | ⟨u, hu, heq⟩ := authenticated_cases site db r o f
    · rw [heq] at hcookie
      cases hcookie
    · rw [heq] at hcookie
      exact ⟨u, of_addCookieForUser site hcookie, .inl hu⟩
  unfold serve at h
  cases hroute : route r.Path with
  | home =>
    rw [hroute] at h
    obtain ⟨u, hu, hcookie⟩ := Option.bind_eq_some_iff.mp h
    exact .inr ⟨u, of_addCookieForUser site hcookie, .inl hu⟩
  | recipes =>
    rw [hroute] at h
    exact .inr (hauth h)
  | recipe =>
    rw [hroute] at h
    exact .inr (hauth h)
  | new =>
    rw [hroute] at h
    exact .inr (hauth h)
  | register =>
    rw [hroute] at h
    obtain ⟨-, hnone, -⟩ | ⟨u, hu, -, -, heq⟩ := registerHandler_cases site db r o
    · rw [hnone] at h
      cases h
    · rw [heq] at h
      refine .inr ⟨u, of_addCookieForUser site h, .inr ?_⟩
      simp [entered, hroute, heq, hu]
  | login =>
    rw [hroute] at h
    obtain hnone | ⟨u, hu, heq⟩ := loginHandler_cases site db r o
    · rw [hnone] at h
      cases h
    · rw [heq] at h
      refine .inr ⟨u, of_addCookieForUser site h, .inr ?_⟩
      simp [entered, hroute, heq, hu]
  | logout =>
    rw [hroute] at h
    cases h
    exact .inl rfl
  | users =>
    rw [hroute] at h
    cases h
  | static =>
    rw [hroute] at h
    cases h
  | slash =>
    rw [hroute] at h
    cases h

theorem ofPage_shows (u : User) (page : Page) (rec : Row) : ¬ Shows (.ofPage u page) rec := by
  intro h
  cases page <;> cases h

theorem GetRecipes_owner {db : Database} (hsound : Sound site db) {u : User} (hu : u ∈ db.users)
    {rec : Row} (h : rec ∈ GetRecipes site db u) : u.ID = rec.Owner := by
  obtain ⟨hrec, hcond⟩ := List.mem_filter.mp ((site.All_perm _ _).mem_iff.mp h)
  obtain ⟨v, hv, howner⟩ := hsound.owners rec hrec
  have hsame : site.collate v.ID = site.collate u.ID := by
    rw [howner]
    exact of_decide_eq_true hcond
  rw [← howner, hsound.eq_of_collate site hv hu hsame]

theorem serve_shows {db : Database} (hsound : Sound site db) {r : Request} {o : Outside} {rec : Row}
    (h : Shows (serve site db r o).2.body rec) :
    ∃ u, currentUser site db r o = some u ∧ u.ID = rec.Owner := by
  have hauth {f : User → Database × Body}
      (hshown : Shows (authenticated site db r o f).2.body rec)
      (hf : ∀ u ∈ db.users, Shows (f u).2 rec → u.ID = rec.Owner) :
      ∃ u, currentUser site db r o = some u ∧ u.ID = rec.Owner := by
    obtain ⟨-, heq⟩ | ⟨u, hu, heq⟩ := authenticated_cases site db r o f
    · rw [heq] at hshown
      cases hshown
    · rw [heq] at hshown
      exact ⟨u, hu, hf u (currentUser_mem site hu) hshown⟩
  unfold serve at h
  cases hroute : route r.Path with
  | recipes =>
    rw [hroute] at h
    apply hauth h
    intro u hu hshown
    cases hshown with
    | recipes _ _ _ hmem => exact GetRecipes_owner site hsound hu hmem
  | recipe =>
    rw [hroute] at h
    apply hauth h
    intro u _ hshown
    unfold getRecipeHandler at hshown
    split at hshown
    · cases hshown
    split at hshown
    · cases hshown
    split at hshown
    · cases hshown
    rename_i howner
    cases hshown
    exact (not_not.mp howner).symm
  | new =>
    rw [hroute] at h
    apply hauth h
    intro u _ hshown
    exact absurd hshown (ofPage_shows u _ rec)
  | home =>
    rw [hroute] at h
    simp only [withUser, homePageHandler] at h
    split at h
    · cases h
    · cases h
  | users =>
    rw [hroute] at h
    simp only [userListHandler] at h
    split at h
    · cases h
    · cases h
  | register =>
    rw [hroute] at h
    simp only [registerHandler] at h
    repeat' split at h
    all_goals cases h
  | login =>
    rw [hroute] at h
    simp only [loginHandler] at h
    repeat' split at h
    all_goals cases h
  | logout =>
    rw [hroute] at h
    cases h
  | static =>
    rw [hroute] at h
    cases h
  | slash =>
    rw [hroute] at h
    cases h

/-! ## Clients with their own cookies -/

structure Action where
  client : Nat
  request : Request
  outside : Outside

/-- The tables, the cookies that each client was given, and the users that it has entered as. -/
structure World where
  db : Database
  jar : List (Nat × Bytes)
  entered : List (Nat × String)

def step (w : World) (a : Action) : Option World :=
  let (db, response) := serve site w.db a.request a.outside
  some {
    db := db
    jar := (response.cookie.map fun cookie => (a.client, cookie)).toList ++ w.jar
    entered := ((entered site w.db a.request a.outside).map fun u => (a.client, u.ID)).toList ++
      w.entered }

/-- The cookie of the request is one that the client was given. -/
def Honest (w : World) (a : Action) : Prop :=
  ∀ cookie, a.request.cookie = some cookie → (a.client, cookie) ∈ w.jar

/-- The cookies are cleared ones, and tokens for users that the client has entered as. -/
def Earned (w : World) : Prop :=
  ∀ client cookie, (client, cookie) ∈ w.jar → cookie = [] ∨ ∃ u ∈ w.db.users, ∃ issued,
    Clock issued ∧ cookie = getSignedJWTForUser site.toIssuing u issued ∧
      (client, u.ID) ∈ w.entered

theorem GetUserFromRequest_nil (env : Env) (sql : MySQL) (users : List User) (now : Int) :
    GetUserFromRequest env sql users now (some []) = none := by
  cases hget : GetUserFromRequest env sql users now (some []) with
  | none => rfl
  | some u =>
    obtain ⟨_, _, _, _, _, _, _, hsegments, -⟩ :=
      (GetUserFromRequest_iff env sql users now [] u).mp hget
    cases hsegments.split

/-- A client with its own cookies is authenticated as a user that it has entered as. -/
theorem currentUser_entered {w : World} {a : Action} (hsound : Sound site w.db)
    (h : Earned site w) (honest : Honest w a) {u : User}
    (hu : currentUser site w.db a.request a.outside = some u) : (a.client, u.ID) ∈ w.entered := by
  have hmem := currentUser_mem site hu
  unfold currentUser at hu
  cases hcookie : a.request.cookie with
  | none => simp [hcookie, GetUserFromRequest] at hu
  | some cookie =>
    rw [hcookie] at hu
    obtain rfl | ⟨v, hv, issued, hclock, rfl, hentered⟩ := h a.client cookie (honest cookie hcookie)
    · rw [GetUserFromRequest_nil] at hu
      cases hu
    · rw [GetUserFromRequest_issued site.toIssuing site.toMySQL w.db.users v hclock] at hu
      split at hu
      · rw [hsound.eq_of_collate site hmem hv (of_GetByID hu).2]
        exact hentered
      · cases hu

theorem Change.users_subset {db db' : Database} {r : Request} {o : Outside}
    (h : Change site db r o db') : db.users ⊆ db'.users := by
  cases h with
  | same => exact List.Subset.refl _
  | user => exact List.subset_append_left _ _
  | recipe => exact List.Subset.refl _

theorem entered_mem {db : Database} {r : Request} {o : Outside} {u : User}
    (h : entered site db r o = some u) : u ∈ (serve site db r o).1.users := by
  unfold entered at h
  cases hroute : route r.Path with
  | register =>
    rw [hroute] at h
    obtain ⟨-, -, hnot⟩ | ⟨v, hv, -, -, heq⟩ := registerHandler_cases site db r o
    · dsimp only at h
      split at h
      · rename_i url hbody
        exact absurd hbody (hnot url)
      · cases h
    · rw [serve, hroute]
      simp only [heq, Option.some.injEq] at h ⊢
      rw [← h, ← hv]
      exact List.mem_append_right _ (List.mem_singleton_self v)
  | login =>
    rw [hroute] at h
    dsimp only at h
    split at h
    · rw [serve, hroute]
      exact (site.of_One h).1
    · cases h
  | _ => simp [hroute] at h

theorem step_earned (w : World) (a : Action) (w' : World)
    (ha : Honest w a ∧ Clock a.outside.now) (h : Sound site w.db ∧ Earned site w)
    (hstep : step site w a = some w') : Sound site w'.db ∧ Earned site w' := by
  cases hstep
  obtain ⟨hsound, hearned⟩ := h
  have hchange := serve_change site w.db a.request a.outside
  refine ⟨hchange.sound site hsound, ?_⟩
  intro client cookie hmem
  apply (List.mem_append.mp hmem).elim
  · intro hnew
    obtain ⟨c, hc, heq⟩ := Option.map_eq_some_iff.mp (Option.mem_toList.mp hnew)
    obtain ⟨hclient, hcookie⟩ := Prod.mk.inj heq
    rw [← hclient, ← hcookie]
    obtain hnil | ⟨u, hu, hwho⟩ := serve_cookie site hc
    · exact .inl hnil
    · right
      apply hwho.elim
      · intro hcurrent
        exact ⟨u, hchange.users_subset site (currentUser_mem site hcurrent), a.outside.now, ha.2, hu,
          List.mem_append_right _ (currentUser_entered site hsound hearned ha.1 hcurrent)⟩
      · intro hentered
        exact ⟨u, entered_mem site hentered, a.outside.now, ha.2, hu,
          List.mem_append_left _ (by simp [hentered])⟩
  · intro hold
    obtain hnil | ⟨u, hu, issued, hclock, heq, hentered⟩ := hearned client cookie hold
    · exact .inl hnil
    · exact .inr ⟨u, hchange.users_subset site hu, issued, hclock, heq,
        List.mem_append_right _ hentered⟩

/-- When every client sends only cookies that it was given, each recipe that a page shows to a client
belongs to a user that this client has registered or logged in as, before that. -/
theorem recipes_isolated {db : Database} (h : Sound site db) (actions : List Action)
    (honest : ∀ p ∈ visited (step site) actions ⟨db, [], []⟩, Honest p.1 p.2)
    (hclock : ∀ a ∈ actions, Clock a.outside.now) :
    ∀ p ∈ visited (step site) actions ⟨db, [], []⟩, ∀ rec,
      Shows (serve site p.1.db p.2.request p.2.outside).2.body rec →
        (p.2.client, rec.Owner) ∈ p.1.entered := by
  intro p hp rec hshown
  obtain ⟨js, hjs, hrun⟩ := exists_prefix_of_mem_visited hp
  have hprefix : js <+: actions := (List.prefix_append js [p.2]).trans hjs
  have hgood : ∀ q ∈ visited (step site) actions ⟨db, [], []⟩,
      Honest q.1 q.2 ∧ Clock q.2.outside.now := by
    intro q hq
    obtain ⟨is, his, -⟩ := exists_prefix_of_mem_visited hq
    exact ⟨honest q hq, hclock _ (his.subset (by simp))⟩
  obtain ⟨hsound, hearned⟩ : Sound site p.1.db ∧ Earned site p.1 :=
    run_invariant_of_visited (step_earned site) (s := ⟨db, [], []⟩)
      ⟨h, fun _ _ hmem => by cases hmem⟩ hgood hprefix hrun
  obtain ⟨u, hu, howner⟩ := serve_shows site hsound hshown
  rw [← howner]
  exact currentUser_entered site hsound hearned (honest p hp) hu

/-- The request comes with the cookie of the user. -/
def sampleRequest (Method Path : String) : Action where
  client := 0
  request := ⟨Method, Path, some (getSignedJWTForUser sampleIssuing sampleUser 1),
    fun name => if name = "image_url" then "" else "soup"⟩
  outside := sampleOutside

/-- A client registers, writes a recipe and opens its list, with the cookie that it was given. -/
def sampleVisit : List Action :=
  [⟨0, sampleForm "/register" "admin", sampleOutside⟩, sampleRequest "POST" "/recipe/new",
    sampleRequest "GET" "/recipes"]

def sampleRow : Row := ⟨⟨"7", utf8 "soup", utf8 "soup", []⟩, 1⟩

/-- The client has registered, and was given its cookie as often as told. -/
def sampleEntered (recipes : List Row) (n : Nat) : World where
  db := ⟨[⟨"7", "admin", "secret"⟩], recipes, recipes.length + 1⟩
  jar := List.replicate n (0, getSignedJWTForUser sampleIssuing sampleUser 1)
  entered := [(0, "7")]

theorem currentUser_sample (recipes : List Row) (n : Nat) (Method Path : String) :
    currentUser sampleSite (sampleEntered recipes n).db (sampleRequest Method Path).request
      sampleOutside = some ⟨"7", "admin", "secret"⟩ := by
  have hclock : Clock 1 := ⟨by decide, by decide⟩
  exact GetUserFromRequest_issued sampleIssuing sampleSQL _ sampleUser hclock 1

theorem serve_sample_new : serve sampleSite (sampleEntered [] 1).db
    (sampleRequest "POST" "/recipe/new").request sampleOutside =
      ((sampleEntered [sampleRow] 2).db,
        ⟨some (getSignedJWTForUser sampleIssuing sampleUser 1), .redirect "/recipe/1"⟩) := by
  have hroute : route (sampleRequest "POST" "/recipe/new").request.Path = .new := rfl
  rw [serve, hroute]
  simp only [authenticated, currentUser_sample]
  rfl

theorem step_sample_new : step sampleSite (sampleEntered [] 1) (sampleRequest "POST" "/recipe/new") =
    some (sampleEntered [sampleRow] 2) := by
  have hserve : serve sampleSite (sampleEntered [] 1).db (sampleRequest "POST" "/recipe/new").request
      (sampleRequest "POST" "/recipe/new").outside = _ := serve_sample_new
  rw [step, hserve]
  rfl

theorem visited_sampleVisit :
    visited (step sampleSite) sampleVisit ⟨⟨[], [], 1⟩, [], []⟩ =
      [(⟨⟨[], [], 1⟩, [], []⟩, ⟨0, sampleForm "/register" "admin", sampleOutside⟩),
        (sampleEntered [] 1, sampleRequest "POST" "/recipe/new"),
        (sampleEntered [sampleRow] 2, sampleRequest "GET" "/recipes")] := by
  have hregister : step sampleSite ⟨⟨[], [], 1⟩, [], []⟩
      ⟨0, sampleForm "/register" "admin", sampleOutside⟩ = some (sampleEntered [] 1) := rfl
  rw [sampleVisit, visited, hregister, Option.elim_some, visited, step_sample_new, Option.elim_some,
    visited]
  cases step sampleSite (sampleEntered [sampleRow] 2) (sampleRequest "GET" "/recipes") with
  | none => rfl
  | some w => rfl

theorem sample_shows : Shows (serve sampleSite (sampleEntered [sampleRow] 2).db
    (sampleRequest "GET" "/recipes").request sampleOutside).2.body sampleRow := by
  have hroute : route (sampleRequest "GET" "/recipes").request.Path = .recipes := rfl
  rw [serve, hroute]
  simp only [authenticated, currentUser_sample]
  exact .recipes _ _ _ (by decide)

theorem recipes_isolated_sample :
    Shows (serve sampleSite (sampleEntered [sampleRow] 2).db (sampleRequest "GET" "/recipes").request
        sampleOutside).2.body sampleRow ∧
      (0, sampleRow.Owner) ∈ (sampleEntered [sampleRow] 2).entered := by
  have hmem : (sampleEntered [sampleRow] 2, sampleRequest "GET" "/recipes") ∈
      visited (step sampleSite) sampleVisit ⟨⟨[], [], 1⟩, [], []⟩ := by
    simp [visited_sampleVisit]
  refine ⟨sample_shows, recipes_isolated sampleSite (empty_sound sampleSite 1) sampleVisit ?_ ?_
    _ hmem sampleRow sample_shows⟩
  · rw [visited_sampleVisit]
    intro p hp cookie hcookie
    simp only [List.mem_cons, List.not_mem_nil, or_false] at hp
    obtain rfl | rfl | rfl := hp
    · cases hcookie
    · cases hcookie
      exact List.mem_cons_self
    · cases hcookie
      exact List.mem_cons_self
  · intro a ha
    have hnow : a.outside.now = 1 := by
      simp only [sampleVisit, List.mem_cons, List.not_mem_nil, or_false] at ha
      obtain rfl | rfl | rfl := ha
      · rfl
      · rfl
      · rfl
    rw [hnow]
    exact ⟨by decide, by decide⟩

end CtfChallenges.Recipes
