import CtfChallenges.Framework.Strtol
import CtfChallenges.Recipes.Issue
import CtfChallenges.Recipes.Safenet

/-!
# The pages of the recipe server

The handlers over the two tables of the database. A request comes with what it meets outside of the
program: the time, the answers of the network and of the database, and random numbers.
-/

namespace CtfChallenges.Recipes
open Framework
open Strtol (Atoi)

/-- A recipe in its table, with the number that it has there. -/
structure Row extends Recipe where
  ID : Int
deriving DecidableEq

/-- The tables and the next number for a recipe. -/
structure Database where
  users : List User
  recipes : List Row
  autoIncrement : Int
deriving DecidableEq

/-- What the handlers use of other packages and of the database. -/
structure Site extends Issuing, MySQL where
  /-- The rows with another one, or the number of an error. No two rows are the same in a key. -/
  Insert {α : Type} : List (α → String) → List α → α → Except Nat (List α)
  of_Insert {α : Type} {keys : List (α → String)} {rows rows' : List α} {row : α} :
    Insert keys rows row = .ok rows' → rows' = rows ++ [row] ∧
      ∀ key ∈ keys, ∀ old ∈ rows, collate (key old) ≠ collate (key row)
  /-- The number that comes after the given one. -/
  increment : Int → Int
  lt_increment : ∀ n, n < increment n
  /-- `bcrypt.GenerateFromPassword` with its salt, and no value for an error. -/
  GenerateFromPassword : Bytes → String → Option String
  CompareHashAndPassword : String → String → Bool
  compare_generated : ∀ salt pwd hash, GenerateFromPassword salt pwd = some hash →
    CompareHashAndPassword hash pwd = true

structure Request where
  Method : String
  Path : String
  cookie : Option Bytes
  FormValue : String → String

structure Outside where
  now : Int
  /-- The addresses that the remote host is found to have. -/
  lookup : List String
  uuid : String
  salt : Bytes
  /-- The database cannot insert the row, whatever it is. -/
  insertError : Bool
  web : Web

inductive Template
  | index (user : Option User)
  | recipes (user : User) (recipes : List Row)
  | recipe (user : User) (recipe : Row)
  | add (user : User) (error : String)
  /-- It is sent with the status 401. -/
  | localhost
  | users (users : List User)
  | register (username error : String)
  | login (username error : String)

inductive Body
  | page (t : Template)
  | error (text : String) (code : Nat)
  | notFound
  | redirect (url : String)
  | file

/-- The cookie that is set, if any, is empty when it is cleared. -/
structure ResponseWriter where
  cookie : Option Bytes
  body : Body

def GetByUsername (site : Site) (db : Database) (username : String) : Option User :=
  site.One db.users fun u => site.collate u.Username = site.collate username

def GetRecipes (site : Site) (db : Database) (u : User) : List Row :=
  site.All db.recipes fun r => site.collate r.Owner = site.collate u.ID

def GetRecipeById (site : Site) (db : Database) (id : Int) : Option Row :=
  site.One db.recipes fun r => r.ID = id

def GetUserList (site : Site) (db : Database) : List User := site.All db.users fun _ => true

/-- A password that cannot be hashed leaves an empty hash. -/
def NewUser (site : Site) (o : Outside) (username pwd : String) : User where
  ID := o.uuid
  Username := username
  PWHash := (site.GenerateFromPassword o.salt pwd).getD ""

/-- The number of the error for a key that is there already. -/
def duplicate : Nat := 1062

/-- `Insert` of a user, or the number of the error. -/
def insertUser (site : Site) (db : Database) (o : Outside) (u : User) : Except Nat Database :=
  if o.insertError then .error 0
  else
    match site.Insert [User.ID, User.Username] db.users u with
    | .error number => .error number
    | .ok users => .ok { db with users := users }

/-- The number that `InsertReturning` fills in. -/
def returning (db : Database) (o : Outside) (_ : Recipe) : Option Int :=
  if o.insertError then none else some db.autoIncrement

/-- The tables after the insertion of a recipe, if there is one to insert. -/
def inserted (site : Site) (db : Database) (o : Outside) (recipe : Option Recipe) : Database :=
  match recipe.bind fun recipe => (returning db o recipe).map fun id => Row.mk recipe id with
  | none => db
  | some row => { db with
      recipes := db.recipes ++ [row], autoIncrement := site.increment db.autoIncrement }

section
variable (site : Site) (db : Database) (r : Request) (o : Outside)

def addCookieForUser (u : User) : Option Bytes :=
  let token := getSignedJWTForUser site.toIssuing u o.now
  if token ≠ [] then some token else none

def isFromLocalhost : Bool := o.lookup.any fun l => ["127.0.0.1", "::1"].contains l

def homePageHandler (u : Option User) : Body :=
  if r.Path ≠ "/" then .notFound else .page (.index u)

def recipeListHandler (u : User) : Body := .page (.recipes u (GetRecipes site db u))

/-- The route of the handler has eight characters. -/
def getRecipeHandler (u : User) : Body :=
  match Atoi (r.Path.toList.drop 8) with
  | none => .notFound
  | some rid =>
    match GetRecipeById site db rid with
    | none => .notFound
    | some rec =>
      if rec.Owner ≠ u.ID then .error "Not Authorized" 401 else .page (.recipe u rec)

def utf8 (s : String) : Bytes := s.toList.flatMap String.utf8EncodeChar

def Body.ofPage (u : User) : Page → Body
  | .add err => .page (.add u err)
  | .Error text code => .error text code
  | .Redirect url _ => .redirect url

/-- The handler of `/recipe/new` on the tables. -/
def newHandler (u : User) : Database × Body :=
  let form := fun name => utf8 (r.FormValue name)
  let (page, _, recipe) := addRecipeHandler o.web (returning db o) u
    ⟨r.Method, form "name", form "body", form "image_url"⟩
  (inserted site db o recipe, .ofPage u page)

def userListHandler : Body :=
  if !isFromLocalhost o then .page .localhost else .page (.users (GetUserList site db))

def blockedUsername (username : String) : Prop := "boudin".toList <:+: username.toList

instance (username : String) : Decidable (blockedUsername username) :=
  inferInstanceAs (Decidable (_ <:+: _))

def registerHandler : Database × ResponseWriter :=
  let username := r.FormValue "username"
  let password := r.FormValue "password"
  let failed (err : String) : Database × ResponseWriter := (db, ⟨none, .page (.register username err)⟩)
  if r.Method = "GET" then (db, ⟨none, .page (.register "" "")⟩)
  else if r.Method ≠ "POST" then (db, ⟨none, .error "Not Allowed" 405⟩)
  else if blockedUsername username then failed "Username not allowed!"
  else if password ≠ r.FormValue "password2" then failed "Passwords don't match."
  else
    let u := NewUser site o username password
    match insertUser site db o u with
    | .error number =>
      failed (if number = duplicate then "Username already exists." else "Unknown error")
    | .ok db => (db, ⟨addCookieForUser site o u, .redirect "/"⟩)

def loginHandler : ResponseWriter :=
  let username := r.FormValue "username"
  if r.Method = "GET" then ⟨none, .page (.login "" "")⟩
  else if r.Method ≠ "POST" then ⟨none, .error "Not Allowed" 405⟩
  else
    let failed : ResponseWriter := ⟨none, .page (.login username "Invalid username/password.")⟩
    match GetByUsername site db username with
    | none => failed
    | some u =>
      if !site.CompareHashAndPassword u.PWHash (r.FormValue "password") then failed
      else ⟨addCookieForUser site o u, .redirect "/"⟩

inductive Route
  | home
  | recipes
  | recipe
  | new
  | users
  | register
  | login
  | logout
  | static
  /-- The mux asks for the slash at the end. -/
  | slash
deriving DecidableEq, Repr

/-- A route that is the whole path comes first, then the longest that it begins with. -/
def route (path : String) : Route :=
  if path = "/recipes" then .recipes
  else if path = "/recipe/new" then .new
  else if path = "/users" then .users
  else if path = "/register" then .register
  else if path = "/login" then .login
  else if path = "/logout" then .logout
  else if path = "/recipe" ∨ path = "/static" then .slash
  else if "/recipe/".toList.isPrefixOf path.toList then .recipe
  else if "/static/".toList.isPrefixOf path.toList then .static
  else .home

def currentUser : Option User :=
  GetUserFromRequest site.toEnv site.toMySQL db.users o.now r.cookie

/-- `AuthenticatedHandlerFunc.ServeHTTP` -/
def authenticated (f : User → Database × Body) : Database × ResponseWriter :=
  match currentUser site db r o with
  | none => (db, ⟨none, .error "Not Authorized" 401⟩)
  | some user =>
    let (db, body) := f user
    (db, ⟨addCookieForUser site o user, body⟩)

/-- `HandlerFuncWithUser.ServeHTTP` -/
def withUser (f : Option User → Body) : ResponseWriter :=
  let user := currentUser site db r o
  ⟨user.bind (addCookieForUser site o), f user⟩

def serve : Database × ResponseWriter :=
  match route r.Path with
  | .home => (db, withUser site db r o (homePageHandler r))
  | .recipes => authenticated site db r o fun u => (db, recipeListHandler site db u)
  | .recipe => authenticated site db r o fun u => (db, getRecipeHandler site db r u)
  | .new => authenticated site db r o (newHandler site db r o)
  | .users => (db, ⟨none, userListHandler site db o⟩)
  | .register => registerHandler site db r o
  | .login => (db, loginHandler site db r o)
  | .logout => (db, ⟨some [], .redirect "/"⟩)
  | .static => (db, ⟨none, .file⟩)
  | .slash => (db, ⟨none, .redirect (r.Path ++ "/")⟩)

end

end CtfChallenges.Recipes
