import GalaLua.Frameworks.Sessions
import GalaLua.Http.Lines

/-!
# The context of a request

The id of a session goes to the client in a cookie, and `context:init` looks for it
in the next request under a name that a parsed request does not have, so that no
session is found again (`never_persists`).
-/

namespace GalaLua.Frameworks.Sessions

open GalaDB Http Library.Lua

variable (fits : Str → Bool) (depth : Nat)

-- ---------------------------------------------------------------------------
-- context
-- ---------------------------------------------------------------------------

structure Context where
  response : Response
  session : Option Session

def setCookieName : Str := "Set-Cookie".toList

/-- `string.format("sessionId=%s, Expires=%s,Path=%s, Domain=%s", ...)` -/
def cookieText (id expires path domain : Str) : Str :=
  (sessionKey ++ '=' :: fmt id) ++ ',' :: ((' ' :: (expiresKey ++ '=' :: fmt expires)) ++ ',' ::
    ((pathKey ++ '=' :: fmt path) ++ ',' :: (' ' :: (domainKey ++ '=' :: fmt domain))))

/-- `tostring` of what `get` returns; the address of a table is left out. -/
def tostringOf : Option Table → Str
  | some (.leaf s) => s
  | some _ => "table".toList
  | none => "nil".toList

def Session.cookie (s : Session) (db : Store) : Res Str := do
  let expires ← s.get depth db expiresKey
  let path ← s.get depth db pathKey
  let domain ← s.get depth db domainKey
  .ok (cookieText s.id (tostringOf expires) (tostringOf path) (tostringOf domain))

/-- `create_session` of the context. -/
def Context.createSession (clock : Clock) (c : Context) (mgr : Manager) : Res (Context × Manager) := do
  let (s, mgr) ← mgr.createSession fits clock
  let v ← s.cookie depth mgr.database
  .ok (⟨{ c.response with headers := setKey c.response.headers setCookieName v }, some s⟩, mgr)

/-- A context for a session with the id of the cookie. -/
def Context.resume (clock : Clock) (id : Str) (expires : Option Str) (mgr : Manager) : Res (Context × Manager) := do
  if ← exist mgr.database id then
    let s ← getSessionRef mgr.database id
    if ← isExpired clock expires then .ok (⟨Response.init, none⟩, mgr)
    else
      let db ← s.set fits depth expiresKey (.leaf (expires.getD "nil".toList)) mgr.database
      let v ← s.cookie depth db
      .ok (⟨{ Response.init with headers := setKey Response.init.headers setCookieName v }, some s⟩,
        { mgr with database := db })
  else .ok (⟨Response.init, none⟩, mgr)

def textOf : Value → Option Str
  | .text s => some s
  | _ => none

def Context.init (clock : Clock) (request : HTTP) (mgr : Manager) : Res (Context × Manager) := do
  let cookie :=
    match httpIndex request cookieName with
    | .nil => Value.text []
    | cookie => cookie
  match ← cookie.index sessionKey with
  | .text id => Context.resume fits depth clock id (textOf (← cookie.index expiresKey)) mgr
  -- without an id, or with one that is no name of a child
  | _ => .ok (⟨Response.init, none⟩, mgr)

-- ---------------------------------------------------------------------------
-- Requests of a session
-- ---------------------------------------------------------------------------

/-- A request, when it comes, and what is set in it. -/
structure Visit where
  clock : Clock
  request : HTTP
  sets : List (Str × Table)

/-- Every request finds the session, and every key reads as it was last set. -/
def Persists (id : Str) : Manager → List (Str × Table) → List Visit → Prop
  | _, _, [] => True
  | mgr, stored, v :: vs =>
    ∃ c mgr' s db, Context.init fits depth v.clock v.request mgr = .ok (c, mgr') ∧ c.session = some s ∧ s.id = id ∧
      v.sets.foldlM (fun db e => s.set fits depth e.1 e.2 db) mgr'.database = .ok db ∧
      (∀ k t, (addAll stored v.sets).lookup k = some t → ∃ t', s.get depth db k = .ok (some t') ∧ t'.normal = t.normal) ∧
      Persists id { mgr' with database := db } (addAll stored v.sets) vs
where
  addAll (stored sets : List (Str × Table)) : List (Str × Table) := sets.foldl (fun t e => setKey t e.1 e.2) stored

theorem httpIndex_cookie (request : HTTP) : httpIndex request cookieName = .nil := by
  rfl

theorem init_no_session (clock : Clock) (request : HTTP) (mgr : Manager) :
    Context.init fits depth clock request mgr = .ok (⟨Response.init, none⟩, mgr) := by
  rw [Context.init, httpIndex_cookie]
  rfl

/-- Whatever the next request is, it does not find the session. -/
theorem never_persists (id : Str) (mgr : Manager) (stored : List (Str × Table)) (v : Visit) (vs : List Visit) :
    ¬ Persists fits depth id mgr stored (v :: vs) := by
  rintro ⟨c, mgr', s, db, hinit, hsession, -⟩
  rw [init_no_session] at hinit
  cases hinit
  cases hsession

-- ---------------------------------------------------------------------------
-- A session that is asked for a second later
-- ---------------------------------------------------------------------------

/-- The 27th of July, and the 26th of August from thirty days later on. -/
def clockA (now : Int) : Clock :=
  ⟨1000, now, fun t => if t < 2000000 then ⟨2014, 6, 26, 0, 9, 59, 44⟩ else ⟨2014, 7, 25, 2, 9, 59, 44⟩⟩

def expiresA : Str := "Tues. 26 Aug 2014 09:59:44 GMT".toList

def idA : Str := "G1S0T1000".toList

def cookieA : Str := "sessionId=G1S0T1000, Expires=Tues. 26 Aug 2014 09:59:44 GMT,Path=/, Domain=127.0.0.1".toList

def managerA : Manager := ⟨1, 0, .empty⟩

def createdA : Res (Context × Manager) := Context.createSession (fun _ => true) 1 (clockA 0) ⟨Response.init, none⟩ managerA

theorem createdA_ok : createdA.map (fun r => (r.1.session.map Session.id, r.1.response.headers.lookup setCookieName)) =
    .ok (some idA, some cookieA) := by
  decide +kernel

def requestA : Str := "GET / HTTP/1.1".toList ++ sep ++ headerLine (cookieName, cookieA) ++ sep ++ sep

/-- The cookie of a new session comes back a second later, and the session is not found. -/
theorem cookie_not_found : ∃ c mgr req, createdA = .ok (c, mgr) ∧ c.session.map Session.id = some idA ∧
    c.response.headers.lookup setCookieName = some cookieA ∧ getRequest requestA = .ok (req, []) ∧
    isExpired (clockA 1) (some expiresA) = .ok false ∧
    ¬ Persists (fun _ => true) 1 idA mgr [] [⟨clockA 1, req, []⟩] := by
  have hrequest : (getRequest requestA).map Prod.snd = .ok [] := by decide +kernel
  obtain ⟨⟨c, mgr⟩, hcreated, hc⟩ := map_eq_ok createdA_ok
  obtain ⟨⟨req, rest⟩, hreq, rfl⟩ := map_eq_ok hrequest
  obtain ⟨hid, hcookie⟩ := Prod.mk.inj hc
  refine ⟨c, mgr, req, hcreated, hid, hcookie, hreq, by decide, ?_⟩
  rintro ⟨c', mgr', s, db, hinit, hsession, -⟩
  rw [init_no_session] at hinit
  cases hinit
  cases hsession

end GalaLua.Frameworks.Sessions
