import GalaLua.GalaDB.Links
import GalaLua.GalaDB.Table
import GalaLua.GalaDB.XPath
import GalaLua.Http.Chunked
import GalaLua.Http.Dates

/-!
# Web sessions

A session is a node under the root `session` of a GalaDB store, with a child for
each of its keys.
-/

namespace GalaLua.Frameworks.Sessions

open GalaDB Http Library.Lua

-- ---------------------------------------------------------------------------
-- Lua values
-- ---------------------------------------------------------------------------

/-- A table has its string keys. -/
inductive Value
  | nil
  | text (s : Str)
  | table (entries : List (Str × Value))
  | function

/-- `string`, with what `str_utils` adds. -/
def stringLibrary : List Str :=
  ["byte", "char", "dump", "find", "format", "gfind", "gmatch", "gsub", "len", "lower", "match", "rep", "reverse", "sub",
    "upper", "split", "contains", "trim"].map String.toList

/-- `cookie[k]` -/
def Value.index (k : Str) : Value → Res Value
  | .nil => .error "attempt to index local 'cookie' (a nil value)"
  | .text _ => .ok (if k ∈ stringLibrary then .function else .nil)
  | .table entries => .ok ((entries.lookup k).getD .nil)
  | .function => .error "attempt to index local 'cookie' (a function value)"

def texts (t : List (Str × Str)) : Value := .table (t.map fun e => (e.1, .text e.2))

def fieldValue : Field → Value
  | .text s => .text s
  -- a list has positions and no string keys
  | .list _ => .table []
  | .cookie session => texts session
  | .contentType type encode =>
    .table [("type".toList, type.elim .nil .text), ("encode".toList, encode.elim .nil .text)]

def bodyValue : Body → Value
  | .content s => .text s
  | .unpacked fields => texts fields

/-- What a request object has of its own. -/
def httpFields (req : HTTP) : List (Str × Value) :=
  [("params".toList, texts req.params),
    ("_body_unpacker".toList, .table [(formType, .function)]),
    ("uri".toList, .text req.uri),
    ("path".toList, req.path.elim .nil .text),
    ("query".toList, texts req.params),
    ("method".toList, .text req.method),
    ("version".toList, .text req.version),
    ("headers".toList, .table (req.headers.map fun h => (h.1, fieldValue h.2))),
    ("body".toList, req.body.elim .nil bodyValue)]

def httpMethods : List Str :=
  ["new", "init", "parse_uri", "parse_startLine", "parse_headers", "parse_accept", "parse_cookie", "parse_content_type",
    "parse_content"].map String.toList

/-- `request[k]` -/
def httpIndex (req : HTTP) (k : Str) : Value :=
  match (httpFields req).lookup k with
  | some v => v
  | none => if k ∈ httpMethods then .function else .nil

def setValue (fits : Str → Bool) (key v : Str) (db : Store) : Res Store :=
  addValue fits key v ((getValue db key).foldl (fun db v => db.del key (valueRecord v)) db)

-- ---------------------------------------------------------------------------
-- session, session_manager
-- ---------------------------------------------------------------------------

/-- `glr.time.now`, `os.time` and `os.date`. -/
structure Clock where
  now : Nat
  time : Int
  osDate : Int → Date

structure Manager where
  nodeId : Nat
  serial : Nat
  database : Store

structure Session where
  id : Str
  storage : Option Elem

def sessionRoot : Elem := ⟨"/session".toList, none, .regular, true⟩

def expiresKey : Str := "Expires".toList

def pathKey : Str := "Path".toList

def domainKey : Str := "Domain".toList

def sessionKey : Str := "sessionId".toList

def sessionPath : Str := "/".toList

def sessionDomain : Str := "127.0.0.1".toList

def sessionExpires : Int := 2592000

def Manager.generateSessionId (mgr : Manager) (now : Nat) : Str :=
  'G' :: (tostring mgr.nodeId ++ 'S' :: (tostring mgr.serial ++ 'T' :: tostring now))

def getSessionStorage (db : Store) (id : Str) : Res (Option Elem) :=
  (getChild db sessionRoot).map fun children => children.lookup id

def exist (db : Store) (id : Str) : Res Bool := (getSessionStorage db id).map Option.isSome

def getSessionRef (db : Store) (id : Str) : Res Session := (getSessionStorage db id).map fun storage => ⟨id, storage⟩

section Writing

variable (fits : Str → Bool)

/-- `session_node:add_node(k):add_value(v)` -/
def addField (key k v : Str) (db : Store) : Res Store := do
  addValue fits (join key k) v (← addNode fits key k db)

def Manager.createSession (clock : Clock) (mgr : Manager) : Res (Session × Manager) := do
  let id := mgr.generateSessionId clock.now
  let key := join sessionRoot.key id
  let db ← addNode fits sessionRoot.key id mgr.database
  let db ← addField fits key expiresKey (getDate clock.osDate clock.time sessionExpires) db
  let db ← addField fits key pathKey sessionPath db
  let db ← addField fits key domainKey sessionDomain db
  .ok (← getSessionRef db id, { mgr with serial := mgr.serial + 1, database := db })

variable (depth : Nat)

def Session.get (s : Session) (db : Store) (key : Str) : Res (Option Table) :=
  match s.storage with
  | none => .error "attempt to index field '_storage' (a nil value)"
  | some storage => do
    match (← getChild db storage).lookup key with
    | none => .ok none
    | some v => (toTable db false depth v).map some

/-- `remove`, then the new node; a string stands for every value that is no table. -/
def Session.set (s : Session) (key : Str) (value : Table) (db : Store) : Res Store :=
  match s.storage with
  | none => .error "attempt to index field '_storage' (a nil value)"
  | some storage => do
    match ← xpathPlain db sessionRoot depth storage key with
    | none => .error "attempt to index a nil value"
    | some old =>
      match remove depth old db with
      | (_, some err) => .error err
      | (db, none) =>
        let db ← addNode fits storage.key key db
        match value with
        | .leaf s => setValue fits (join storage.key key) s db
        | t => addTable fits (join storage.key key) t db

end Writing

/-- `is_expired`; `parse_date` takes what is missing for the string `nil`. -/
def isExpired (clock : Clock) (originExpire : Option Str) : Res Bool :=
  (diffDate (getDate clock.osDate clock.time 0) (originExpire.getD "nil".toList)).map fun t => 0 ≤ t

end GalaLua.Frameworks.Sessions
