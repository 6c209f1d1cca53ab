import GalaLua.Library.Bytes
import GalaLua.Library.LuaNumber
import Mathlib.Data.List.DropRight

/-!
# Requests as the server reads them

`http:get_request` takes lines and a body off a socket and `HTTP` parses them.
The socket is the list of bytes that are still to come: a read that needs more
of them runs into its timeout. Patterns of Lua are written as the functions they
compute.
-/

namespace GalaLua.Http

open Library.Lua

-- ---------------------------------------------------------------------------
-- Strings
-- ---------------------------------------------------------------------------

/-- `string.trim`, the pattern `^%s*(.-)%s*$`. -/
def trim (s : Str) : Str := (s.dropWhile isspace).rdropWhile isspace

/-- `string.char(tonumber(h, 16))` of two digits. -/
def hexChar (a b : Char) : Char := Char.ofNat (16 * hexDigit a + hexDigit b)

def decodeURI : Str → Str
  | '%' :: a :: b :: s =>
    if isHex a && isHex b then hexChar a b :: decodeURI s else '%' :: decodeURI (a :: b :: s)
  | c :: s => c :: decodeURI s
  | [] => []

/-- `t[k] = v`, where `nil` takes the key out. -/
def assign {α : Type} (t : List (Str × α)) (k : Str) : Option α → List (Str × α)
  | some v => setKey t k v
  | none => t.filter (·.1 ≠ k)

-- ---------------------------------------------------------------------------
-- The socket
-- ---------------------------------------------------------------------------

/-- `recvLine`: up to the next newline and with it. -/
def recvLine (s : Str) : Option (Str × Str) :=
  if '\n' ∈ s then some (s.takeWhile (· ≠ '\n') ++ ['\n'], (s.dropWhile (· ≠ '\n')).drop 1) else none

/-- `recv`; the length is an `int` on its way to the controller and a `size_t` there. -/
def recv (len : Int) (s : Str) : Option (Str × Str) :=
  let len := Library.int32 len
  if 0 ≤ len ∧ len.toNat ≤ s.length then some (s.take len.toNat, s.drop len.toNat) else none

-- ---------------------------------------------------------------------------
-- HTTP
-- ---------------------------------------------------------------------------

/-- What a header field is after `parse_headers`. -/
inductive Field
  | text (s : Str)
  | list (items : List Str)
  | cookie (session : List (Str × Str))
  | contentType (type encode : Option Str)
  deriving DecidableEq

inductive Body
  | content (s : Str)
  | unpacked (fields : List (Str × Str))
  deriving DecidableEq

structure HTTP where
  params : List (Str × Str)
  method : Str
  uri : Str
  version : Str
  path : Option Str
  headers : List (Str × Field)
  body : Option Body
  deriving DecidableEq

/-- `^(/[^?]*)%??(.*)#?$`. -/
def matchUri : Str → Option (Str × Str)
  | '/' :: s => some ('/' :: s.takeWhile (· ≠ '?'), (s.dropWhile (· ≠ '?')).drop 1)
  | _ => none

/-- One `key=value` of the query. -/
def addParam (params : List (Str × Str)) (key : Str) : Res (List (Str × Str)) :=
  match split '=' key with
  | [] => .error "table index is nil"
  | k :: t => .ok (assign params k t.head?)

def parseUri (req : HTTP) : Res HTTP :=
  match matchUri req.uri with
  | none => .ok { req with path := none }
  | some (path, query) => do
    let params ← (split '&' query).foldlM addParam req.params
    .ok { req with path := some path, params := params }

def parseStartLine (line : Str) : Res HTTP :=
  match (split ' ' line).map trim with
  | [method, uri, version] =>
    parseUri { params := [], method := method, uri := uri, version := version, path := none, headers := [], body := none }
  | _ => .error "Invalid start line"

def parseAccept (key : Str) (headers : List (Str × Field)) : List (Str × Field) :=
  match headers.lookup key with
  | some (.text s) => setKey headers key (.list ((split ',' s).map trim))
  | _ => headers

/-- One `key=value` of a cookie. -/
def addCookie (session : List (Str × Str)) (k : Str) : Res (List (Str × Str)) :=
  match split '=' k with
  | key :: value :: _ => .ok (setKey session (trim key) (trim value))
  | _ => .error "attempt to index local 's' (a nil value)"

def cookieName : Str := "Cookie".toList

def parseCookie (headers : List (Str × Field)) : Res (List (Str × Field)) :=
  match headers.lookup cookieName with
  | some (.text s) => do
    let session ← (split ',' s).foldlM addCookie []
    .ok (setKey headers cookieName (.cookie session))
  | _ => .ok headers

def contentTypeName : Str := "Content-Type".toList

def parseContentType (headers : List (Str × Field)) : Res (List (Str × Field)) :=
  match headers.lookup contentTypeName with
  | some (.text s) =>
    match split ';' s with
    | [] => .error "Invalid Content-Type"
    | type :: t => .ok (setKey headers contentTypeName (.contentType (some (trim type)) (t.head?.map trim)))
  | _ => .ok (setKey headers contentTypeName (.contentType none none))

def acceptLanguage : Str := "Accept-Language".toList

def acceptEncoding : Str := "Accept-Encoding".toList

def parseHeaders (req : HTTP) (headers : List (Str × Str)) : Res HTTP := do
  let fields := parseAccept acceptEncoding (parseAccept acceptLanguage (headers.map fun h => (h.1, .text h.2)))
  let fields ← parseContentType (← parseCookie fields)
  .ok { req with headers := fields }

def formType : Str := "application/x-www-form-urlencoded".toList

/-- `^(.+)=(.*)$`: up to the last sign, with something in front of it. -/
def matchForm (k : Str) : Option (Str × Str) :=
  let key := (k.rdropWhile (· ≠ '=')).dropLast
  if key ≠ [] then some (key, k.rtakeWhile (· ≠ '=')) else none

/-- The unpacker of `application/x-www-form-urlencoded`. -/
def unpackForm (content : Str) : Res (List (Str × Str)) :=
  (split '&' content).foldlM (fun body k =>
    match matchForm k with
    | none => .error "bad argument #1 to 'gsub' (string expected, got nil)"
    | some (key, value) => .ok (setKey body key (decodeURI value))) []

def parseContent (req : HTTP) (content : Str) : Res HTTP :=
  match req.headers.lookup contentTypeName with
  | some (.contentType (some type) _) =>
    if type = formType then do .ok { req with body := some (.unpacked (← unpackForm content)) }
    else .ok { req with body := some (.content content) }
  | _ => .ok { req with body := some (.content content) }

-- ---------------------------------------------------------------------------
-- http
-- ---------------------------------------------------------------------------

/-- `^([^:]+):(.+)$`. -/
def matchHeader (line : Str) : Option (Str × Str) :=
  let key := line.takeWhile (· ≠ ':')
  let value := (line.dropWhile (· ≠ ':')).drop 1
  if key ≠ [] ∧ value ≠ [] then some (key, value) else none

def getStartLine (s : Str) : Res (Str × Str) :=
  match recvLine s with
  | none => .error "recv start line timeout"
  | some (line, s) => .ok (trim line, s)

/-- The loop over the header lines; every line has its newline, so there are no
more of them than bytes. -/
def getHeaders : Nat → List (Str × Str) → Str → Res (List (Str × Str) × Str)
  | 0, _, _ => .error "recv headers timeout"
  | n + 1, headers, s =>
    match recvLine s with
    | none => .error "recv headers timeout"
    | some (line, s) =>
      if trim line = [] then .ok (headers, s)
      else
        match matchHeader (trim line) with
        | none => .error "attempt to index local 'key' (a nil value)"
        | some (key, value) => getHeaders n (setKey headers (trim key) (trim value)) s

def contentLength : Str := "Content-Length".toList

/-- `parse_content` of what was received. -/
def parseReceived (req : HTTP) : Option (Str × Str) → Res (HTTP × Str)
  | none => .error "recv content timeout"
  | some (body, s) => (parseContent req body).map fun req => (req, s)

/-- The end of `get_request`: the body, if the header has its length. -/
def getBody (req : HTTP) (s : Str) : Res (HTTP × Str) :=
  match req.headers.lookup contentLength with
  | some (.text length) =>
    match tonumber length with
    | none => .error "bad argument #4 to 'int' (number expected, got nil)"
    | some n => parseReceived req (recv n.toInteger s)
  | _ => .ok (req, s)

/-- The request at the head of the stream and what is left of the stream. -/
def getRequest (s : Str) : Res (HTTP × Str) := do
  let (line, s) ← getStartLine s
  let req ← parseStartLine line
  let (headers, s) ← getHeaders s.length [] s
  getBody (← parseHeaders req headers) s

end GalaLua.Http
