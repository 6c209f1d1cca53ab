import GalaLua.Http.Request

/-!
# Requests as the client writes them

`Request:init` puts the header fields of a request together and `to_string`
writes it. `pairs` visits the fields in an order of its own, which is an argument
here.
-/

namespace GalaLua.Http

open Library.Lua

structure Request where
  httpHost : Str
  path : Str
  method : Str
  headers : List (Str × Str)
  data : Str
  deriving DecidableEq

def schema : Str := "http://".toList

/-- `_parse_uri`: the host and the path, unless an assertion fails. `isNumber` is
whether `tonumber` takes the port. -/
def Request.parseUri (isNumber : Str → Bool) (uri : Str) : Option (Str × Str) :=
  let uri := if schema <+: uri then uri.drop schema.length else uri
  let httpHost := uri.takeWhile (· ≠ '/')
  let path := uri.dropWhile (· ≠ '/')
  let port := (httpHost.dropWhile (· ≠ ':')).drop 1
  if httpHost = [] ∨ (':' ∈ httpHost ∧ isNumber port = false) then none
  else some (httpHost, if path = [] then ['/'] else path)

def addHeaders (headers fields : List (Str × Str)) : List (Str × Str) := setKeys headers fields

def post : Str := "POST".toList

/-- The fields every request has, before those of the caller. -/
def defaultHeaders (httpHost method : Str) : List (Str × Str) :=
  let headers := [("User-Agent".toList, "GLR/1.0".toList), ("Host".toList, httpHost),
    ("Connection".toList, "Keep-Alive".toList), ("Accept".toList, "*/*".toList)]
  if method = post then addHeaders headers [(contentTypeName, formType)] else headers

def Request.setData (r : Request) (data : Option Str) : Request :=
  let data := data.getD []
  { r with data := data, headers := addHeaders r.headers [(contentLength, tostring data.length)] }

def Request.init (isNumber : Str → Bool) (url : Str) (method : Option Str) (headers : List (Str × Str))
    (data : Option Str) : Option Request := do
  let (httpHost, path) ← Request.parseUri isNumber url
  let method := method.getD "GET".toList
  let r : Request := ⟨httpHost, path, method, addHeaders (defaultHeaders httpHost method) headers, []⟩
  some (r.setData data)

def version : Str := "HTTP/1.1".toList

def sep : Str := ['\r', '\n']

/-- `to_string`, with the header fields as `pairs` gives them. -/
def Request.toString (r : Request) (fields : List (Str × Str)) : Str :=
  let lines := [fmt r.method ++ ' ' :: (fmt r.path ++ ' ' :: fmt version)] ++
    fields.map (fun h => fmt h.1 ++ ':' :: ' ' :: fmt h.2) ++ [[], r.data]
  sep.intercalate lines

end GalaLua.Http
