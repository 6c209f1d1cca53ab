import GalaLua.Http.Lines
import GalaLua.Http.Query

/-!
# Requests on a connection

The server reads back the requests that the client writes on one connection, one
by one and with nothing left over, exactly when all of them are `Carried`
(`transport_iff`): among others, no header field is empty.
-/

namespace GalaLua.Http

open Library Library.Lua

-- ---------------------------------------------------------------------------
-- What is sent and what is to arrive
-- ---------------------------------------------------------------------------

/-- A property of the characters of a string is looked up in the string. -/
instance (priority := 2000) decidableAllChars {p : Char → Prop} [DecidablePred p] (s : Str) : Decidable (∀ c ∈ s, p c) :=
  List.decidableBAll p s

/-- A request and the order in which `pairs` gives its fields. -/
structure Sent where
  request : Request
  fields : List (Str × Str)

def Sent.bytes (x : Sent) : Str := x.request.toString x.fields

/-- The fields that `parse_headers` splits further. -/
def special : List Str := [acceptLanguage, acceptEncoding, cookieName, contentTypeName]

/-- `Request:init` made the request of fields that are `Plain`. -/
def Sent.Proper (x : Sent) : Prop :=
  ∃ isNumber url method headers data, Request.init isNumber url method headers data = some x.request ∧
    (∀ h ∈ headers, Plain h ∧ h.1 ∉ special) ∧
    trim x.request.httpHost = x.request.httpHost ∧ '\n' ∉ x.request.httpHost ∧
    (∀ c ∈ x.request.path, isspace c = false) ∧ x.fields.Perm x.request.headers

/-- The request that was read is the one that was written; the body is compared
unless its content type has an unpacker. -/
structure Same (r : Request) (req : HTTP) : Prop where
  method : req.method = r.method
  uri : req.uri = r.path
  headers : ∀ k, k ∉ special → req.headers.lookup k = (r.headers.lookup k).map .text
  body : (∀ encode, req.headers.lookup contentTypeName ≠ some (.contentType (some formType) encode)) →
    req.body = some (.content r.data)

/-- `n` calls of `get_request`. -/
def getRequests : Nat → Str → Res (List HTTP × Str)
  | 0, s => .ok ([], s)
  | n + 1, s => do
    let (req, s) ← getRequest s
    let (reqs, s) ← getRequests n s
    .ok (req :: reqs, s)

/-- The request is read, and exactly what follows it is still to be read. -/
def Arrives (x : Sent) (rest : Str) : Prop :=
  ∃ req, getRequest (x.bytes ++ rest) = .ok (req, rest) ∧ Same x.request req

def Recovered : List Sent → Str → Prop
  | [], _ => True
  | x :: xs, rest => Arrives x (xs.flatMap Sent.bytes ++ rest) ∧ Recovered xs rest

def query (path : Str) : Str := (path.dropWhile (· ≠ '?')).drop 1

/-- What the server can read. -/
structure Carried (r : Request) : Prop where
  /-- a word, also inside no newline -/
  token : Token r.method
  /-- `string.format` cuts nothing -/
  clean : Clean r.method ∧ Clean r.path ∧ ∀ h ∈ r.headers, Clean h.1 ∧ Clean h.2
  /-- no empty piece in the query but at its ends, and none that is a mere sign -/
  params : ∀ k ∈ split '&' (query r.path), split '=' k ≠ []
  fields : ∀ h ∈ r.headers, h.1 ≠ [] ∧ h.2 ≠ []
  size : r.data.length < 2 ^ 31
  /-- a form has a name and a sign in all its pieces -/
  form : r.method = post → ∀ k ∈ split '&' r.data, (matchForm k).isSome

-- ---------------------------------------------------------------------------
-- What `Request:init` makes
-- ---------------------------------------------------------------------------

variable {k v s rest : Str} {t fields headers : List (Str × Str)} {x : Sent} {r : Request} {req req' : HTTP}

/-- The parts of a proper request. -/
structure Built (x : Sent) : Prop where
  path : ∃ p, x.request.path = '/' :: p
  blank : ∀ c ∈ x.request.path, isspace c = false
  plain : ∀ h ∈ x.fields, Plain h
  nodup : (x.fields.map Prod.fst).Nodup
  lookup : ∀ k v, (k, v) ∈ x.fields ↔ x.request.headers.lookup k = some v
  perm : x.fields.Perm x.request.headers
  length : x.request.headers.lookup contentLength = some (tostring x.request.data.length)
  accept : x.request.headers.lookup acceptLanguage = none ∧ x.request.headers.lookup acceptEncoding = none ∧
    x.request.headers.lookup cookieName = none
  type : x.request.headers.lookup contentTypeName = if x.request.method = post then some formType else none

theorem parseUri_path {isNumber : Str → Bool} {url httpHost path : Str}
    (h : Request.parseUri isNumber url = some (httpHost, path)) : ∃ p, path = '/' :: p := by
  rw [Request.parseUri] at h
  generalize (if schema <+: url then url.drop schema.length else url) = uri at h
  split at h
  · cases h
  · simp only [Option.some.injEq, Prod.mk.injEq] at h
    obtain ⟨-, rfl⟩ := h
    split
    · exact ⟨[], rfl⟩
    · next hne =>
      obtain ⟨c, p, hp⟩ := List.exists_cons_of_ne_nil hne
      have hc : c = '/' := by simpa using head_dropWhile hp
      exact ⟨p, by rw [hp, hc]⟩

theorem plain_tostring (n : Nat) : Plain (contentLength, tostring n) := by
  have hdigit : ∀ c ∈ tostring n, isspace c = false := by
    intro c hc
    have := isDigit_tostring hc
    by_contra hs
    simp only [isspace, Bool.not_eq_false, Bool.or_eq_true, decide_eq_true_eq] at hs
    rcases hs with ((((rfl | rfl) | rfl) | rfl) | rfl) | rfl <;> exact absurd this (by decide)
  refine ⟨?_, trim_of_noBlank hdigit, fun hc => absurd (hdigit _ hc) (by decide)⟩
  show ∀ c ∈ contentLength, c ≠ ':' ∧ isspace c = false
  decide

def baseHeaders (httpHost : Str) : List (Str × Str) :=
  [("User-Agent".toList, "GLR/1.0".toList), ("Host".toList, httpHost),
    ("Connection".toList, "Keep-Alive".toList), ("Accept".toList, "*/*".toList)]

theorem defaultHeaders_eq (httpHost method : Str) : defaultHeaders httpHost method =
    baseHeaders httpHost ++ if method = post then [(contentTypeName, formType)] else [] := by
  simp only [defaultHeaders]
  split
  · rfl
  · exact (List.append_nil _).symm

theorem plain_defaultHeaders {httpHost method : Str} (htrim : trim httpHost = httpHost) (hline : '\n' ∉ httpHost)
    {h : Str × Str} (hmem : h ∈ defaultHeaders httpHost method) : Plain h := by
  have hhost : ∀ c ∈ "Host".toList, c ≠ ':' ∧ isspace c = false := by decide
  have hbase : ∀ h ∈ baseHeaders httpHost, Plain h := by
    simp only [baseHeaders, List.forall_mem_cons]
    refine ⟨⟨?_, ?_, ?_⟩, ⟨hhost, htrim, hline⟩, ⟨?_, ?_, ?_⟩, ⟨?_, ?_, ?_⟩, by simp⟩ <;> decide
  rw [defaultHeaders_eq] at hmem
  rcases List.mem_append.mp hmem with hmem | hmem
  · exact hbase h hmem
  · split at hmem
    · rw [List.mem_singleton.mp hmem]
      refine ⟨?_, ?_, ?_⟩ <;> decide
    · exact absurd hmem List.not_mem_nil

theorem nodup_defaultHeaders (httpHost method : Str) : ((defaultHeaders httpHost method).map Prod.fst).Nodup := by
  rw [defaultHeaders_eq, List.map_append]
  have hkeys : (baseHeaders httpHost).map Prod.fst =
      ["User-Agent".toList, "Host".toList, "Connection".toList, "Accept".toList] := rfl
  rw [hkeys]
  split <;> decide

theorem lookup_defaultHeaders {httpHost method : Str} (hk : k ∈ special) : (defaultHeaders httpHost method).lookup k =
    if method = post ∧ k = contentTypeName then some formType else none := by
  have hbase : (baseHeaders httpHost).lookup k = none := by
    revert k
    show ∀ k ∈ special, _
    simp only [special, List.forall_mem_cons]
    exact ⟨rfl, rfl, rfl, rfl, by simp⟩
  rw [defaultHeaders_eq, List.lookup_append, hbase, Option.none_or]
  by_cases hpost : method = post
  · by_cases hct : k = contentTypeName
    · simp [hpost, hct]
    · simp [hpost, hct, beq_false_of_ne hct]
  · simp [hpost]

theorem Sent.Proper.built (hx : x.Proper) : Built x := by
  obtain ⟨isNumber, url, method, headers, data, hinit, hplain, htrim, hline, hblank, hperm⟩ := hx
  obtain ⟨⟨httpHost, path, m, all, d⟩, fields⟩ := x
  obtain ⟨⟨host, p⟩, hparse, hmade⟩ := Option.bind_eq_some_iff.mp hinit
  simp only [Request.setData, Option.some.injEq, Request.mk.injEq] at hmade
  obtain ⟨rfl, rfl, rfl, rfl, rfl⟩ := hmade
  have hnodup : ((addHeaders (addHeaders (defaultHeaders host (method.getD "GET".toList)) headers)
      [(contentLength, tostring (data.getD []).length)]).map Prod.fst).Nodup :=
    nodup_setKeys (nodup_setKeys (nodup_defaultHeaders _ _) _) _
  -- the caller gives none of the fields that are split further
  have hspecial : ∀ k ∈ special, (addHeaders (addHeaders (defaultHeaders host (method.getD "GET".toList)) headers)
      [(contentLength, tostring (data.getD []).length)]).lookup k =
        if method.getD "GET".toList = post ∧ k = contentTypeName then some formType else none := by
    intro k hk
    rw [addHeaders, addHeaders, lookup_setKeys, lookup_setKeys, lookup_defaultHeaders hk]
    · rintro h hh rfl
      exact (hplain h hh).2 hk
    · rintro h hh rfl
      rw [List.mem_singleton.mp hh] at hk
      exact absurd (show contentLength ∈ special from hk) (by decide)
  refine ⟨parseUri_path hparse, hblank, fun h hh => ?_, ?_, fun k v => ?_, hperm, ?_, ⟨?_, ?_, ?_⟩, ?_⟩
  · rcases mem_setKeys (hperm.subset hh) with hh | hh
    · rcases mem_setKeys hh with hh | hh
      · exact plain_defaultHeaders htrim hline hh
      · exact (hplain h hh).1
    · rw [List.mem_singleton.mp hh]
      exact plain_tostring _
  · exact (hperm.map Prod.fst).nodup_iff.mpr hnodup
  · rw [hperm.mem_iff, mem_iff_lookup hnodup]
  · exact (lookup_setKey _ _ _ _).trans (if_pos rfl)
  · rw [hspecial _ (by decide), if_neg fun h => absurd h.2 (by decide)]
  · rw [hspecial _ (by decide), if_neg fun h => absurd h.2 (by decide)]
  · rw [hspecial _ (by decide), if_neg fun h => absurd h.2 (by decide)]
  · rw [hspecial _ (by decide)]
    simp

-- ---------------------------------------------------------------------------
-- The stream
-- ---------------------------------------------------------------------------

def startLine (r : Request) : Str := fmt r.method ++ ' ' :: (fmt r.path ++ ' ' :: version)

theorem intercalate_lines (a d : Str) (fields : List (Str × Str)) :
    sep.intercalate ([a] ++ fields.map headerLine ++ [[], d]) =
      a ++ sep ++ (headerLines fields ++ (sep ++ d)) := by
  induction fields generalizing a with
  | nil => simp [List.intercalate, headerLines]
  | cons h fields ih =>
    have hcons : sep.intercalate ([a] ++ (h :: fields).map headerLine ++ [[], d]) =
        a ++ sep ++ sep.intercalate ([headerLine h] ++ fields.map headerLine ++ [[], d]) := by
      simp [List.intercalate, List.intersperse]
    rw [hcons, ih]
    simp [headerLines]

theorem bytes_eq (x : Sent) : x.bytes =
    startLine x.request ++ sep ++ (headerLines x.fields ++ (sep ++ x.request.data)) :=
  intercalate_lines _ _ _

theorem getRequest_ok_iff : getRequest s = .ok (req, rest) ↔ ∃ line s₁ req₀ hs s₂ req₁,
    getStartLine s = .ok (line, s₁) ∧ parseStartLine line = .ok req₀ ∧
    getHeaders s₁.length [] s₁ = .ok (hs, s₂) ∧ parseHeaders req₀ hs = .ok req₁ ∧
    getBody req₁ s₂ = .ok (req, rest) := by
  constructor
  · intro h
    obtain ⟨⟨line, s₁⟩, hline, h⟩ := bind_eq_ok h
    obtain ⟨req₀, hreq₀, h⟩ := bind_eq_ok h
    obtain ⟨⟨hs, s₂⟩, hhs, h⟩ := bind_eq_ok h
    obtain ⟨req₁, hreq₁, h⟩ := bind_eq_ok h
    exact ⟨line, s₁, req₀, hs, s₂, req₁, hline, hreq₀, hhs, hreq₁, h⟩
  · rintro ⟨line, s₁, req₀, hs, s₂, req₁, hline, hreq₀, hhs, hreq₁, h⟩
    simp only [getRequest, hline, hreq₀, hhs, hreq₁, h, bind, Except.bind]

-- ---------------------------------------------------------------------------
-- Parsing
-- ---------------------------------------------------------------------------

theorem parseUri_ok (hu : ∃ p, req.uri = '/' :: p) :
    (∃ r, parseUri req = .ok r) ↔ ∀ k ∈ split '&' (query req.uri), split '=' k ≠ [] := by
  obtain ⟨p, hp⟩ := hu
  have hquery : matchUri req.uri = some ('/' :: p.takeWhile (· ≠ '?'), query req.uri) := by
    rw [hp, matchUri, query, List.dropWhile_cons_of_pos (by decide)]
  rw [← foldlM_ok_iff addParam_ok_iff _ req.params, parseUri, hquery]
  constructor
  · rintro ⟨r, h⟩
    obtain ⟨params, hparams, -⟩ := bind_eq_ok h
    exact ⟨params, hparams⟩
  · rintro ⟨params, hparams⟩
    exact ⟨{ req with path := some ('/' :: p.takeWhile (· ≠ '?')), params := params }, by
      simp only [hparams, bind, Except.bind]⟩

theorem parseUri_keeps (h : parseUri req = .ok req') :
    req'.method = req.method ∧ req'.uri = req.uri := by
  rw [parseUri] at h
  split at h
  · cases h
    exact ⟨rfl, rfl⟩
  · obtain ⟨params, -, h⟩ := bind_eq_ok h
    cases h
    exact ⟨rfl, rfl⟩

theorem parseStartLine_ok {line m u v : Str} (hline : (split ' ' line).map trim = [m, u, v]) :
    parseStartLine line = parseUri ⟨[], m, u, v, none, [], none⟩ := by
  rw [parseStartLine, hline]

theorem parseStartLine_pieces {line : Str} (h : parseStartLine line = .ok req) :
    ∃ m u v, (split ' ' line).map trim = [m, u, v] ∧ req.method = m ∧ req.uri = u := by
  rw [parseStartLine] at h
  split at h
  · next m u v hline =>
    obtain ⟨hmethod, huri⟩ := parseUri_keeps h
    exact ⟨m, u, v, hline, hmethod, huri⟩
  · cases h

/-- The fields before any of them is split. -/
def texts (hs : List (Str × Str)) : List (Str × Field) := hs.map fun h => (h.1, .text h.2)

theorem lookup_texts (hs : List (Str × Str)) (k : Str) : (texts hs).lookup k = (hs.lookup k).map .text := by
  induction hs with
  | nil => rfl
  | cons h hs ih =>
    rw [texts, List.map_cons, List.lookup_cons, List.lookup_cons, ← texts, ih]
    cases k == h.1 <;> rfl

theorem lookup_parseAccept {name : Str} (fs : List (Str × Field)) (hk : k ≠ name) :
    (parseAccept name fs).lookup k = fs.lookup k := by
  rw [parseAccept]
  split
  · rw [lookup_setKey, if_neg hk]
  · rfl

/-- The fields that are not split further are as they were. -/
theorem parseHeaders_ok {hs : List (Str × Str)} (h : parseHeaders req hs = .ok req') :
    (req'.method = req.method ∧ req'.uri = req.uri) ∧
      ∀ k, k ∉ special → req'.headers.lookup k = (hs.lookup k).map .text := by
  obtain ⟨fs, hcookie, h⟩ := bind_eq_ok h
  obtain ⟨fs', htype, h⟩ := bind_eq_ok h
  cases h
  refine ⟨⟨rfl, rfl⟩, fun k hk => ?_⟩
  simp only [special, List.mem_cons, List.not_mem_nil, or_false, not_or] at hk
  obtain ⟨hlang, henc, hck, hct⟩ := hk
  have h₁ : fs'.lookup k = fs.lookup k := by
    rw [parseContentType] at htype
    split at htype
    · split at htype
      · cases htype
      · cases htype
        rw [lookup_setKey, if_neg hct]
    · cases htype
      rw [lookup_setKey, if_neg hct]
  have h₂ : fs.lookup k = (parseAccept acceptEncoding (parseAccept acceptLanguage (texts hs))).lookup k := by
    rw [parseCookie] at hcookie
    split at hcookie
    · obtain ⟨session, -, hcookie⟩ := bind_eq_ok hcookie
      cases hcookie
      rw [lookup_setKey, if_neg hck]
      rfl
    · cases hcookie
      rfl
  rw [h₁, h₂, lookup_parseAccept _ henc, lookup_parseAccept _ hlang, lookup_texts]

/-- Without a field to split there is the content type alone. -/
theorem parseHeaders_plain {hs : List (Str × Str)} {type : Option Str} (hlang : hs.lookup acceptLanguage = none)
    (henc : hs.lookup acceptEncoding = none) (hcookie : hs.lookup cookieName = none)
    (htype : hs.lookup contentTypeName = type) (hform : ∀ t ∈ type, t = formType) :
    parseHeaders req hs =
      .ok { req with headers := setKey (texts hs) contentTypeName (.contentType type none) } := by
  have hform' : split ';' formType = [formType] ∧ trim formType = formType := by decide
  have h₁ : parseAccept acceptLanguage (texts hs) = texts hs := by
    rw [parseAccept, lookup_texts, hlang]
    rfl
  have h₂ : parseAccept acceptEncoding (texts hs) = texts hs := by
    rw [parseAccept, lookup_texts, henc]
    rfl
  have h₃ : parseCookie (texts hs) = .ok (texts hs) := by
    rw [parseCookie, lookup_texts, hcookie]
    rfl
  have h₄ : parseContentType (texts hs) =
      .ok (setKey (texts hs) contentTypeName (.contentType type none)) := by
    rw [parseContentType, lookup_texts, htype]
    cases type with
    | none => rfl
    | some t =>
      obtain rfl := hform t rfl
      simp [hform'.1, hform'.2]
  rw [texts] at h₁ h₂ h₃ h₄
  simp only [parseHeaders, h₁, h₂, h₃, h₄, bind, Except.bind, texts]

-- ---------------------------------------------------------------------------
-- The body
-- ---------------------------------------------------------------------------

theorem length_of_recv {n : Int} {body : Str} (h : recv n s = some (body, rest)) : s.length < rest.length + 2 ^ 31 := by
  have hlt := Library.int32_lt n
  unfold recv at h
  generalize Library.int32 n = len at h hlt
  dsimp only at h
  split at h
  · cases h
    rw [List.length_drop]
    omega
  · cases h

theorem parseContent_keeps {content : Str} (h : parseContent req content = .ok req') :
    req'.method = req.method ∧ req'.uri = req.uri ∧ req'.headers = req.headers := by
  rw [parseContent] at h
  split at h
  · split at h
    · obtain ⟨fs, -, h⟩ := bind_eq_ok h
      cases h
      exact ⟨rfl, rfl, rfl⟩
    · cases h
      exact ⟨rfl, rfl, rfl⟩
  · cases h
    exact ⟨rfl, rfl, rfl⟩

theorem received_of_ok {o : Option (Str × Str)} (h : parseReceived req o = .ok (req', rest)) :
    ∃ body, o = some (body, rest) ∧ parseContent req body = .ok req' := by
  cases o with
  | none => cases h
  | some p =>
    obtain ⟨r, hr, heq⟩ := map_eq_ok h
    cases heq
    exact ⟨p.1, rfl, hr⟩

theorem getBody_keeps (h : getBody req s = .ok (req', rest)) :
    req'.method = req.method ∧ req'.uri = req.uri ∧ req'.headers = req.headers := by
  rw [getBody] at h
  split at h
  · split at h
    · cases h
    · obtain ⟨body, -, hr⟩ := received_of_ok h
      exact parseContent_keeps hr
  · cases h
    exact ⟨rfl, rfl, rfl⟩

/-- The length of a body as it is read of its header field. -/
def readLength (n : Nat) : Int := (LuaNumber.ofRat n).toInteger

theorem readLength_small {n : Nat} (h : n < 2 ^ 31) : readLength n = n := by
  rw [readLength, LuaNumber.ofRat_natCast (by omega), LuaNumber.toInteger_intCast (by omega)]

theorem getBody_length {n : Nat} (hlen : req.headers.lookup contentLength = some (.text (tostring n))) :
    getBody req s = parseReceived req (recv (readLength n) s) := by
  rw [getBody, hlen]
  simp only [tonumber_tostring, readLength]

theorem parseContent_form {content : Str}
    (ht : req.headers.lookup contentTypeName = some (.contentType (some formType) none)) :
    parseContent req content = (unpackForm content).map fun b => { req with body := some (.unpacked b) } := by
  unfold parseContent
  rw [ht]
  generalize formType = type
  dsimp only
  rw [if_pos rfl]
  cases unpackForm content <;> rfl

theorem parseContent_none {content : Str} (ht : req.headers.lookup contentTypeName = some (.contentType none none)) :
    parseContent req content = .ok { req with body := some (.content content) } := by
  rw [parseContent, ht]

-- ---------------------------------------------------------------------------
-- One request
-- ---------------------------------------------------------------------------

theorem mem_startLine {c : Char} (h : c ∈ startLine r) :
    c ∈ r.method ∨ c ∈ r.path ∨ c ∈ ' ' :: version := by
  rcases List.mem_append.mp h with h | h
  · exact .inl ((fmt_front _).subset h)
  · rcases List.mem_cons.mp h with rfl | h
    · exact .inr (.inr List.mem_cons_self)
    · rcases List.mem_append.mp h with h | h
      · exact .inr (.inl ((fmt_front _).subset h))
      · exact .inr (.inr h)

theorem getStartLine_bytes (hb : Built x) (hm : '\n' ∉ x.request.method) :
    getStartLine (x.bytes ++ rest) =
      .ok (trim (startLine x.request ++ sep), headerLines x.fields ++ (sep ++ (x.request.data ++ rest))) := by
  have hline : '\n' ∉ startLine x.request := by
    intro h
    rcases mem_startLine h with h | h | h
    · exact hm h
    · exact absurd (hb.blank _ h) (by decide)
    · exact absurd h (by decide)
  have hassoc : x.bytes ++ rest =
      startLine x.request ++ sep ++ (headerLines x.fields ++ (sep ++ (x.request.data ++ rest))) := by
    simp only [bytes_eq, List.append_assoc]
  rw [getStartLine, hassoc, recvLine_append hline]

/-- The server's pieces of a start line, which may be cut. -/
theorem startLine_pieces (hb : Built x) (hm : Token x.request.method) :
    (split ' ' (trim (startLine x.request ++ sep))).map trim =
      if fmt x.request.method = [] then [fmt x.request.path, version]
      else [trim (fmt x.request.method), fmt x.request.path, version] := by
  have hp : ∀ c ∈ fmt x.request.path, isspace c = false := fun c hc => hb.blank c ((fmt_front _).subset hc)
  rw [startLine]
  split
  · next hnil =>
    have hpne : fmt x.request.path ≠ [] := by
      obtain ⟨p, hpath⟩ := hb.path
      rw [hpath, fmt]
      split <;> simp
    rw [hnil]
    exact startLine_noMethod hp hpne
  · next hne =>
    obtain ⟨c, m, hcons⟩ := List.exists_cons_of_ne_nil hne
    have hpre := fmt_front x.request.method
    rw [hcons] at hpre ⊢
    have hc : isspace c = false := by
      obtain ⟨w, hw⟩ := hpre
      exact head_trim (hm.trimmed.trans hw.symm)
    exact startLine_eq hp (fun h => hm.space (hpre.subset h)) hc

theorem clean_of_trim_fmt (h : trim (fmt s) = s) : Clean s := by
  have h₁ := length_trim_le (fmt s)
  have h₂ := (fmt_front s).length_le
  rw [h] at h₁
  exact (fmt_front s).eq_of_length (by omega)

theorem clean_trim_fmt (hs : trim s = s) : Clean (trim (fmt s)) := by
  by_cases hclean : Clean s
  · rw [hclean, hs]
    exact hclean
  · rw [clean_iff]
    intro hnul
    have hmem := mem_of_mem_trim hnul
    rw [fmt] at hmem
    split at hmem
    · exact absurd (List.mem_takeWhile_imp hmem) (by decide)
    · next hlen => exact absurd (clean_iff.mpr fun _ => by omega) hclean

theorem Built.lookup_fields (hb : Built x) (k : Str) : x.fields.lookup k = x.request.headers.lookup k := by
  refine Option.ext fun v => ?_
  rw [← hb.lookup k v, mem_iff_lookup hb.nodup]

theorem Built.addHeaders_fields (hb : Built x) (hclean : ∀ h ∈ x.fields, Clean h.1 ∧ Clean h.2) :
    addHeaders [] (x.fields.map received) = x.fields := by
  have hmap : x.fields.map received = x.fields := by
    refine (List.map_congr_left fun h hh => ?_).trans (List.map_id x.fields)
    rw [received, (hclean h hh).1, (hclean h hh).2, (hb.plain h hh).trimmed]
    rfl
  rw [hmap]
  exact setKeys_new hb.nodup

/-- The header fields as the server has them, when nothing was cut. -/
def Sent.parsed (x : Sent) : List (Str × Field) :=
  setKey (texts x.fields) contentTypeName
    (.contentType (if x.request.method = post then some formType else none) none)

theorem Built.parseHeaders (hb : Built x) (req : HTTP) :
    parseHeaders req x.fields = .ok { req with headers := x.parsed } := by
  refine parseHeaders_plain ?_ ?_ ?_ ?_ fun t ht => ?_
  · rw [hb.lookup_fields, hb.accept.1]
  · rw [hb.lookup_fields, hb.accept.2.1]
  · rw [hb.lookup_fields, hb.accept.2.2]
  · rw [hb.lookup_fields, hb.type]
  · split at ht
    · exact (Option.mem_some_iff.mp ht).symm
    · exact absurd ht (Option.not_mem_none t)

theorem Built.lookup_parsed (hb : Built x) (hk : k ≠ contentTypeName) :
    x.parsed.lookup k = (x.request.headers.lookup k).map .text := by
  rw [Sent.parsed, lookup_setKey, if_neg hk, lookup_texts, hb.lookup_fields]

theorem lookup_parsed_type : x.parsed.lookup contentTypeName =
    some (.contentType (if x.request.method = post then some formType else none) none) := by
  rw [Sent.parsed, lookup_setKey, if_pos rfl]

theorem Built.getBody (hb : Built x) (h : req.headers = x.parsed) :
    getBody req s = parseReceived req (recv (readLength x.request.data.length) s) := by
  refine getBody_length ?_
  rw [h, hb.lookup_parsed (by decide), hb.length]
  rfl

theorem length_headerLines (fields : List (Str × Str)) : fields.length ≤ (headerLines fields).length := by
  induction fields with
  | nil => exact Nat.zero_le _
  | cons h fields ih =>
    have hcons : headerLines (h :: fields) = headerLine h ++ sep ++ headerLines fields := by simp [headerLines]
    rw [hcons, List.length_append, List.length_append, List.length_cons]
    have : sep.length = 2 := rfl
    omega

theorem Built.getHeaders (hb : Built x) :
    (∀ h ∈ x.fields, fmt h.1 ≠ [] ∧ fmt h.2 ≠ []) ∧
        getHeaders (headerLines x.fields ++ (sep ++ s)).length [] (headerLines x.fields ++ (sep ++ s)) =
          .ok (addHeaders [] (x.fields.map received), s) ∨
      (∃ h ∈ x.fields, fmt h.1 = [] ∨ fmt h.2 = []) ∧
        ∃ err, getHeaders (headerLines x.fields ++ (sep ++ s)).length [] (headerLines x.fields ++ (sep ++ s)) =
          .error err := by
  refine getHeaders_fields hb.plain ?_
  have := length_headerLines x.fields
  have hsep : sep.length = 2 := rfl
  rw [List.length_append, List.length_append]
  omega

/-- What the server needs is what a `Carried` request has. -/
theorem read_of_carried (hb : Built x) (hc : Carried x.request) :
    ∃ req, getRequest (x.bytes ++ rest) = .ok (req, rest) ∧ Same x.request req := by
  have hclean : ∀ h ∈ x.fields, Clean h.1 ∧ Clean h.2 := fun h hh => hc.clean.2.2 h (hb.perm.subset hh)
  have hpieces := startLine_pieces hb hc.token
  rw [hc.clean.1, hc.clean.2.1, if_neg hc.token.ne_nil, hc.token.trimmed] at hpieces
  obtain ⟨req₀, hreq₀⟩ := (@parseUri_ok ⟨[], x.request.method, x.request.path, version, none, [], none⟩
    hb.path).mpr hc.params
  obtain ⟨hmethod, huri⟩ := parseUri_keeps hreq₀
  have hheaders : Http.getHeaders (headerLines x.fields ++ (sep ++ (x.request.data ++ rest))).length []
      (headerLines x.fields ++ (sep ++ (x.request.data ++ rest))) = .ok (x.fields, x.request.data ++ rest) := by
    rcases hb.getHeaders (s := x.request.data ++ rest) with ⟨-, hok⟩ | ⟨⟨h, hh, hbad⟩, -⟩
    · rw [hok, hb.addHeaders_fields hclean]
    · have hne := hc.fields h (hb.perm.subset hh)
      rw [(hclean h hh).1, (hclean h hh).2] at hbad
      exact (hbad.elim hne.1 hne.2).elim
  -- the body, by the content type
  have hbody : ∃ req, parseContent { req₀ with headers := x.parsed } x.request.data = .ok req ∧
      (x.request.method ≠ post → req.body = some (.content x.request.data)) := by
    by_cases hpost : x.request.method = post
    · have htype := lookup_parsed_type (x := x)
      rw [if_pos hpost] at htype
      obtain ⟨b, hform⟩ := (unpackForm_ok x.request.data).mpr (hc.form hpost)
      rw [@parseContent_form { req₀ with headers := x.parsed } _ htype, hform]
      exact ⟨_, rfl, fun hne => (hne hpost).elim⟩
    · have htype := lookup_parsed_type (x := x)
      rw [if_neg hpost] at htype
      exact ⟨_, @parseContent_none { req₀ with headers := x.parsed } _ htype, fun _ => rfl⟩
  obtain ⟨req, hcontent, hraw⟩ := hbody
  obtain ⟨hm, hu, hh⟩ := parseContent_keeps hcontent
  refine ⟨req, getRequest_ok_iff.mpr ⟨_, _, req₀, x.fields, _, _, getStartLine_bytes hb hc.token.newline,
    (parseStartLine_ok hpieces).trans hreq₀, hheaders, hb.parseHeaders req₀, ?_⟩, ?_⟩
  · rw [@Built.getBody _ _ { req₀ with headers := x.parsed } hb rfl, readLength_small hc.size,
      recv_append hc.size]
    simp only [parseReceived, hcontent]
    rfl
  · refine ⟨hm.trans hmethod, hu.trans huri, fun k hk => ?_, fun hno => hraw fun hpost => ?_⟩
    · rw [hh, hb.lookup_parsed (by rintro rfl; exact hk (by decide))]
    · refine hno none ?_
      rw [hh, lookup_parsed_type, if_pos hpost]

theorem token_of_getStartLine {line m u v s₁ : Str} (h : getStartLine s = .ok (line, s₁))
    (hpieces : (split ' ' line).map trim = [m, u, v]) : Token m := by
  rw [getStartLine] at h
  split at h
  · cases h
  · next line' s' hrecv =>
    obtain ⟨l, hl, rfl⟩ := recvLine_line hrecv
    cases h
    rw [trim_concat (by decide)] at hpieces
    exact token_of_startLine hl hpieces

/-- The fields that are split further are fixed texts. -/
theorem Built.clean_special (hb : Built x) {h : Str × Str} (hh : h ∈ x.fields) (hs : h.1 ∈ special) :
    Clean h.1 ∧ Clean h.2 := by
  have hlookup := (hb.lookup h.1 h.2).mp hh
  simp only [special, List.mem_cons, List.not_mem_nil, or_false] at hs
  rcases hs with hs | hs | hs | hs <;> rw [hs] at hlookup ⊢
  · rw [hb.accept.1] at hlookup
    cases hlookup
  · rw [hb.accept.2.1] at hlookup
    cases hlookup
  · rw [hb.accept.2.2] at hlookup
    cases hlookup
  · rw [hb.type] at hlookup
    split at hlookup
    · rw [← Option.some.inj hlookup]
      decide
    · cases hlookup

theorem carried_of_read (hb : Built x) (h : getRequest (x.bytes ++ rest) = .ok (req, rest))
    (hsame : Same x.request req) : Carried x.request := by
  obtain ⟨line, s₁, req₀, hs, s₂, req₁, hline, hreq₀, hhs, hreq₁, hbody⟩ := getRequest_ok_iff.mp h
  obtain ⟨m, u, v, hpieces, hm, hu⟩ := parseStartLine_pieces hreq₀
  obtain ⟨⟨hm₁, hu₁⟩, hlookup⟩ := parseHeaders_ok hreq₁
  obtain ⟨hm₂, hu₂, hh₂⟩ := getBody_keeps hbody
  have hmethod : m = x.request.method := by rw [← hm, ← hm₁, ← hm₂, hsame.method]
  have hpath : u = x.request.path := by rw [← hu, ← hu₁, ← hu₂, hsame.uri]
  subst hmethod hpath
  have htoken : Token x.request.method := token_of_getStartLine hline hpieces
  have huri := (parseStartLine_ok hpieces).symm.trans hreq₀
  rw [getStartLine_bytes hb htoken.newline, Except.ok.injEq, Prod.mk.injEq] at hline
  obtain ⟨rfl, rfl⟩ := hline
  rw [startLine_pieces hb htoken] at hpieces
  split at hpieces
  · exact absurd (congrArg List.length hpieces) (by simp)
  simp only [List.cons.injEq, and_true] at hpieces
  obtain ⟨hcut, hclean_path, -⟩ := hpieces
  obtain ⟨hsome, hhs'⟩ : (∀ h ∈ x.fields, fmt h.1 ≠ [] ∧ fmt h.2 ≠ []) ∧
      (addHeaders [] (x.fields.map received), x.request.data ++ rest) = (hs, s₂) := by
    rcases hb.getHeaders (s := x.request.data ++ rest) with ⟨hall, hok⟩ | ⟨-, err, herr⟩
    · rw [hok] at hhs
      exact ⟨hall, Except.ok.inj hhs⟩
    · rw [herr] at hhs
      cases hhs
  obtain ⟨rfl, rfl⟩ := Prod.mk.inj hhs'
  have hclean : ∀ h ∈ x.fields, Clean h.1 ∧ Clean h.2 := by
    intro h hh
    by_cases hspecial : h.1 ∈ special
    · exact hb.clean_special hh hspecial
    · have hget := hsame.headers h.1 hspecial
      rw [(hb.lookup h.1 h.2).mp hh, hh₂, hlookup h.1 hspecial] at hget
      obtain ⟨v', hv', heq⟩ := Option.map_eq_some_iff.mp hget
      cases heq
      obtain ⟨h₂, hmem, heq⟩ := List.mem_map.mp (mem_of_lookup_setKeys hv')
      obtain ⟨hname, hvalue⟩ := Prod.mk.inj heq
      rw [← hname, ← hvalue]
      exact ⟨clean_fmt h₂.1, clean_trim_fmt (hb.plain h₂ hmem).trimmed⟩
  rw [hb.addHeaders_fields hclean, hb.parseHeaders, Except.ok.injEq] at hreq₁
  subst hreq₁
  rw [hb.getBody rfl] at hbody
  obtain ⟨body, hrecv, hcontent⟩ := received_of_ok hbody
  have hsize : x.request.data.length < 2 ^ 31 := by
    have := length_of_recv hrecv
    rw [List.length_append] at this
    omega
  refine ⟨htoken, ⟨clean_of_trim_fmt hcut, hclean_path, fun h hh => hclean h (hb.perm.symm.subset hh)⟩, ?_,
    fun h hh => ?_, hsize, fun hpost => ?_⟩
  · exact (@parseUri_ok ⟨[], x.request.method, x.request.path, v, none, [], none⟩ hb.path).mp ⟨_, huri⟩
  · obtain ⟨hk, hv⟩ := hsome h (hb.perm.symm.subset hh)
    exact ⟨fun hnil => hk (by rw [hnil]; rfl), fun hnil => hv (by rw [hnil]; rfl)⟩
  · have htype := lookup_parsed_type (x := x)
    rw [if_pos hpost] at htype
    rw [readLength_small hsize, recv_append hsize, Option.some.injEq, Prod.mk.injEq] at hrecv
    obtain ⟨rfl, -⟩ := hrecv
    rw [@parseContent_form { req₀ with headers := x.parsed } _ htype] at hcontent
    obtain ⟨b, hb, -⟩ := map_eq_ok hcontent
    exact (unpackForm_ok _).mp ⟨b, hb⟩

-- ---------------------------------------------------------------------------
-- Requests one after the other
-- ---------------------------------------------------------------------------

theorem getRequests_of_recovered {xs : List Sent} (h : Recovered xs rest) :
    ∃ reqs, getRequests xs.length (xs.flatMap Sent.bytes ++ rest) = .ok (reqs, rest) ∧
      List.Forall₂ (fun x req => Same x.request req) xs reqs := by
  induction xs with
  | nil => exact ⟨[], rfl, .nil⟩
  | cons x xs ih =>
    obtain ⟨⟨req, hreq, hsame⟩, hrest⟩ := h
    obtain ⟨reqs, hreqs, hall⟩ := ih hrest
    refine ⟨req :: reqs, ?_, .cons hsame hall⟩
    rw [List.flatMap_cons, List.append_assoc, List.length_cons]
    simp only [getRequests, hreq, hreqs, bind, Except.bind]

/-- The requests that the client writes on a connection are read back one by one,
with what follows them left unread, exactly when each of them is `Carried`. -/
theorem transport_iff {xs : List Sent} (hxs : ∀ x ∈ xs, x.Proper) (rest : Str) :
    (Recovered xs rest ↔ ∀ x ∈ xs, Carried x.request) ∧
      (Recovered xs rest → ∃ reqs, getRequests xs.length (xs.flatMap Sent.bytes ++ rest) = .ok (reqs, rest) ∧
        List.Forall₂ (fun x req => Same x.request req) xs reqs) := by
  refine ⟨?_, getRequests_of_recovered⟩
  induction xs with
  | nil => exact iff_of_true trivial (by simp)
  | cons x xs ih =>
    obtain ⟨hx, hxs⟩ := List.forall_mem_cons.mp hxs
    rw [List.forall_mem_cons, ← ih hxs]
    refine and_congr_left fun _ => ⟨?_, read_of_carried hx.built⟩
    rintro ⟨req, hreq, hsame⟩
    exact carried_of_read hx.built hreq hsame

/-- A `GET` of `/x?k=v` with one more field, and a body that looks like the end of a header. -/
def getX : Request :=
  ⟨"a".toList, "/x?k=v".toList, "GET".toList, baseHeaders "a".toList ++ [("X".toList, "y z".toList), (contentLength, "2".toList)],
    sep⟩

def postX : Request :=
  ⟨"a".toList, "/".toList, post, baseHeaders "a".toList ++ [(contentTypeName, formType), (contentLength, "3".toList)],
    "k=v".toList⟩

theorem transport_get_post : Recovered [⟨getX, getX.headers⟩, ⟨postX, postX.headers.reverse⟩] "GET".toList := by
  have hproper : ∀ x ∈ [(⟨getX, getX.headers⟩ : Sent), ⟨postX, postX.headers.reverse⟩], x.Proper := by
    simp only [List.forall_mem_cons]
    refine ⟨⟨fun _ => true, "http://a/x?k=v".toList, none, [("X".toList, "y z".toList)], some sep, by decide, ?_, by decide,
      by decide, by decide, .refl _⟩, ⟨fun _ => true, "http://a".toList, some post, [], some "k=v".toList, by decide, by simp,
      by decide, by decide, by decide, List.reverse_perm _⟩, by simp⟩
    simp only [List.forall_mem_cons]
    exact ⟨⟨⟨by decide, by decide, by decide⟩, by decide⟩, by simp⟩
  have hcarried : ∀ x ∈ [(⟨getX, getX.headers⟩ : Sent), ⟨postX, postX.headers.reverse⟩], Carried x.request := by
    simp only [List.forall_mem_cons]
    exact ⟨⟨⟨by decide, by decide, by decide, by decide⟩, by decide, by decide, by decide, by decide, by decide⟩,
      ⟨⟨by decide, by decide, by decide, by decide⟩, by decide, by decide, by decide, by decide, by decide⟩, by simp⟩
  exact (transport_iff hproper "GET".toList).1.mpr hcarried

def emptyX : Request := { getX with headers := baseHeaders "a".toList ++ [("X".toList, []), (contentLength, "2".toList)] }

theorem empty_field_refused :
    (⟨emptyX, emptyX.headers⟩ : Sent).Proper ∧ getRequest (emptyX.toString emptyX.headers) =
      .error "attempt to index local 'key' (a nil value)" ∧ ¬ Recovered [⟨emptyX, emptyX.headers⟩] [] := by
  have herror : getRequest (emptyX.toString emptyX.headers) = .error "attempt to index local 'key' (a nil value)" := by decide
  refine ⟨⟨fun _ => true, "http://a/x?k=v".toList, none, [("X".toList, [])], some sep, by decide, ?_, by decide, by decide,
    by decide, .refl _⟩, herror, ?_⟩
  · simp only [List.forall_mem_cons]
    exact ⟨⟨⟨by decide, by decide, by decide⟩, by decide⟩, by simp⟩
  · rintro ⟨⟨req, hreq, -⟩, -⟩
    rw [List.flatMap_nil, List.append_nil, List.append_nil, Sent.bytes, herror] at hreq
    cases hreq

end GalaLua.Http
