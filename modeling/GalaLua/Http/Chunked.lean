import GalaLua.Http.Lines
import GalaLua.Library.Words

/-!
# Chunked responses

`encode_chunk` of the server and `recv_body` of the client. The assertion at the
head of `encode_chunk` calls `is_chunked` with a dot and without a response, so
that no chunk is ever encoded (`never_chunked`). What stands behind the assertion
leaves out the line end behind a chunk.
-/

namespace GalaLua.Http

open Library.Lua Library.Words

-- ---------------------------------------------------------------------------
-- The server
-- ---------------------------------------------------------------------------

structure Response where
  sep : Str
  headers : List (Str × Str)

def transferEncoding : Str := "Transfer-Encoding".toList

def chunked : Str := "chunked".toList

def Response.enableChunk (self : Response) : Response :=
  { self with headers := setKey self.headers transferEncoding chunked }

def Response.init : Response :=
  ⟨Http.sep, [("Server".toList, "GLR/GHS 1.0".toList), (contentTypeName, "text/html;charset=utf-8".toList)]⟩

/-- `is_chunked`; `none` is a call without a receiver. -/
def Response.isChunked : Option Response → Res Bool
  | none => .error "attempt to index local 'self' (a nil value)"
  | some self => .ok (decide (self.headers.lookup transferEncoding = some chunked))

/-- What `encode_chunk` is given: a string or a table of strings. -/
inductive Content
  | text (s : Str)
  | table (parts : List Str)

def Content.data : Option Content → Str
  | none => []
  | some (.text s) => s
  | some (.table parts) => parts.flatten

/-- `encode_chunk` behind its assertion. -/
def Response.chunk (self : Response) (data : Str) : Str :=
  self.sep.intercalate ([Nat.toDigits 16 data.length, data] ++ if data.length = 0 then [[]] else [])

def Response.encodeChunk (self : Response) (content : Option Content) : Res Str := do
  -- the source has `self.is_chunked()`
  let ok ← Response.isChunked none
  if ok then .ok (self.chunk (Content.data content)) else .error "not chunked response"

-- ---------------------------------------------------------------------------
-- The client
-- ---------------------------------------------------------------------------

/-- `safe_assert` of what was received. -/
def safeAssert (msg : String) : Option (Str × Str) → Res (Str × Str)
  | none => .error msg
  | some r => .ok r

/-- The bytes that a size line announces, with the line end behind them; the size is
a double. -/
def recvContent (len s : Str) : Res (Str × Str) :=
  match tonumberHex len with
  | none => .error "attempt to perform arithmetic on a nil value"
  | some len => safeAssert "invalid chunked message" (recv (checkInteger (double (double len + 2))) s)

/-- The loop over the chunks; every turn takes a line, so there are no more of them
than bytes. -/
def recvChunks : Nat → Str → Str → Res (Str × Str)
  | 0, _, _ => .error "attempt to index local 'len' (a nil value)"
  | n + 1, chunk, s =>
    match recvLine s with
    | none => .error "attempt to index local 'len' (a nil value)"
    | some (len, s) =>
      if trim len = ['0'] then (safeAssert "invalid chunked message" (recv 2 s)).map fun r => (chunk, r.2)
      else
        match recvContent len s with
        | .error msg => .error msg
        | .ok (content, s) => recvChunks n (chunk ++ trim content) s

/-- `recv_body`: the body, if the header says how it is sent, and the rest of the stream. -/
def recvBody (headers : List (Str × Str)) (s : Str) : Res (Option Str × Str) :=
  match (headers.lookup contentLength).bind tonumber with
  | some length => (safeAssert "recv content error" (recv length.toInteger s)).map fun r => (some r.1, r.2)
  | none =>
    if headers.lookup transferEncoding = some chunked then
      (recvChunks (s.length + 1) [] s).map fun r => (some r.1, r.2)
    else .ok (none, s)

-- ---------------------------------------------------------------------------
-- The assertion
-- ---------------------------------------------------------------------------

/-- The chunks and the last chunk are encoded, and a client that expects them reads
them to their end. -/
def ReadBack (self : Response) (headers : List (Str × Str)) (chunks : List Str) (rest : Str) : Prop :=
  ∃ bytes last, chunks.mapM (fun c => self.encodeChunk (some (.text c))) = .ok bytes ∧
    self.encodeChunk (some (.text [])) = .ok last ∧
    recvBody headers (bytes.flatten ++ last ++ rest) = .ok (some chunks.flatten, rest)

theorem encodeChunk_error (self : Response) (content : Option Content) :
    self.encodeChunk content = .error "attempt to index local 'self' (a nil value)" := rfl

/-- No response encodes a chunk, also not the last one. -/
theorem never_chunked (self : Response) (headers : List (Str × Str)) (chunks : List Str) (rest : Str) :
    ¬ ReadBack self headers chunks rest := by
  rintro ⟨bytes, last, -, hlast, -⟩
  rw [encodeChunk_error] at hlast
  cases hlast

theorem abc_not_chunked : ¬ ReadBack Response.init.enableChunk [(transferEncoding, chunked)] ["abc".toList] [] := by
  rintro ⟨bytes, -, hbytes, -⟩
  cases hbytes

-- ---------------------------------------------------------------------------
-- Sizes
-- ---------------------------------------------------------------------------

theorem hexMark_digits {l : Str} (h : ∀ c ∈ l, isHex c = true) (hne : l ≠ []) (t : Str) :
    hexMark (l ++ '\r' :: t) = l ++ '\r' :: t := by
  unfold hexMark
  split
  · next x c s heq =>
    rw [heq]
    refine if_neg fun hx => ?_
    obtain ⟨d, ds, rfl⟩ := List.exists_cons_of_ne_nil hne
    have hmem : x ∈ ds ++ ['\r'] := by
      have := (List.cons.inj heq).2
      cases ds with
      | nil =>
        obtain ⟨rfl, -⟩ := List.cons.inj (show '\r' :: t = x :: c :: s from this)
        simp
      | cons e es => simp [(List.cons.inj this).1]
    rcases List.mem_append.mp hmem with hmem | hmem
    · obtain ⟨-, -, -, hlow, hup⟩ := isHex_sound (h x (List.mem_cons_of_mem _ hmem))
      exact hx.1.elim hlow hup
    · rw [List.mem_singleton.mp hmem] at hx
      exact absurd hx.1 (by decide)
  · rfl

theorem tonumberHex_digits {l : Str} (hhex : ∀ c ∈ l, isHex c = true) (hne : l ≠ [])
    (hn : ofDigits 16 l < 2 ^ 64) : tonumberHex (l ++ sep) = some (ofDigits 16 l) := by
  have htake : (l ++ sep).takeWhile isHex = l := by
    rw [List.takeWhile_append_of_pos hhex, sep, List.takeWhile_cons_of_neg (by decide), List.append_nil]
  have hdrop : (l ++ sep).dropWhile isHex = sep := by
    rw [List.dropWhile_append_of_pos hhex, sep, List.dropWhile_cons_of_neg (by decide)]
  have hsign : sign ((l ++ sep).dropWhile isspace) = (false, l ++ sep) := by
    obtain ⟨d, ds, rfl⟩ := List.exists_cons_of_ne_nil hne
    have hd := hhex d List.mem_cons_self
    rw [List.cons_append, List.dropWhile_cons_of_neg (by simp [(isHex_sound hd).1]), sign_digit hd]
  have hstrtoul : strtoul (l ++ sep) = some (ofDigits 16 l, sep) := by
    rw [strtoul, hsign]
    simp only [sep, hexMark_digits hhex hne]
    simp only [sep] at htake hdrop
    rw [htake, hdrop, if_neg hne, if_neg (by omega)]
    rfl
  rw [tonumberHex, hstrtoul]
  rfl

end GalaLua.Http
