import GalaLua.Http.Chunked
import Mathlib.Algebra.Order.BigOperators.Group.List
import Mathlib.Algebra.Order.Group.Nat

/-!
# Decoding of chunks

A body in chunks, as HTTP/1.1 has them without extensions and trailers, and what
`recv_body` makes of it. The bytes of a chunk are taken with the line end behind
them and trimmed, so blanks at the ends of the data are lost, too.
-/

namespace GalaLua.Http

open Library.Lua Library.Words

-- ---------------------------------------------------------------------------
-- Chunks
-- ---------------------------------------------------------------------------

structure Chunk where
  size : Str
  data : Str
  hex : ∀ c ∈ size, isHex c = true
  nonempty : data ≠ []
  announced : ofDigits 16 size = data.length

/-- The size of the last chunk: one zero or more. -/
structure LastChunk where
  zeros : Str
  zero : ∀ c ∈ zeros, c = '0'
  nonempty : zeros ≠ []

def Chunk.encode (c : Chunk) : Str := c.size ++ sep ++ (c.data ++ sep)

def LastChunk.encode (l : LastChunk) : Str := l.zeros ++ sep ++ sep

def encodeChunks (chunks : List Chunk) (last : LastChunk) : Str := chunks.flatMap Chunk.encode ++ last.encode

def body (chunks : List Chunk) : Str := chunks.flatMap Chunk.data

structure ChunkedHeaders where
  fields : List (Str × Str)
  encoding : fields.lookup transferEncoding = some chunked

/-- The fields have no length that `tonumber` takes, for instance "12", "0x2" or "1e0". -/
def ChunkedHeaders.NoLength (headers : ChunkedHeaders) : Prop :=
  (headers.fields.lookup contentLength).bind tonumber = none

def maxStr : Nat := 0x7fffff00

/-- `recv_body` with the error of `table.concat` on a body that is too long. -/
def recvBodyString (headers : List (Str × Str)) (s : Str) : Res (Option Str × Str) :=
  match recvBody headers s with
  | .error msg => .error msg
  | .ok (body, s) => if (body.getD []).length < maxStr then .ok (body, s) else .error "string length overflow"

/-- The client reads the body and takes no byte behind it. -/
def Decodes (headers : ChunkedHeaders) (chunks : List Chunk) (last : LastChunk) (rest : Str) : Prop :=
  recvBodyString headers.fields (encodeChunks chunks last ++ rest) = .ok (some (body chunks), rest)

-- ---------------------------------------------------------------------------
-- One turn of the loop
-- ---------------------------------------------------------------------------

theorem newline_notMem_hex {l : Str} (h : ∀ c ∈ l, isHex c = true) : '\n' ∉ l :=
  fun hmem => absurd (h _ hmem) (by decide)

theorem trim_hex {l : Str} (h : ∀ c ∈ l, isHex c = true) : trim (l ++ sep) = l := by
  rw [trim_sep, trim_of_noBlank fun c hc => (isHex_sound (h c hc)).1]

theorem Chunk.size_ne_zero (c : Chunk) : c.size ≠ ['0'] := by
  intro h
  have hlength := c.announced
  rw [h] at hlength
  exact c.nonempty (List.length_eq_zero_iff.mp hlength.symm)

theorem Chunk.size_ne_nil (c : Chunk) : c.size ≠ [] := by
  intro h
  have hlength := c.announced
  rw [h] at hlength
  exact c.nonempty (List.length_eq_zero_iff.mp hlength.symm)

theorem recvContent_small {len s : Str} {n : Nat} (hnum : tonumberHex len = some n) (hn : n + 2 < 2 ^ 31) :
    recvContent len s = safeAssert "invalid chunked message" (recv (n + 2 : Nat) s) := by
  have hsize : double n = n := double_of_small (by omega)
  have hsum : double (n + 2 : Int) = n + 2 := double_of_small (by omega)
  have hint : checkInteger (n + 2 : Int) = n + 2 := checkInteger_of_small (by omega)
  rw [recvContent, hnum]
  dsimp only
  rw [hsize, hsum, hint]
  rfl

theorem Chunk.recv_turn (c : Chunk) (hlen : c.data.length + 2 < 2 ^ 31) (n : Nat) (chunk s : Str) :
    recvChunks (n + 1) chunk (c.encode ++ s) = recvChunks n (chunk ++ trim c.data) s := by
  have hnum : tonumberHex (c.size ++ sep) = some c.data.length := by
    have hvalue : ofDigits 16 c.size < 2 ^ 64 := by
      rw [c.announced]
      omega
    rw [← c.announced]
    exact tonumberHex_digits c.hex c.size_ne_nil hvalue
  have hcontent : recvContent (c.size ++ sep) (c.data ++ sep ++ s) = .ok (c.data ++ sep, s) := by
    have hlength : c.data.length + 2 = (c.data ++ sep).length := by simp [sep]
    rw [recvContent_small hnum hlen, hlength, recv_append (by rwa [← hlength]), safeAssert]
  have hline : recvLine (c.encode ++ s) = some (c.size ++ sep, c.data ++ sep ++ s) := by
    rw [Chunk.encode, List.append_assoc, recvLine_append (newline_notMem_hex c.hex)]
  rw [recvChunks, hline]
  simp only [trim_hex c.hex, c.size_ne_zero, if_false, hcontent, trim_sep]

theorem recvChunks_chunks {chunks : List Chunk} (hlen : ∀ c ∈ chunks, c.data.length + 2 < 2 ^ 31) (n : Nat)
    (chunk s : Str) :
    recvChunks (n + chunks.length) chunk (chunks.flatMap Chunk.encode ++ s) =
      recvChunks n (chunk ++ chunks.flatMap fun c => trim c.data) s := by
  induction chunks generalizing chunk with
  | nil => simp
  | cons c chunks ih =>
    obtain ⟨hc, hlen⟩ := List.forall_mem_cons.mp hlen
    rw [List.flatMap_cons, List.append_assoc, List.length_cons, ← Nat.add_assoc, c.recv_turn hc, ih hlen]
    simp

-- ---------------------------------------------------------------------------
-- The last chunk
-- ---------------------------------------------------------------------------

theorem LastChunk.hex (l : LastChunk) : ∀ c ∈ l.zeros, isHex c = true := by
  intro c hc
  rw [l.zero c hc]
  decide

theorem LastChunk.value (l : LastChunk) : ofDigits 16 l.zeros = 0 := by
  have hzero := l.zero
  generalize l.zeros = zeros at hzero
  induction zeros with
  | nil => rfl
  | cons c zeros ih =>
    obtain ⟨rfl, hrest⟩ := List.forall_mem_cons.mp hzero
    exact ih hrest

theorem LastChunk.line (l : LastChunk) (s : Str) :
    recvLine (l.encode ++ s) = some (l.zeros ++ sep, sep ++ s) := by
  rw [LastChunk.encode, List.append_assoc, recvLine_append (newline_notMem_hex l.hex)]

theorem recv_sep (s : Str) : recv 2 (sep ++ s) = some (sep, s) :=
  recv_append (d := sep) (by decide)

theorem LastChunk.recv_one (l : LastChunk) (h : l.zeros = ['0']) (n : Nat) (chunk s : Str) :
    recvChunks (n + 1) chunk (l.encode ++ s) = .ok (chunk, s) := by
  have htrim := trim_hex l.hex
  rw [h] at htrim
  rw [recvChunks, l.line]
  simp only [h, htrim, if_true, recv_sep, safeAssert, Except.map]

theorem LastChunk.recv_more (l : LastChunk) (h : l.zeros ≠ ['0']) (n : Nat) (chunk s : Str) :
    recvChunks (n + 1) chunk (l.encode ++ s) = recvChunks n chunk s := by
  have hnum : tonumberHex (l.zeros ++ sep) = some 0 := by
    have hvalue := l.value
    have hdigits := tonumberHex_digits l.hex l.nonempty (by rw [hvalue]; decide)
    rwa [hvalue] at hdigits
  have hcontent : recvContent (l.zeros ++ sep) (sep ++ s) = .ok (sep, s) := by
    rw [recvContent_small hnum (by decide)]
    exact congrArg (safeAssert _) (recv_sep s)
  have htrim : trim sep = [] := by decide
  rw [recvChunks, l.line]
  simp only [trim_hex l.hex, h, if_false, hcontent, htrim, List.append_nil]

-- ---------------------------------------------------------------------------
-- What the loop leaves
-- ---------------------------------------------------------------------------

theorem recvLine_shorter {s line t : Str} (h : recvLine s = some (line, t)) : t.length < s.length := by
  rw [recvLine] at h
  split at h
  · next hmem =>
    cases h
    have hne : s.dropWhile (· ≠ '\n') ≠ [] := by
      intro hnil
      have hall := List.dropWhile_eq_nil_iff.mp hnil '\n' hmem
      simp at hall
    have hsuffix := (List.dropWhile_suffix (l := s) (· ≠ '\n')).length_le
    have hpos := List.length_pos_iff.mpr hne
    rw [List.length_drop]
    omega
  · cases h

theorem recv_le {len : Int} {s d t : Str} (h : recv len s = some (d, t)) : t.length ≤ s.length := by
  simp only [recv] at h
  split at h
  · obtain ⟨-, rfl⟩ := Prod.mk.inj (Option.some.inj h)
    rw [List.length_drop]
    exact Nat.sub_le ..
  · exact absurd h (by simp)

theorem safeAssert_ok {msg : String} {r : Option (Str × Str)} {x : Str × Str} :
    safeAssert msg r = .ok x ↔ r = some x := by
  cases r <;> simp [safeAssert]

theorem safeAssert_recv_le {msg : String} {len : Int} {s d t : Str}
    (h : safeAssert msg (recv len s) = .ok (d, t)) : t.length ≤ s.length :=
  recv_le (safeAssert_ok.mp h)

theorem recvContent_le {len s d t : Str} (h : recvContent len s = .ok (d, t)) : t.length ≤ s.length := by
  rw [recvContent] at h
  cases hnum : tonumberHex len with
  | none => simp [hnum] at h
  | some n =>
    rw [hnum] at h
    exact safeAssert_recv_le h

/-- The loop takes a line at least. -/
theorem recvChunks_shorter {n : Nat} {chunk s b t : Str} (h : recvChunks n chunk s = .ok (b, t)) :
    t.length < s.length := by
  induction n generalizing chunk s with
  | zero => simp [recvChunks] at h
  | succ n ih =>
    rw [recvChunks] at h
    cases hline : recvLine s with
    | none => simp [hline] at h
    | some r =>
      obtain ⟨len, s'⟩ := r
      have hshorter := recvLine_shorter hline
      simp only [hline] at h
      split at h
      · cases hrecv : safeAssert "invalid chunked message" (recv 2 s') with
        | error msg => simp [hrecv, Except.map] at h
        | ok r =>
          have hle := safeAssert_recv_le (d := r.1) (t := r.2) hrecv
          simp only [hrecv, Except.map, Except.ok.injEq, Prod.mk.injEq] at h
          rw [h.2] at hle
          exact lt_of_le_of_lt hle hshorter
      · cases hcontent : recvContent len s' with
        | error msg => simp [hcontent] at h
        | ok r =>
          have hle := recvContent_le (d := r.1) (t := r.2) hcontent
          simp only [hcontent] at h
          exact lt_trans (lt_of_lt_of_le (ih h) hle) hshorter

-- ---------------------------------------------------------------------------
-- The whole body
-- ---------------------------------------------------------------------------

theorem length_le_body {chunks : List Chunk} {c : Chunk} (h : c ∈ chunks) : c.data.length ≤ (body chunks).length := by
  rw [body, List.length_flatMap]
  exact List.single_le_sum (by simp) _ (List.mem_map_of_mem h)

theorem length_chunks_le (chunks : List Chunk) (s : Str) :
    chunks.length ≤ (chunks.flatMap Chunk.encode ++ s).length := by
  induction chunks with
  | nil => simp
  | cons c chunks ih =>
    have hpos : 0 < c.encode.length := by
      simp only [Chunk.encode, sep, List.length_append, List.length_cons]
      omega
    rw [List.length_append] at ih
    rw [List.flatMap_cons, List.length_append, List.length_append, List.length_cons]
    omega

theorem trimmed_of_eq {chunks : List Chunk} (h : (chunks.flatMap fun c => trim c.data) = body chunks) :
    ∀ c ∈ chunks, trim c.data = c.data := by
  induction chunks with
  | nil => simp
  | cons c chunks ih =>
    have hle : (chunks.flatMap fun c => trim c.data).length ≤ (body chunks).length := by
      rw [body, List.length_flatMap, List.length_flatMap]
      exact List.sum_le_sum fun c _ => length_trim_le c.data
    have hlength := congrArg List.length h
    simp only [body, List.flatMap_cons, List.length_append] at hlength hle
    have hhead := length_trim_le c.data
    simp only [body, List.flatMap_cons] at h
    obtain ⟨hc, hrest⟩ := List.append_inj h (by omega)
    exact List.forall_mem_cons.mpr ⟨hc, ih hrest⟩

theorem recvBody_chunks {headers : ChunkedHeaders} (hno : headers.NoLength) (chunks : List Chunk) (last : LastChunk) (rest : Str)
    (hlen : (body chunks).length < maxStr) :
    ∃ n, recvBody headers.fields (encodeChunks chunks last ++ rest) =
      (recvChunks (n + 1) (chunks.flatMap fun c => trim c.data) (last.encode ++ rest)).map fun r => (some r.1, r.2) := by
  have hsmall : ∀ c ∈ chunks, c.data.length + 2 < 2 ^ 31 := by
    intro c hc
    have hle := length_le_body hc
    rw [maxStr] at hlen
    omega
  have hstream : encodeChunks chunks last ++ rest = chunks.flatMap Chunk.encode ++ (last.encode ++ rest) := by
    rw [encodeChunks, List.append_assoc]
  obtain ⟨n, hn⟩ := Nat.exists_eq_add_of_le (length_chunks_le chunks (last.encode ++ rest))
  refine ⟨n, ?_⟩
  have hfuel : chunks.length + n + 1 = n + 1 + chunks.length := by omega
  rw [ChunkedHeaders.NoLength] at hno
  rw [recvBody, hno, hstream, hn, hfuel]
  simp only [headers.encoding, if_true, recvChunks_chunks hsmall, List.nil_append]

theorem length_body_lt (chunks : List Chunk) (last : LastChunk) :
    (body chunks).length < (encodeChunks chunks last).length := by
  have hchunk : ∀ c : Chunk, c.data.length ≤ c.encode.length := fun c => by
    simp only [Chunk.encode, List.length_append]
    omega
  have hle : (body chunks).length ≤ (chunks.flatMap Chunk.encode).length := by
    rw [body, List.length_flatMap, List.length_flatMap]
    exact List.sum_le_sum fun c _ => hchunk c
  rw [encodeChunks, List.length_append, LastChunk.encode, sep]
  simp only [List.length_append, List.length_cons]
  omega

/-- With a length the bytes are taken as they are. -/
theorem noLength_of_decodes {headers : ChunkedHeaders} {chunks : List Chunk} {last : LastChunk} {rest : Str}
    (h : Decodes headers chunks last rest) : headers.NoLength := by
  rw [ChunkedHeaders.NoLength]
  by_contra hno
  obtain ⟨x, hx⟩ := Option.ne_none_iff_exists'.mp hno
  rw [Decodes, recvBodyString, recvBody, hx] at h
  simp only [recv] at h
  split at h
  · cases h
  · next b t hrecv =>
    split at hrecv
    · split at h
      · simp only [safeAssert, Except.map, Except.ok.injEq, Prod.mk.injEq] at h hrecv
        obtain ⟨hbody, hrest⟩ := h
        obtain ⟨htake, hdrop⟩ := hrecv
        rw [hbody, Option.some.injEq] at htake
        rw [hrest] at hdrop
        have hlt := length_body_lt chunks last
        have hwhole := congrArg List.length (List.take_append_drop (Library.int32 x.toInteger).toNat
          (encodeChunks chunks last ++ rest))
        rw [htake, hdrop] at hwhole
        simp only [List.length_append] at hwhole
        omega
      · cases h
    · cases hrecv

/-- A body is decoded if and only if the header has no length besides, no chunk of it
begins or ends with a blank, the last chunk is written with one zero, and the body is no
longer than a string. -/
theorem decodes_iff (headers : ChunkedHeaders) (chunks : List Chunk) (last : LastChunk) (rest : Str) :
    Decodes headers chunks last rest ↔
      headers.NoLength ∧ (∀ c ∈ chunks, trim c.data = c.data) ∧ last.zeros = ['0'] ∧
        (body chunks).length < maxStr := by
  constructor
  · intro h
    have hno := noLength_of_decodes h
    have hlen : (body chunks).length < maxStr := by
      rw [Decodes, recvBodyString] at h
      split at h
      · cases h
      · split at h
        · next hlen =>
          cases h
          exact hlen
        · cases h
    obtain ⟨n, hbody⟩ := recvBody_chunks hno chunks last rest hlen
    rw [Decodes, recvBodyString, hbody] at h
    by_cases hlast : last.zeros = ['0']
    · simp only [last.recv_one hlast, Except.map, Option.getD_some] at h
      split at h
      · refine ⟨hno, trimmed_of_eq ?_, hlast, hlen⟩
        simpa using h
      · cases h
    · rw [last.recv_more hlast] at h
      cases hmore : recvChunks n (chunks.flatMap fun c => trim c.data) rest with
      | error msg => simp [hmore, Except.map] at h
      | ok r =>
        have hshorter := recvChunks_shorter (b := r.1) (t := r.2) hmore
        simp only [hmore, Except.map] at h
        split at h
        · simp only [Except.ok.injEq, Prod.mk.injEq] at h
          rw [h.2] at hshorter
          exact absurd hshorter (lt_irrefl _)
        · cases h
  · rintro ⟨hno, htrim, hlast, hlen⟩
    have heq : (chunks.flatMap fun c => trim c.data) = body chunks := by
      simp only [body, List.flatMap]
      rw [List.map_congr_left htrim]
    obtain ⟨n, hbody⟩ := recvBody_chunks hno chunks last rest hlen
    rw [Decodes, recvBodyString, hbody, last.recv_one hlast, heq]
    simp only [Except.map, Option.getD_some, if_pos hlen]

def chunkedOnly : ChunkedHeaders := ⟨[(transferEncoding, chunked)], by decide⟩

def oneBlank : Chunk := ⟨['1'], [' '], List.forall_mem_singleton.mpr (by decide), by decide, by decide⟩

def oneZero : LastChunk := ⟨['0'], List.forall_mem_singleton.mpr rfl, by decide⟩

/-- The blank that is the whole body is lost. -/
theorem blank_lost : ¬ Decodes chunkedOnly [oneBlank] oneZero [] := by
  intro h
  have hno : chunkedOnly.NoLength := by
    rw [ChunkedHeaders.NoLength]
    decide
  obtain ⟨n, hbody⟩ := recvBody_chunks hno [oneBlank] oneZero [] (by decide)
  rw [Decodes, recvBodyString, hbody, oneZero.recv_one rfl] at h
  revert h
  decide

end GalaLua.Http
