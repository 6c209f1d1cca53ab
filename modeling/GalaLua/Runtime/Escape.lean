import GalaLua.Runtime.ByteArray

/-!
# Escaped text

`CXMLEscape` counts the special characters of a text, allocates six bytes more
for each and writes their entities; `CXMLUnescape` compares the text at every
`&` with the entities it knows. Lengths and positions are of type
`unsigned int`, so a long text is given less memory than its entities take.
-/

namespace GalaLua.Runtime

open Library

namespace CXMLEscape

open CByteArray

def byte (c : Char) : Byte := BitVec.ofNat 8 c.toNat

def ascii (s : String) : List Byte := s.toList.map byte

/-- What the loop writes for a character. -/
def escapeOf (c : Byte) : List Byte :=
  if c = byte '&' then ascii "&amp;"
  else if c = byte '>' then ascii "&gt;"
  else if c = byte '<' then ascii "&lt;"
  else if c = byte '\'' then ascii "&apos;"
  else if c = byte '"' then ascii "&quot;"
  else if c = byte '#' then ascii "&#35;"
  else [c]

/-- The characters that are counted. -/
def special (c : Byte) : Bool :=
  c = byte '&' || c = byte '>' || c = byte '<' || c = byte '\'' || c = byte '"' || c = byte '#'

/-- The characters of `_text` before `length`. -/
def textOf (text : List Byte) (length : BitVec 32) : Outcome (List Byte) :=
  if length.toNat ≤ text.length then .ok (text.take length.toNat) else .error .outOfBounds

/-- The second loop, with `p` as an offset in the array. -/
def write (b : CByteArray) (p : Nat) : List Byte → Outcome (CByteArray × Nat)
  | [] => .ok (b, p)
  | c :: text => do
    let b ← b.memcpy p (escapeOf c)
    write b (p + (escapeOf c).length) text

/-- The constructor; `none` is the null pointer. -/
def new (fresh : Memory) (text : Option (List Byte)) (length : BitVec 32) : Outcome CByteArray :=
  match text with
  | none => .error (.thrown "_Text is null")
  | some text => do
    let s ← textOf text length
    let count := BitVec.ofNat 32 (s.countP special)
    let b ← allocate fresh (length + count * 6)
    let (b, p) ← write b getAt s
    b.setLength (BitVec.ofNat 32 (p - getAt))

end CXMLEscape

namespace CXMLUnescape

open CByteArray CXMLEscape

/-- The entities in the order of their comparison. -/
def entities : List (String × Char) :=
  [("&amp;", '&'), ("&gt;", '>'), ("&lt;", '<'), ("&nbsp;", ' '), ("&apos;", '\''), ("&quot;", '"'), ("&#35;", '#')]

/-- `memcmp` of `s` with the text from `i` on. -/
def compare (text : List Byte) (i : Nat) (s : List Byte) : Outcome Bool :=
  if i + s.length ≤ text.length then .ok (decide ((text.drop i).take s.length = s)) else .error .outOfBounds

/-- The character of the entity at `i`, and the length of the entity. -/
def entityAt (text : List Byte) (i : Nat) : List (String × Char) → Outcome (Byte × Nat)
  | [] => .error (.thrown "Escape error!")
  | (s, c) :: rest => do
    if ← compare text i (ascii s) then .ok (byte c, s.length) else entityAt text i rest

/-- The loop; every turn writes one character. -/
def read (text : List Byte) (length : BitVec 32) : Nat → CByteArray → Nat → BitVec 32 → Outcome (CByteArray × Nat)
  | 0, _, _, _ => .error .fuel
  | fuel + 1, b, p, i =>
    if i < length then
      match text[i.toNat]? with
      | none => .error .outOfBounds
      | some c =>
        if c = byte '&' then do
          let (c, n) ← entityAt text i.toNat entities
          let b ← b.memcpy p [c]
          read text length fuel b (p + 1) (i + BitVec.ofNat 32 n)
        else do
          let b ← b.memcpy p [c]
          read text length fuel b (p + 1) (i + 1)
    else .ok (b, p)

/-- The constructor. All of `text` may be read, also behind `length`. -/
def new (fresh : Memory) (text : Option (List Byte)) (length : BitVec 32) : Outcome CByteArray := do
  let b ← allocate fresh length
  match text with
  | none => .error (.thrown "_Text is null")
  | some text => do
    let (b, p) ← read text length (b.allSize + 1) b getAt 0
    b.setLength (BitVec.ofNat 32 (p - getAt))

end CXMLUnescape

namespace CXMLEscape

open CByteArray

-- ---------------------------------------------------------------------------
-- Round trips
-- ---------------------------------------------------------------------------

def specials : List Byte := [byte '&', byte '>', byte '<', byte '\'', byte '"', byte '#']

/-- Every `&` begins an entity, and neither brackets nor quotes occur. -/
def Escaped (e : List Byte) : Prop :=
  (∀ c ∈ [byte '<', byte '>', byte '"', byte '\''], c ∉ e) ∧
    ∀ i, e[i]? = some (byte '&') → ∃ c ∈ specials, escapeOf c <+: e.drop i

/-- The text is escaped within the allocated size, and reads back as it was. -/
def RoundTrips (fresh fresh' : Memory) (text : List Byte) : Prop :=
  ∃ b u, new fresh (some text) (BitVec.ofNat 32 text.length) = .ok b ∧
    b.length ≤ b.size ∧ Escaped b.data ∧
    CXMLUnescape.new fresh' (some b.region) b.length = .ok u ∧ u.data = text ∧ u.get = text

-- ---------------------------------------------------------------------------
-- Entities
-- ---------------------------------------------------------------------------

variable {text tail : List Byte} {c : Byte} {b b' : CByteArray} {p q : Nat} {fresh fresh' : Memory}

theorem mem_specials : c ∈ specials ↔ special c = true := by
  simp only [specials, special, List.mem_cons, List.not_mem_nil, or_false, Bool.or_eq_true, decide_eq_true_iff,
    or_assoc]

theorem escapeOf_of_not_special (h : special c = false) : escapeOf c = [c] := by
  simp only [special, Bool.or_eq_false_iff, decide_eq_false_iff_not] at h
  obtain ⟨⟨⟨⟨⟨hamp, hgt⟩, hlt⟩, hapos⟩, hquot⟩, hnumber⟩ := h
  rw [escapeOf, if_neg hamp, if_neg hgt, if_neg hlt, if_neg hapos, if_neg hquot, if_neg hnumber]

theorem length_escapeOf : ∀ c ∈ specials, 4 ≤ (escapeOf c).length ∧ (escapeOf c).length ≤ 6 := by decide +kernel

/-- An entity is longer than its character by three to five. -/
theorem length_escaped (text : List Byte) :
    text.length + 3 * text.countP special ≤ (text.flatMap escapeOf).length ∧
      (text.flatMap escapeOf).length ≤ text.length + 5 * text.countP special := by
  induction text with
  | nil => exact ⟨Nat.le_refl _, Nat.le_refl _⟩
  | cons c text ih =>
    rw [List.flatMap_cons, List.length_append, List.length_cons, List.countP_cons]
    cases hc : special c with
    | false =>
      rw [escapeOf_of_not_special hc, List.length_singleton, if_neg (by decide)]
      omega
    | true =>
      have hlength := length_escapeOf c (mem_specials.mpr hc)
      rw [if_pos rfl]
      omega

theorem not_mem_escapeOf : ∀ a ∈ specials, ∀ c ∈ [byte '<', byte '>', byte '"', byte '\''], c ∉ escapeOf a := by
  decide +kernel

theorem head_of_escapeOf : ∀ a ∈ specials, ∀ i < 6, (escapeOf a)[i]? = some (byte '&') → i = 0 := by decide +kernel

theorem escaped_flatMap (text : List Byte) : Escaped (text.flatMap escapeOf) := by
  constructor
  · intro c hc hmem
    obtain ⟨a, -, ha⟩ := List.mem_flatMap.mp hmem
    cases hspecial : special a with
    | true => exact not_mem_escapeOf a (mem_specials.mpr hspecial) c hc ha
    | false =>
      rw [escapeOf_of_not_special hspecial, List.mem_singleton] at ha
      subst ha
      have hall : ∀ c ∈ [byte '<', byte '>', byte '"', byte '\''], special c = true := by decide
      rw [hall c hc] at hspecial
      cases hspecial
  · induction text with
    | nil => intro i hi; cases hi
    | cons a text ih =>
      intro i hi
      rw [List.flatMap_cons] at hi ⊢
      rcases Nat.lt_or_ge i (escapeOf a).length with hlt | hge
      · rw [List.getElem?_append_left hlt] at hi
        cases hspecial : special a with
        | true =>
          have ha := mem_specials.mpr hspecial
          have hzero := head_of_escapeOf a ha i (by have := length_escapeOf a ha; omega) hi
          subst hzero
          exact ⟨a, ha, List.prefix_append _ _⟩
        | false =>
          rw [escapeOf_of_not_special hspecial] at hi hlt
          obtain rfl : i = 0 := Nat.lt_one_iff.mp hlt
          cases hi
          cases hspecial
      · rw [List.getElem?_append_right hge] at hi
        obtain ⟨c, hc, hprefix⟩ := ih _ hi
        refine ⟨c, hc, ?_⟩
        rwa [List.drop_append, List.drop_eq_nil_of_le hge, List.nil_append]

-- ---------------------------------------------------------------------------
-- Writing
-- ---------------------------------------------------------------------------

theorem write_eq_ok {r : CByteArray × Nat} (hp : p ≤ b.allSize) :
    write b p text = .ok r ↔ p + (text.flatMap escapeOf).length ≤ b.allSize ∧
      r = ({ b with buffer := b.buffer.write p (text.flatMap escapeOf) }, p + (text.flatMap escapeOf).length) := by
  induction text generalizing b p with
  | nil =>
    rw [write, List.flatMap_nil, Memory.write_nil]
    exact ⟨fun h => by cases h; exact ⟨hp, rfl⟩, fun h => by rw [h.2]; rfl⟩
  | cons c text ih =>
    rw [write, List.flatMap_cons, List.length_append, ← Nat.add_assoc, ← Memory.write_write_append]
    constructor
    · intro h
      obtain ⟨b₁, h₁, h⟩ := Outcome.bind_eq_ok.mp h
      obtain ⟨hle, rfl⟩ := memcpy_eq_ok.mp h₁
      exact (@ih { b with buffer := b.buffer.write p (escapeOf c) } _ hle).mp h
    · rintro ⟨hle, rfl⟩
      have hle' : p + (escapeOf c).length ≤ b.allSize := Nat.le_trans (Nat.le_add_right _ _) hle
      exact Outcome.bind_eq_ok.mpr ⟨_, memcpy_of_le hle',
        (@ih { b with buffer := b.buffer.write p (escapeOf c) } _ hle').mpr ⟨hle, rfl⟩⟩

theorem toNat_size (n k : Nat) :
    (BitVec.ofNat 32 n + BitVec.ofNat 32 k * 6).toNat = (n + 6 * k) % 2 ^ 32 := by
  have hsix : (6 : BitVec 32) = BitVec.ofNat 32 6 := rfl
  rw [hsix, ← BitVec.ofNat_mul, ← BitVec.ofNat_add, BitVec.toNat_ofNat, Nat.mul_comm]

/-- What is written lies in an array whose size has not wrapped around. -/
theorem lt_of_new (hne : text ≠ []) (hlt : text.length < 2 ^ 32)
    (h : new fresh (some text) (BitVec.ofNat 32 text.length) = .ok b) :
    text.length + 6 * text.countP special + 9 < 2 ^ 32 := by
  obtain ⟨s, hs, h⟩ := Outcome.bind_eq_ok.mp h
  obtain ⟨b₁, h₁, h⟩ := Outcome.bind_eq_ok.mp h
  obtain ⟨r, h₂, -⟩ := Outcome.bind_eq_ok.mp h
  rw [textOf, BitVec.toNat_ofNat, Nat.mod_eq_of_lt hlt, if_pos (Nat.le_refl _), List.take_length] at hs
  cases hs
  obtain ⟨hsize, hget⟩ := allSize_of_allocate h₁
  obtain ⟨hle, -⟩ := (write_eq_ok hget).mp h₂
  rw [toNat_size] at hsize
  have hpos := List.length_pos_iff.mpr hne
  have hlength := (length_escaped text).1
  have hcount := List.countP_le_length (p := special) (l := text)
  rw [hsize, getAt] at hle
  omega

/-- The array of a text of no more than its size: a NUL is left behind the
entities, and a byte more with each of them. -/
theorem new_of_lt (hne : text ≠ []) (hlt : text.length + 6 * text.countP special + 9 < 2 ^ 32) (fresh : Memory) :
    ∃ b tail, new fresh (some text) (BitVec.ofNat 32 text.length) = .ok b ∧ b.length ≤ b.size ∧
      b.length.toNat = (text.flatMap escapeOf).length ∧ b.data = text.flatMap escapeOf ∧
      b.region = text.flatMap escapeOf ++ tail ∧ text.countP special < tail.length := by
  have hpos := List.length_pos_iff.mpr hne
  have hlength := length_escaped text
  obtain ⟨n, hn⟩ : ∃ n, BitVec.ofNat 32 text.length + BitVec.ofNat 32 (text.countP special) * 6 = n := ⟨_, rfl⟩
  have htoNat : n.toNat = text.length + 6 * text.countP special := by
    rw [← hn, toNat_size, Nat.mod_eq_of_lt (by omega)]
  have hnonzero : n ≠ 0 := by
    rintro rfl
    have hzero : (0 : BitVec 32).toNat = 0 := rfl
    omega
  obtain ⟨b, hb, hall, hsize, -⟩ := allocate_of_lt hnonzero (by omega) fresh
  generalize he : text.flatMap escapeOf = e at *
  have hget : getAt ≤ b.allSize := by rw [hall, getAt]; omega
  have hle : getAt + e.length ≤ b.allSize := by rw [hall, getAt]; omega
  have hwrite := (@write_eq_ok text _ _ _ hget).mpr ⟨by rw [he]; exact hle, rfl⟩
  rw [he] at hwrite
  obtain ⟨m, hm⟩ : ∃ m, BitVec.ofNat 32 (getAt + e.length - getAt) = m := ⟨_, rfl⟩
  have hmtoNat : m.toNat = e.length := by
    rw [← hm, Nat.add_sub_cancel_left, BitVec.toNat_ofNat, Nat.mod_eq_of_lt (by omega)]
  let b' : CByteArray := ⟨b.allSize, (b.buffer.write getAt e).write lengthAt (lowBytes 4 m.toNat)⟩
  have hblength : b'.length = m := ofNat_load_write _ _
  have hbsize : b'.size = n := by
    refine (congrArg (BitVec.ofNat 32) ?_).trans hsize
    rw [Memory.load_write_of_apart (.inl (Nat.le_refl 4)), Memory.load_write_of_apart (.inl (by decide))]
  have hread (k : Nat) : b'.buffer.read getAt k = (b.buffer.write getAt e).read getAt k :=
    Memory.read_write_of_apart (.inr (by rw [length_lowBytes]; decide))
  have hdata : b'.buffer.read getAt e.length = e := by
    rw [hread, Memory.read_write (Nat.le_refl _), List.take_length]
  refine ⟨b', b'.buffer.read (getAt + e.length) (b.allSize - getAt - e.length), ?_, ?_, ?_, ?_, ?_, ?_⟩
  · rw [new]
    refine Outcome.bind_eq_ok.mpr ⟨text, ?_, ?_⟩
    · rw [textOf, BitVec.toNat_ofNat, Nat.mod_eq_of_lt (by omega), if_pos (Nat.le_refl _), List.take_length]
    · refine Outcome.bind_eq_ok.mpr ⟨b, by rw [hn]; exact hb, Outcome.bind_eq_ok.mpr ⟨_, hwrite, ?_⟩⟩
      dsimp only
      rw [hm]
      exact setLength_of_le hget
  · rw [hblength, hbsize, BitVec.le_def]
    omega
  · rw [hblength, hmtoNat]
  · rw [data, hblength, hmtoNat, hdata]
  · have hsplit : b.allSize - getAt = e.length + (b.allSize - getAt - e.length) := by omega
    rw [region]
    show b'.buffer.read getAt (b.allSize - getAt) = _
    rw [hsplit, Memory.read_add, hdata, ← hsplit]
  · rw [Memory.length_read, hall, getAt]
    omega

-- ---------------------------------------------------------------------------
-- Reading
-- ---------------------------------------------------------------------------

end CXMLEscape

namespace CXMLUnescape

open CByteArray CXMLEscape

variable {text tail x y s : List Byte} {c : Byte} {b : CByteArray} {p i n fuel : Nat} {length j : BitVec 32}

theorem compare_of_le (hx : text.drop i = x) (hs : s.length ≤ x.length) (hi : i ≤ text.length) :
    compare text i s = .ok (decide (s <+: x)) := by
  have hlength := congrArg List.length hx
  rw [List.length_drop] at hlength
  rw [compare, if_pos (by omega), hx]
  exact congrArg Except.ok (decide_eq_decide.mpr (List.prefix_iff_eq_take.trans eq_comm).symm)

/-- `e` is the entity of `c`, or differs from it before either ends. -/
def Tells (c : Byte) (e : String × Char) : Prop :=
  ascii e.1 = escapeOf c ∧ byte e.2 = c ∨ ¬ascii e.1 <+: escapeOf c ∧ ¬escapeOf c <+: ascii e.1

instance (c : Byte) (e : String × Char) : Decidable (Tells c e) :=
  inferInstanceAs (Decidable (_ ∨ _))

theorem tells_entities : ∀ c ∈ specials, ∀ e ∈ entities, Tells c e ∧ e.1.length ≤ 6 := by decide +kernel

theorem exists_entity : ∀ c ∈ specials, ∃ e ∈ entities, ascii e.1 = escapeOf c := by decide +kernel

theorem entityAt_of_tells (hx : text.drop i = escapeOf c ++ y) (hi : i ≤ text.length)
    (hlong : 6 ≤ (escapeOf c ++ y).length) {es : List (String × Char)}
    (htells : ∀ e ∈ es, Tells c e ∧ e.1.length ≤ 6) (hexists : ∃ e ∈ es, ascii e.1 = escapeOf c) :
    entityAt text i es = .ok (c, (escapeOf c).length) := by
  induction es with
  | nil =>
    obtain ⟨e, he, -⟩ := hexists
    cases he
  | cons e es ih =>
    obtain ⟨s, d⟩ := e
    obtain ⟨htell, hsix⟩ := htells (s, d) List.mem_cons_self
    have hlength : (ascii s).length = s.length := by rw [ascii, List.length_map, String.length_toList]
    rw [entityAt, compare_of_le hx (by rw [hlength]; exact Nat.le_trans hsix hlong) hi]
    rcases htell with ⟨hs, hd⟩ | ⟨hnot, hnot'⟩
    · rw [Outcome.ok_bind, if_pos (decide_eq_true (hs ▸ List.prefix_append _ _)), hd, ← hlength, hs]
    · have hprefix : ¬ascii s <+: escapeOf c ++ y := fun h =>
        (List.prefix_or_prefix_of_prefix h (List.prefix_append _ y)).elim hnot hnot'
      rw [Outcome.ok_bind, if_neg (by rw [decide_eq_true_iff]; exact hprefix)]
      refine ih (fun e he => htells e (List.mem_cons_of_mem _ he)) ?_
      obtain ⟨e, he, hentity⟩ := hexists
      rcases List.mem_cons.mp he with rfl | he
      · exact absurd (hentity ▸ List.prefix_append _ _) hprefix
      · exact ⟨e, he, hentity⟩

theorem entityAt_special (hc : special c = true) (hx : text.drop i = escapeOf c ++ y) (hi : i ≤ text.length)
    (hlong : 6 ≤ (escapeOf c ++ y).length) : entityAt text i entities = .ok (c, (escapeOf c).length) :=
  entityAt_of_tells hx hi hlong (tells_entities c (mem_specials.mpr hc)) (exists_entity c (mem_specials.mpr hc))

theorem head_escapeOf_special : ∀ c ∈ specials, (escapeOf c).head? = some (byte '&') := by decide +kernel

/-- The loop over the entities of `s`, with `tail` behind them. -/
theorem read_escaped (hs : text.drop i = s.flatMap escapeOf ++ tail)
    (hlength : i + (s.flatMap escapeOf).length = length.toNat) (htail : 0 < s.countP special → 2 ≤ tail.length)
    (hp : p + s.length ≤ b.allSize) (hfuel : s.length < fuel) :
    read text length fuel b p (BitVec.ofNat 32 i) =
      .ok ({ b with buffer := b.buffer.write p s }, p + s.length) := by
  induction s generalizing i p b fuel with
  | nil =>
    obtain ⟨fuel, rfl⟩ : ∃ k, fuel = k + 1 := ⟨fuel - 1, by omega⟩
    have hi : (BitVec.ofNat 32 i).toNat = length.toNat := by
      rw [← hlength, BitVec.toNat_ofNat, Nat.mod_eq_of_lt (by have := length.isLt; simp at hlength; omega)]
      rfl
    rw [read, if_neg (by rw [BitVec.lt_def, hi]; exact Nat.lt_irrefl _), Memory.write_nil]
    rfl
  | cons c s ih =>
    obtain ⟨fuel, rfl⟩ : ∃ k, fuel = k + 1 := ⟨fuel - 1, by omega⟩
    rw [List.flatMap_cons, List.append_assoc] at hs
    rw [List.flatMap_cons, List.length_append] at hlength
    rw [List.length_cons] at hp hfuel
    have hbound := length.isLt
    have hi : (BitVec.ofNat 32 i).toNat = i := by rw [BitVec.toNat_ofNat, Nat.mod_eq_of_lt (by omega)]
    have hhead : text[i]? = (escapeOf c ++ (s.flatMap escapeOf ++ tail)).head? := by
      rw [← hs, List.head?_drop]
    have hnext : text.drop (i + (escapeOf c).length) = s.flatMap escapeOf ++ tail := by
      rw [← List.drop_drop, hs, List.drop_left]
    have hrest (hcount : s.countP special ≤ (c :: s).countP special) :
        read text length fuel { b with buffer := b.buffer.write p [c] } (p + 1)
          (BitVec.ofNat 32 (i + (escapeOf c).length)) =
            .ok ({ b with buffer := b.buffer.write p (c :: s) }, p + (c :: s).length) := by
      have hstep := @ih { b with buffer := b.buffer.write p [c] } (p + 1) _ fuel hnext (by omega)
        (fun h => htail (Nat.lt_of_lt_of_le h hcount)) (by show p + 1 + s.length ≤ b.allSize; omega) (by omega)
      rw [hstep, List.length_cons, Nat.add_right_comm, Nat.add_assoc]
      exact congrArg Except.ok (congrArg (·, _) (congrArg _ Memory.write_write_append))
    have hmemcpy : b.memcpy p [c] = .ok { b with buffer := b.buffer.write p [c] } :=
      memcpy_of_le (by rw [List.length_singleton]; omega)
    rw [BitVec.ofNat_add] at hrest
    cases hc : special c with
    | true =>
      obtain ⟨hfour, -⟩ := length_escapeOf c (mem_specials.mpr hc)
      have htwo := htail (by rw [List.countP_cons, if_pos hc]; omega)
      rw [List.head?_append, head_escapeOf_special c (mem_specials.mpr hc), Option.some_or] at hhead
      rw [read, if_pos (by rw [BitVec.lt_def, hi]; omega), hi, hhead]
      dsimp only
      rw [if_pos rfl, entityAt_special hc hs (by have := congrArg List.length hs; simp at this; omega)
        (by simp only [List.length_append]; omega), Outcome.ok_bind]
      dsimp only
      rw [hmemcpy, Outcome.ok_bind]
      exact hrest (by rw [List.countP_cons]; omega)
    | false =>
      have hne : c ≠ byte '&' := by
        rintro rfl
        cases hc
      rw [escapeOf_of_not_special hc] at hhead hrest hlength
      rw [read, if_pos (by rw [BitVec.lt_def, hi, ← hlength, List.length_singleton]; omega), hi, hhead]
      dsimp only [List.cons_append, List.head?_cons]
      rw [if_neg hne, hmemcpy, Outcome.ok_bind]
      exact hrest (by rw [List.countP_cons]; omega)

/-- The array that the entities of `s` are read into. -/
theorem new_of_escaped (hs : text = s.flatMap escapeOf ++ tail) (hlength : length.toNat = (s.flatMap escapeOf).length)
    (htail : s.countP special < tail.length) (hne : s ≠ []) (hlt : length.toNat + 9 < 2 ^ 32) (hnul : 0 ∉ s)
    (fresh : Memory) :
    ∃ u, new fresh (some text) length = .ok u ∧ u.data = s ∧ u.get = s := by
  have hpos := List.length_pos_iff.mpr hne
  have hle := (length_escaped s).1
  have hnonzero : length ≠ 0 := by
    rintro rfl
    have hzero : (0 : BitVec 32).toNat = 0 := rfl
    omega
  obtain ⟨b, hb, hall, -, hclear⟩ := allocate_of_lt hnonzero hlt fresh
  have hget : getAt ≤ b.allSize := by rw [hall, getAt]; omega
  have hread := @read_escaped text tail s b getAt 0 (b.allSize + 1) length hs (by omega) (by omega)
    (by rw [hall, getAt]; omega) (by omega)
  obtain ⟨m, hm⟩ : ∃ m, BitVec.ofNat 32 (getAt + s.length - getAt) = m := ⟨_, rfl⟩
  have hmtoNat : m.toNat = s.length := by
    rw [← hm, Nat.add_sub_cancel_left, BitVec.toNat_ofNat, Nat.mod_eq_of_lt (by omega)]
  let u : CByteArray := ⟨b.allSize, (b.buffer.write getAt s).write lengthAt (lowBytes 4 m.toNat)⟩
  have hdata (k : Nat) : u.buffer.read getAt k = (b.buffer.write getAt s).read getAt k :=
    Memory.read_write_of_apart (.inr (by rw [length_lowBytes]; decide))
  have hbytes : u.buffer.read getAt s.length = s := by
    rw [hdata, Memory.read_write (Nat.le_refl _), List.take_length]
  refine ⟨u, ?_, ?_, ?_⟩
  · refine Outcome.bind_eq_ok.mpr ⟨b, hb, Outcome.bind_eq_ok.mpr ⟨_, hread, ?_⟩⟩
    dsimp only
    rw [hm]
    exact setLength_of_le hget
  · have hulength : u.length = m := ofNat_load_write _ _
    rw [data, hulength, hmtoNat, hbytes]
  · -- the byte behind the text is one of those that were cleared
    obtain ⟨k, hsplit⟩ : ∃ k, b.allSize - getAt = s.length + (1 + k) :=
      ⟨length.toNat - s.length, by rw [hall, getAt]; omega⟩
    have hnull : u.buffer (getAt + s.length) = 0 := by
      have hbyte := congrArg (·[s.length]?) hclear
      rw [Memory.getElem?_read, if_pos (by omega), List.getElem?_replicate, if_pos (by omega)] at hbyte
      rw [← Option.some.inj hbyte]
      have hout : ∀ x, getAt ≤ x → x < lengthAt ∨ lengthAt + (lowBytes 4 m.toNat).length ≤ x := fun x hx => by
        rw [length_lowBytes]
        exact .inr hx
      exact (Memory.write_of_not_mem (hout _ (Nat.le_add_right _ _))).trans
        (Memory.write_of_not_mem (.inr (Nat.le_refl _)))
    have hregion : u.region = s ++ 0 :: u.buffer.read (getAt + s.length + 1) k := by
      rw [region]
      show u.buffer.read getAt (b.allSize - getAt) = _
      rw [hsplit, Memory.read_add, hbytes, Memory.read_add, ← hnull]
      rfl
    rw [CByteArray.get, hregion, List.takeWhile_append_of_pos, List.takeWhile_cons_of_neg (by decide), List.append_nil]
    exact fun c hc => decide_eq_true fun hzero => hnul (hzero ▸ hc)

end CXMLUnescape

namespace CXMLEscape

variable {text : List Byte} {fresh fresh' : Memory}

/-- Of a text whose length does not fit, only the front part is taken. -/
theorem new_take (fresh : Memory) (text : List Byte) :
    new fresh (some text) (BitVec.ofNat 32 text.length) =
      new fresh (some (text.take (text.length % 2 ^ 32)))
        (BitVec.ofNat 32 (text.take (text.length % 2 ^ 32)).length) := by
  have hmod : text.length % 2 ^ 32 ≤ text.length := Nat.mod_le _ _
  have htake : (text.take (text.length % 2 ^ 32)).length = text.length % 2 ^ 32 := by
    rw [List.length_take, Nat.min_eq_left hmod]
  have hlength : BitVec.ofNat 32 (text.length % 2 ^ 32) = BitVec.ofNat 32 text.length :=
    BitVec.eq_of_toNat_eq (by rw [BitVec.toNat_ofNat, BitVec.toNat_ofNat, Nat.mod_mod])
  have htextOf : textOf (text.take (text.length % 2 ^ 32)) (BitVec.ofNat 32 text.length) =
      textOf text (BitVec.ofNat 32 text.length) := by
    rw [textOf, textOf, BitVec.toNat_ofNat, if_pos hmod, if_pos (Nat.le_of_eq htake.symm), List.take_take,
      Nat.min_self]
  rw [htake, hlength, new, new]
  dsimp only
  rw [htextOf]

/-- A text that reads back is short enough for its size and nine bytes. -/
theorem RoundTrips.lt (h : RoundTrips fresh fresh' text) (hne : text ≠ []) (hnul : 0 ∉ text) :
    text.length + 6 * text.countP special + 9 < 2 ^ 32 := by
  obtain ⟨b, u, hb, -, -, hu, hudata, -⟩ := h
  rcases Nat.lt_or_ge text.length (2 ^ 32) with hlt | hge
  · exact lt_of_new hne hlt hb
  · rw [new_take] at hb
    have hmod : text.length % 2 ^ 32 < 2 ^ 32 := Nat.mod_lt _ (by decide)
    have htake : (text.take (text.length % 2 ^ 32)).length < 2 ^ 32 :=
      Nat.lt_of_le_of_lt (List.length_take_le _ _) hmod
    have hnul' : 0 ∉ text.take (text.length % 2 ^ 32) := fun hmem => hnul (List.mem_of_mem_take hmem)
    have hdata : u.data = text.take (text.length % 2 ^ 32) := by
      generalize text.take (text.length % 2 ^ 32) = s at *
      by_cases hs : s = []
      · subst hs
        cases hb
      · have hlt := lt_of_new hs htake hb
        obtain ⟨b', tail, hb', -, hlength, -, hregion, htail⟩ := new_of_lt hs hlt fresh
        rw [hb] at hb'
        cases hb'
        obtain ⟨u', hu', hudata', -⟩ := CXMLUnescape.new_of_escaped hregion hlength htail hs
          (by rw [hlength]; have := length_escaped s; omega) hnul' fresh'
        rw [hu] at hu'
        cases hu'
        exact hudata'
    have hlength := congrArg List.length (hdata.symm.trans hudata)
    omega

/-- A text reads back if and only if the size for its entities does not wrap around. -/
theorem roundTrips_iff (fresh fresh' : Memory) (text : List Byte) (hne : text ≠ []) (hnul : 0 ∉ text) :
    RoundTrips fresh fresh' text ↔ text.length + 6 * text.countP special + 9 < 2 ^ 32 := by
  refine ⟨fun h => h.lt hne hnul, fun hlt => ?_⟩
  obtain ⟨b, tail, hb, hle, hlength, hdata, hregion, htail⟩ := new_of_lt hne hlt fresh
  obtain ⟨u, hu, hudata, hget⟩ := CXMLUnescape.new_of_escaped hregion hlength htail hne
    (by rw [hlength]; have := length_escaped text; omega) hnul fresh'
  exact ⟨b, u, hb, hle, hdata ▸ escaped_flatMap text, hu, hudata, hget⟩

theorem tag_roundTrips : (ascii "<a b='#&amp;'>").countP special = 6 ∧
    RoundTrips (fun _ => 0xcc) (fun _ => 0xcd) (ascii "<a b='#&amp;'>") :=
  ⟨by decide +kernel, (roundTrips_iff _ _ _ (by decide) (by decide +kernel)).mpr (by decide +kernel)⟩

/-- A text of ampersands only, whose size is 3. -/
theorem many_ampersands : ¬∀ fresh fresh' text, text ≠ [] → 0 ∉ text → RoundTrips fresh fresh' text := by
  intro h
  have hne : List.replicate 613566757 (byte '&') ≠ [] := by
    rw [Ne, List.replicate_eq_nil_iff]
    decide
  have hnul : 0 ∉ List.replicate 613566757 (byte '&') := fun hmem =>
    absurd (List.eq_of_mem_replicate hmem) (by decide)
  have hlt := (h (fun _ => 0) (fun _ => 0) _ hne hnul).lt hne hnul
  rw [List.countP_replicate, if_pos (by decide), List.length_replicate] at hlt
  omega

end CXMLEscape

end GalaLua.Runtime
