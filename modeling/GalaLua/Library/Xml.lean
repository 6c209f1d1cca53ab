import Mathlib.Data.List.Infix
import Mathlib.Data.List.Nodup

/-!
# XML fragments

The grammar of the content of an element in XML 1.0, for a reader without a DTD: tags,
character data, references, CDATA sections, comments and processing instructions. A text
is the list of its bytes in UTF-8, each as a character.
-/

namespace GalaLua.Library.Xml

abbrev Text := List Char

-- ---------------------------------------------------------------------------
-- Characters
-- ---------------------------------------------------------------------------

def utf8 (c : Char) : Text := (String.utf8EncodeChar c).map fun b => Char.ofNat b.toNat

def Spelled (P : Char → Prop) (s : Text) : Prop := ∃ cs : List Char, s = cs.flatMap utf8 ∧ ∀ c ∈ cs, P c

/-- The production `Char`; a surrogate is no character here. -/
def IsChar (c : Char) : Prop :=
  c ∈ ['\t', '\n', '\r'] ∨ 0x20 ≤ c.toNat ∧ c.toNat ≠ 0xFFFE ∧ c.toNat ≠ 0xFFFF

instance (c : Char) : Decidable (IsChar c) := inferInstanceAs (Decidable (_ ∨ _))

def inRanges (rs : List (Nat × Nat)) (c : Char) : Bool := rs.any fun r => r.1 ≤ c.toNat && c.toNat ≤ r.2

def nameStart (c : Char) : Bool :=
  inRanges [(0x3A, 0x3A), (0x41, 0x5A), (0x5F, 0x5F), (0x61, 0x7A), (0xC0, 0xD6), (0xD8, 0xF6), (0xF8, 0x2FF),
    (0x370, 0x37D), (0x37F, 0x1FFF), (0x200C, 0x200D), (0x2070, 0x218F), (0x2C00, 0x2FEF), (0x3001, 0xD7FF),
    (0xF900, 0xFDCF), (0xFDF0, 0xFFFD), (0x10000, 0xEFFFF)] c

def nameChar (c : Char) : Bool :=
  nameStart c ||
    inRanges [(0x2D, 0x2E), (0x30, 0x39), (0xB7, 0xB7), (0x300, 0x36F), (0x203F, 0x2040)] c

def Name (s : Text) : Prop :=
  ∃ c cs, s = (c :: cs).flatMap utf8 ∧ nameStart c = true ∧ ∀ c ∈ cs, nameChar c = true

def blank (c : Char) : Bool := c ∈ [' ', '\t', '\n', '\r']

def Blank (s : Text) : Prop := ∀ c ∈ s, blank c = true

/-- The ends of lines as a reader passes them on. -/
def eol : Text → Text
  | '\r' :: '\n' :: s => '\n' :: eol s
  | '\r' :: s => '\n' :: eol s
  | c :: s => c :: eol s
  | [] => []

-- ---------------------------------------------------------------------------
-- References
-- ---------------------------------------------------------------------------

def entities : List (Text × Char) :=
  [("lt".toList, '<'), ("gt".toList, '>'), ("amp".toList, '&'), ("apos".toList, '\''), ("quot".toList, '"')]

def digit (c : Char) : Nat :=
  if c.toNat ≤ 0x39 then c.toNat - 0x30 else if c.toNat ≤ 0x46 then c.toNat - 0x37 else c.toNat - 0x57

def number (base : Nat) (ds : Text) : Nat := ds.foldl (fun n d => n * base + digit d) 0

def decimalDigit (c : Char) : Bool := inRanges [(0x30, 0x39)] c

def hexDigit (c : Char) : Bool := inRanges [(0x30, 0x39), (0x41, 0x46), (0x61, 0x66)] c

/-- A reference and what it stands for. -/
inductive Reference : Text → Text → Prop
  | entity {name : Text} {c : Char} (h : (name, c) ∈ entities) : Reference ('&' :: (name ++ [';'])) [c]
  | decimal {ds : Text} {c : Char} (hne : ds ≠ []) (hds : ∀ d ∈ ds, decimalDigit d = true)
      (hc : number 10 ds = c.toNat) (hchar : IsChar c) : Reference ('&' :: '#' :: (ds ++ [';'])) (utf8 c)
  | hex {ds : Text} {c : Char} (hne : ds ≠ []) (hds : ∀ d ∈ ds, hexDigit d = true)
      (hc : number 16 ds = c.toNat) (hchar : IsChar c) : Reference ('&' :: '#' :: 'x' :: (ds ++ [';'])) (utf8 c)

-- ---------------------------------------------------------------------------
-- Tags
-- ---------------------------------------------------------------------------

/-- A piece of an attribute value between the quotes `q`, and what is read for it. -/
inductive ValueDatum (q : Char) : Text → Text → Prop
  | char {c : Char} (hchar : IsChar c) (hc : c ∉ [q, '<', '&', '\t', '\n', '\r']) : ValueDatum q (utf8 c) (utf8 c)
  | reference {u w : Text} (h : Reference u w) : ValueDatum q u w
  | white {c : Char} (hc : c ∈ ['\t', '\n', '\r']) : ValueDatum q [c] [' ']
  | line : ValueDatum q ['\r', '\n'] [' ']

inductive Value (q : Char) : Text → Text → Prop
  | nil : Value q [] []
  | cons {u w s t : Text} (h : ValueDatum q u w) (hline : u = ['\r'] → s.head? ≠ some '\n') (rest : Value q s t) :
      Value q (u ++ s) (w ++ t)

inductive Attributes : Text → List (Text × Text) → Prop
  | nil : Attributes [] []
  | cons {b name b₁ b₂ u v s : Text} {q : Char} {as : List (Text × Text)} (hb : Blank b) (hne : b ≠ [])
      (hname : Name name) (hb₁ : Blank b₁) (hb₂ : Blank b₂) (hq : q ∈ ['"', '\'']) (hv : Value q u v)
      (rest : Attributes s as) :
      Attributes (b ++ (name ++ (b₁ ++ '=' :: (b₂ ++ q :: (u ++ q :: s))))) ((name, v) :: as)

/-- A start tag, or an empty-element tag, by what it ends in. -/
inductive Tag (ending : Text) : Text → Text → List (Text × Text) → Prop
  | mk {name s b : Text} {as : List (Text × Text)} (hname : Name name) (has : Attributes s as)
      (hunique : (as.map Prod.fst).Nodup) (hb : Blank b) : Tag ending ('<' :: (name ++ (s ++ (b ++ ending)))) name as

def StartTag : Text → Text → List (Text × Text) → Prop := Tag ['>']

def EmptyTag : Text → Text → List (Text × Text) → Prop := Tag ['/', '>']

inductive EndTag : Text → Text → Prop
  | mk {name b : Text} (hname : Name name) (hb : Blank b) : EndTag ('<' :: '/' :: (name ++ (b ++ ['>']))) name

-- ---------------------------------------------------------------------------
-- Content
-- ---------------------------------------------------------------------------

def cdataStart : Text := "<![CDATA[".toList

def cdataEnd : Text := "]]>".toList

/-- A piece of the text of an element, and what is read for it. -/
inductive Datum : Text → Text → Prop
  | char {c : Char} (hchar : IsChar c) (hc : c ∉ ['<', '&', '\r']) : Datum (utf8 c) (utf8 c)
  | reference {u w : Text} (h : Reference u w) : Datum u w
  | white : Datum ['\r'] ['\n']
  | line : Datum ['\r', '\n'] ['\n']
  | cdata {x : Text} (hx : Spelled IsChar x) (hend : ¬ cdataEnd <:+: x ++ "]]".toList) :
      Datum (cdataStart ++ (x ++ cdataEnd)) (eol x)

/-- Comments and processing instructions. -/
inductive Skipped : Text → Prop
  | comment {x : Text} (hx : Spelled IsChar x) (hend : ¬ "--".toList <:+: x ++ "-".toList) :
      Skipped ("<!--".toList ++ (x ++ "-->".toList))
  | instruction {target x : Text} (hname : Name target) (hxml : target.map Char.toLower ≠ "xml".toList)
      (hx : Spelled IsChar x) (hblank : ∀ c ∈ x.head?, blank c = true) (hend : ¬ "?>".toList <:+: x ++ "?".toList) :
      Skipped ("<?".toList ++ (target ++ (x ++ "?>".toList)))

inductive Node
  | text (s : Text)
  | element (name : Text) (attributes : List (Text × Text)) (content : List Node)

/-- What may follow a piece: no `]]>` is text, and a CR takes a LF with it. -/
structure Apart (u s : Text) : Prop where
  noEnd : ¬ cdataEnd <+: u ++ s
  line : u = ['\r'] → s.head? ≠ some '\n'

/-- A text is the content that consists of the nodes. -/
inductive Content : Text → List Node → Prop
  | nil : Content [] []
  | datum {u w s : Text} {ns : List Node} (h : Datum u w) (hapart : Apart u s) (rest : Content s ns) :
      Content (u ++ s) (.text w :: ns)
  | skipped {u s : Text} {ns : List Node} (h : Skipped u) (rest : Content s ns) : Content (u ++ s) ns
  | element {u body z s name : Text} {as : List (Text × Text)} {content ns : List Node} (hstart : StartTag u name as)
      (hbody : Content body content) (hend : EndTag z name) (rest : Content s ns) :
      Content (u ++ (body ++ (z ++ s))) (.element name as content :: ns)
  | empty {u s name : Text} {as : List (Text × Text)} {ns : List Node} (h : EmptyTag u name as) (rest : Content s ns) :
      Content (u ++ s) (.element name as [] :: ns)

/-- The text of an element without that of the elements in it. -/
def textOf : List Node → Text
  | [] => []
  | .text s :: ns => s ++ textOf ns
  | .element _ _ _ :: ns => textOf ns

-- ---------------------------------------------------------------------------
-- Bytes
-- ---------------------------------------------------------------------------

variable {c q : Char} {s t u w x name : Text} {ns : List Node} {as : List (Text × Text)}

theorem toNat_ofNat_byte (b : UInt8) : (Char.ofNat b.toNat).toNat = b.toNat := by
  have hvalid : b.toNat.isValidChar := .inl (Nat.lt_trans b.toNat_lt (by decide))
  rw [Char.ofNat, dif_pos hvalid]
  rfl

theorem utf8_ascii (h : c.toNat < 0x80) : utf8 c = [c] := by
  have hle : c.val.toNat ≤ 0x7f := Nat.le_of_lt_succ h
  have hbyte : (UInt8.ofNat c.val.toNat).toNat = c.toNat := Nat.mod_eq_of_lt (Nat.lt_trans h (by decide))
  rw [utf8, String.utf8EncodeChar, if_pos hle, List.map_singleton, hbyte, Char.ofNat_toNat]

theorem utf8_high (h : 0x80 ≤ c.toNat) : ∀ b ∈ utf8 c, 0x80 ≤ b.toNat := by
  have hlt : ¬ c.val.toNat ≤ 0x7f := Nat.not_le.mpr h
  intro b hb
  obtain ⟨byte, hbyte, rfl⟩ := List.mem_map.mp hb
  rw [toNat_ofNat_byte]
  simp only [String.utf8EncodeChar, if_neg hlt] at hbyte
  split at hbyte
  · simp only [List.mem_cons, List.not_mem_nil, or_false] at hbyte
    rcases hbyte with rfl | rfl <;> rw [UInt8.toNat_ofNat'] <;> omega
  · split at hbyte
    · simp only [List.mem_cons, List.not_mem_nil, or_false] at hbyte
      rcases hbyte with rfl | rfl | rfl <;> rw [UInt8.toNat_ofNat'] <;> omega
    · simp only [List.mem_cons, List.not_mem_nil, or_false] at hbyte
      rcases hbyte with rfl | rfl | rfl | rfl <;> rw [UInt8.toNat_ofNat'] <;> omega

theorem utf8_length_le (c : Char) : (utf8 c).length ≤ 4 := by
  rw [utf8, List.length_map, String.length_utf8EncodeChar]
  exact Char.utf8Size_le_four c

theorem utf8_ne_nil (c : Char) : utf8 c ≠ [] := fun h =>
  String.utf8EncodeChar_ne_nil (List.map_eq_nil_iff.mp h)

theorem mem_utf8 {b : Char} (h : b ∈ utf8 c) : b = c ∨ 0x80 ≤ b.toNat := by
  by_cases hc : c.toNat < 0x80
  · rw [utf8_ascii hc] at h
    exact .inl (List.mem_singleton.mp h)
  · exact .inr (utf8_high (Nat.not_lt.mp hc) b h)

theorem Spelled.byte {P : Char → Prop} {b : Char} (h : Spelled P s) (hb : b ∈ s) : P b ∨ 0x80 ≤ b.toNat := by
  obtain ⟨cs, rfl, hcs⟩ := h
  obtain ⟨c, hc, hb⟩ := List.mem_flatMap.mp hb
  rcases mem_utf8 hb with rfl | hhigh
  · exact .inl (hcs b hc)
  · exact .inr hhigh

theorem Spelled.nil {P : Char → Prop} : Spelled P [] := ⟨[], rfl, by simp⟩

theorem Spelled.cons {P : Char → Prop} (hc : P c) (h : Spelled P s) : Spelled P (utf8 c ++ s) := by
  obtain ⟨cs, rfl, hcs⟩ := h
  exact ⟨c :: cs, rfl, List.forall_mem_cons.mpr ⟨hc, hcs⟩⟩

theorem Name.spelled (h : Name s) : Spelled (fun c => nameChar c = true) s := by
  obtain ⟨c, cs, rfl, hc, hcs⟩ := h
  have hfirst : nameChar c = true := by rw [nameChar, hc, Bool.true_or]
  exact ⟨c :: cs, rfl, List.forall_mem_cons.mpr ⟨hfirst, hcs⟩⟩

theorem Name.ne_nil (h : Name s) : s ≠ [] := by
  obtain ⟨c, cs, rfl, -⟩ := h
  rw [List.flatMap_cons]
  exact List.append_ne_nil_of_left_ne_nil (utf8_ne_nil c) _

theorem Name.notMem (h : Name s) (hlow : c.toNat < 0x80) (hc : nameChar c = false) : c ∉ s := fun hmem => by
  rcases h.spelled.byte hmem with hname | hhigh
  · rw [hc] at hname
    cases hname
  · exact Nat.not_le.mpr hlow hhigh

theorem eol_length_le (s : Text) : (eol s).length ≤ s.length := by
  fun_induction eol s with
  | case1 s ih => simp only [List.length_cons]; omega
  | case2 s _ ih => simp only [List.length_cons]; omega
  | case3 c s _ _ ih => simp only [List.length_cons]; omega
  | case4 => exact Nat.le_refl _

/-- A reference is longer than what it stands for. -/
theorem Reference.length_lt (h : Reference u w) : w.length < u.length := by
  cases h with
  | entity h => simp only [List.length_cons, List.length_append, List.length_nil]; omega
  | @decimal ds c hne hds hc hchar =>
    simp only [List.length_cons, List.length_append, List.length_nil]
    match ds, hne, hds, hc with
    | [d], _, hds, hc =>
      have hd := hds d List.mem_cons_self
      have hlow : c.toNat < 0x80 := by
        simp only [decimalDigit, inRanges, List.any_cons, List.any_nil, Bool.or_false, Bool.and_eq_true,
          decide_eq_true_eq] at hd
        rw [← hc]
        simp only [number, List.foldl_cons, List.foldl_nil, digit, if_pos hd.2]
        omega
      rw [utf8_ascii hlow]
      simp
    | d :: d' :: ds, _, _, _ =>
      have hle := utf8_length_le c
      simp only [List.length_cons]
      omega
  | @hex ds c hne hds hc hchar =>
    have hle := utf8_length_le c
    have hpos := List.length_pos_of_ne_nil hne
    simp only [List.length_cons, List.length_append, List.length_nil]
    omega

-- ---------------------------------------------------------------------------
-- Literal text
-- ---------------------------------------------------------------------------

structure CharData (s : Text) : Prop where
  spelled : Spelled (fun c => IsChar c ∧ c ∉ ['<', '&', '\r']) s
  noEnd : ¬ cdataEnd <:+: s

/-- A value that is read as it stands between double quotes. -/
def AttChars (s : Text) : Prop := Spelled (fun c => IsChar c ∧ c ∉ ['"', '<', '&', '\t', '\n', '\r']) s

theorem Datum.length_le (h : Datum u w) : w.length ≤ u.length := by
  cases h with
  | char => exact Nat.le_refl _
  | reference h => exact h.length_lt.le
  | white => exact Nat.le_refl _
  | line => decide
  | @cdata x hx hend =>
    have hle := eol_length_le x
    simp only [List.length_append]
    omega

theorem Datum.literal (h : Datum u w) (heq : w = u) : ∃ c, u = utf8 c ∧ IsChar c ∧ c ∉ ['<', '&', '\r'] := by
  have hlength := congrArg List.length heq
  cases h with
  | @char c hchar hc => exact ⟨c, rfl, hchar, hc⟩
  | reference h => exact absurd hlength h.length_lt.ne
  | white => exact absurd heq (by decide)
  | line => exact absurd heq (by decide)
  | @cdata x hx hend =>
    have hle := eol_length_le x
    have hstart : cdataStart.length = 9 := rfl
    simp only [List.length_append] at hlength
    omega

theorem ValueDatum.length_le (h : ValueDatum q u w) : w.length ≤ u.length := by
  cases h with
  | char => exact Nat.le_refl _
  | reference h => exact h.length_lt.le
  | white => exact Nat.le_refl _
  | line => exact Nat.le_succ 1

theorem ValueDatum.literal (h : ValueDatum q u w) (heq : w = u) :
    ∃ c, u = utf8 c ∧ IsChar c ∧ c ∉ [q, '<', '&', '\t', '\n', '\r'] := by
  have hlength := congrArg List.length heq
  cases h with
  | @char c hchar hc => exact ⟨c, rfl, hchar, hc⟩
  | reference h => exact absurd hlength h.length_lt.ne
  | @white c hc =>
    obtain rfl : ' ' = c := (List.cons.inj heq).1
    exact absurd hc (by decide)
  | line => exact absurd heq (by decide)

theorem Value.length_le (h : Value q u w) : w.length ≤ u.length := by
  induction h with
  | nil => exact Nat.le_refl _
  | cons h _ _ ih =>
    have hle := h.length_le
    simp only [List.length_append]
    omega

/-- Two texts of which the first parts are no longer, and the second parts no longer. -/
theorem append_eq_of_length_le {a b a' b' : Text} (h : a ++ b = a' ++ b') (ha : a.length ≤ a'.length)
    (hb : b.length ≤ b'.length) : a = a' ∧ b = b' := by
  have hlength := congrArg List.length h
  simp only [List.length_append] at hlength
  exact List.append_inj h (by omega)

theorem Value.literal (h : Value '"' u w) (heq : w = u) : AttChars u := by
  induction h with
  | nil => exact Spelled.nil
  | cons h _ hrest ih =>
    obtain ⟨hfirst, hrest⟩ := append_eq_of_length_le heq h.length_le hrest.length_le
    obtain ⟨c, rfl, hc⟩ := h.literal hfirst
    exact (ih hrest).cons hc

-- ---------------------------------------------------------------------------
-- The length of tags
-- ---------------------------------------------------------------------------

/-- The least number of bytes that the attributes take. -/
def attLength : List (Text × Text) → Nat
  | [] => 0
  | a :: as => a.1.length + a.2.length + 4 + attLength as

theorem Attributes.length_le (h : Attributes s as) : attLength as ≤ s.length := by
  induction h with
  | nil => exact Nat.le_refl _
  | cons hb hne hname hb₁ hb₂ hq hv hrest ih =>
    have hle := hv.length_le
    have hpos := List.length_pos_of_ne_nil hne
    simp only [attLength, List.length_append, List.length_cons] at ih ⊢
    omega

theorem Tag.length_le {ending : Text} (h : Tag ending u name as) :
    1 + name.length + attLength as + ending.length ≤ u.length := by
  cases h with
  | mk hname has hunique hb =>
    have hle := has.length_le
    simp only [List.length_cons, List.length_append]
    omega

theorem Tag.starts {ending : Text} (h : Tag ending u name as) : ∃ v, u = '<' :: v := by
  cases h with
  | mk => exact ⟨_, rfl⟩

theorem Tag.ends {ending : Text} (h : Tag ending u name as) : ∃ v, u = v ++ ending := by
  cases h with
  | @mk _ s b _ hname has hunique hb => exact ⟨'<' :: (name ++ (s ++ b)), by simp⟩

theorem Tag.isName {ending : Text} (h : Tag ending u name as) : Name name := by
  cases h with
  | mk hname => exact hname

theorem EndTag.length_le (h : EndTag u name) : name.length + 3 ≤ u.length := by
  cases h with
  | mk hname hb =>
    simp only [List.length_cons, List.length_append, List.length_nil]
    omega

theorem EndTag.ends (h : EndTag u name) : ∃ v, u = v ++ ['>'] := by
  cases h with
  | @mk _ b hname hb => exact ⟨'<' :: '/' :: (name ++ b), by simp⟩

theorem EndTag.starts (h : EndTag u name) : ∃ v, u = '<' :: v := by
  cases h with
  | mk => exact ⟨_, rfl⟩

-- ---------------------------------------------------------------------------
-- The text of content
-- ---------------------------------------------------------------------------

theorem Skipped.length_pos (h : Skipped u) : 0 < u.length := by
  cases h with
  | comment => simp
  | instruction => simp

theorem Content.length_le (h : Content s ns) : (textOf ns).length ≤ s.length := by
  induction h with
  | nil => exact Nat.le_refl _
  | datum h hapart hrest ih =>
    have hle := h.length_le
    simp only [textOf, List.length_append]
    omega
  | skipped h hrest ih =>
    simp only [List.length_append]
    omega
  | element hstart hbody hend hrest ihbody ih =>
    simp only [textOf, List.length_append]
    omega
  | empty h hrest ih =>
    simp only [textOf, List.length_append]
    omega

theorem infix_append {p : Text} (h : p <:+: u ++ s) (hne : p ≠ []) (hu : ∀ c ∈ p.head?, c ∉ u) : p <:+: s := by
  induction u with
  | nil => exact h
  | cons c u ih =>
    rw [List.cons_append, List.infix_cons_iff] at h
    rcases h with hstart | hrest
    · obtain ⟨d, p, rfl⟩ := List.exists_cons_of_ne_nil hne
      exact absurd (List.cons_prefix_cons.mp hstart).1 fun heq => hu d rfl (heq ▸ List.mem_cons_self)
    · exact ih hrest fun d hd hmem => hu d hd (List.mem_cons_of_mem c hmem)

theorem CharData.nil : CharData [] := ⟨Spelled.nil, by decide⟩

theorem CharData.cons (hc : IsChar c ∧ c ∉ ['<', '&', '\r']) (hapart : ¬ cdataEnd <+: utf8 c ++ s) (h : CharData s) :
    CharData (utf8 c ++ s) := by
  refine ⟨h.spelled.cons hc, fun hfound => h.noEnd ?_⟩
  by_cases hlow : c.toNat < 0x80
  · rw [utf8_ascii hlow] at hfound hapart
    exact (List.infix_cons_iff.mp hfound).resolve_left hapart
  · refine infix_append hfound (by decide) fun d hd hmem => ?_
    obtain rfl : ']' = d := Option.some.inj hd
    exact absurd (utf8_high (Nat.not_lt.mp hlow) _ hmem) (by decide)

/-- Content whose text is the whole of it has no elements, and nothing in it is read as
something else. -/
theorem Content.literal (h : Content s ns) (heq : textOf ns = s) : CharData s ∧ ∀ n ∈ ns, ∃ w, n = .text w := by
  induction h with
  | nil => exact ⟨CharData.nil, by simp⟩
  | datum h hapart hrest ih =>
    obtain ⟨hfirst, hrest⟩ := append_eq_of_length_le heq h.length_le hrest.length_le
    obtain ⟨c, rfl, hc⟩ := h.literal hfirst
    obtain ⟨hdata, htext⟩ := ih hrest
    exact ⟨hdata.cons hc hapart.noEnd, List.forall_mem_cons.mpr ⟨⟨_, rfl⟩, htext⟩⟩
  | skipped h hrest ih =>
    have hlength := congrArg List.length heq
    have hle := hrest.length_le
    have hpos := h.length_pos
    simp only [List.length_append] at hlength
    omega
  | element hstart hbody hend hrest ihbody ih =>
    have hlength := congrArg List.length heq
    have hle := hrest.length_le
    have hpos := hstart.length_le
    simp only [textOf, List.length_append] at hlength
    omega
  | empty h hrest ih =>
    have hlength := congrArg List.length heq
    have hle := hrest.length_le
    have hpos := h.length_le
    simp only [textOf, List.length_append] at hlength
    omega

end GalaLua.Library.Xml
