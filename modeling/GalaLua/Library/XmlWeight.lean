import GalaLua.Library.XmlLayout
import Mathlib.Algebra.GroupWithZero.Nat

/-!
# The weight of documents

An element takes a slash in the text that it is read from and an attribute takes an equals
sign, and the strings that are read have no more of these characters than what they are
read from. So what was printed for some elements is not read as more of them, or as
elements with more attributes (`Reads.weight_le`).
-/

namespace GalaLua.Library.Xml

-- ---------------------------------------------------------------------------
-- Marks
-- ---------------------------------------------------------------------------

/-- The characters that are counted; for the `&` of a reference any of them may be read. -/
def mark (c : Char) : Bool := c ∈ ['/', '=', '&']

def marks (s : Text) : Nat := s.countP mark

def attWeight (as : List (Text × Text)) : Nat := (as.map fun a => 1 + marks a.2).sum

mutual

def Shape.weight : Shape → Nat
  | .mk _ as v children => 1 + attWeight as + marks (v.getD []) + weight children

def weight : List Shape → Nat
  | [] => 0
  | shape :: shapes => shape.weight + weight shapes

end

variable {g : Text → Text} {c q : Char} {s u w x y z name ending : Text} {as : List (Text × Text)} {ns : List Node}
variable {shapes printed : List Shape} {p : Piece} {ls : List Line}

@[simp] theorem marks_nil : marks [] = 0 := rfl

@[simp] theorem marks_append (s u : Text) : marks (s ++ u) = marks s + marks u := List.countP_append

@[simp] theorem marks_cons (c : Char) (s : Text) : marks (c :: s) = marks s + if mark c then 1 else 0 :=
  List.countP_cons

theorem marks_eq_zero (h : ∀ c ∈ s, mark c = false) : marks s = 0 :=
  List.countP_eq_zero.mpr fun c hc => by rw [h c hc]; exact Bool.false_ne_true

theorem weight_append (as bs : List Shape) : weight (as ++ bs) = weight as + weight bs := by
  induction as with
  | nil => exact (Nat.zero_add _).symm
  | cons a as ih => rw [List.cons_append, weight, weight, ih, Nat.add_assoc]

theorem weight_pos (h : shapes ≠ []) : 0 < weight shapes := by
  obtain ⟨⟨name, as, v, children⟩, rest, rfl⟩ := List.exists_cons_of_ne_nil h
  rw [weight, Shape.weight]
  omega

theorem Blank.marks (h : Blank s) : marks s = 0 := by
  refine marks_eq_zero fun c hc => ?_
  have hblank := h c hc
  simp only [blank, decide_eq_true_eq, List.mem_cons, List.not_mem_nil, or_false] at hblank
  rcases hblank with rfl | rfl | rfl | rfl <;> rfl

theorem Name.marks (h : Name s) : marks s = 0 := by
  refine marks_eq_zero fun c hc => ?_
  by_contra hmark
  simp only [mark, Bool.not_eq_false, decide_eq_true_eq, List.mem_cons, List.not_mem_nil, or_false] at hmark
  rcases hmark with rfl | rfl | rfl <;> exact h.notMem (by decide) (by decide) hc

theorem marks_utf8_le (c : Char) : marks (utf8 c) ≤ 1 := by
  by_cases hlow : c.toNat < 0x80
  · rw [utf8_ascii hlow]
    exact List.countP_le_length
  · have hnone : marks (utf8 c) = 0 := by
      refine marks_eq_zero fun b hb => ?_
      have hhigh := utf8_high (Nat.not_lt.mp hlow) b hb
      by_contra hmark
      simp only [mark, Bool.not_eq_false, decide_eq_true_eq, List.mem_cons, List.not_mem_nil, or_false] at hmark
      rcases hmark with rfl | rfl | rfl <;> exact absurd hhigh (by decide)
    omega

-- ---------------------------------------------------------------------------
-- What is read
-- ---------------------------------------------------------------------------

theorem Reference.marks_le (h : Reference u w) : marks w ≤ marks u := by
  have hamp (s : Text) : 1 ≤ marks ('&' :: s) := by
    have hmark : mark '&' = true := rfl
    rw [marks_cons, if_pos hmark]
    exact Nat.le_add_left 1 _
  cases h with
  | entity => exact le_trans List.countP_le_length (hamp _)
  | decimal | hex => exact (marks_utf8_le _).trans (hamp _)

theorem marks_eol (s : Text) : marks (eol s) = marks s := by
  fun_induction eol s with
  | case1 s ih => simp [ih, mark]
  | case2 s _ ih => simp [ih, mark]
  | case3 c s _ _ ih => simp [ih]
  | case4 => rfl

theorem Datum.marks_le (h : Datum u w) : marks w ≤ marks u := by
  cases h with
  | char => exact Nat.le_refl _
  | reference h => exact h.marks_le
  | white => exact Nat.le_refl _
  | line => exact Nat.le_refl _
  | @cdata x =>
    rw [marks_append, marks_append, marks_eol]
    omega

theorem ValueDatum.marks_le (h : ValueDatum q u w) : marks w ≤ marks u := by
  cases h with
  | char => exact Nat.le_refl _
  | reference h => exact h.marks_le
  | white | line => exact Nat.zero_le _

theorem Value.marks_le (h : Value q u w) : marks w ≤ marks u := by
  induction h with
  | nil => exact Nat.le_refl _
  | cons h _ _ ih =>
    rw [marks_append, marks_append]
    exact Nat.add_le_add h.marks_le ih

theorem Attributes.weight_le (h : Attributes s as) : attWeight as ≤ marks s := by
  induction h with
  | nil => exact Nat.le_refl _
  | cons hb hne hname hb₁ hb₂ hq hv hrest ih =>
    have hvalue := hv.marks_le
    have hequals : mark '=' = true := rfl
    simp only [attWeight, List.map_cons, List.sum_cons, marks_append, marks_cons, hequals, if_true] at ih ⊢
    omega

theorem Tag.weight_le (h : Tag ending u name as) : attWeight as + marks ending ≤ marks u := by
  cases h with
  | mk _ has _ _ =>
    have hle := has.weight_le
    simp only [marks_append, marks_cons]
    omega

theorem EndTag.marks_pos (h : EndTag u name) : 0 < marks u := by
  cases h with
  | mk =>
    have hslash : mark '/' = true := rfl
    simp only [marks_cons, hslash, if_true]
    omega

/-- The marks of a text are enough for the elements and the strings that are read. -/
theorem Content.weight_le (h : Content s ns) (hshows : Shows ns shapes) : weight shapes + marks (textOf ns) ≤ marks s := by
  induction h generalizing shapes with
  | nil =>
    cases hshows
    exact Nat.le_refl _
  | datum h _ _ ih =>
    cases hshows with
    | text hrest =>
      have hfirst := h.marks_le
      have hle := ih hrest
      simp only [textOf, marks_append]
      omega
  | skipped _ _ ih =>
    have hle := ih hshows
    rw [marks_append]
    omega
  | element hstart _ hend _ ihbody ih =>
    have htag := Tag.weight_le hstart
    have hslash := hend.marks_pos
    cases hshows with
    | leaf hcontent hrest | inner _ hcontent hrest =>
      have hbody := ihbody hcontent
      have hle := ih hrest
      simp only [textOf, weight, Shape.weight, Option.getD_some, Option.getD_none, marks_append, marks_nil]
      omega
  | empty htag _ ih =>
    have htag := Tag.weight_le htag
    have hslash : marks ['/', '>'] = 1 := rfl
    cases hshows with
    | leaf hcontent hrest | inner _ hcontent hrest =>
      cases hcontent
      have hle := ih hrest
      simp only [textOf, weight, Shape.weight, Option.getD_some, Option.getD_none, marks_append, marks_nil]
      omega

-- ---------------------------------------------------------------------------
-- What is printed
-- ---------------------------------------------------------------------------

def Piece.Named : Piece → Prop
  | .start name as => Name name ∧ ∀ a ∈ as, Name a.1
  | .close name | .leaf name _ _ _ => Name name

def Piece.weight : Piece → Nat
  | .start _ as => attWeight as
  | .close _ => 1
  | .leaf _ as v children => 1 + attWeight as + marks v + Xml.weight children

theorem weight_pieces (shapes : List Shape) : ((pieces shapes).map Piece.weight).sum = weight shapes := by
  induction shapes using Shape.induct with
  | nil => rfl
  | inner name as children shapes ihchildren ih =>
    simp only [pieces, Shape.pieces, List.map_append, List.map_cons, List.map_nil, List.sum_append, List.sum_cons,
      List.sum_nil, Piece.weight, ihchildren, ih, weight, Shape.weight, Option.getD_none, marks_nil]
    omega
  | leaf name as v children shapes ih =>
    simp only [pieces, Shape.pieces, List.map_append, List.map_cons, List.map_nil, List.sum_append, List.sum_cons,
      List.sum_nil, Piece.weight, ih, weight, Shape.weight, Option.getD_some]
    omega

section Printed

variable (hg : ∀ v, g v <+: v)

include hg

theorem marks_printed_le (v : Text) : marks (g v) ≤ marks v := (hg v).sublist.countP_le

theorem marks_printAttributes_le (h : ∀ a ∈ as, Name a.1) : marks (printAttributes g as) ≤ attWeight as := by
  induction as with
  | nil => exact Nat.le_refl _
  | cons a as ih =>
    obtain ⟨ha, has⟩ := List.forall_mem_cons.mp h
    have hvalue := marks_printed_le hg a.2
    have hrest := ih has
    have hequals : mark '=' = true := rfl
    have hquote : mark '"' = false := rfl
    have hspace : marks [' '] = 0 := rfl
    simp only [attWeight] at hrest
    simp only [printAttributes_cons, attWeight, List.map_cons, List.sum_cons, marks_append, marks_cons, marks_nil,
      ha.marks, hequals, hquote, hspace, if_true, if_false, Bool.false_eq_true]
    omega

theorem Piece.Named.marks_le (h : p.Named) : marks (p.print g) ≤ p.weight := by
  cases p with
  | start name as =>
    have hattributes := marks_printAttributes_le hg h.2
    simpa [Piece.print, Piece.weight, h.1.marks, mark] using hattributes
  | close name => simp [Piece.print, Piece.weight, Name.marks h, mark]
  | leaf name as v children =>
    have hvalue := marks_printed_le hg v
    simp [Piece.print, Piece.weight, Name.marks h, mark]
    omega

theorem marks_layout_le (h : ∀ l ∈ ls, l.piece.Named) : marks (layout g ls) ≤ ((ls.map Line.piece).map Piece.weight).sum := by
  induction ls with
  | nil => exact Nat.le_refl _
  | cons l ls ih =>
    obtain ⟨hl, hls⟩ := List.forall_mem_cons.mp h
    have hfirst := hl.marks_le hg
    have hrest := ih hls
    rw [layout_cons, marks_append, marks_append, marks_append, l.space_before.blank.marks, l.space_after.blank.marks,
      List.map_cons, List.map_cons, List.sum_cons]
    omega

/-- Printed lines are read as documents that have no more weight only. -/
theorem Reads.weight_le (h : Reads (layout g ls) shapes) (hps : ls.map Line.piece = pieces printed)
    (hnamed : ∀ p ∈ pieces printed, p.Named) : weight shapes ≤ weight printed := by
  obtain ⟨ns, hcontent, hshows, -⟩ := h
  have hread := hcontent.weight_le hshows
  have hlines : ∀ l ∈ ls, l.piece.Named := List.forall_mem_map.mp (hps ▸ hnamed)
  have hprint := marks_layout_le hg hlines
  rw [hps, weight_pieces] at hprint
  omega

end Printed

end GalaLua.Library.Xml
