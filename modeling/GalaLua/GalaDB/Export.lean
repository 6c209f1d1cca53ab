import GalaLua.GalaDB.Strings
import GalaLua.Library.XmlWeight
import Mathlib.Data.List.Forall2

/-!
# Exported elements

`to_xml` writes the tags and the strings of an element and of all below it as they are.
What it writes is read as the element that is stored if and only if no string has a
character that a reader takes for something else, no name comes twice among the attributes
or the children of an element, no element with values has attributes or children besides,
and no key is too long (`exported_iff`).
-/

namespace GalaLua.GalaDB

open Library
open Library.Lua

-- ---------------------------------------------------------------------------
-- `to_xml`
-- ---------------------------------------------------------------------------

/-- `string.rep(" ", indent*2)` -/
def spaces (indent : Nat) : Str := List.replicate (indent * 2) ' '

/-- `tag`, for an element that no tag was set for. -/
def Elem.tag (e : Elem) : Option Str := (split '/' e.path).getLast?

def hiddenAttrib (k : Str) : Bool := k.take 2 = ['_', '_']

section Reading

variable (db : Store)

/-- The tag that is set for the children of an element. -/
def tagOfItems (key : Str) : Option Str := if isVector db key then (getAttrib db key).lookup vectorItemTag else none

/-- `to_xml` of an element with its `_tag`, if that is set. -/
def toXml (ignore : Elem → Bool) : Nat → Option Str → Elem → Str → Nat → Res Str
  | 0, _, _, _, _ => .error "stack overflow"
  | depth + 1, tag, e, str, indent =>
    if ignore e then .ok str
    else
      match tag <|> e.tag with
      | none => .error "bad argument #2 to 'format' (string expected, got nil)"
      | some root =>
        let values := getValue db e.key
        let attrs := getAttrib db e.key
        if values = [] then
          let str := str ++ (spaces indent ++ '<' :: fmt root)
          let str := attrs.foldl (fun str a =>
            if hiddenAttrib a.1 then str else str ++ ' ' :: (fmt a.1 ++ '=' :: '"' :: (fmt a.2 ++ ['"']))) str
          let str := str ++ ['>', '\n']
          (getChild db e).bind fun childs =>
            (childs.foldlM (fun str c => toXml ignore depth (tagOfItems db e.key) c.2 str (indent + 1)) str).map fun str =>
              str ++ (spaces indent ++ '<' :: '/' :: (fmt root ++ ['>', '\n']))
        else
          .ok (values.foldl (fun str v =>
            str ++ (spaces indent ++ '<' :: (fmt root ++ '>' :: (fmt v ++ '<' :: '/' :: (fmt root ++ ['>', '\n']))))) str)

end Reading

-- ---------------------------------------------------------------------------
-- What is stored
-- ---------------------------------------------------------------------------

/-- An element as it is stored, with its tag: an attribute and a child with its name for
each of their records; `tooLong` where its key is too long for `get_child`. -/
inductive Stored
  | mk (tooLong : Bool) (tag : Str) (attributes : List (Str × Str)) (values : List Str) (children : List (Str × Stored))

theorem Stored.induct {P : Stored → Prop}
    (mk : ∀ tooLong tag as values children, (∀ c ∈ children, P c.2) → P (.mk tooLong tag as values children))
    (t : Stored) : P t := by
  refine @Stored.rec P (fun cs => ∀ c ∈ cs, P c.2) (fun c => P c.2) mk ?_ ?_ ?_ t
  · exact fun c hc => absurd hc List.not_mem_nil
  · exact fun c cs hc hcs => List.forall_mem_cons.mpr ⟨hc, hcs⟩
  · exact fun _ _ ht => ht

section Reading

variable (db : Store)

def shownAttribs (key : Str) : List (Str × Str) :=
  ((db.dups key).filterMap attribOf).filter fun a => !hiddenAttrib a.1

def tooLong (e : Elem) : Bool := db.dups e.key ≠ [] ∧ 1000 ≤ e.key.length

/-- The children, whatever the length of the key. -/
def childRecords (e : Elem) : Res (List (Str × Elem)) := ((db.dups e.key).mapM (childOf e)).map fun cs => cs.filterMap id

/-- The element with all below it, where this has at most `depth` levels. -/
def stored : Nat → Option Str → Elem → Res Stored
  | 0, _, _ => .error "stack overflow"
  | depth + 1, tag, e =>
    match tag <|> e.tag with
    | none => .error "no tag"
    | some root =>
      (childRecords db e).bind fun childs =>
        (childs.mapM fun c => (stored depth (tagOfItems db e.key) c.2).map fun t => (c.1, t)).map fun children =>
          .mk (tooLong db e) root (shownAttribs db e.key) (getValue db e.key) children

end Reading

mutual

/-- The elements that are expected: one with the children, or one for each value. -/
def Stored.shapes : Stored → List Xml.Shape
  | .mk _ tag as [] children => [.mk tag as none (shapesOf children)]
  | .mk _ tag as (v :: vs) children => (v :: vs).map fun v => .mk tag as (some v) (shapesOf children)

def shapesOf : List (Str × Stored) → List Xml.Shape
  | [] => []
  | (_, t) :: ts => t.shapes ++ shapesOf ts

end

inductive Stored.Legal : Stored → Prop
  | mk {tooLong : Bool} {tag : Str} {as : List (Str × Str)} {values : List Str} {children : List (Str × Stored)}
      (htag : Xml.Name tag) (has : ∀ a ∈ as, Xml.Name a.1) (hchildren : ∀ c ∈ children, c.2.Legal) :
      Legal (.mk tooLong tag as values children)

/-- Nothing that is stored is lost or read as something else. -/
inductive Stored.Plain : Stored → Prop
  | inner {tag : Str} {as : List (Str × Str)} {children : List (Str × Stored)} (hunique : (as.map Prod.fst).Nodup)
      (has : ∀ a ∈ as, Xml.AttChars a.2) (hnames : (children.map Prod.fst).Nodup)
      (hchildren : ∀ c ∈ children, c.2.Plain) : Plain (.mk false tag as [] children)
  | leaf {tooLong : Bool} {tag : Str} {values : List Str} (hvalues : values ≠ []) (hdata : ∀ v ∈ values, Xml.CharData v) :
      Plain (.mk tooLong tag [] values [])

/-- What is written for the element is read as what is stored. -/
def Exported (db : Store) (tag : Option Str) (e : Elem) (t : Stored) : Prop :=
  ∃ s, (∃ d, ∀ depth ≥ d, toXml db (fun _ => false) depth tag e [] 0 = .ok s) ∧ Xml.Reads s t.shapes

-- ---------------------------------------------------------------------------
-- What is written of an element
-- ---------------------------------------------------------------------------

variable {db : Store} {depth indent : Nat} {tag : Option Str} {e : Elem} {t : Stored} {ts : List (Str × Stored)}
variable {s root : Str} {as : List (Str × Str)}

mutual

/-- Of the attributes and of the children of one name the last are written, and of an element
with values nothing else. -/
def Stored.written : Stored → Stored
  | .mk tooLong tag as [] children => .mk tooLong tag (setKeys [] as) [] (setKeys [] (writtenOf children))
  | .mk tooLong tag _ (v :: vs) _ => .mk tooLong tag [] (v :: vs) []

def writtenOf : List (Str × Stored) → List (Str × Stored)
  | [] => []
  | (n, t) :: ts => (n, t.written) :: writtenOf ts

end

/-- What is written is the whole element. -/
inductive Stored.Single : Stored → Prop
  | inner {tooLong : Bool} {tag : Str} {as : List (Str × Str)} {children : List (Str × Stored)}
      (hunique : (as.map Prod.fst).Nodup) (hnames : (children.map Prod.fst).Nodup)
      (hchildren : ∀ c ∈ children, c.2.Single) : Single (.mk tooLong tag as [] children)
  | leaf {tooLong : Bool} {tag : Str} {values : List Str} (hvalues : values ≠ []) :
      Single (.mk tooLong tag [] values [])

theorem writtenOf_eq (ts : List (Str × Stored)) : writtenOf ts = ts.map fun c => (c.1, c.2.written) := by
  induction ts with
  | nil => rfl
  | cons c ts ih => rw [writtenOf, ih, List.map_cons]

theorem Stored.Single.written_eq (h : t.Single) : t.written = t := by
  induction h with
  | @inner tooLong tag as children hunique hnames _ ih =>
    have hsame : writtenOf children = children := by
      rw [writtenOf_eq]
      exact (List.map_congr_left fun c hc => congrArg (Prod.mk c.1) (ih c hc)).trans (List.map_id children)
    have has : setKeys [] as = as := setKeys_new hunique
    have hchildren : setKeys [] children = children := setKeys_new hnames
    rw [Stored.written, hsame, has, hchildren]
  | leaf hvalues =>
    obtain ⟨v, vs, rfl⟩ := List.exists_cons_of_ne_nil hvalues
    rw [Stored.written]

theorem Stored.Legal.written (h : t.Legal) : t.written.Legal := by
  induction h with
  | @mk tooLong tag as values children htag has _ ih =>
    cases values with
    | nil =>
      rw [Stored.written]
      refine .mk htag (fun a ha => has a ((mem_setKeys ha).resolve_left List.not_mem_nil)) fun c hc => ?_
      have hmem := (mem_setKeys hc).resolve_left List.not_mem_nil
      rw [writtenOf_eq] at hmem
      obtain ⟨child, hchild, rfl⟩ := List.mem_map.mp hmem
      exact ih child hchild
    | cons v vs =>
      rw [Stored.written]
      exact .mk htag (by simp) (by simp)

theorem shapes_ne_nil (t : Stored) : t.shapes ≠ [] := by
  cases t with
  | mk tooLong tag as values children =>
    cases values with
    | nil => rw [Stored.shapes]; exact List.cons_ne_nil _ _
    | cons v vs => rw [Stored.shapes]; exact List.cons_ne_nil _ _

theorem shapesOf_eq_nil (h : shapesOf ts = []) : ts = [] := by
  cases ts with
  | nil => rfl
  | cons t ts =>
    rw [shapesOf] at h
    exact absurd (List.append_eq_nil_iff.mp h).1 (shapes_ne_nil t.2)

def Stored.weight (t : Stored) : Nat := Xml.weight t.shapes

theorem weight_shapesOf (ts : List (Str × Stored)) : Xml.weight (shapesOf ts) = (ts.map fun c => c.2.weight).sum := by
  induction ts with
  | nil => rfl
  | cons c ts ih => rw [shapesOf, Xml.weight_append, ih, List.map_cons, List.sum_cons, Stored.weight]

theorem weight_leaves (tag : Str) (as : List (Str × Str)) (vs : List Str) (children : List Xml.Shape) :
    Xml.weight (vs.map fun v => .mk tag as (some v) children) =
      (vs.map Xml.marks).sum + vs.length * (1 + Xml.attWeight as + Xml.weight children) := by
  induction vs with
  | nil => simp [Xml.weight]
  | cons v vs ih =>
    rw [List.map_cons, Xml.weight, Xml.Shape.weight, ih, List.map_cons, List.sum_cons, List.length_cons, Nat.succ_mul,
      Option.getD_some]
    omega

theorem children_weight (h : ∀ c ∈ ts, c.2.written.weight ≤ c.2.weight ∧ (c.2.weight ≤ c.2.written.weight → c.2.Single)) :
    ((writtenOf ts).map fun c => c.2.weight).sum ≤ (ts.map fun c => c.2.weight).sum ∧
      ((ts.map fun c => c.2.weight).sum ≤ ((writtenOf ts).map fun c => c.2.weight).sum → ∀ c ∈ ts, c.2.Single) := by
  induction ts with
  | nil => simp [writtenOf]
  | cons c ts ih =>
    obtain ⟨⟨hle, hsingle⟩, hts⟩ := List.forall_mem_cons.mp h
    obtain ⟨hrest, hsingles⟩ := ih hts
    simp only [writtenOf, List.map_cons, List.sum_cons]
    exact ⟨by omega, fun heq => List.forall_mem_cons.mpr ⟨hsingle (by omega), hsingles (by omega)⟩⟩

/-- Where the written element weighs as much as the stored one, nothing is lost. -/
theorem written_weight (t : Stored) : t.written.weight ≤ t.weight ∧ (t.weight ≤ t.written.weight → t.Single) := by
  induction t using Stored.induct with
  | mk tooLong tag as values children ih =>
    cases values with
    | nil =>
      obtain ⟨hatt, hunique⟩ : Xml.attWeight (setKeys [] as) ≤ Xml.attWeight as ∧
          (Xml.attWeight as ≤ Xml.attWeight (setKeys [] as) → (as.map Prod.fst).Nodup) :=
        setKeys_weight (fun a => Nat.lt_add_right (Xml.marks a.2) Nat.one_pos) as
      obtain ⟨hsum, hnames⟩ := setKeys_weight (fun c : Str × Stored => Xml.weight_pos (shapes_ne_nil c.2)) (writtenOf children)
      obtain ⟨hle, hsingles⟩ := children_weight ih
      have hfst : (writtenOf children).map Prod.fst = children.map Prod.fst := by
        rw [writtenOf_eq, List.map_map]
        rfl
      simp only [Stored.weight, Stored.written, Stored.shapes, Xml.weight, Xml.Shape.weight, weight_shapesOf]
        at hle hsingles ⊢
      exact ⟨by omega, fun heq => .inner (hunique (by omega)) (hfst ▸ hnames (by omega)) (hsingles (by omega))⟩
    | cons v vs =>
      simp only [Stored.weight, Stored.written, Stored.shapes]
      rw [weight_leaves, weight_leaves]
      have hnone : 1 + Xml.attWeight [] + Xml.weight (shapesOf []) = 1 := rfl
      rw [hnone]
      refine ⟨Nat.add_le_add_left (Nat.mul_le_mul_left _ (by omega)) _, fun heq => ?_⟩
      have hone := Nat.le_of_mul_le_mul_left (Nat.le_of_add_le_add_left heq) (Nat.succ_pos vs.length)
      obtain rfl : as = [] := by
        cases as with
        | nil => rfl
        | cons a as =>
          simp only [Xml.attWeight, List.map_cons, List.sum_cons] at hone
          omega
      obtain rfl : children = [] := by
        by_contra hne
        have hpos := Xml.weight_pos fun hnil => hne (shapesOf_eq_nil hnil)
        omega
      exact .leaf (List.cons_ne_nil v vs)

-- ---------------------------------------------------------------------------
-- The lines of an export
-- ---------------------------------------------------------------------------

theorem fmt_isPrefix (s : Str) : fmt s <+: s := by
  rw [fmt]
  split
  · exact List.takeWhile_prefix _
  · exact List.prefix_rfl

theorem clean_name (h : Xml.Name s) : Clean s :=
  clean_iff.mpr fun hmem => absurd hmem (h.notMem (by decide) (by decide))

/-- A piece on a line of its own. -/
def line (indent : Nat) (p : Xml.Piece) : Xml.Line where
  before := spaces indent
  piece := p
  after := ['\n']
  space_before _ hc := .inl (List.eq_of_mem_replicate hc)
  space_after _ hc := .inr (List.mem_singleton.mp hc)

mutual

def Stored.lines (indent : Nat) : Stored → List Xml.Line
  | .mk _ tag as [] children =>
    line indent (.start tag as) :: (linesOf (indent + 1) children ++ [line indent (.close tag)])
  | .mk _ tag as (v :: vs) children => (v :: vs).map fun v => line indent (.leaf tag as v (shapesOf children))

def linesOf (indent : Nat) : List (Str × Stored) → List Xml.Line
  | [] => []
  | (_, t) :: ts => t.lines indent ++ linesOf indent ts

end

theorem leaf_pieces (tag : Str) (as : List (Str × Str)) (vs : List Str) (children : List Xml.Shape) :
    Xml.pieces (vs.map fun v => .mk tag as (some v) children) = vs.map fun v => .leaf tag as v children := by
  induction vs with
  | nil => rfl
  | cons v vs ih => rw [List.map_cons, Xml.pieces, Xml.Shape.pieces, ih, List.map_cons, List.singleton_append]

theorem linesOf_pieces (h : ∀ c ∈ ts, ∀ indent, (c.2.lines indent).map Xml.Line.piece = Xml.pieces c.2.shapes)
    (indent : Nat) : (linesOf indent ts).map Xml.Line.piece = Xml.pieces (shapesOf ts) := by
  induction ts with
  | nil => rfl
  | cons c ts ih =>
    obtain ⟨hc, hts⟩ := List.forall_mem_cons.mp h
    rw [linesOf, shapesOf, List.map_append, Xml.pieces_append, hc, ih hts]

theorem lines_pieces (t : Stored) (indent : Nat) : (t.lines indent).map Xml.Line.piece = Xml.pieces t.shapes := by
  induction t using Stored.induct generalizing indent with
  | mk tooLong tag as values children ih =>
    cases values with
    | nil =>
      have hchildren := linesOf_pieces ih (indent + 1)
      simp only [Stored.lines, Stored.shapes, Xml.pieces, Xml.Shape.pieces, List.map_cons, List.map_append,
        List.map_nil, List.append_nil, hchildren, line]
    | cons v vs =>
      rw [Stored.lines, Stored.shapes, leaf_pieces]
      exact List.map_map

theorem forall_shapesOf {P : Xml.Piece → Prop} :
    (∀ p ∈ Xml.pieces (shapesOf ts), P p) ↔ ∀ c ∈ ts, ∀ p ∈ Xml.pieces c.2.shapes, P p := by
  induction ts with
  | nil => simp [shapesOf, Xml.pieces]
  | cons c ts ih => rw [shapesOf, Xml.pieces_append, List.forall_mem_append, ih, List.forall_mem_cons]

theorem Stored.Legal.named (h : t.Legal) : ∀ p ∈ Xml.pieces t.shapes, p.Named := by
  induction h with
  | @mk tooLong tag as values children htag has _ ih =>
    cases values with
    | nil =>
      simp only [Stored.shapes, Xml.pieces, Xml.Shape.pieces, List.append_nil]
      exact List.forall_mem_cons.mpr ⟨⟨htag, has⟩,
        List.forall_mem_append.mpr ⟨forall_shapesOf.mpr ih, List.forall_mem_singleton.mpr htag⟩⟩
    | cons v vs =>
      rw [Stored.shapes, leaf_pieces, List.forall_mem_map]
      exact fun _ _ => htag

/-- The keys of the elements that `to_xml` reads the children of are short. -/
inductive Stored.Short : Stored → Prop
  | inner {tag : Str} {as : List (Str × Str)} {children : List (Str × Stored)} (hchildren : ∀ c ∈ children, c.2.Short) :
      Short (.mk false tag as [] children)
  | leaf {tooLong : Bool} {tag : Str} {as : List (Str × Str)} {values : List Str} {children : List (Str × Stored)}
      (h : values ≠ []) : Short (.mk tooLong tag as values children)

/-- What `f` does to the text that was written before. -/
structure Writes (f : Str → Res Str) (ls : List Xml.Line) (good : Prop) : Prop where
  ok : good → ∀ str, f str = .ok (str ++ Xml.layout fmt ls)
  error : ¬ good → ∀ str, ∃ err, f str = .error err

theorem foldlM_children (d : List (Str × Elem)) (records : List Str) :
    records.foldlM (fun dict v =>
        (childOf e v).map fun child =>
          match child with
          | some (name, c) => setKey dict name c
          | none => dict) d =
      (records.mapM (childOf e)).map fun cs => setKeys d (cs.filterMap id) := by
  induction records generalizing d with
  | nil => rfl
  | cons r records ih =>
    rw [List.foldlM_cons, List.mapM_cons]
    cases childOf e r with
    | error err => rfl
    | ok child =>
      refine (ih _).trans ?_
      cases child <;> cases records.mapM (childOf e) <;> rfl

theorem getChild_eq (db : Store) (e : Elem) :
    getChild db e =
      if tooLong db e then .error "Key is too long,there may be something wrong"
      else (childRecords db e).map (setKeys []) := by
  rw [getChild, tooLong, childRecords]
  by_cases hlong : db.dups e.key ≠ [] ∧ 1000 ≤ e.key.length
  · rw [if_pos hlong, if_pos (decide_eq_true hlong)]
  · rw [if_neg hlong, if_neg fun htrue => hlong (of_decide_eq_true htrue)]
    refine (foldlM_children (e := e) [] (db.dups e.key)).trans ?_
    cases (db.dups e.key).mapM (childOf e) <;> rfl

theorem foldlM_writes {f : Str → Str × Elem → Res Str} {l : List (Str × Elem)} (h : List.Forall₂ (fun c t =>
    c.1 = t.1 ∧ Writes (fun str => f str c) (t.2.lines indent) t.2.Short) l ts) :
    Writes (fun str => l.foldlM f str) (linesOf indent ts) (∀ t ∈ ts, t.2.Short) := by
  induction h with
  | nil => exact ⟨fun _ str => congrArg Except.ok (List.append_nil str).symm, fun hnot => absurd (by simp) hnot⟩
  | @cons c t l ts hfirst _ ih =>
    replace hfirst := hfirst.2
    constructor
    · intro hgood str
      obtain ⟨ht, hts⟩ := List.forall_mem_cons.mp hgood
      rw [List.foldlM_cons, hfirst.ok ht]
      refine (ih.ok hts _).trans ?_
      rw [linesOf, Xml.layout_append, List.append_assoc]
    · intro hbad str
      rw [List.foldlM_cons]
      by_cases ht : t.2.Short
      · rw [hfirst.ok ht]
        exact ih.error (fun hts => hbad (List.forall_mem_cons.mpr ⟨ht, hts⟩)) _
      · obtain ⟨err, herr⟩ := hfirst.error ht str
        rw [herr]
        exact ⟨err, rfl⟩

theorem mapM_forall₂ {f : Elem → Res Stored} {P : Stored → Prop} {l : List (Str × Elem)}
    (h : (l.mapM fun c => (f c.2).map fun t => (c.1, t)) = .ok ts) (hts : ∀ t ∈ ts, P t.2) :
    List.Forall₂ (fun c t => c.1 = t.1 ∧ f c.2 = .ok t.2 ∧ P t.2) l ts := by
  induction l generalizing ts with
  | nil =>
    obtain rfl := Except.ok.inj h
    exact .nil
  | cons c l ih =>
    rw [List.mapM_cons] at h
    obtain ⟨t, ht, h⟩ := bind_eq_ok h
    obtain ⟨t, hstored, rfl⟩ := map_eq_ok ht
    obtain ⟨ts, hrest, h⟩ := bind_eq_ok h
    obtain rfl := Except.ok.inj h
    obtain ⟨hfirst, hts⟩ := List.forall_mem_cons.mp hts
    exact .cons ⟨rfl, hstored, hfirst⟩ (ih hrest hts)

theorem foldl_attributes (h : ∀ a ∈ as, hiddenAttrib a.1 = false → Clean a.1) (str : Str) :
    as.foldl (fun str a =>
        if hiddenAttrib a.1 then str else str ++ ' ' :: (fmt a.1 ++ '=' :: '"' :: (fmt a.2 ++ ['"']))) str =
      str ++ Xml.printAttributes fmt (as.filter fun a => !hiddenAttrib a.1) := by
  induction as generalizing str with
  | nil => exact (List.append_nil str).symm
  | cons a as ih =>
    obtain ⟨ha, has⟩ := List.forall_mem_cons.mp h
    rw [List.foldl_cons, ih has]
    by_cases hhidden : hiddenAttrib a.1
    · rw [if_pos hhidden, List.filter_cons_of_neg (by simp [hhidden])]
    · rw [if_neg hhidden, List.filter_cons_of_pos (by simp [hhidden]), ha (by simpa using hhidden),
        Xml.printAttributes, Xml.printAttributes, List.flatMap_cons, List.append_assoc]

theorem shown_getAttrib (db : Store) (key : Str) :
    ((getAttrib db key).filter fun a => !hiddenAttrib a.1) = setKeys [] (shownAttribs db key) :=
  filter_setKeys (fun k => !hiddenAttrib k) [] _

theorem foldl_values (indent : Nat) (root : Str) (as : List (Str × Str)) (vs : List Str) (children : List Xml.Shape)
    (str : Str) :
    vs.foldl (fun str v =>
        str ++ (spaces indent ++ '<' :: (root ++ '>' :: (fmt v ++ '<' :: '/' :: (root ++ ['>', '\n']))))) str =
      str ++ Xml.layout fmt (vs.map fun v => line indent (.leaf root as v children)) := by
  induction vs generalizing str with
  | nil => exact (List.append_nil str).symm
  | cons v vs ih =>
    rw [List.foldl_cons, ih, List.map_cons, Xml.layout_cons]
    simp [line, Xml.Piece.print]

theorem short_inner_iff {long : Bool} {children : List (Str × Stored)} :
    (Stored.mk long root as [] children).Short ↔ long = false ∧ ∀ c ∈ children, c.2.Short := by
  constructor
  · intro h
    cases h with
    | inner hchildren => exact ⟨rfl, hchildren⟩
    | leaf h => exact absurd rfl h
  · rintro ⟨rfl, hchildren⟩
    exact .inner hchildren

theorem toXml_inner {str : Str} (htag : (tag <|> e.tag) = some root) (hclean : fmt root = root)
    (hvalues : getValue db e.key = []) (hshown : ∀ a ∈ getAttrib db e.key, hiddenAttrib a.1 = false → Clean a.1) :
    toXml db (fun _ => false) (depth + 1) tag e str indent =
      (getChild db e).bind fun childs =>
        (childs.foldlM (fun str c => toXml db (fun _ => false) depth (tagOfItems db e.key) c.2 str (indent + 1))
          (str ++ (spaces indent ++ '<' :: root) ++ Xml.printAttributes fmt (setKeys [] (shownAttribs db e.key)) ++
            ['>', '\n'])).map fun str => str ++ (spaces indent ++ '<' :: '/' :: (root ++ ['>', '\n'])) := by
  simp only [toXml, htag, hvalues, hclean, foldl_attributes hshown, shown_getAttrib, if_true]
  rfl

/-- What is written for an element is its lines. -/
theorem toXml_writes (h : stored db depth tag e = .ok t) (hlegal : t.Legal) (indent : Nat) {d : Nat} (hd : depth ≤ d) :
    Writes (fun str => toXml db (fun _ => false) d tag e str indent) (t.written.lines indent) t.written.Short := by
  induction depth generalizing tag e t indent d with
  | zero => cases h
  | succ depth ih =>
    obtain ⟨d, rfl⟩ : ∃ n, d = n + 1 := ⟨d - 1, by omega⟩
    rw [stored] at h
    cases htag : tag <|> e.tag with
    | none =>
      rw [htag] at h
      cases h
    | some root =>
      rw [htag] at h
      obtain ⟨childs, hchilds, h⟩ := bind_eq_ok h
      obtain ⟨children, hchildren, rfl⟩ := map_eq_ok h
      cases hlegal with
      | mk hroot has hlegal =>
      have hclean : fmt root = root := clean_name hroot
      cases hvalues : getValue db e.key with
      | nil =>
        have hwritten : List.Forall₂ (fun c t => c.1 = t.1 ∧ Writes (fun str =>
            toXml db (fun _ => false) d (tagOfItems db e.key) c.2 str (indent + 1)) (t.2.lines (indent + 1)) t.2.Short)
            childs (writtenOf children) := by
          rw [writtenOf_eq, List.forall₂_map_right_iff]
          exact (mapM_forall₂ hchildren hlegal).imp fun c t ht => ⟨ht.1, ih ht.2.1 ht.2.2 (indent + 1) (by omega)⟩
        have hwrites : Writes (fun str => (setKeys [] childs).foldlM (fun str c =>
            toXml db (fun _ => false) d (tagOfItems db e.key) c.2 str (indent + 1)) str)
            (linesOf (indent + 1) (setKeys [] (writtenOf children))) (∀ c ∈ setKeys [] (writtenOf children), c.2.Short) :=
          foldlM_writes (forall₂_setKeys (R := fun c (t : Stored) => Writes (fun str =>
            toXml db (fun _ => false) d (tagOfItems db e.key) c str (indent + 1)) (t.lines (indent + 1)) t.Short)
            .nil hwritten)
        have hshown : ∀ a ∈ getAttrib db e.key, hiddenAttrib a.1 = false → Clean a.1 := fun a ha hhidden => by
          have hmem := (mem_setKeys ha).resolve_left List.not_mem_nil
          exact clean_name (has a (List.mem_filter.mpr ⟨hmem, by rw [hhidden]; rfl⟩))
        rw [Stored.written]
        constructor
        · intro hshort str
          obtain ⟨hlong, hshort⟩ := short_inner_iff.mp hshort
          rw [toXml_inner htag hclean hvalues hshown, getChild_eq, hlong, if_neg Bool.false_ne_true, hchilds]
          refine (congrArg (Except.map _) (hwrites.ok hshort _)).trans (congrArg Except.ok ?_)
          simp [Stored.lines, line, Xml.Piece.print, Xml.Line.print, Xml.layout]
        · intro hnot str
          rw [toXml_inner htag hclean hvalues hshown, getChild_eq]
          by_cases hlong : tooLong db e
          · rw [if_pos hlong]
            exact ⟨_, rfl⟩
          · rw [if_neg hlong, hchilds]
            have hbad : ¬ ∀ c ∈ setKeys [] (writtenOf children), c.2.Short := fun hshort =>
              hnot (short_inner_iff.mpr ⟨Bool.eq_false_of_not_eq_true hlong, hshort⟩)
            obtain ⟨err, herr⟩ := hwrites.error hbad (str ++ (spaces indent ++ '<' :: root) ++
              Xml.printAttributes fmt (setKeys [] (shownAttribs db e.key)) ++ ['>', '\n'])
            exact ⟨err, congrArg (Except.map _) herr⟩
      | cons v vs =>
        rw [Stored.written]
        refine ⟨fun _ str => ?_, fun hnot => absurd (.leaf (List.cons_ne_nil v vs)) hnot⟩
        simp only [toXml, htag, hvalues, hclean]
        rw [if_neg Bool.false_ne_true, if_neg (List.cons_ne_nil v vs), foldl_values]
        rfl

-- ---------------------------------------------------------------------------
-- Plain elements
-- ---------------------------------------------------------------------------

theorem clean_of_spelled {P : Char → Prop} (h : Xml.Spelled P s) (hP : ¬ P '\x00') : Clean s :=
  clean_iff.mpr fun hmem => (h.byte hmem).elim (fun hnul => absurd hnul hP) fun hhigh => absurd hhigh (by decide)

theorem clean_charData (h : Xml.CharData s) : fmt s = s := clean_of_spelled h.spelled (by decide)

theorem clean_attChars (h : Xml.AttChars s) : fmt s = s := clean_of_spelled h (by decide)

theorem Stored.Plain.single (h : t.Plain) : t.Single := by
  induction h with
  | inner hunique _ hnames _ ih => exact .inner hunique hnames ih
  | leaf hvalues _ => exact .leaf hvalues

theorem Stored.Plain.literal (h : t.Plain) (hlegal : t.Legal) :
    (∀ p ∈ Xml.pieces t.shapes, p.Literal fmt) ∧ t.Short := by
  induction h with
  | @inner tag as children hunique has _ _ ih =>
    cases hlegal with
    | mk htag hnames hlegal =>
      refine ⟨?_, .inner fun c hc => (ih c hc (hlegal c hc)).2⟩
      have hinside := forall_shapesOf.mpr fun c hc => (ih c hc (hlegal c hc)).1
      simp only [Stored.shapes, Xml.pieces, Xml.Shape.pieces, List.append_nil]
      have hentries : ∀ a ∈ as, Xml.Name a.1 ∧ Xml.AttChars a.2 ∧ fmt a.2 = a.2 := fun a ha =>
        ⟨hnames a ha, has a ha, clean_attChars (has a ha)⟩
      exact List.forall_mem_cons.mpr ⟨⟨htag, hentries, hunique⟩,
        List.forall_mem_append.mpr ⟨hinside, List.forall_mem_singleton.mpr htag⟩⟩
  | @leaf tooLong tag values hvalues hdata =>
    cases hlegal with
    | mk htag =>
      obtain ⟨v, vs, rfl⟩ := List.exists_cons_of_ne_nil hvalues
      refine ⟨?_, .leaf hvalues⟩
      rw [Stored.shapes, leaf_pieces, List.forall_mem_map]
      exact fun w hw => ⟨htag, rfl, rfl, hdata w hw, clean_charData (hdata w hw)⟩

theorem Stored.Single.plain (h : t.Single) (hshort : t.Short) (hliteral : ∀ p ∈ Xml.pieces t.shapes, p.Literal fmt) :
    t.Plain := by
  induction h with
  | @inner tooLong tag as children hunique hnames _ ih =>
    obtain ⟨rfl, hchildren⟩ := short_inner_iff.mp hshort
    simp only [Stored.shapes, Xml.pieces, Xml.Shape.pieces, List.append_nil] at hliteral
    obtain ⟨⟨-, has, -⟩, hliteral⟩ := List.forall_mem_cons.mp hliteral
    have hinside := forall_shapesOf.mp (List.forall_mem_append.mp hliteral).1
    exact .inner hunique (fun a ha => (has a ha).2.1) hnames fun c hc => ih c hc (hchildren c hc) (hinside c hc)
  | @leaf tooLong tag values hvalues =>
    obtain ⟨v, vs, rfl⟩ := List.exists_cons_of_ne_nil hvalues
    rw [Stored.shapes, leaf_pieces, List.forall_mem_map] at hliteral
    exact .leaf hvalues fun w hw => (hliteral w hw).2.2.2.1

theorem Exported.plain (h : Exported db tag e t) (hstored : ∃ depth, stored db depth tag e = .ok t) (hlegal : t.Legal) :
    t.Plain := by
  obtain ⟨depth, hstored⟩ := hstored
  obtain ⟨s, ⟨d, hd⟩, hreads⟩ := h
  have hwrites := toXml_writes hstored hlegal 0 (Nat.le_max_right d depth)
  have hs := hd _ (Nat.le_max_left d depth)
  by_cases hshort : t.written.Short
  · obtain rfl := Except.ok.inj ((hwrites.ok hshort []).symm.trans hs)
    have hsingle := (written_weight t).2
      (hreads.weight_le fmt_isPrefix (lines_pieces t.written 0) hlegal.written.named)
    rw [hsingle.written_eq] at hreads hshort
    exact hsingle.plain hshort ((Xml.reads_iff fmt_isPrefix (lines_pieces t 0)).mp hreads)
  · obtain ⟨err, herr⟩ := hwrites.error hshort []
    cases herr.symm.trans hs

theorem exported_iff (db : Store) (tag : Option Str) (e : Elem) (t : Stored)
    (hstored : ∃ depth, stored db depth tag e = .ok t) (hlegal : t.Legal) : Exported db tag e t ↔ t.Plain := by
  refine ⟨fun h => h.plain hstored hlegal, fun h => ?_⟩
  obtain ⟨depth, hstored⟩ := hstored
  obtain ⟨hliteral, hshort⟩ := h.literal hlegal
  refine ⟨Xml.layout fmt (t.lines 0), ⟨depth, fun d hd => ?_⟩, (Xml.reads_iff fmt_isPrefix (lines_pieces t 0)).mpr hliteral⟩
  have hwrites := toXml_writes hstored hlegal 0 hd
  rw [h.single.written_eq] at hwrites
  exact hwrites.ok hshort []

def bankKey : Str := ['/', 'b']

def bank : Elem := ⟨bankKey, none, .regular, true⟩

/-- `/b` with the attribute `n`, the child `h`, which has two values, and a link `l` to it. -/
def bankStore : Store :=
  ((((MultiMap.empty.put bankKey (attribRecord ['n'] ['1'])).put bankKey (childRecord ['h'])).put bankKey
    (linkRecord ['l'] ['/', 'b', '/', 'h'])).put ['/', 'b', '/', 'h'] (valueRecord ['v'])).put
    ['/', 'b', '/', 'h'] (valueRecord ['w'])

def bankStored : Stored :=
  .mk false ['b'] [(['n'], ['1'])] []
    [(['h'], .mk false ['h'] [] [['v'], ['w']] []), (['l'], .mk false ['l'] [] [['v'], ['w']] [])]

theorem bank_exported : Exported bankStore none bank bankStored := by
  have hb : Xml.Name ['b'] := ⟨'b', [], by decide, by decide, by simp⟩
  have hh : Xml.Name ['h'] := ⟨'h', [], by decide, by decide, by simp⟩
  have hl : Xml.Name ['l'] := ⟨'l', [], by decide, by decide, by simp⟩
  have hn : Xml.Name ['n'] := ⟨'n', [], by decide, by decide, by simp⟩
  have hlegal : bankStored.Legal := by
    refine .mk hb (by simpa using hn) (List.forall_mem_cons.mpr ⟨?_, List.forall_mem_singleton.mpr ?_⟩)
    · exact .mk hh (by simp) (by simp)
    · exact .mk hl (by simp) (by simp)
  have hdata : ∀ v ∈ [['v'], ['w']], Xml.CharData v :=
    List.forall_mem_cons.mpr ⟨⟨⟨['v'], by decide, by simp [Xml.IsChar]⟩, by decide⟩,
      List.forall_mem_singleton.mpr ⟨⟨['w'], by decide, by simp [Xml.IsChar]⟩, by decide⟩⟩
  refine (exported_iff bankStore none bank bankStored ⟨2, rfl⟩ hlegal).mpr (.inner (by decide) ?_ (by decide)
    (List.forall_mem_cons.mpr ⟨.leaf (by simp) hdata, List.forall_mem_singleton.mpr (.leaf (by simp) hdata)⟩))
  exact List.forall_mem_singleton.mpr ⟨['1'], by decide, by simp [Xml.IsChar]⟩

/-- `/b` with the value `<`. -/
def angleStore : Store := MultiMap.empty.put bankKey (valueRecord ['<'])

def angleStored : Stored := .mk false ['b'] [] [['<']] []

theorem angle_not_exported :
    stored angleStore 1 none bank = .ok angleStored ∧ angleStored.Legal ∧
      ¬ Exported angleStore none bank angleStored := by
  have hb : Xml.Name ['b'] := ⟨'b', [], by decide, by decide, by simp⟩
  have hlegal : angleStored.Legal := .mk hb (by simp) (by simp)
  refine ⟨rfl, hlegal, fun h => ?_⟩
  cases h.plain ⟨1, rfl⟩ hlegal with
  | leaf _ hdata =>
    have hchars := (hdata ['<'] List.mem_cons_self).spelled.byte List.mem_cons_self
    exact absurd hchars (by decide)

end GalaLua.GalaDB
