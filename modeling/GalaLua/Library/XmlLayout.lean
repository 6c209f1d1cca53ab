import GalaLua.Library.Xml

/-!
# Documents printed in lines

Elements are printed as a sequence of tags and of leaves, with blanks around each. Where the
strings in them are printed as they are, or cut, such a text reads as the document that was
printed if and only if each piece alone does: what is read for a string is no longer than
what it is read from, so a reader that goes past the end of a piece never comes back to
where the pieces begin (`layout_iff`).
-/

namespace GalaLua.Library.Xml

-- ---------------------------------------------------------------------------
-- Documents
-- ---------------------------------------------------------------------------

/-- An element that is expected, with its text if it has a string. -/
inductive Shape
  | mk (name : Text) (attributes : List (Text × Text)) (value : Option Text) (children : List Shape)

/-- The elements among the nodes are those that are expected; around the children of an
element without a string there are blanks only. -/
inductive Shows : List Node → List Shape → Prop
  | nil : Shows [] []
  | text {w : Text} {ns : List Node} {shapes : List Shape} (rest : Shows ns shapes) : Shows (.text w :: ns) shapes
  | leaf {name : Text} {as : List (Text × Text)} {content ns : List Node} {children shapes : List Shape}
      (hcontent : Shows content children) (rest : Shows ns shapes) :
      Shows (.element name as content :: ns) (.mk name as (some (textOf content)) children :: shapes)
  | inner {name : Text} {as : List (Text × Text)} {content ns : List Node} {children shapes : List Shape}
      (hblank : Blank (textOf content)) (hcontent : Shows content children) (rest : Shows ns shapes) :
      Shows (.element name as content :: ns) (.mk name as none children :: shapes)

def Reads (s : Text) (shapes : List Shape) : Prop :=
  ∃ ns, Content s ns ∧ Shows ns shapes ∧ Blank (textOf ns)

-- ---------------------------------------------------------------------------
-- Pieces
-- ---------------------------------------------------------------------------

inductive Piece
  | start (name : Text) (attributes : List (Text × Text))
  | close (name : Text)
  | leaf (name : Text) (attributes : List (Text × Text)) (value : Text) (children : List Shape)

mutual

def Shape.pieces : Shape → List Piece
  | .mk name as none children => .start name as :: (pieces children ++ [.close name])
  | .mk name as (some v) children => [.leaf name as v children]

def pieces : List Shape → List Piece
  | [] => []
  | shape :: shapes => shape.pieces ++ pieces shapes

end

/-- The attributes with their strings printed by `g`. -/
def printAttributes (g : Text → Text) (as : List (Text × Text)) : Text :=
  as.flatMap fun a => ' ' :: (a.1 ++ '=' :: '"' :: (g a.2 ++ ['"']))

/-- How a piece is printed; a leaf has no attributes and no children there. -/
def Piece.print (g : Text → Text) : Piece → Text
  | .start name as => '<' :: (name ++ (printAttributes g as ++ ['>']))
  | .close name => '<' :: '/' :: (name ++ ['>'])
  | .leaf name _ v _ => '<' :: (name ++ '>' :: (g v ++ '<' :: '/' :: (name ++ ['>'])))

/-- What a piece is read from. -/
inductive Token : Piece → Text → Prop
  | start {u name : Text} {as : List (Text × Text)} (h : StartTag u name as) : Token (.start name as) u
  | close {u name : Text} (h : EndTag u name) : Token (.close name) u
  | leaf {u body z name : Text} {as : List (Text × Text)} {content : List Node} {children : List Shape}
      (hstart : StartTag u name as) (hbody : Content body content) (hcontent : Shows content children)
      (hend : EndTag z name) : Token (.leaf name as (textOf content) children) (u ++ (body ++ z))
  | empty {u name : Text} {as : List (Text × Text)} (h : EmptyTag u name as) : Token (.leaf name as [] []) u

/-- The pieces are found in the text one after the other. -/
inductive Spells : List Piece → Text → Prop
  | nil {x : Text} : Spells [] x
  | token {p : Piece} {ps : List Piece} {j y x : Text} (h : Token p y) (rest : Spells ps x) :
      Spells (p :: ps) (j ++ (y ++ x))
  | empty {name : Text} {as : List (Text × Text)} {ps : List Piece} {j y x : Text} (h : EmptyTag y name as)
      (rest : Spells ps x) : Spells (.start name as :: .close name :: ps) (j ++ (y ++ x))

variable {g : Text → Text} {c : Char} {s t u v w x y j name : Text} {ns : List Node} {as : List (Text × Text)}
variable {shapes children : List Shape} {p : Piece} {ps qs : List Piece}

theorem Spells.behind (h : Spells ps x) (j : Text) : Spells ps (j ++ x) := by
  cases h with
  | nil => exact .nil
  | token h rest =>
    rw [← List.append_assoc]
    exact .token h rest
  | empty h rest =>
    rw [← List.append_assoc]
    exact .empty h rest

theorem Spells.append (h : Spells ps x) (h' : Spells qs y) : Spells (ps ++ qs) (x ++ y) := by
  induction h with
  | nil => exact h'.behind _
  | token h _ ih =>
    rw [List.append_assoc, List.append_assoc]
    exact .token h ih
  | empty h _ ih =>
    rw [List.append_assoc, List.append_assoc]
    exact .empty h ih

/-- In a text that is read as the shapes their pieces are found. -/
theorem Content.spells (h : Content s ns) (hshows : Shows ns shapes) : Spells (pieces shapes) s := by
  induction h generalizing shapes with
  | nil =>
    cases hshows
    exact .nil
  | datum _ _ _ ih =>
    cases hshows with
    | text hrest => exact (ih hrest).behind _
  | skipped _ _ ih => exact (ih hshows).behind _
  | @element u body z s name as content ns hstart hbody hend _ ihbody ih =>
    cases hshows with
    | @leaf _ _ _ _ children shapes hcontent hrest =>
      have htoken := Spells.token (j := []) (.leaf hstart hbody hcontent hend) (ih hrest)
      rw [List.nil_append, List.append_assoc, List.append_assoc] at htoken
      exact htoken
    | @inner _ _ _ _ children shapes _ hcontent hrest =>
      have hclose := Spells.token (j := []) (.close hend) (ih hrest)
      have hrest := (ihbody hcontent).append hclose
      have htoken := Spells.token (j := []) (.start hstart) hrest
      simp only [pieces, Shape.pieces, List.nil_append, List.cons_append, List.append_assoc] at htoken ⊢
      exact htoken
  | @empty u s name as ns hempty _ ih =>
    cases hshows with
    | leaf hcontent hrest =>
      cases hcontent
      exact .token (j := []) (.empty hempty) (ih hrest)
    | inner _ hcontent hrest =>
      cases hcontent
      exact .empty (j := []) hempty (ih hrest)

-- ---------------------------------------------------------------------------
-- Lines
-- ---------------------------------------------------------------------------

def Space (s : Text) : Prop := ∀ c ∈ s, c = ' ' ∨ c = '\n'

/-- A piece with the blanks that are printed around it. -/
structure Line where
  before : Text
  piece : Piece
  after : Text
  space_before : Space before
  space_after : Space after

def Line.print (g : Text → Text) (l : Line) : Text := l.before ++ (l.piece.print g ++ l.after)

def layout (g : Text → Text) (ls : List Line) : Text := ls.flatMap (Line.print g)

theorem Space.blank (h : Space s) : Blank s := by
  intro c hc
  rcases h c hc with rfl | rfl <;> rfl

theorem Blank.append (hs : Blank s) (ht : Blank t) : Blank (s ++ t) := fun c hc =>
  (List.mem_append.mp hc).elim (hs c) (ht c)

/-- A text that goes on where `u` ends goes past the blanks behind `u`. -/
theorem past_blank {d r b : Text} (h : d ++ x = b ++ r) (hb : Blank b) (hd : d.getLast? = some '>') :
    ∃ d', d = b ++ d' ∧ d'.getLast? = some '>' ∧ d' ++ x = r := by
  rcases List.append_eq_append_iff.mp h with ⟨d', rfl, hx⟩ | ⟨d', rfl, hr⟩
  · exact absurd (hb '>' (List.mem_append_left d' (List.mem_of_getLast? hd))) (by decide)
  · cases d' with
    | nil =>
      rw [List.append_nil] at hd
      exact absurd (hb '>' (List.mem_of_getLast? hd)) (by decide)
    | cons c d' =>
      rw [List.getLast?_append_of_ne_nil _ (List.cons_ne_nil c d')] at hd
      exact ⟨c :: d', rfl, hd, hr.symm⟩

/-- A text that is longer than what is printed first goes past it. -/
theorem past_piece {d r b : Text} (h : d ++ x = b ++ r) (hlt : b.length < d.length) (hd : d.getLast? = some '>') :
    ∃ d', d = b ++ d' ∧ d'.getLast? = some '>' ∧ d' ++ x = r := by
  rcases List.append_eq_append_iff.mp h with ⟨d', rfl, hx⟩ | ⟨d', rfl, hr⟩
  · rw [List.length_append] at hlt
    omega
  · cases d' with
    | nil =>
      rw [List.append_nil] at hlt
      exact absurd hlt (Nat.lt_irrefl _)
    | cons c d' =>
      rw [List.getLast?_append_of_ne_nil _ (List.cons_ne_nil c d')] at hd
      exact ⟨c :: d', rfl, hd, hr.symm⟩

-- ---------------------------------------------------------------------------
-- The length of pieces
-- ---------------------------------------------------------------------------

theorem slash_notMem (h : Name name) : '/' ∉ name := h.notMem (by decide) (by decide)

theorem angle_notMem (h : Name name) : '>' ∉ name := h.notMem (by decide) (by decide)

section Printed

variable (hg : ∀ v, g v <+: v)

include hg

theorem printAttributes_length_le (as : List (Text × Text)) : (printAttributes g as).length ≤ attLength as := by
  induction as with
  | nil => exact Nat.le_refl _
  | cons a as ih =>
    have hle := (hg a.2).length_le
    simp only [printAttributes, attLength, List.flatMap_cons, List.length_append,
      List.length_cons, List.length_nil] at ih ⊢
    omega

/-- An empty-element tag is no part of a printed leaf. -/
theorem empty_not_printed {b a r : Text} (h : EmptyTag u name as) (hb : Blank b)
    (heq : b ++ (Piece.leaf name as [] []).print g = a ++ (u ++ r)) : False := by
  have hname := h.isName
  have hnil : g [] = [] := List.prefix_nil.mp (hg [])
  obtain ⟨u, rfl⟩ := h.ends
  simp only [Piece.print, hnil, List.nil_append] at heq
  have hleft : b ++ '<' :: (name ++ '>' :: '<' :: '/' :: (name ++ ['>'])) =
      (b ++ '<' :: (name ++ ['>', '<'])) ++ '/' :: (name ++ ['>']) := by simp
  have hright : a ++ ((u ++ ['/', '>']) ++ r) = (a ++ u) ++ '/' :: '>' :: r := by simp
  have hbslash : '/' ∉ b := fun hmem => absurd (hb '/' hmem) (by decide)
  have hslash := slash_notMem hname
  rw [hleft, hright, List.append_cons_inj_of_notMem (by simp [hbslash, hslash]) (by simp [hslash])] at heq
  -- Behind the only slash there is the name.
  obtain ⟨c, name, rfl⟩ := List.exists_cons_of_ne_nil hname.ne_nil
  obtain rfl : c = '>' := (List.cons.inj heq.2.2).1
  exact angle_notMem hname List.mem_cons_self

/-- A token for a piece is no shorter than what is printed for it, where it is part of that. -/
theorem Token.length_le {b a r : Text} (h : Token p y) (hb : Blank b) (heq : b ++ p.print g = a ++ (y ++ r)) :
    (p.print g).length ≤ y.length := by
  cases h with
  | @start _ name as h =>
    have hlength := h.length_le
    have hle := printAttributes_length_le hg as
    simp only [Piece.print, List.length_cons, List.length_append, List.length_nil] at hlength ⊢
    omega
  | close h =>
    have hlength := h.length_le
    simp only [Piece.print, List.length_cons, List.length_append, List.length_nil]
    omega
  | @leaf u body z name as content children hstart hbody hcontent hend =>
    have hlength := hstart.length_le
    have hle := (hg (textOf content)).length_le
    have hcontentLength := hbody.length_le
    have hendLength := hend.length_le
    simp only [Piece.print, List.length_cons, List.length_append, List.length_nil] at hlength ⊢
    omega
  | empty h => exact (empty_not_printed hg h hb heq).elim

omit hg in
theorem Token.starts (h : Token p y) : ∃ v, y = '<' :: v := by
  cases h with
  | start h => exact Tag.starts h
  | close h => exact h.starts
  | leaf hstart =>
    obtain ⟨v, rfl⟩ := Tag.starts hstart
    exact ⟨_, rfl⟩
  | empty h => exact Tag.starts h

omit hg in
theorem Token.ends (h : Token p y) : y.getLast? = some '>' := by
  cases h with
  | start h =>
    obtain ⟨v, rfl⟩ := Tag.ends h
    exact List.getLast?_concat
  | close h =>
    obtain ⟨v, rfl⟩ := h.ends
    exact List.getLast?_concat
  | @leaf u body z _ _ _ _ _ _ _ hend =>
    obtain ⟨v, rfl⟩ := hend.ends
    rw [← List.append_assoc, ← List.append_assoc]
    exact List.getLast?_concat
  | empty h =>
    obtain ⟨v, rfl⟩ := Tag.ends h
    rw [List.getLast?_append_of_ne_nil _ (by simp)]
    rfl

-- ---------------------------------------------------------------------------
-- Readers that have gone too far
-- ---------------------------------------------------------------------------

omit hg in
/-- A part of a printed piece that is as long as the piece is the piece. -/
theorem whole_piece {a b r : Text} (hb : Blank b) (heq : b ++ s = a ++ (y ++ r)) (hlength : s.length ≤ y.length)
    (hstarts : ∃ v, y = '<' :: v) : a = b ∧ y = s := by
  have hsum := congrArg List.length heq
  simp only [List.length_append] at hsum
  obtain ⟨b', rfl⟩ : a <+: b :=
    List.prefix_of_prefix_length_le ⟨y ++ r, heq.symm⟩ (List.prefix_append b s) (by omega)
  rw [List.append_assoc, List.append_cancel_left_eq] at heq
  obtain ⟨v, rfl⟩ := hstarts
  cases b' with
  | nil =>
    rw [List.nil_append] at heq
    subst heq
    obtain rfl : r = [] := by
      rw [List.length_append] at hlength
      exact List.eq_nil_of_length_eq_zero (by omega)
    exact ⟨(List.append_nil a).symm, (List.append_nil _).symm⟩
  | cons c b' =>
    obtain rfl : c = '<' := (List.cons.inj heq).1
    exact absurd (hb '<' (List.mem_append_right a List.mem_cons_self)) (by decide)

/-- More than blanks of the lines is behind a reader that has the text `x` before it. -/
def Past (g : Text → Text) (ls : List Line) (x : Text) : Prop := ∃ a, ¬ Blank a ∧ a ++ x = layout g ls

def Level (g : Text → Text) (ls : List Line) (x : Text) : Prop := ∃ b, Blank b ∧ x = b ++ layout g ls

omit hg in
theorem not_blank (h : s.getLast? = some '>') : ¬ Blank s := fun hblank =>
  absurd (hblank '>' (List.mem_of_getLast? h)) (by decide)

variable {l l' : Line} {ls : List Line}

omit hg in
theorem layout_cons (l : Line) (ls : List Line) :
    layout g (l :: ls) = l.before ++ (l.piece.print g ++ (l.after ++ layout g ls)) := by
  simp only [layout, List.flatMap_cons, Line.print, List.append_assoc]

omit hg in
theorem getLast?_append (hstarts : ∃ v, y = '<' :: v) (j : Text) : (j ++ y).getLast? = y.getLast? := by
  obtain ⟨v, rfl⟩ := hstarts
  exact List.getLast?_append_of_ne_nil _ (List.cons_ne_nil _ _)

omit hg in
/-- A text with a piece at its end is part of a line up to the last blanks, or goes past it. -/
theorem part_or_past {d b r : Text} (h : d ++ x = b ++ (s ++ r)) :
    (∃ r', b ++ s = d ++ r') ∨ (b ++ s).length < d.length := by
  by_cases hlt : (b ++ s).length < d.length
  · exact .inr hlt
  · obtain ⟨r', hr⟩ : d <+: b ++ s := by
      refine List.prefix_of_prefix_length_le ⟨x, h⟩ ?_ (Nat.not_lt.mp hlt)
      rw [← List.append_assoc]
      exact List.prefix_append _ _
    exact .inl ⟨r', hr.symm⟩

omit hg in
/-- What is longer than a line without its last blanks goes past the line. -/
theorem past_line {d b : Text} (h : d ++ x = b ++ (l.piece.print g ++ (l.after ++ layout g ls)))
    (hlt : (b ++ l.piece.print g).length < d.length) (hd : d.getLast? = some '>') : Past g ls x := by
  rw [← List.append_assoc] at h
  obtain ⟨d₁, -, hd₁, h₁⟩ := past_piece h hlt hd
  obtain ⟨d₂, -, hd₂, h₂⟩ := past_blank h₁ l.space_after.blank hd₁
  exact ⟨d₂, not_blank hd₂, h₂⟩

/-- A reader that is past the beginning of a piece is past its end when it has read it. -/
theorem Past.token (h : Past g (l :: ls) (j ++ (y ++ x))) (htoken : Token l.piece y) : Past g ls x := by
  obtain ⟨a, ha, heq⟩ := h
  have hline : (a ++ (j ++ y)) ++ x = l.before ++ (l.piece.print g ++ (l.after ++ layout g ls)) := by
    rw [← layout_cons, ← heq]
    simp only [List.append_assoc]
  have hends : (a ++ (j ++ y)).getLast? = some '>' := by
    rw [← List.append_assoc, getLast?_append htoken.starts, htoken.ends]
  rcases part_or_past hline with ⟨r, hr⟩ | hlt
  · have hpart : l.before ++ l.piece.print g = (a ++ j) ++ (y ++ r) := by
      rw [hr]
      simp only [List.append_assoc]
    obtain ⟨hbefore, -⟩ := whole_piece l.space_before.blank hpart
      (htoken.length_le hg l.space_before.blank hpart) htoken.starts
    exact absurd (fun c hc => l.space_before.blank c (hbefore ▸ List.mem_append_left j hc)) ha
  · exact past_line hline hlt hends

/-- A reader that has all the lines before it reads the first piece as it is printed, or
goes past it. -/
theorem Level.token (h : Level g (l :: ls) (j ++ (y ++ x))) (htoken : Token l.piece y) :
    Level g ls x ∧ y = l.piece.print g ∨ Past g ls x := by
  obtain ⟨b, hb, heq⟩ := h
  have hblank : Blank (b ++ l.before) := hb.append l.space_before.blank
  have hline : (j ++ y) ++ x = (b ++ l.before) ++ (l.piece.print g ++ (l.after ++ layout g ls)) := by
    rw [List.append_assoc, heq, layout_cons, List.append_assoc]
  have hends : (j ++ y).getLast? = some '>' := by rw [getLast?_append htoken.starts, htoken.ends]
  rcases part_or_past hline with ⟨r, hr⟩ | hlt
  · rw [List.append_assoc j] at hr
    obtain ⟨rfl, rfl⟩ := whole_piece hblank hr (htoken.length_le hg hblank hr) htoken.starts
    rw [List.append_assoc, List.append_cancel_left_eq, List.append_cancel_left_eq] at hline
    exact .inl ⟨⟨l.after, l.space_after.blank, hline⟩, rfl⟩
  · exact .inr (past_line hline hlt hends)

omit hg in
theorem EmptyTag.ends (h : EmptyTag y name as) : y.getLast? = some '>' := by
  obtain ⟨v, rfl⟩ := Tag.ends h
  rw [List.getLast?_append_of_ne_nil _ (by simp)]
  rfl

omit hg in
/-- An empty-element tag that goes past the start tag of an element goes past its end tag. -/
theorem past_empty {d b : Text} (hl' : l'.piece = .close name) (h : EmptyTag y name as)
    (heq : (d ++ y) ++ x = b ++ (l.piece.print g ++ (l.after ++ layout g (l' :: ls))))
    (hlt : (b ++ l.piece.print g).length < (d ++ y).length) : Past g ls x := by
  have hends : (d ++ y).getLast? = some '>' := by rw [getLast?_append (Tag.starts h), h.ends]
  rw [← List.append_assoc b] at heq
  obtain ⟨d₁, hd₁, hends₁, h₁⟩ := past_piece heq hlt hends
  obtain ⟨d₂, rfl, hends₂, h₂⟩ := past_blank h₁ l.space_after.blank hends₁
  rw [layout_cons] at h₂
  rcases part_or_past h₂ with ⟨r, hr⟩ | hlt₂
  · -- The tag would end with the end tag, but there a name is before the bracket.
    exfalso
    have hname := Tag.isName h
    obtain ⟨v, rfl⟩ := Tag.ends h
    obtain ⟨d₃, rfl⟩ := List.getLast?_eq_some_iff.mp hends₂
    have hangle : '>' ∉ l'.before ++ '<' :: '/' :: name := by
      have hbefore : '>' ∉ l'.before := fun hmem => absurd (l'.space_before.blank '>' hmem) (by decide)
      simp [hbefore, angle_notMem hname]
    have hclose : (l'.before ++ '<' :: '/' :: name) ++ '>' :: [] = d₃ ++ '>' :: r := by
      rw [hl'] at hr
      simpa [Piece.print] using hr
    obtain ⟨rfl, -, -⟩ := (List.append_cons_inj_of_notMem hangle List.not_mem_nil).mp hclose
    have hlast : d ++ (v ++ ['/']) = (b ++ l.piece.print g ++ (l.after ++ (l'.before ++ ['<', '/']))) ++ name := by
      have hall := congrArg List.dropLast hd₁
      have hleft : d ++ (v ++ ['/', '>']) = (d ++ (v ++ ['/'])) ++ ['>'] := by simp
      have hright : b ++ l.piece.print g ++ (l.after ++ (l'.before ++ '<' :: '/' :: name ++ ['>'])) =
          (b ++ l.piece.print g ++ (l.after ++ (l'.before ++ ['<', '/'])) ++ name) ++ ['>'] := by simp
      rwa [hleft, hright, List.dropLast_concat, List.dropLast_concat] at hall
    have hslash := congrArg List.getLast? hlast
    rw [← List.append_assoc, List.getLast?_concat, List.getLast?_append_of_ne_nil _ hname.ne_nil] at hslash
    exact slash_notMem hname (List.mem_of_getLast? hslash.symm)
  · exact past_line h₂ hlt₂ hends₂

theorem EmptyTag.length_lt (h : EmptyTag y name as) : ((Piece.start name as).print g).length < y.length := by
  have hlength := Tag.length_le h
  have hle := printAttributes_length_le hg as
  simp only [Piece.print, List.length_cons, List.length_append, List.length_nil] at hlength ⊢
  omega

theorem Past.empty (h : Past g (l :: l' :: ls) (j ++ (y ++ x))) (hl : l.piece = .start name as)
    (hl' : l'.piece = .close name) (htag : EmptyTag y name as) : Past g ls x := by
  obtain ⟨a, ha, heq⟩ := h
  have hline : ((a ++ j) ++ y) ++ x = l.before ++ (l.piece.print g ++ (l.after ++ layout g (l' :: ls))) := by
    rw [← layout_cons, ← heq]
    simp only [List.append_assoc]
  rcases part_or_past hline with ⟨r, hr⟩ | hlt
  · have hlength : (l.piece.print g).length < y.length := hl ▸ htag.length_lt hg
    rw [List.append_assoc] at hr
    obtain ⟨-, rfl⟩ := whole_piece l.space_before.blank hr hlength.le (Tag.starts htag)
    exact absurd hlength (Nat.lt_irrefl _)
  · exact past_empty hl' htag hline hlt

theorem Level.empty (h : Level g (l :: l' :: ls) (j ++ (y ++ x))) (hl : l.piece = .start name as)
    (hl' : l'.piece = .close name) (htag : EmptyTag y name as) : Past g ls x := by
  obtain ⟨b, hb, heq⟩ := h
  have hblank : Blank (b ++ l.before) := hb.append l.space_before.blank
  have hline : (j ++ y) ++ x = (b ++ l.before) ++ (l.piece.print g ++ (l.after ++ layout g (l' :: ls))) := by
    rw [List.append_assoc, heq, layout_cons, List.append_assoc]
  rcases part_or_past hline with ⟨r, hr⟩ | hlt
  · have hlength : (l.piece.print g).length < y.length := hl ▸ htag.length_lt hg
    rw [List.append_assoc j] at hr
    obtain ⟨-, rfl⟩ := whole_piece hblank hr hlength.le (Tag.starts htag)
    exact absurd hlength (Nat.lt_irrefl _)
  · exact past_empty hl' htag hline hlt

theorem Spells.not_past (h : Spells ps x) (hps : ls.map Line.piece = ps) (hpast : Past g ls x) : False := by
  induction h generalizing ls with
  | nil =>
    obtain rfl := List.map_eq_nil_iff.mp hps
    obtain ⟨a, ha, heq⟩ := hpast
    obtain ⟨rfl, -⟩ := List.append_eq_nil_iff.mp heq
    exact ha (by simp [Blank])
  | token htoken _ ih =>
    obtain ⟨l, ls, rfl, rfl, hls⟩ := List.map_eq_cons_iff.mp hps
    exact ih hls (hpast.token hg htoken)
  | empty htag _ ih =>
    obtain ⟨l, ls, rfl, hl, hls⟩ := List.map_eq_cons_iff.mp hps
    obtain ⟨l', ls, rfl, hl', hls⟩ := List.map_eq_cons_iff.mp hls
    exact ih hls (hpast.empty hg hl hl' htag)

/-- Where all the pieces are found, each is read from what is printed for it. -/
theorem Spells.tokens (h : Spells ps x) (hps : ls.map Line.piece = ps) (hlevel : Level g ls x) :
    ∀ l ∈ ls, Token l.piece (l.piece.print g) := by
  induction h generalizing ls with
  | nil =>
    obtain rfl := List.map_eq_nil_iff.mp hps
    simp
  | token htoken hrest ih =>
    obtain ⟨l, ls, rfl, rfl, hls⟩ := List.map_eq_cons_iff.mp hps
    rcases hlevel.token hg htoken with ⟨hnext, rfl⟩ | hpast
    · exact List.forall_mem_cons.mpr ⟨htoken, ih hls hnext⟩
    · exact (hrest.not_past hg hls hpast).elim
  | empty htag hrest ih =>
    obtain ⟨l, ls, rfl, hl, hls⟩ := List.map_eq_cons_iff.mp hps
    obtain ⟨l', ls, rfl, hl', hls⟩ := List.map_eq_cons_iff.mp hls
    exact (hrest.not_past hg hls (hlevel.empty hg hl hl' htag)).elim

end Printed

-- ---------------------------------------------------------------------------
-- Lines that are read
-- ---------------------------------------------------------------------------

theorem Shape.induct {P : List Shape → Prop} (nil : P [])
    (leaf : ∀ name as v children shapes, P shapes → P (.mk name as (some v) children :: shapes))
    (inner : ∀ name as children shapes, P children → P shapes → P (.mk name as none children :: shapes)) :
    ∀ shapes, P shapes := by
  refine @Shape.rec_1 (fun shape => ∀ shapes, P shapes → P (shape :: shapes)) P ?_ nil ?_
  · intro name as value children hchildren shapes hshapes
    cases value with
    | none => exact inner name as children shapes hchildren hshapes
    | some v => exact leaf name as v children shapes hshapes
  · exact fun shape shapes hshape hshapes => hshape shapes hshapes

theorem pieces_append (as bs : List Shape) : pieces (as ++ bs) = pieces as ++ pieces bs := by
  induction as with
  | nil => rfl
  | cons a as ih => rw [List.cons_append, pieces, pieces, ih, List.append_assoc]

theorem layout_append (ks ls : List Line) : layout g (ks ++ ls) = layout g ks ++ layout g ls := List.flatMap_append

theorem textOf_append (ns ms : List Node) : textOf (ns ++ ms) = textOf ns ++ textOf ms := by
  induction ns with
  | nil => rfl
  | cons n ns ih =>
    cases n with
    | text w => rw [List.cons_append, textOf, textOf, ih, List.append_assoc]
    | element name as content => rw [List.cons_append, textOf, textOf, ih]

theorem Shows.append {ms : List Node} {others : List Shape} (h : Shows ns shapes) (h' : Shows ms others) :
    Shows (ns ++ ms) (shapes ++ others) := by
  induction h with
  | nil => exact h'
  | text _ ih => exact .text ih
  | leaf hcontent _ _ ih => exact .leaf hcontent ih
  | inner hblank hcontent _ _ ih => exact .inner hblank hcontent ih

/-- In front of any content the text is read as the shapes. -/
def Extends (x : Text) (shapes : List Shape) : Prop :=
  ∀ s ns, Content s ns → ∃ ms, Content (x ++ s) (ms ++ ns) ∧ Shows ms shapes ∧ Blank (textOf ms)

theorem Extends.append {others : List Shape} (h : Extends x shapes) (h' : Extends y others) :
    Extends (x ++ y) (shapes ++ others) := by
  intro s ns hcontent
  obtain ⟨ms', hcontent', hshows', hblank'⟩ := h' s ns hcontent
  obtain ⟨ms, hcontent, hshows, hblank⟩ := h _ _ hcontent'
  refine ⟨ms ++ ms', ?_, hshows.append hshows', ?_⟩
  · rw [List.append_assoc, List.append_assoc]
    exact hcontent
  · rw [textOf_append]
    exact hblank.append hblank'

theorem Extends.reads (h : Extends x shapes) : ∃ ms, Content x ms ∧ Shows ms shapes ∧ Blank (textOf ms) := by
  obtain ⟨ms, hcontent, hshows⟩ := h [] [] .nil
  rw [List.append_nil, List.append_nil] at hcontent
  exact ⟨ms, hcontent, hshows⟩

theorem extends_space (h : Space x) : Extends x [] := by
  intro s ns hcontent
  induction x with
  | nil => exact ⟨[], hcontent, .nil, by simp [Blank, textOf]⟩
  | cons c x ih =>
    obtain ⟨hc, hx⟩ := List.forall_mem_cons.mp h
    obtain ⟨ms, hcontent, hshows, hblank⟩ := ih hx
    have hchar : IsChar c ∧ c ∉ ['<', '&', '\r'] ∧ c ≠ ']' ∧ blank c = true ∧ c.toNat < 0x80 ∧ c ≠ '\r' := by
      rcases hc with rfl | rfl <;> decide
    obtain ⟨hischar, hnotMem, hbracket, hcblank, hlow, hcr⟩ := hchar
    have hdatum := Datum.char hischar hnotMem
    rw [utf8_ascii hlow] at hdatum
    have hapart : Apart [c] (x ++ s) :=
      ⟨fun hbegin => hbracket (List.cons_prefix_cons.mp hbegin).1.symm, fun heq => absurd (List.cons.inj heq).1 hcr⟩
    have hread := Content.datum hdatum hapart hcontent
    exact ⟨.text [c] :: ms, hread, .text hshows, List.forall_mem_cons.mpr ⟨hcblank, hblank⟩⟩

theorem extends_leaf {v : Text} (h : Token (.leaf name as v children) y) : Extends y [.mk name as (some v) children] := by
  intro s ns hcontent
  cases h with
  | @leaf u body z _ _ content _ hstart hbody hshows hend =>
    refine ⟨[.element name as content], ?_, .leaf hshows .nil, by simp [Blank, textOf]⟩
    rw [List.append_assoc, List.append_assoc]
    exact .element hstart hbody hend hcontent
  | empty h => exact ⟨[.element name as []], .empty h hcontent, .leaf .nil .nil, by simp [Blank, textOf]⟩

theorem extends_inner {z : Text} (hstart : StartTag u name as) (hbody : Extends x children) (hend : EndTag z name) :
    Extends (u ++ (x ++ z)) [.mk name as none children] := by
  intro s ns hcontent
  obtain ⟨content, hread, hshows, hblank⟩ := hbody.reads
  refine ⟨[.element name as content], ?_, .inner hblank hshows .nil, by simp [Blank, textOf]⟩
  rw [List.append_assoc, List.append_assoc]
  exact .element hstart hread hend hcontent

theorem extends_layout {ls : List Line} (hps : ls.map Line.piece = pieces shapes)
    (h : ∀ l ∈ ls, Token l.piece (l.piece.print g)) : Extends (layout g ls) shapes := by
  induction shapes using Shape.induct generalizing ls with
  | nil =>
    obtain rfl := List.map_eq_nil_iff.mp hps
    exact extends_space (by simp [Space, layout])
  | leaf name as v children shapes ih =>
    obtain ⟨l, ls, rfl, hl, hls⟩ := List.map_eq_cons_iff.mp hps
    obtain ⟨htoken, hrest⟩ := List.forall_mem_cons.mp h
    rw [layout_cons]
    rw [hl] at htoken ⊢
    exact (extends_space l.space_before).append
      ((extends_leaf htoken).append ((extends_space l.space_after).append (ih hls hrest)))
  | inner name as children shapes ihchildren ih =>
    simp only [pieces, Shape.pieces, List.cons_append, List.append_assoc] at hps
    obtain ⟨l, ls, rfl, hl, hls⟩ := List.map_eq_cons_iff.mp hps
    obtain ⟨inside, rest, rfl, hinside, hrest⟩ := List.map_eq_append_iff.mp hls
    obtain ⟨l', rest, rfl, hl', hrest⟩ := List.map_eq_cons_iff.mp hrest
    obtain ⟨htoken, h⟩ := List.forall_mem_cons.mp h
    obtain ⟨hchildren, h⟩ := List.forall_mem_append.mp h
    obtain ⟨htoken', h⟩ := List.forall_mem_cons.mp h
    have hbody := (extends_space l.space_after).append
      ((ihchildren hinside hchildren).append (extends_space l'.space_before))
    rw [hl] at htoken
    rw [hl'] at htoken'
    cases htoken with
    | start hstart =>
      cases htoken' with
      | close hend =>
        have hall := (extends_space l.space_before).append ((extends_inner hstart hbody hend).append
          ((extends_space l'.space_after).append (ih hrest h)))
        simp only [layout, List.flatMap_cons, List.flatMap_append, Line.print, hl, hl', List.nil_append,
          List.append_nil, List.append_assoc] at hall ⊢
        exact hall

/-- Printed lines are read as the elements they were printed for if each piece is. -/
theorem layout_iff {ls : List Line} (hg : ∀ v, g v <+: v) (hps : ls.map Line.piece = pieces shapes) :
    Reads (layout g ls) shapes ↔ ∀ l ∈ ls, Token l.piece (l.piece.print g) := by
  constructor
  · rintro ⟨ns, hcontent, hshows, -⟩
    exact (hcontent.spells hshows).tokens hg hps ⟨[], by simp [Blank], rfl⟩
  · exact fun h => (extends_layout hps h).reads

-- ---------------------------------------------------------------------------
-- Pieces that are read
-- ---------------------------------------------------------------------------

/-- The names are names, and the strings are printed in full and read as they stand. -/
def Piece.Literal (g : Text → Text) : Piece → Prop
  | .start name as =>
    Name name ∧ (∀ a ∈ as, Name a.1 ∧ AttChars a.2 ∧ g a.2 = a.2) ∧ (as.map Prod.fst).Nodup
  | .close name => Name name
  | .leaf name as v children => Name name ∧ as = [] ∧ children = [] ∧ CharData v ∧ g v = v

theorem CharData.reads (h : CharData v) : ∃ ns, Content v ns ∧ Shows ns [] ∧ textOf ns = v := by
  obtain ⟨⟨cs, rfl, hcs⟩, hend⟩ := h
  induction cs with
  | nil => exact ⟨[], .nil, .nil, rfl⟩
  | cons c cs ih =>
    obtain ⟨⟨hchar, hc⟩, hcs⟩ := List.forall_mem_cons.mp hcs
    rw [List.flatMap_cons] at hend ⊢
    obtain ⟨ns, hcontent, hshows, htext⟩ := ih hcs fun hfound => hend (hfound.trans (List.suffix_append _ _).isInfix)
    refine ⟨.text (utf8 c) :: ns, .datum (.char hchar hc) ⟨fun h => hend h.isInfix, fun heq => ?_⟩ hcontent,
      .text hshows, by rw [textOf, htext]⟩
    rcases mem_utf8 (heq ▸ List.mem_singleton_self '\r' : '\r' ∈ utf8 c) with rfl | hhigh
    · exact absurd hc (by decide)
    · exact absurd hhigh (by decide)

theorem AttChars.value (h : AttChars v) : Value '"' v v := by
  obtain ⟨cs, rfl, hcs⟩ := h
  induction cs with
  | nil => exact .nil
  | cons c cs ih =>
    obtain ⟨⟨hchar, hc⟩, hcs⟩ := List.forall_mem_cons.mp hcs
    rw [List.flatMap_cons]
    refine .cons (.char hchar hc) (fun heq => ?_) (ih hcs)
    rcases mem_utf8 (heq ▸ List.mem_singleton_self '\r' : '\r' ∈ utf8 c) with rfl | hhigh
    · exact absurd hc (by decide)
    · exact absurd hhigh (by decide)

theorem printAttributes_cons (a : Text × Text) (as : List (Text × Text)) :
    printAttributes g (a :: as) =
      [' '] ++ (a.1 ++ ([] ++ '=' :: ([] ++ '"' :: (g a.2 ++ '"' :: printAttributes g as)))) := by
  simp [printAttributes]

theorem attributes_print (h : ∀ a ∈ as, Name a.1 ∧ AttChars a.2 ∧ g a.2 = a.2) :
    Attributes (printAttributes g as) as := by
  induction as with
  | nil => exact .nil
  | cons a as ih =>
    obtain ⟨⟨hname, hchars, hprinted⟩, has⟩ := List.forall_mem_cons.mp h
    have hblank : Blank [] := by simp [Blank]
    rw [printAttributes_cons, hprinted]
    exact .cons (by simp [Blank, blank]) (List.cons_ne_nil _ _) hname hblank hblank List.mem_cons_self hchars.value (ih has)

theorem eq_of_prefix (hg : ∀ v, g v <+: v) (h : v.length ≤ (g v).length) : g v = v :=
  (hg v).eq_of_length (Nat.le_antisymm (hg v).length_le h)

theorem attributes_literal (hg : ∀ v, g v <+: v) (h : Attributes (printAttributes g as) as) :
    ∀ a ∈ as, Name a.1 ∧ AttChars a.2 ∧ g a.2 = a.2 := by
  induction as with
  | nil => simp
  | cons a as ih =>
    rw [printAttributes_cons] at h
    generalize hprint : [' '] ++ (a.1 ++ ([] ++ '=' :: ([] ++ '"' :: (g a.2 ++ '"' :: printAttributes g as)))) = text at h
    cases h with
    | @cons b name b₁ b₂ u v s q as hb hne hname hb₁ hb₂ hq hv hrest =>
      have hvalue := hv.length_le
      have hprinted := (hg v).length_le
      have hlength := hrest.length_le
      have hle := printAttributes_length_le hg as
      have hpos := List.length_pos_of_ne_nil hne
      have hsum := congrArg List.length hprint
      simp only [List.nil_append, List.length_append, List.length_cons, List.length_nil] at hsum
      have hsame : (g v).length = u.length := by omega
      obtain ⟨hb, hrest₁⟩ := List.append_inj hprint (by rw [List.length_singleton]; omega)
      rw [List.append_cancel_left_eq] at hrest₁
      obtain ⟨rfl, hrest₂⟩ := List.append_inj hrest₁ (by rw [List.length_nil]; omega)
      obtain ⟨rfl, hrest₃⟩ := List.append_inj (List.cons.inj hrest₂).2 (by rw [List.length_nil]; omega)
      obtain ⟨rfl, hrest₄⟩ := List.cons.inj hrest₃
      obtain ⟨rfl, hrest₅⟩ := List.append_inj hrest₄ hsame
      obtain rfl := (List.cons.inj hrest₅).2
      have hself := eq_of_prefix hg hvalue
      rw [hself] at hv
      refine List.forall_mem_cons.mpr ⟨⟨hname, hv.literal rfl, hself⟩, ih hrest⟩

theorem shows_texts (h : Shows ns shapes) (hns : ∀ n ∈ ns, ∃ w, n = .text w) : shapes = [] := by
  induction h with
  | nil => rfl
  | text _ ih => exact ih fun n hn => hns n (List.mem_cons_of_mem _ hn)
  | leaf | inner =>
    obtain ⟨w, hw⟩ := hns _ List.mem_cons_self
    cases hw

theorem leaf_literal (hg : ∀ v, g v <+: v) (h : Token (.leaf name as v children) y)
    (hy : y = (Piece.leaf name as v children).print g) : (Piece.leaf name as v children).Literal g := by
  cases h with
  | @leaf u body z _ _ content _ hstart hbody hshows hend =>
    have hname := Tag.isName hstart
    have hstartLength := Tag.length_le hstart
    have hendLength := hend.length_le
    have hbodyLength := hbody.length_le
    have hprinted := (hg (textOf content)).length_le
    have hsum := congrArg List.length hy
    simp only [Piece.print, List.length_append, List.length_cons, List.length_nil] at hsum hstartLength
    have hattributes : attLength as = 0 := by omega
    obtain rfl : as = [] := by
      cases as with
      | nil => rfl
      | cons a as =>
        simp only [attLength] at hattributes
        omega
    have hsplit : u ++ (body ++ z) = ('<' :: (name ++ ['>'])) ++ (g (textOf content) ++ '<' :: '/' :: (name ++ ['>'])) := by
      rw [hy]
      simp [Piece.print]
    have htag : u.length = ('<' :: (name ++ ['>'])).length := by
      simp only [List.length_cons, List.length_append, List.length_nil]
      omega
    obtain ⟨-, hsplit⟩ := List.append_inj hsplit htag
    obtain ⟨hbodyEq, -⟩ := List.append_inj hsplit (by omega)
    have hself := eq_of_prefix hg (v := textOf content) (by rw [← hbodyEq]; exact hbodyLength)
    rw [hself] at hbodyEq
    obtain ⟨hdata, htexts⟩ := hbody.literal hbodyEq.symm
    exact ⟨hname, rfl, shows_texts hshows htexts, hbodyEq ▸ hdata, hself⟩
  | empty h => exact (empty_not_printed hg h (b := []) (a := []) (r := []) (by simp [Blank]) (by simpa using hy.symm)).elim

theorem start_literal (hg : ∀ v, g v <+: v) (h : StartTag y name as) (hy : y = (Piece.start name as).print g) :
    (Piece.start name as).Literal g := by
  cases h with
  | @mk _ s b _ hname has hunique hb =>
    have hlength := has.length_le
    have hle := printAttributes_length_le hg as
    have hrest := List.append_cancel_left (List.cons.inj hy).2
    have hsum := congrArg List.length hrest
    simp only [List.length_append, List.length_cons, List.length_nil] at hsum
    obtain ⟨rfl, -⟩ := List.append_inj hrest (by omega)
    exact ⟨hname, attributes_literal hg has, hunique⟩

theorem token_iff (hg : ∀ v, g v <+: v) : Token p (p.print g) ↔ p.Literal g := by
  constructor
  · intro h
    cases p with
    | start name as =>
      cases h with
      | start h => exact start_literal hg h rfl
    | close name =>
      generalize hy : (Piece.close name).print g = y at h
      cases h with
      | close h =>
        cases h with
        | mk hname => exact hname
    | leaf name as v children => exact leaf_literal hg h rfl
  · intro h
    have hblank : Blank [] := by simp [Blank]
    cases p with
    | start name as =>
      obtain ⟨hname, has, hunique⟩ := h
      have htag := @Tag.mk ['>'] _ _ _ _ hname (attributes_print has) hunique hblank
      exact .start htag
    | close name => exact .close (.mk h hblank)
    | leaf name as v children =>
      obtain ⟨hname, rfl, rfl, hdata, hself⟩ := h
      obtain ⟨ns, hcontent, hshows, rfl⟩ := hdata.reads
      have htag := @Tag.mk ['>'] _ _ _ _ hname .nil List.nodup_nil hblank
      have htoken := Token.leaf htag hcontent hshows (.mk hname hblank)
      simp only [Piece.print, hself]
      simpa using htoken

/-- Printed lines are read as the elements they were printed for if and only if the names are
names and every string is printed in full and is read as it stands. -/
theorem reads_iff {ls : List Line} (hg : ∀ v, g v <+: v) (hps : ls.map Line.piece = pieces shapes) :
    Reads (layout g ls) shapes ↔ ∀ p ∈ pieces shapes, p.Literal g := by
  rw [layout_iff hg hps, ← hps, List.forall_mem_map]
  exact forall₂_congr fun l _ => token_iff hg

end GalaLua.Library.Xml
