import GalaLua.Runtime.XML

/-!
# Reading a written document back

The parser takes every written document that has a declaration and no empty
element (`parseDocument_writeDocument`), and gives an element with children the
text between its tags as its value (`Element.read`). The empty element `<k />`
and the missing declaration are refused. So a document is read back as it was
only when its root is a leaf (`read_back_iff`).
-/

namespace GalaLua.Runtime.XML

-- ---------------------------------------------------------------------------
-- Legal documents
-- ---------------------------------------------------------------------------

/-- A text that the setters of keys and values leave as it is: it is free of NUL
and of blanks around it. -/
def Trimmed (t : Text) : Prop := blader t = t

structure Name (t : Text) : Prop where
  start : ∃ ch s, t = ch :: s ∧ isAllowedKeyStartChar ch = true
  chars : ∀ ch ∈ t, isAllowedKeyChar ch = true

structure Value.IsItem (v : Value) : Prop where
  key : ∃ ch, keywordOf ch = some v.key
  trimmed : Trimmed v.value
  value : v.value ≠ []
  plain : ∀ ch ∈ v.value, isSpaceChar ch = false ∧ ch ∉ ['"', '\'', '?', '<', '>']

structure Value.IsProperty (v : Value) : Prop where
  key : Name v.key
  trimmed : Trimmed v.value
  plain : '"' ∉ v.value ∧ '>' ∉ v.value

inductive Element.Legal : Element → Prop
  | mk {key value : Text} {properties : List Value} {subElements : List Element} (name : Name key)
      (trimmed : Trimmed value) (plain : '<' ∉ value) (either : subElements ≠ [] → value = [])
      (properties_legal : ∀ v ∈ properties, v.IsProperty) (legal : ∀ e ∈ subElements, Legal e) :
      Legal ⟨key, value, properties, subElements⟩

structure Document.Legal (d : Document) : Prop where
  items : ∀ v ∈ d.declaration.items, v.IsItem
  root : d.root.Legal

theorem Element.Legal.either {e : Element} (h : e.Legal) (hne : e.subElements ≠ []) : e.value = [] := by
  cases h with
  | mk _ _ _ heither => exact heither hne

/-- No element is without children and without a value. -/
inductive Element.Full : Element → Prop
  | mk {key value : Text} {properties : List Value} {subElements : List Element}
      (content : subElements = [] → value ≠ []) (full : ∀ e ∈ subElements, Full e) :
      Full ⟨key, value, properties, subElements⟩

theorem Element.Full.value_ne_nil {e : Element} (h : e.Full) (hnil : e.subElements = []) : e.value ≠ [] := by
  cases h with
  | mk hcontent => exact hcontent hnil

/-- The parser accepts the text of the document and returns an equal tree. -/
def Document.ReadBack (d : Document) : Prop :=
  ∃ d', parseDocument (writeDocument d) = .ok d' ∧ d'.declaration.items = d.declaration.items ∧
    d'.root = d.root

mutual

/-- What the parser makes of a written element. -/
def Element.read (tabs : Nat) : Element → Element
  | ⟨key, value, properties, subElements⟩ =>
    ⟨key,
      match subElements with
      | [] => value
      | subElements => blader (firstNoSpaceChar (writeElements (tabs + 1) subElements) ++ List.replicate tabs '\t'),
      properties, readAll (tabs + 1) subElements⟩

def Element.readAll (tabs : Nat) : List Element → List Element
  | [] => []
  | e :: es => e.read tabs :: readAll tabs es

end

theorem Element.induct {P : Element → Prop}
    (h : ∀ key value properties subElements, (∀ e ∈ subElements, P e) →
      P ⟨key, value, properties, subElements⟩) (e : Element) : P e := by
  refine Element.rec (motive_1 := P) (motive_2 := fun es => ∀ e ∈ es, P e) h ?_ ?_ e
  · exact fun e he => absurd he List.not_mem_nil
  · intro e es he hes
    exact List.forall_mem_cons.mpr ⟨he, hes⟩

-- ---------------------------------------------------------------------------
-- The stream
-- ---------------------------------------------------------------------------

variable {s t key : Text} {ch : Char}

@[simp] theorem getChar_cons_zero (ch : Char) (s : Text) : getChar (ch :: s) 0 = ch := rfl

@[simp] theorem getChar_cons_one (ch ch' : Char) (s : Text) : getChar (ch :: ch' :: s) 1 = ch' := rfl

@[simp] theorem step_one_cons (ch : Char) (s : Text) : step 1 (ch :: s) = s := by simp [step]

@[simp] theorem step_two_cons (ch ch' : Char) (s : Text) : step 2 (ch :: ch' :: s) = s := by simp [step]

@[simp] theorem firstNoSpaceChar_idem (s : Text) :
    firstNoSpaceChar (firstNoSpaceChar s) = firstNoSpaceChar s :=
  List.dropWhile_idempotent ..

theorem firstNoSpaceChar_cons (h : isSpaceChar ch = false) (s : Text) :
    firstNoSpaceChar (ch :: s) = ch :: s := by
  simp [firstNoSpaceChar, h]

theorem firstNoSpaceChar_append (h : ∀ ch ∈ t, isSpaceChar ch = true) (s : Text) :
    firstNoSpaceChar (t ++ s) = firstNoSpaceChar s :=
  List.dropWhile_append_of_pos h

theorem isSpaceChar_firstNoSpaceChar (h : firstNoSpaceChar t = ch :: s) : isSpaceChar ch = false := by
  have hdrop : t.dropWhile isSpaceChar = ch :: s := h
  have hhead := List.head_dropWhile_not isSpaceChar (hdrop ▸ List.cons_ne_nil ch s)
  simpa only [hdrop, List.head_cons] using hhead

theorem isSpaceChar_of_mem_replicate {n : Nat} : ∀ ch ∈ List.replicate n '\t', isSpaceChar ch = true := by
  intro ch h
  rw [(List.mem_replicate.mp h).2]
  rfl

theorem between_append (t s : Text) : between (t ++ s) s = t := by
  simp [between]

theorem matchKeyword_append (t s : Text) : matchKeyword t (t ++ s) = some s := by
  simp [matchKeyword]

-- ---------------------------------------------------------------------------
-- Trimmed texts and names
-- ---------------------------------------------------------------------------

theorem blader_of_plain (h : ∀ ch ∈ t, ch ≠ '\x00' ∧ isSpaceChar ch = false) : blader t = t := by
  have htake : t.takeWhile (· ≠ '\x00') = t :=
    List.takeWhile_eq_self_iff.mpr fun ch hch => decide_eq_true (h ch hch).1
  have hdrop : t.rdropWhile isSpaceChar = t := by
    rw [List.rdropWhile_eq_self_iff]
    intro hne
    rw [(h _ (List.getLast_mem hne)).2]
    exact Bool.false_ne_true
  rw [blader, htake, hdrop, List.dropWhile_eq_self_iff]
  intro hlt
  rw [(h _ (List.getElem_mem hlt)).2]
  exact Bool.false_ne_true

theorem Trimmed.ne_nul (h : Trimmed t) (hch : ch ∈ t) : ch ≠ '\x00' := by
  rw [← (h : blader t = t)] at hch
  have hmem := (List.rdropWhile_prefix _ _).subset ((List.dropWhile_suffix _).subset hch)
  have hne := List.mem_takeWhile_imp hmem
  exact of_decide_eq_true hne

theorem Trimmed.firstNoSpaceChar_eq (h : Trimmed t) : firstNoSpaceChar t = t := by
  rw [← (h : blader t = t)]
  exact firstNoSpaceChar_idem _

theorem blader_ne_nil (h : isSpaceChar ch = false) (hnul : ch ≠ '\x00') (s : Text) :
    blader (ch :: s) ≠ [] := by
  intro hnil
  have htake : (ch :: s).takeWhile (· ≠ '\x00') = ch :: s.takeWhile (· ≠ '\x00') :=
    List.takeWhile_cons_of_pos (decide_eq_true hnul)
  rw [blader, htake, List.dropWhile_eq_nil_iff] at hnil
  obtain ⟨u, hu⟩ := List.rdropWhile_prefix isSpaceChar (ch :: s.takeWhile (· ≠ '\x00'))
  cases hr : (ch :: s.takeWhile (· ≠ '\x00')).rdropWhile isSpaceChar with
  | nil =>
    have hall := List.rdropWhile_eq_nil_iff.mp hr ch List.mem_cons_self
    rw [h] at hall
    exact Bool.false_ne_true hall
  | cons ch' r =>
    rw [hr] at hu hnil
    have hspace := hnil ch' List.mem_cons_self
    rw [(List.cons.inj hu).1, h] at hspace
    exact Bool.false_ne_true hspace

theorem isAllowedKeyChar_plain (h : isAllowedKeyChar ch = true) :
    ch ≠ '\x00' ∧ isSpaceChar ch = false ∧ ch ≠ '>' ∧ ch ≠ '/' ∧ ch ≠ '=' := by
  refine ⟨?_, ?_, ?_, ?_, ?_⟩
  · rintro rfl
    exact absurd h (by decide)
  · by_contra hspace
    simp only [isSpaceChar, Bool.not_eq_false, Bool.or_eq_true, decide_eq_true_eq] at hspace
    rcases hspace with ((rfl | rfl) | rfl) | rfl <;> exact absurd h (by decide)
  · rintro rfl
    exact absurd h (by decide)
  · rintro rfl
    exact absurd h (by decide)
  · rintro rfl
    exact absurd h (by decide)

theorem isAllowedKeyStartChar_plain (h : isAllowedKeyStartChar ch = true) :
    ch ≠ '\x00' ∧ isSpaceChar ch = false ∧ ch ≠ '>' ∧ ch ≠ '/' ∧ ch ≠ '!' ∧ ch ≠ '?' := by
  have hkey : isAllowedKeyChar ch = true := by simp [isAllowedKeyChar, h]
  obtain ⟨hnul, hspace, hgt, hslash, -⟩ := isAllowedKeyChar_plain hkey
  refine ⟨hnul, hspace, hgt, hslash, ?_, ?_⟩
  · rintro rfl
    exact absurd h (by decide)
  · rintro rfl
    exact absurd h (by decide)

theorem Name.blader_eq (h : Name t) : blader t = t :=
  blader_of_plain fun ch hch =>
    ⟨(isAllowedKeyChar_plain (h.chars ch hch)).1, (isAllowedKeyChar_plain (h.chars ch hch)).2.1⟩

theorem Name.ne_nil (h : Name t) : t ≠ [] := by
  obtain ⟨ch, s, rfl, -⟩ := h.start
  exact List.cons_ne_nil ch s

theorem Name.head (h : Name t) : ∃ ch s, t = ch :: s ∧ isSpaceChar ch = false := by
  obtain ⟨ch, s, rfl, hch⟩ := h.start
  exact ⟨ch, s, rfl, (isAllowedKeyStartChar_plain hch).2.1⟩

theorem Name.firstNoSpaceChar_eq (h : Name t) (s : Text) : firstNoSpaceChar (t ++ s) = t ++ s := by
  obtain ⟨ch, r, rfl, hspace⟩ := h.head
  exact firstNoSpaceChar_cons hspace _

-- ---------------------------------------------------------------------------
-- Keys and attributes
-- ---------------------------------------------------------------------------

theorem scanKey_append (h : ∀ ch ∈ t, isAllowedKeyChar ch = true)
    (hend : isSpaceChar ch = true ∨ ch = '>') (s : Text) : scanKey (t ++ ch :: s) = ch :: s := by
  induction t with
  | nil =>
    have hstop : isAllowedKeyChar ch = false := by
      by_contra hkey
      obtain ⟨-, hspace, hgt, -⟩ := isAllowedKeyChar_plain (Bool.not_eq_false _ ▸ hkey)
      rcases hend with hend | hend
      · exact Bool.false_ne_true (hspace.symm.trans hend)
      · exact hgt hend
    rw [List.nil_append, scanKey]
    split
    · rfl
    · rcases hend with hend | rfl
      · simp [hstop, hend]
      · rfl
  | cons c t ih =>
    obtain ⟨hc, ht⟩ := List.forall_mem_cons.mp h
    rw [List.cons_append, scanKey, if_neg (isAllowedKeyChar_plain hc).1, hc, ih ht]
    rfl

/-- The key of an element that is followed by a blank or by `>`. -/
theorem parseKey_name (hname : Name key) (hs : firstNoSpaceChar s = '<' :: (key ++ ch :: t))
    (hend : isSpaceChar ch = true ∨ ch = '>') : parseKey s = .ok (key, false, ch :: t) := by
  have hstart : isAllowedKeyStartChar (getChar (key ++ ch :: t) 0) = true := by
    obtain ⟨c, r, rfl, hc⟩ := hname.start
    exact hc
  simp only [parseKey, hs, getChar_cons_zero, ne_eq, not_true_eq_false, if_false, step_one_cons, hstart,
    Bool.not_true, Bool.false_eq_true, hname.firstNoSpaceChar_eq, scanKey_append hname.chars hend,
    between_append, hname.blader_eq, hname.ne_nil]
  rcases hend with hend | rfl
  · rw [if_pos hend]
  · rfl

theorem scanAttribKey_append (h : ∀ ch ∈ t, isAllowedKeyChar ch = true) (s : Text) :
    scanAttribKey (t ++ '=' :: s) = .ok ('=' :: s) := by
  induction t with
  | nil => rfl
  | cons c t ih =>
    obtain ⟨hc, ht⟩ := List.forall_mem_cons.mp h
    obtain ⟨hnul, hspace, hgt, -, heq⟩ := isAllowedKeyChar_plain hc
    rw [List.cons_append, scanAttribKey, if_neg (not_or.mpr ⟨hnul, hgt⟩), hspace, hc,
      decide_eq_false heq, ih ht]
    rfl

theorem scanAttribVal_append (htrim : Trimmed t) (hplain : '"' ∉ t ∧ '>' ∉ t) (s : Text) :
    scanAttribVal '"' (t ++ '"' :: s) = '"' :: s := by
  have hall : ∀ ch ∈ t, decide (ch ≠ '\x00' ∧ ch ≠ '>' ∧ ch ≠ '"') = true := fun ch hch =>
    decide_eq_true ⟨htrim.ne_nul hch, fun h => hplain.2 (h ▸ hch), fun h => hplain.1 (h ▸ hch)⟩
  rw [scanAttribVal, List.dropWhile_append_of_pos hall]
  rfl

theorem firstNoSpaceChar_append_quote (htrim : Trimmed t) (s : Text) :
    firstNoSpaceChar (t ++ '"' :: s) = t ++ '"' :: s := by
  cases t with
  | nil => rfl
  | cons ch r =>
    exact firstNoSpaceChar_cons (isSpaceChar_firstNoSpaceChar htrim.firstNoSpaceChar_eq) _

variable {v : Value} {vs : List Value}

theorem parseAttrib_item (h : v.IsProperty) (s : Text) :
    parseAttrib (v.key ++ '=' :: '"' :: (v.value ++ '"' :: s)) = .ok (v, '"' :: s) := by
  have hkey := h.key.firstNoSpaceChar_eq ('=' :: '"' :: (v.value ++ '"' :: s))
  have hvalue : blader v.value = v.value := h.trimmed
  simp only [parseAttrib, hkey, scanAttribKey_append h.key.chars, Except.bind]
  simp only [firstNoSpaceChar_cons (show isSpaceChar '=' = false from rfl), step_one_cons,
    firstNoSpaceChar_cons (show isSpaceChar '"' = false from rfl), getChar_cons_zero,
    firstNoSpaceChar_append_quote h.trimmed, scanAttribVal_append h.trimmed h.plain, between_append,
    h.key.blader_eq, hvalue]
  rfl

theorem firstNoSpaceChar_writeItem (h : ∃ ch r, v.key = ch :: r ∧ isSpaceChar ch = false) (s : Text) :
    firstNoSpaceChar (writeItem v ++ s) = v.key ++ '=' :: '"' :: (v.value ++ '"' :: s) := by
  obtain ⟨ch, r, hkey, hspace⟩ := h
  have hskip : firstNoSpaceChar (writeItem v ++ s) =
      firstNoSpaceChar (v.key ++ '=' :: '"' :: (v.value ++ '"' :: s)) := by
    simp only [writeItem, List.cons_append, List.append_assoc, List.nil_append]
    exact firstNoSpaceChar_append (t := [' ']) (by decide) _
  rw [hskip, hkey]
  exact firstNoSpaceChar_cons hspace _

theorem start_writeItem (h : v.IsProperty) (s : Text) :
    isAllowedKeyStartChar (getChar (v.key ++ s) 0) = true := by
  obtain ⟨ch, r, hkey, hch⟩ := h.key.start
  rw [hkey]
  exact hch

theorem parseEnumAttrib_firstNoSpaceChar (fuel : Nat) (vs : List Value) (s : Text) :
    parseEnumAttrib fuel vs (firstNoSpaceChar s) = parseEnumAttrib fuel vs s := by
  cases fuel with
  | zero => rfl
  | succ fuel => simp only [parseEnumAttrib, firstNoSpaceChar_idem]

theorem parseEnumAttrib_cons (h : v.IsProperty) (acc : List Value) (s : Text) (fuel : Nat) :
    parseEnumAttrib (fuel + 1) acc (writeItem v ++ s) =
      if getChar (firstNoSpaceChar s) 0 = '>' then .ok (acc ++ [v], firstNoSpaceChar s)
      else parseEnumAttrib fuel (acc ++ [v]) s := by
  have hstart := start_writeItem h ('=' :: '"' :: (v.value ++ '"' :: s))
  rw [parseEnumAttrib, firstNoSpaceChar_writeItem h.key.head, hstart,
    if_neg (isAllowedKeyStartChar_plain hstart).2.2.1, parseAttrib_item h]
  simp only [Bool.not_true, Bool.false_eq_true, if_false, Except.bind, step_one_cons, ne_eq, ite_not,
    parseEnumAttrib_firstNoSpaceChar]

theorem parseEnumAttrib_items (h : ∀ v ∈ vs, v.IsProperty) (acc : List Value) (s : Text) {fuel : Nat}
    (hfuel : vs.length < fuel) :
    parseEnumAttrib fuel acc (vs.flatMap writeItem ++ '>' :: s) = .ok (acc ++ vs, '>' :: s) := by
  induction vs generalizing acc fuel with
  | nil =>
    obtain ⟨fuel, rfl⟩ := Nat.exists_eq_add_of_lt hfuel
    rw [List.append_nil]
    rfl
  | cons v vs ih =>
    obtain ⟨hv, hvs⟩ := List.forall_mem_cons.mp h
    obtain ⟨fuel, rfl⟩ := Nat.exists_eq_add_of_lt (Nat.zero_lt_of_lt hfuel)
    rw [List.length_cons] at hfuel
    rw [Nat.zero_add, List.flatMap_cons, List.append_assoc, parseEnumAttrib_cons hv]
    rw [ih hvs (acc ++ [v]) (by omega), List.append_assoc, List.singleton_append]
    split
    · next hgt =>
      -- the next item would begin with a character of a key
      cases vs with
      | nil => rfl
      | cons w vs =>
        have hw := hvs w List.mem_cons_self
        rw [List.flatMap_cons, List.append_assoc, firstNoSpaceChar_writeItem hw.key.head] at hgt
        exact absurd hgt (isAllowedKeyStartChar_plain (start_writeItem hw _)).2.2.1
    · rfl

/-- The slash of an empty element is taken for a key. -/
theorem parseEnumAttrib_slash (h : ∀ v ∈ vs, v.IsProperty) (acc : List Value) (s : Text) {fuel : Nat}
    (hfuel : vs.length < fuel) :
    parseEnumAttrib fuel acc (vs.flatMap writeItem ++ ' ' :: '/' :: s) = raise "Invalid Key char" := by
  induction vs generalizing acc fuel with
  | nil =>
    obtain ⟨fuel, rfl⟩ := Nat.exists_eq_add_of_lt hfuel
    rfl
  | cons v vs ih =>
    obtain ⟨hv, hvs⟩ := List.forall_mem_cons.mp h
    obtain ⟨fuel, rfl⟩ := Nat.exists_eq_add_of_lt (Nat.zero_lt_of_lt hfuel)
    rw [List.length_cons] at hfuel
    rw [Nat.zero_add, List.flatMap_cons, List.append_assoc, parseEnumAttrib_cons hv]
    rw [ih hvs (acc ++ [v]) (by omega), if_neg]
    cases vs with
    | nil => exact (by decide : '/' ≠ '>')
    | cons w vs =>
      have hw := hvs w List.mem_cons_self
      rw [List.flatMap_cons, List.append_assoc, firstNoSpaceChar_writeItem hw.key.head]
      exact (isAllowedKeyStartChar_plain (start_writeItem hw _)).2.2.1

-- ---------------------------------------------------------------------------
-- The tags of an element
-- ---------------------------------------------------------------------------

theorem parseProperties_items (h : ∀ v ∈ vs, v.IsProperty) (s : Text) {fuel : Nat} (hfuel : vs.length < fuel) :
    parseProperties fuel (vs.flatMap writeItem ++ '>' :: s) = .ok (vs, '>' :: s) := by
  cases vs with
  | nil => rfl
  | cons v vs =>
    have hv := h v List.mem_cons_self
    have hne : getChar (firstNoSpaceChar ((v :: vs).flatMap writeItem ++ '>' :: s)) 0 ≠ '>' := by
      rw [List.flatMap_cons, List.append_assoc, firstNoSpaceChar_writeItem hv.key.head]
      exact (isAllowedKeyStartChar_plain (start_writeItem hv _)).2.2.1
    rw [parseProperties, if_pos ⟨rfl, hne⟩, parseEnumAttrib_firstNoSpaceChar, parseEnumAttrib_items h [] s hfuel]
    rfl

theorem parseProperties_slash (h : ∀ v ∈ vs, v.IsProperty) (s : Text) {fuel : Nat} (hfuel : vs.length < fuel) :
    parseProperties fuel (vs.flatMap writeItem ++ ' ' :: '/' :: s) = raise "Invalid Key char" := by
  have hblank : isSpaceChar (getChar (vs.flatMap writeItem ++ ' ' :: '/' :: s) 0) = true := by
    cases vs <;> rfl
  have hne : getChar (firstNoSpaceChar (vs.flatMap writeItem ++ ' ' :: '/' :: s)) 0 ≠ '>' := by
    cases vs with
    | nil => exact (by decide : '/' ≠ '>')
    | cons v vs =>
      have hv := h v List.mem_cons_self
      rw [List.flatMap_cons, List.append_assoc, firstNoSpaceChar_writeItem hv.key.head]
      exact (isAllowedKeyStartChar_plain (start_writeItem hv _)).2.2.1
  rw [parseProperties, if_pos ⟨hblank, hne⟩, parseEnumAttrib_firstNoSpaceChar, parseEnumAttrib_slash h [] s hfuel]

theorem parseKey_properties (hname : Name key) (hend : isSpaceChar ch = true ∨ ch = '>')
    (hs : firstNoSpaceChar s = '<' :: (key ++ (vs.flatMap writeItem ++ ch :: t))) :
    parseKey s = .ok (key, false, vs.flatMap writeItem ++ ch :: t) := by
  cases vs with
  | nil => exact parseKey_name hname hs hend
  | cons v vs =>
    rw [List.flatMap_cons, List.append_assoc] at hs ⊢
    exact parseKey_name hname hs (.inl rfl)

theorem parseEnumElement_open (hname : Name key) (hvs : ∀ v ∈ vs, v.IsProperty)
    (hs : firstNoSpaceChar s = '<' :: (key ++ (vs.flatMap writeItem ++ '>' :: t))) {fuel : Nat}
    (hfuel : vs.length < fuel) :
    parseEnumElement (fuel + 1) s =
      parseValue fuel ⟨key, [], vs, []⟩ (firstNoSpaceChar t) (firstNoSpaceChar t) := by
  rw [parseEnumElement, parseKey_properties hname (.inr rfl) hs]
  simp only [Except.bind, Bool.false_eq_true, if_false, parseProperties_items hvs t hfuel,
    getChar_cons_zero, if_true, step_one_cons]

theorem parseEnumElement_empty (hname : Name key) (hvs : ∀ v ∈ vs, v.IsProperty)
    (hs : firstNoSpaceChar s = '<' :: (key ++ (vs.flatMap writeItem ++ ' ' :: '/' :: t))) {fuel : Nat}
    (hfuel : vs.length < fuel) : parseEnumElement (fuel + 1) s = raise "Invalid Key char" := by
  rw [parseEnumElement, parseKey_properties hname (.inl rfl) hs]
  simp only [Except.bind, Bool.false_eq_true, if_false, parseProperties_slash hvs t hfuel]
  rfl

theorem parseEnumElement_firstNoSpaceChar (fuel : Nat) (s : Text) :
    parseEnumElement fuel (firstNoSpaceChar s) = parseEnumElement fuel s := by
  cases fuel with
  | zero => rfl
  | succ fuel => simp only [parseEnumElement, parseKey, firstNoSpaceChar_idem]

variable {e : Element} {es : List Element} {valBegin : Text}

theorem parseValue_firstNoSpaceChar (fuel : Nat) (h : getChar (firstNoSpaceChar s) 0 ≠ '\x00') :
    parseValue fuel e valBegin (firstNoSpaceChar s) = parseValue fuel e valBegin s := by
  have hs : getChar s 0 ≠ '\x00' := by
    cases s with
    | nil => exact h
    | cons ch s =>
      rintro rfl
      exact h rfl
  cases fuel with
  | zero => rfl
  | succ fuel => simp only [parseValue, firstNoSpaceChar_idem, h, hs]

theorem firstNoSpaceChar_append_lt (t s : Text) :
    firstNoSpaceChar (t ++ '<' :: s) = firstNoSpaceChar t ++ '<' :: s := by
  simp only [firstNoSpaceChar, List.dropWhile_append]
  split
  · next hnil =>
    rw [List.isEmpty_iff.mp hnil]
    rfl
  · rfl

theorem parseValue_endTag (hname : Name e.key) (s : Text) (fuel : Nat) :
    parseValue (fuel + 1) e valBegin ('<' :: '/' :: (e.key ++ '>' :: s)) =
      .ok (⟨e.key, blader (between valBegin ('<' :: '/' :: (e.key ++ '>' :: s))), e.properties, e.subElements⟩,
        '>' :: s) := by
  rw [parseValue, getChar_cons_zero, if_neg (by decide)]
  simp only [firstNoSpaceChar_cons (show isSpaceChar '<' = false from rfl), getChar_cons_zero, ne_eq,
    not_true_eq_false, if_false, getChar_cons_one, if_true, step_two_cons, hname.firstNoSpaceChar_eq,
    matchKeyword_append, firstNoSpaceChar_cons (show isSpaceChar '>' = false from rfl)]

/-- Characters of a value are passed over, up to the end tag. -/
theorem parseValue_text (hname : Name e.key) (ht : ∀ ch ∈ t, ch ≠ '\x00' ∧ ch ≠ '<') (valBegin s : Text) {fuel : Nat}
    (hfuel : t.length < fuel) :
    parseValue fuel e valBegin (t ++ '<' :: '/' :: (e.key ++ '>' :: s)) =
      .ok (⟨e.key, blader (between valBegin ('<' :: '/' :: (e.key ++ '>' :: s))), e.properties, e.subElements⟩,
        '>' :: s) := by
  induction fuel generalizing t with
  | zero => exact absurd hfuel (Nat.not_lt_zero _)
  | succ fuel ih =>
    have hsuffix : firstNoSpaceChar t <:+ t := List.dropWhile_suffix ..
    have hskip := firstNoSpaceChar_append_lt t ('/' :: (e.key ++ '>' :: s))
    rw [← parseValue_firstNoSpaceChar, hskip]
    · cases hrest : firstNoSpaceChar t with
      | nil => exact parseValue_endTag hname s fuel
      | cons ch r =>
        rw [hrest] at hsuffix
        obtain ⟨hch, hr⟩ := List.forall_mem_cons.mp fun ch hch => ht ch (hsuffix.subset hch)
        have hspace := isSpaceChar_firstNoSpaceChar hrest
        have hlen := hsuffix.length_le
        rw [List.length_cons] at hlen
        rw [List.cons_append, parseValue, getChar_cons_zero, if_neg hch.1]
        simp only [firstNoSpaceChar_cons hspace, getChar_cons_zero, ne_eq, hch.2, not_false_eq_true, if_true,
          step_one_cons]
        exact ih hr (by omega)
    · rw [hskip]
      cases hrest : firstNoSpaceChar t with
      | nil => exact (by decide : '<' ≠ '\x00')
      | cons ch r =>
        exact (ht ch (hsuffix.subset (hrest ▸ List.mem_cons_self))).1

theorem parseValue_child (hs : firstNoSpaceChar s = '<' :: ch :: t) (hch : isAllowedKeyStartChar ch = true)
    (fuel : Nat) :
    parseValue (fuel + 1) e valBegin s =
      (parseEnumElement fuel s).bind fun (c, u) =>
        parseValue fuel ⟨e.key, e.value, e.properties, e.subElements ++ [c]⟩ valBegin (step 1 u) := by
  obtain ⟨-, -, -, hslash, hbang, -⟩ := isAllowedKeyStartChar_plain hch
  rw [← parseValue_firstNoSpaceChar, ← parseEnumElement_firstNoSpaceChar, hs, parseValue, getChar_cons_zero,
    if_neg (by decide)]
  · simp only [firstNoSpaceChar_cons (show isSpaceChar '<' = false from rfl), getChar_cons_zero, ne_eq,
      not_true_eq_false, if_false, getChar_cons_one, hslash, hbang, hch, if_true]
  · rw [hs]
    exact (by decide : '<' ≠ '\x00')

-- ---------------------------------------------------------------------------
-- Elements
-- ---------------------------------------------------------------------------

theorem Element.Legal.writeElement_eq (h : e.Legal) (n : Nat) :
    ∃ ch s, isAllowedKeyStartChar ch = true ∧
      writeElement n e = List.replicate n '\t' ++ '<' :: ch :: s := by
  cases h with
  | @mk key value properties subElements hname =>
    obtain ⟨ch, r, rfl, hch⟩ := hname.start
    cases subElements with
    | nil => cases value <;> exact ⟨ch, _, hch, rfl⟩
    | cons c es => exact ⟨ch, _, hch, rfl⟩

theorem Element.Legal.firstNoSpaceChar_eq (h : e.Legal) (n : Nat) (s : Text) :
    ∃ ch t, isAllowedKeyStartChar ch = true ∧ firstNoSpaceChar (writeElement n e ++ s) = '<' :: ch :: t := by
  obtain ⟨ch, r, hch, hwrite⟩ := h.writeElement_eq n
  refine ⟨ch, r ++ s, hch, ?_⟩
  rw [hwrite, List.append_assoc, firstNoSpaceChar_append isSpaceChar_of_mem_replicate]
  rfl

theorem length_items (vs : List Value) : vs.length ≤ (vs.flatMap writeItem).length := by
  induction vs with
  | nil => exact Nat.le_refl 0
  | cons v vs ih =>
    simp only [List.flatMap_cons, List.length_append, List.length_cons, writeItem]
    omega

/-- The element is scanned up to the last character of its end tag. -/
def Element.Parsed (e : Element) : Prop :=
  ∀ (n fuel : Nat) (s : Text), (writeElement n e ++ s).length < fuel →
    parseEnumElement fuel (writeElement n e ++ s) = .ok (e.read n, '>' :: '\n' :: s)

theorem parseValue_children (hname : Name e.key) (hlegal : ∀ c ∈ es, c.Legal) (hparsed : ∀ c ∈ es, c.Parsed)
    (n k : Nat) (valBegin s w : Text) (hw : ∀ ch ∈ w, isSpaceChar ch = true) {fuel : Nat}
    (hfuel : (w ++ (writeElements n es ++ (List.replicate k '\t' ++ '<' :: '/' :: (e.key ++ '>' :: s)))).length
      + 1 < fuel) :
    parseValue fuel e valBegin
        (w ++ (writeElements n es ++ (List.replicate k '\t' ++ '<' :: '/' :: (e.key ++ '>' :: s)))) =
      .ok (⟨e.key, blader (between valBegin ('<' :: '/' :: (e.key ++ '>' :: s))), e.properties,
        e.subElements ++ Element.readAll n es⟩, '>' :: s) := by
  induction es generalizing e w fuel with
  | nil =>
    have hblank : ∀ ch ∈ w ++ List.replicate k '\t', ch ≠ '\x00' ∧ ch ≠ '<' := by
      intro ch hch
      have hspace : isSpaceChar ch = true :=
        (List.mem_append.mp hch).elim (hw ch) (isSpaceChar_of_mem_replicate ch)
      constructor <;> rintro rfl <;> exact absurd hspace (by decide)
    have hlen : (w ++ List.replicate k '\t').length < fuel := by
      simp only [writeElements, List.nil_append, List.length_append] at hfuel ⊢
      omega
    rw [writeElements, List.nil_append, ← List.append_assoc, parseValue_text hname hblank valBegin s hlen,
      Element.readAll, List.append_nil]
  | cons c es ih =>
    obtain ⟨hc, hes⟩ := List.forall_mem_cons.mp hlegal
    obtain ⟨hread, hreads⟩ := List.forall_mem_cons.mp hparsed
    obtain ⟨fuel, rfl⟩ := Nat.exists_eq_add_of_lt (Nat.zero_lt_of_lt hfuel)
    rw [Nat.zero_add] at hfuel ⊢
    rw [writeElements, List.append_assoc] at hfuel ⊢
    obtain ⟨ch, t, hch, hfirst⟩ := hc.firstNoSpaceChar_eq n
      (writeElements n es ++ (List.replicate k '\t' ++ '<' :: '/' :: (e.key ++ '>' :: s)))
    have hskip := firstNoSpaceChar_append hw (writeElement n c ++
      (writeElements n es ++ (List.replicate k '\t' ++ '<' :: '/' :: (e.key ++ '>' :: s))))
    rw [parseValue_child (hskip.trans hfirst) hch, ← parseEnumElement_firstNoSpaceChar, hskip,
      parseEnumElement_firstNoSpaceChar, hread]
    · have hless : (['\n'] ++ (writeElements n es ++
          (List.replicate k '\t' ++ '<' :: '/' :: (e.key ++ '>' :: s)))).length + 1 < fuel := by
        obtain ⟨_, _, -, hwrite⟩ := hc.writeElement_eq n
        rw [hwrite] at hfuel
        simp only [List.length_append, List.length_cons, List.length_nil] at hfuel ⊢
        omega
      have hrest := ih (e := ⟨e.key, e.value, e.properties, e.subElements ++ [c.read n]⟩) hname hes hreads
        ['\n'] (by decide) hless
      rw [Element.readAll, List.append_cons e.subElements]
      exact hrest
    · rw [List.length_append] at hfuel
      omega

theorem parsed_leaf {value : Text} (hname : Name key) (htrim : Trimmed value) (hplain : '<' ∉ value)
    (hvalue : value ≠ []) (hvs : ∀ v ∈ vs, v.IsProperty) : Element.Parsed ⟨key, value, vs, []⟩ := by
  intro n fuel s hfuel
  have hwrite : writeElement n ⟨key, value, vs, []⟩ ++ s = List.replicate n '\t' ++ '<' :: (key ++
      (vs.flatMap writeItem ++ '>' :: (value ++ '<' :: '/' :: (key ++ '>' :: '\n' :: s)))) := by
    obtain ⟨ch, r, rfl⟩ := List.exists_cons_of_ne_nil hvalue
    simp [writeElement]
  have hchars : ∀ ch ∈ value, ch ≠ '\x00' ∧ ch ≠ '<' := fun ch hch =>
    ⟨htrim.ne_nul hch, fun h => hplain (h ▸ hch)⟩
  have hitems := length_items vs
  obtain ⟨fuel, rfl⟩ := Nat.exists_eq_add_of_lt (Nat.zero_lt_of_lt hfuel)
  rw [Nat.zero_add] at hfuel ⊢
  rw [hwrite] at hfuel ⊢
  simp only [List.length_append, List.length_cons] at hfuel
  rw [parseEnumElement_open hname hvs (firstNoSpaceChar_append isSpaceChar_of_mem_replicate _) (by omega),
    firstNoSpaceChar_append_lt, htrim.firstNoSpaceChar_eq]
  have htext := parseValue_text (e := ⟨key, [], vs, []⟩) hname hchars
    (value ++ '<' :: '/' :: (key ++ '>' :: '\n' :: s)) ('\n' :: s) (show value.length < fuel by omega)
  have hblader : blader value = value := htrim
  simp only [Element.key, between_append, hblader] at htext
  exact htext

/-- The content of an element with children begins with the first child. -/
theorem firstNoSpaceChar_content {c : Element} (hc : c.Legal) (es : List Element) (n : Nat) (s : Text) :
    firstNoSpaceChar ('\n' :: (writeElements (n + 1) (c :: es) ++ s)) =
      firstNoSpaceChar (writeElements (n + 1) (c :: es)) ++ s := by
  obtain ⟨ch, t, -, hfirst⟩ := hc.firstNoSpaceChar_eq (n + 1) (writeElements (n + 1) es)
  have hne : (writeElements (n + 1) (c :: es)).dropWhile isSpaceChar = '<' :: ch :: t := by
    rw [writeElements]
    exact hfirst
  have hskip := firstNoSpaceChar_append (t := ['\n']) (by decide) (writeElements (n + 1) (c :: es) ++ s)
  refine hskip.trans ?_
  rw [firstNoSpaceChar, firstNoSpaceChar, List.dropWhile_append, hne]
  rfl

theorem parseEnumElement_node {value : Text} {c : Element} (hname : Name key) (hvs : ∀ v ∈ vs, v.IsProperty)
    (hc : c.Legal) {n fuel : Nat} {s : Text}
    (hfuel : (writeElement n ⟨key, value, vs, c :: es⟩ ++ s).length < fuel + 1) :
    (['\n'] ++ (writeElements (n + 1) (c :: es) ++
        (List.replicate n '\t' ++ '<' :: '/' :: (key ++ '>' :: '\n' :: s)))).length + 1 < fuel ∧
    parseEnumElement (fuel + 1) (writeElement n ⟨key, value, vs, c :: es⟩ ++ s) =
      parseValue fuel ⟨key, [], vs, []⟩ (firstNoSpaceChar (writeElements (n + 1) (c :: es)) ++
          (List.replicate n '\t' ++ '<' :: '/' :: (key ++ '>' :: '\n' :: s)))
        (['\n'] ++ (writeElements (n + 1) (c :: es) ++
          (List.replicate n '\t' ++ '<' :: '/' :: (key ++ '>' :: '\n' :: s)))) := by
  have hwrite : writeElement n ⟨key, value, vs, c :: es⟩ ++ s = List.replicate n '\t' ++ '<' :: (key ++
      (vs.flatMap writeItem ++ '>' :: ('\n' :: (writeElements (n + 1) (c :: es) ++
        (List.replicate n '\t' ++ '<' :: '/' :: (key ++ '>' :: '\n' :: s)))))) := by
    simp [writeElement]
  have hitems := length_items vs
  have hbegin := firstNoSpaceChar_content hc es n (List.replicate n '\t' ++ '<' :: '/' :: (key ++ '>' :: '\n' :: s))
  rw [hwrite] at hfuel ⊢
  simp only [List.length_append, List.length_cons] at hfuel
  rw [parseEnumElement_open hname hvs (firstNoSpaceChar_append isSpaceChar_of_mem_replicate _) (by omega)]
  refine ⟨?_, ?_⟩
  · simp only [List.length_append, List.length_cons, List.length_nil]
    omega
  · rw [parseValue_firstNoSpaceChar, hbegin]
    · rfl
    · obtain ⟨ch, t, -, hfirst⟩ := hc.firstNoSpaceChar_eq (n + 1) (writeElements (n + 1) es)
      rw [hbegin, writeElements, hfirst]
      exact (by decide : '<' ≠ '\x00')

theorem parsed_node {value : Text} {c : Element} (hname : Name key) (hvs : ∀ v ∈ vs, v.IsProperty)
    (hlegal : ∀ e ∈ c :: es, e.Legal) (hparsed : ∀ e ∈ c :: es, e.Parsed) :
    Element.Parsed ⟨key, value, vs, c :: es⟩ := by
  intro n fuel s hfuel
  obtain ⟨fuel, rfl⟩ := Nat.exists_eq_add_of_lt (Nat.zero_lt_of_lt hfuel)
  rw [Nat.zero_add] at hfuel ⊢
  obtain ⟨hless, hopen⟩ := parseEnumElement_node hname hvs (List.forall_mem_cons.mp hlegal).1 hfuel
  have hchildren := parseValue_children (e := ⟨key, [], vs, []⟩) hname hlegal hparsed (n + 1) n
    (firstNoSpaceChar (writeElements (n + 1) (c :: es)) ++
      (List.replicate n '\t' ++ '<' :: '/' :: (key ++ '>' :: '\n' :: s))) ('\n' :: s) ['\n'] (by decide) hless
  rw [hopen]
  refine hchildren.trans ?_
  rw [← List.append_assoc, Element.key, between_append]
  rfl

theorem Element.Legal.parsed (hlegal : e.Legal) (hfull : e.Full) : e.Parsed := by
  induction e using Element.induct with
  | h key value properties subElements ih =>
    obtain ⟨hname, htrim, hplain, -, hprops, hes⟩ := hlegal
    obtain ⟨hcontent, hfull⟩ := hfull
    cases subElements with
    | nil => exact parsed_leaf hname htrim hplain (hcontent rfl) hprops
    | cons c es => exact parsed_node hname hprops hes fun e he => ih e he (hes e he) (hfull e he)

def Element.Refused (e : Element) : Prop :=
  ∀ (n fuel : Nat) (s : Text), (writeElement n e ++ s).length < fuel →
    parseEnumElement fuel (writeElement n e ++ s) = raise "Invalid Key char"

theorem refused_empty (hname : Name key) (hvs : ∀ v ∈ vs, v.IsProperty) :
    Element.Refused ⟨key, [], vs, []⟩ := by
  intro n fuel s hfuel
  have hwrite : writeElement n ⟨key, [], vs, []⟩ ++ s = List.replicate n '\t' ++ '<' :: (key ++
      (vs.flatMap writeItem ++ ' ' :: '/' :: '>' :: '\n' :: s)) := by
    simp [writeElement]
  have hitems := length_items vs
  obtain ⟨fuel, rfl⟩ := Nat.exists_eq_add_of_lt (Nat.zero_lt_of_lt hfuel)
  rw [Nat.zero_add] at hfuel ⊢
  rw [hwrite] at hfuel ⊢
  simp only [List.length_append, List.length_cons] at hfuel
  exact parseEnumElement_empty hname hvs (firstNoSpaceChar_append isSpaceChar_of_mem_replicate _) (by omega)

/-- The children in front of the first one that is refused are read. -/
theorem parseValue_refused (hlegal : ∀ c ∈ es, c.Legal) (hparsed : ∀ c ∈ es, c.Parsed ∨ c.Refused)
    (hrefused : ∃ c ∈ es, c.Refused) (e : Element) (n : Nat) (valBegin s w : Text)
    (hw : ∀ ch ∈ w, isSpaceChar ch = true) {fuel : Nat}
    (hfuel : (w ++ (writeElements n es ++ s)).length + 1 < fuel) :
    parseValue fuel e valBegin (w ++ (writeElements n es ++ s)) = raise "Invalid Key char" := by
  induction es generalizing e w fuel with
  | nil =>
    obtain ⟨c, hc, -⟩ := hrefused
    exact absurd hc List.not_mem_nil
  | cons c es ih =>
    obtain ⟨hc, hes⟩ := List.forall_mem_cons.mp hlegal
    obtain ⟨hchild, hchildren⟩ := List.forall_mem_cons.mp hparsed
    obtain ⟨fuel, rfl⟩ := Nat.exists_eq_add_of_lt (Nat.zero_lt_of_lt hfuel)
    rw [Nat.zero_add] at hfuel ⊢
    rw [writeElements, List.append_assoc] at hfuel ⊢
    obtain ⟨ch, t, hch, hfirst⟩ := hc.firstNoSpaceChar_eq n (writeElements n es ++ s)
    have hskip := firstNoSpaceChar_append hw (writeElement n c ++ (writeElements n es ++ s))
    have hlen : (writeElement n c ++ (writeElements n es ++ s)).length < fuel := by
      rw [List.length_append] at hfuel
      omega
    rw [parseValue_child (hskip.trans hfirst) hch, ← parseEnumElement_firstNoSpaceChar, hskip,
      parseEnumElement_firstNoSpaceChar]
    rcases hchild with hread | hthrow
    · have hothers : ∃ c ∈ es, c.Refused := by
        obtain ⟨c', hmem, hc'⟩ := hrefused
        rcases List.mem_cons.mp hmem with rfl | hmem
        · -- an element is not both
          have hok := hread 0 _ [] (Nat.lt_succ_self _)
          rw [hc' 0 _ [] (Nat.lt_succ_self _)] at hok
          cases hok
        · exact ⟨c', hmem, hc'⟩
      have hless : (['\n'] ++ (writeElements n es ++ s)).length + 1 < fuel := by
        obtain ⟨_, _, -, hwrite⟩ := hc.writeElement_eq n
        rw [hwrite] at hlen
        simp only [List.length_append, List.length_cons, List.length_nil] at hlen ⊢
        omega
      rw [hread n fuel _ hlen]
      exact ih hes hchildren hothers _ ['\n'] (by decide) hless
    · rw [hthrow n fuel _ hlen]
      rfl

theorem refused_node {value : Text} {c : Element} (hname : Name key) (hvs : ∀ v ∈ vs, v.IsProperty)
    (hlegal : ∀ e ∈ c :: es, e.Legal) (hparsed : ∀ e ∈ c :: es, e.Parsed ∨ e.Refused)
    (hrefused : ∃ e ∈ c :: es, e.Refused) : Element.Refused ⟨key, value, vs, c :: es⟩ := by
  intro n fuel s hfuel
  obtain ⟨fuel, rfl⟩ := Nat.exists_eq_add_of_lt (Nat.zero_lt_of_lt hfuel)
  rw [Nat.zero_add] at hfuel ⊢
  obtain ⟨hless, hopen⟩ := parseEnumElement_node hname hvs (List.forall_mem_cons.mp hlegal).1 hfuel
  rw [hopen]
  exact parseValue_refused hlegal hparsed hrefused _ (n + 1) _ _ ['\n'] (by decide) hless

theorem Element.Legal.refused (hlegal : e.Legal) (hfull : ¬ e.Full) : e.Refused := by
  induction e using Element.induct with
  | h key value properties subElements ih =>
    obtain ⟨hname, -, -, heither, hprops, hes⟩ := hlegal
    cases subElements with
    | nil =>
      have hvalue : value = [] := by
        by_contra hvalue
        exact hfull ⟨fun _ => hvalue, fun e he => absurd he List.not_mem_nil⟩
      rw [hvalue]
      exact refused_empty hname hprops
    | cons c es =>
      have hsome : ∃ e ∈ c :: es, ¬ e.Full := by
        by_contra hall
        push Not at hall
        exact hfull ⟨fun h => absurd h (List.cons_ne_nil c es), hall⟩
      obtain ⟨e, he, hne⟩ := hsome
      refine refused_node hname hprops hes (fun e he => ?_) ⟨e, he, ih e he (hes e he) hne⟩
      by_cases hfull : e.Full
      · exact .inl ((hes e he).parsed hfull)
      · exact .inr (ih e he (hes e he) hfull)

-- ---------------------------------------------------------------------------
-- The declaration
-- ---------------------------------------------------------------------------

theorem scanDeclarationVal_append (htrim : Trimmed t)
    (hplain : ∀ ch ∈ t, isSpaceChar ch = false ∧ ch ∉ ['"', '\'', '?', '<', '>']) (s : Text) :
    scanDeclarationVal '"' (t ++ '"' :: s) = .ok ('"' :: s) := by
  have hnul : ∀ ch ∈ t, ch ≠ '\x00' := fun ch hch => htrim.ne_nul hch
  clear htrim
  induction t with
  | nil => rfl
  | cons ch t ih =>
    obtain ⟨⟨hspace, hch⟩, ht⟩ := List.forall_mem_cons.mp hplain
    obtain ⟨hzero, hzeros⟩ := List.forall_mem_cons.mp hnul
    simp only [List.mem_cons, List.not_mem_nil, or_false, not_or] at hch
    rw [List.cons_append, scanDeclarationVal, if_neg, hspace]
    · exact ih ht hzeros
    · simp only [hzero, hch.1, hch.2.2.1, hch.2.2.2.1, hch.2.2.2.2, or_self, not_false_eq_true]

theorem keywordOf_spec (h : keywordOf ch = some key) :
    ∃ s, key = ch :: s ∧ isSpaceChar ch = false ∧ blader key = key := by
  unfold keywordOf at h
  split at h
  all_goals
    cases h
    try exact ⟨_, rfl, rfl, rfl⟩

theorem parseDeclarationGetAttribKeyVal_item (h : v.IsItem) (s : Text) :
    parseDeclarationGetAttribKeyVal v.key (v.key ++ '=' :: '"' :: (v.value ++ '"' :: s)) = .ok (v, s) := by
  obtain ⟨ch, hch⟩ := h.key
  obtain ⟨-, -, -, hkey⟩ := keywordOf_spec hch
  have hvalue : blader v.value = v.value := h.trimmed
  have hscan := scanDeclarationVal_append h.trimmed h.plain s
  simp only [parseDeclarationGetAttribKeyVal, matchKeyword_append,
    firstNoSpaceChar_cons (show isSpaceChar '=' = false from rfl), step_one_cons, getChar_cons_zero,
    firstNoSpaceChar_cons (show isSpaceChar '"' = false from rfl), hscan, Except.bind, between_append, hkey,
    hvalue]
  rfl

theorem parseDeclarationEnumAttrib_items (h : ∀ v ∈ vs, v.IsItem) (acc : List Value) (s : Text) {fuel : Nat}
    (hfuel : vs.length < fuel) :
    parseDeclarationEnumAttrib fuel acc (vs.flatMap writeItem ++ '?' :: s) = .ok (acc ++ vs, '?' :: s) := by
  induction vs generalizing acc fuel with
  | nil =>
    obtain ⟨fuel, rfl⟩ := Nat.exists_eq_add_of_lt hfuel
    rw [List.append_nil]
    rfl
  | cons v vs ih =>
    obtain ⟨hv, hvs⟩ := List.forall_mem_cons.mp h
    obtain ⟨fuel, rfl⟩ := Nat.exists_eq_add_of_lt (Nat.zero_lt_of_lt hfuel)
    rw [List.length_cons] at hfuel
    obtain ⟨ch, hch⟩ := hv.key
    obtain ⟨r, hkey, hspace, -⟩ := keywordOf_spec hch
    have hskip := firstNoSpaceChar_writeItem ⟨ch, r, hkey, hspace⟩ (vs.flatMap writeItem ++ '?' :: s)
    have hfirst : getChar (v.key ++ '=' :: '"' :: (v.value ++ '"' :: (vs.flatMap writeItem ++ '?' :: s))) 0 = ch := by
      rw [hkey]
      rfl
    rw [Nat.zero_add, List.flatMap_cons, List.append_assoc, parseDeclarationEnumAttrib, hskip, hfirst, hch]
    simp only [parseDeclarationGetAttribKeyVal_item hv, Except.bind]
    rw [ih hvs (acc ++ [v]) (by omega), List.append_assoc, List.singleton_append]

-- ---------------------------------------------------------------------------
-- Documents
-- ---------------------------------------------------------------------------

variable {d : Document}

theorem parseDeclaration_write (h : ∀ v ∈ d.declaration.items, v.IsItem) (hne : d.declaration.items ≠ [])
    (s : Text) :
    parseDeclaration (writeDeclaration d.declaration ++ s) =
      .ok (⟨blader (d.declaration.items.flatMap writeItem), d.declaration.items⟩, '\n' :: s) := by
  obtain ⟨v, vs, hvs⟩ := List.exists_cons_of_ne_nil hne
  have hwrite : writeDeclaration d.declaration ++ s =
      ['<', '?', 'x', 'm', 'l'] ++ (d.declaration.items.flatMap writeItem ++ '?' :: '>' :: '\n' :: s) := by
    simp [writeDeclaration, hne]
  have hbegin : parseDeclarationGetBegin (['<', '?', 'x', 'm', 'l'] ++
      (d.declaration.items.flatMap writeItem ++ '?' :: '>' :: '\n' :: s)) =
      .ok (d.declaration.items.flatMap writeItem ++ '?' :: '>' :: '\n' :: s) := by
    rw [hvs]
    rfl
  have hlen := length_items d.declaration.items
  have hitems := parseDeclarationEnumAttrib_items h [] ('>' :: '\n' :: s)
    (show _ < (d.declaration.items.flatMap writeItem ++ '?' :: '>' :: '\n' :: s).length + 1 by
      rw [List.length_append]
      omega)
  have hend := between_append (d.declaration.items.flatMap writeItem) ('?' :: '>' :: '\n' :: s)
  rw [hwrite, parseDeclaration, hbegin]
  simp only [Except.bind, hitems, List.nil_append, firstNoSpaceChar_cons (show isSpaceChar '?' = false from rfl),
    hend]
  rfl

theorem parseDeclaration_missing (hroot : d.root.Legal) (hnil : d.declaration.items = []) :
    parseDocument (writeDocument d) = raise "Begin with \"<?xml \" only!" := by
  obtain ⟨ch, s, hch, hwrite⟩ := hroot.writeElement_eq 0
  have hne := (isAllowedKeyStartChar_plain hch).2.2.2.2.2
  have htext : writeDocument d = '<' :: ch :: s := by
    rw [writeDocument, writeDeclaration, if_pos hnil, hwrite]
    rfl
  have hbegin : parseDeclarationGetBegin ('<' :: ch :: s) = raise "Begin with \"<?xml \" only!" := by
    have hkeyword : ¬ ['<', '?', 'x', 'm', 'l'] <+: '<' :: ch :: s := by
      intro hprefix
      rw [List.prefix_cons_inj, List.cons_prefix_cons] at hprefix
      exact hne hprefix.1.symm
    simp only [parseDeclarationGetBegin, firstNoSpaceChar_cons (show isSpaceChar '<' = false from rfl),
      matchKeyword, hkeyword, if_false, ite_self]
  rw [htext, parseDocument, parseDeclaration, hbegin]
  rfl

theorem parseRootElement_eq (h : d.root.Legal) {r : Result (Element × Text)}
    (hr : ∀ fuel, (writeElement 0 d.root ++ []).length < fuel → parseEnumElement fuel (writeElement 0 d.root ++ []) = r) :
    parseRootElement ('\n' :: writeElement 0 d.root) =
      r.bind fun (root, t) =>
        (parseRest ((writeElement 0 d.root).length + 1) (firstNoSpaceChar (step 1 t))).bind fun _ => .ok root := by
  obtain ⟨ch, s, hch, hwrite⟩ := h.writeElement_eq 0
  have hne := (isAllowedKeyStartChar_plain hch).2.2.2.2.1
  have hskip : firstNoSpaceChar ('\n' :: writeElement 0 d.root) = writeElement 0 d.root := by
    rw [hwrite]
    rfl
  have hcomment : ¬ (getChar (writeElement 0 d.root) 0 = '<' ∧ getChar (writeElement 0 d.root) 1 = '!') := by
    rw [hwrite]
    exact fun h => hne h.2
  rw [List.append_nil] at hr
  rw [parseRootElement, hskip]
  simp only [if_neg hcomment, Except.bind, hr _ (Nat.lt_add_of_pos_right (Nat.zero_lt_two))]

/-- With a declaration and without an empty element the text is accepted. -/
theorem parseDocument_writeDocument (h : d.Legal) (hitems : d.declaration.items ≠ []) (hfull : d.root.Full) :
    parseDocument (writeDocument d) =
      .ok ⟨⟨blader (d.declaration.items.flatMap writeItem), d.declaration.items⟩, d.root.read 0⟩ := by
  have hroot := parseRootElement_eq h.root fun fuel hfuel => h.root.parsed hfull 0 fuel [] hfuel
  rw [parseDocument, writeDocument, parseDeclaration_write h.items hitems]
  simp only [Except.bind, hroot]
  rfl

theorem parseDocument_empty (h : d.Legal) (hitems : d.declaration.items ≠ []) (hfull : ¬ d.root.Full) :
    parseDocument (writeDocument d) = raise "Invalid Key char" := by
  have hroot := parseRootElement_eq h.root fun fuel hfuel => h.root.refused hfull 0 fuel [] hfuel
  rw [parseDocument, writeDocument, parseDeclaration_write h.items hitems]
  simp only [Except.bind, hroot]
  rfl

theorem Element.Legal.read_eq_iff (h : e.Legal) (n : Nat) : e.read n = e ↔ e.subElements = [] := by
  cases h with
  | @mk key value properties subElements _ _ _ heither _ hes =>
    cases subElements with
    | nil => exact iff_of_true rfl rfl
    | cons c es =>
      refine iff_of_false (fun hread => ?_) (List.cons_ne_nil c es)
      obtain ⟨ch, t, -, hfirst⟩ :=
        (hes c List.mem_cons_self).firstNoSpaceChar_eq (n + 1) (writeElements (n + 1) es)
      have hvalue : blader (firstNoSpaceChar (writeElements (n + 1) (c :: es)) ++ List.replicate n '\t') = value :=
        (Element.mk.inj hread).2.1
      rw [writeElements, hfirst, heither (List.cons_ne_nil c es)] at hvalue
      exact blader_ne_nil rfl (by decide) _ hvalue

/-- A written document is read back as it was if and only if it has a declaration
and a root with a value. -/
theorem read_back_iff (h : d.Legal) : d.ReadBack ↔ d.declaration.items ≠ [] ∧ d.root.value ≠ [] := by
  constructor
  · rintro ⟨d', hparse, -, hroot⟩
    have hitems : d.declaration.items ≠ [] := by
      intro hnil
      rw [parseDeclaration_missing h.root hnil] at hparse
      cases hparse
    have hfull : d.root.Full := by
      by_contra hfull
      rw [parseDocument_empty h hitems hfull] at hparse
      cases hparse
    rw [parseDocument_writeDocument h hitems hfull] at hparse
    cases hparse
    have hleaf := (h.root.read_eq_iff 0).mp hroot
    exact ⟨hitems, hfull.value_ne_nil hleaf⟩
  · rintro ⟨hitems, hvalue⟩
    have hleaf : d.root.subElements = [] := by
      by_contra hne
      exact hvalue (h.root.either hne)
    have hfull : d.root.Full := by
      cases hd : d.root with
      | mk key value properties subElements =>
        rw [hd] at hleaf hvalue
        cases hleaf
        exact ⟨fun _ => hvalue, fun e he => absurd he List.not_mem_nil⟩
    exact ⟨_, parseDocument_writeDocument h hitems hfull, rfl, (h.root.read_eq_iff 0).mpr hleaf⟩

def version : Value := ⟨['v', 'e', 'r', 's', 'i', 'o', 'n'], ['1', '.', '0']⟩

theorem version_isItem : version.IsItem where
  key := ⟨'v', rfl⟩
  trimmed := rfl
  value := by decide
  plain := by decide

theorem name_a : Name ['a'] where
  start := ⟨'a', [], rfl, rfl⟩
  chars := by decide

theorem leaf_read_back :
    (⟨⟨[], [version]⟩, ⟨['a'], ['b'], [⟨['a'], ['b', ' ', 'c']⟩], []⟩⟩ : Document).ReadBack := by
  refine (read_back_iff ?_).mpr ⟨nofun, nofun⟩
  refine ⟨List.forall_mem_singleton.mpr version_isItem, ⟨name_a, rfl, by decide, fun h => absurd rfl h, ?_, nofun⟩⟩
  exact List.forall_mem_singleton.mpr ⟨name_a, rfl, by decide⟩

/-- The document `<a />` is refused. -/
theorem empty_element_refused : ¬ ∀ d : Document, d.Legal → d.ReadBack := by
  intro h
  have hlegal : (⟨⟨[], [version]⟩, ⟨['a'], [], [], []⟩⟩ : Document).Legal :=
    ⟨List.forall_mem_singleton.mpr version_isItem, ⟨name_a, rfl, by decide, fun _ => rfl, nofun, nofun⟩⟩
  obtain ⟨d', hparse, -⟩ := h _ hlegal
  have hthrow : parseDocument (writeDocument ⟨⟨[], [version]⟩, ⟨['a'], [], [], []⟩⟩) = raise "Invalid Key char" :=
    rfl
  rw [hthrow] at hparse
  cases hparse

end GalaLua.Runtime.XML
