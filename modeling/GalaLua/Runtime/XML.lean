import Mathlib.Data.List.DropRight

/-!
# The XML writer and parser

`CXMLWriter` prints a document and `CXMLParser` scans the text. A byte of the
text is a `Char`, with NUL where the source has zero; offsets are naturals. The
position of a `CXMLParserStream` is the rest of the buffer from there on, so a
text between two offsets is what the first rest has more than the second.
-/

namespace GalaLua.Runtime.XML

-- ---------------------------------------------------------------------------
-- Documents
-- ---------------------------------------------------------------------------

abbrev Text := List Char

def isSpaceChar (ch : Char) : Bool := ch = '\r' || ch = '\n' || ch = '\t' || ch = ' '

/-- `CXMLBlader`: the text up to its first NUL, without the blanks around it.
Every key and every value that is stored went through it. -/
def blader (text : Text) : Text :=
  ((text.takeWhile (· ≠ '\x00')).rdropWhile isSpaceChar).dropWhile isSpaceChar

structure Value where
  key : Text
  value : Text
deriving DecidableEq

inductive Element where
  | mk (key value : Text) (properties : List Value) (subElements : List Element)

namespace Element

def key : Element → Text
  | ⟨key, _, _, _⟩ => key

def value : Element → Text
  | ⟨_, value, _, _⟩ => value

def properties : Element → List Value
  | ⟨_, _, properties, _⟩ => properties

def subElements : Element → List Element
  | ⟨_, _, _, subElements⟩ => subElements

end Element

/-- `value` is the text of all items, as the parser found it. -/
structure Declaration where
  value : Text
  items : List Value

structure Document where
  declaration : Declaration
  root : Element

-- ---------------------------------------------------------------------------
-- `CXMLWriter`
-- ---------------------------------------------------------------------------

/-- An item of the declaration, or a property of an element. -/
def writeItem (v : Value) : Text := ' ' :: (v.key ++ '=' :: '"' :: (v.value ++ ['"']))

def writeDeclaration (d : Declaration) : Text :=
  if d.items = [] then [] else ['<', '?', 'x', 'm', 'l'] ++ (d.items.flatMap writeItem ++ ['?', '>', '\n'])

mutual

def writeElement (tabs : Nat) : Element → Text
  | ⟨key, value, properties, subElements⟩ =>
    List.replicate tabs '\t' ++ '<' :: (key ++ (properties.flatMap writeItem ++
      match subElements, value with
      | [], [] => [' ', '/', '>', '\n']
      | [], value => '>' :: (value ++ '<' :: '/' :: (key ++ ['>', '\n']))
      | subElements, _ => '>' :: '\n' :: (writeElements (tabs + 1) subElements ++
          (List.replicate tabs '\t' ++ '<' :: '/' :: (key ++ ['>', '\n'])))))

def writeElements (tabs : Nat) : List Element → Text
  | [] => []
  | e :: es => writeElement tabs e ++ writeElements tabs es

end

def writeDocument (d : Document) : Text := writeDeclaration d.declaration ++ writeElement 0 d.root

-- ---------------------------------------------------------------------------
-- `CXMLParserStream`
-- ---------------------------------------------------------------------------

def isAllowedKeyStartChar (ch : Char) : Bool := ch.isAlpha || ch = '_'

def isAllowedKeyChar (ch : Char) : Bool :=
  isAllowedKeyStartChar ch || ch.isDigit || ch = '-' || ch = '.'

/-- Behind the end of the buffer lie zeros. -/
def getChar (s : Text) (i : Nat) : Char := s.getD i '\x00'

/-- `Step`, which stays when the buffer is too short. -/
def step (n : Nat) (s : Text) : Text := if n ≤ s.length then s.drop n else s

def firstNoSpaceChar (s : Text) : Text := s.dropWhile isSpaceChar

def matchKeyword (keyword s : Text) : Option Text :=
  if keyword <+: s then some (s.drop keyword.length) else none

/-- The text from the position `s` to the position `s'` behind it. -/
def between (s s' : Text) : Text := s.take (s.length - s'.length)

-- ---------------------------------------------------------------------------
-- `CXMLParser`: the declaration
-- ---------------------------------------------------------------------------

/-- The text of an exception, or a model that was given too few rounds. -/
inductive Error where
  | thrown (text : String)
  | fuel
deriving DecidableEq

abbrev Result (α : Type) := Except Error α

def raise {α : Type} (text : String) : Result α := .error (.thrown text)

/-- The position behind `<?xml`. -/
def parseDeclarationGetBegin (s : Text) : Result Text :=
  if getChar (firstNoSpaceChar s) 0 ≠ '<' then raise "Begin with \"<?xml \" only!"
  else
    match matchKeyword ['<', '?', 'x', 'm', 'l'] (firstNoSpaceChar s) with
    | none => raise "Begin with \"<?xml \" only!"
    | some s => if isSpaceChar (getChar s 0) then .ok s else raise "Begin with \"<?xml \" only!"

/-- The end of a quoted value of the declaration. -/
def scanDeclarationVal (quote : Char) : Text → Result Text
  | [] => .ok []
  | ch :: s =>
    if ch = '\x00' ∨ ch = quote ∨ ch = '?' ∨ ch = '<' ∨ ch = '>' then .ok (ch :: s)
    else if isSpaceChar ch then raise "Attrib Syntax error,use qoute \" or ' pair??"
    else scanDeclarationVal quote s

def parseDeclarationGetAttribKeyVal (keyword s : Text) : Result (Value × Text) :=
  match matchKeyword keyword s with
  | none => raise "invalid  keyword!"
  | some t =>
    if getChar (firstNoSpaceChar t) 0 ≠ '=' then raise "Attrib Syntax error,May be '='??"
    else
      let q := firstNoSpaceChar (step 1 (firstNoSpaceChar t))
      let quote := getChar q 0
      if quote ≠ '"' ∧ quote ≠ '\'' then raise "Attrib Syntax error,use qoute \" or '??"
      else
        (scanDeclarationVal quote (step 1 q)).bind fun u =>
          if getChar u 0 ≠ quote then raise "Attrib Syntax error,use qoute \" or ' pair??"
          else .ok (⟨blader (between s t), blader (between (step 1 q) u)⟩, step 1 u)

/-- The keyword that the first character of an item announces. -/
def keywordOf : Char → Option Text
  | 'v' => some ['v', 'e', 'r', 's', 'i', 'o', 'n']
  | 'e' => some ['e', 'n', 'c', 'o', 'd', 'i', 'n', 'g']
  | 's' => some ['s', 't', 'a', 'n', 'd', 'a', 'l', 'o', 'n', 'e']
  | _ => none

def parseDeclarationEnumAttrib : Nat → List Value → Text → Result (List Value × Text)
  | 0, _, _ => .error .fuel
  | fuel + 1, items, s =>
    match keywordOf (getChar (firstNoSpaceChar s) 0) with
    | some keyword =>
      (parseDeclarationGetAttribKeyVal keyword (firstNoSpaceChar s)).bind fun (v, s) =>
        parseDeclarationEnumAttrib fuel (items ++ [v]) s
    | none =>
      if getChar (firstNoSpaceChar s) 0 = '?' then .ok (items, firstNoSpaceChar s)
      else raise "Syntax error"

/-- The position behind `?>`; the declaration ends in front of it. -/
def parseDeclarationGetEnd (s : Text) : Result Text :=
  if getChar (firstNoSpaceChar s) 0 ≠ '?' then raise "Syntax error"
  else
    match matchKeyword ['?', '>'] (firstNoSpaceChar s) with
    | none => raise "End with \"?>\" only!"
    | some s => .ok s

def parseDeclaration (s : Text) : Result (Declaration × Text) :=
  (parseDeclarationGetBegin s).bind fun begin =>
    (parseDeclarationEnumAttrib (begin.length + 1) [] begin).bind fun (items, s) =>
      (parseDeclarationGetEnd s).bind fun s' =>
        .ok (⟨blader (between begin (firstNoSpaceChar s)), items⟩, s')

-- ---------------------------------------------------------------------------
-- `CXMLParser`: the elements
-- ---------------------------------------------------------------------------

/-- From behind `<!--` to the last character of `-->`. -/
def scanComment : Text → Result Text
  | [] => raise "XML Comment Syntex error!"
  | ch :: s =>
    if ch = '\x00' then raise "XML Comment Syntex error!"
    else if ch = '-' ∧ getChar s 0 = '-' ∧ getChar s 1 = '>' then .ok (step 2 (ch :: s))
    else scanComment s

def parseIgnoreComment (s : Text) : Result Text :=
  let s := firstNoSpaceChar s
  if getChar s 0 = '<' ∧ getChar s 1 = '!' then
    match matchKeyword ['<', '!', '-', '-'] s with
    | none => raise "XML Comment Syntex error!"
    | some s => scanComment s
  else .ok s

/-- A character that is not allowed in a key ends it only when it is a blank,
`>` or `/`. -/
def scanKey : Text → Text
  | [] => []
  | ch :: s =>
    if ch = '\x00' then ch :: s
    else if !isAllowedKeyChar ch && (isSpaceChar ch || ch = '>' || ch = '/') then ch :: s
    else scanKey s

/-- The key of an element, whether the element ends at once, and the position
behind it. -/
def parseKey (s : Text) : Result (Text × Bool × Text) :=
  if getChar (firstNoSpaceChar s) 0 ≠ '<' then raise "XML Key Syntex error!"
  else
    let begin := step 1 (firstNoSpaceChar s)
    if !isAllowedKeyStartChar (getChar begin 0) then raise "XML Key Syntex error!"
    else
      let s := scanKey (firstNoSpaceChar begin)
      let key := blader (between begin s)
      if isSpaceChar (getChar s 0) then .ok (key, false, s)
      else if getChar s 0 = '>' then
        if key = [] then raise "XML Key is Empty!" else .ok (key, false, s)
      else if getChar s 0 = '/' then
        if getChar s 1 ≠ '>' then raise "XML Key Syntex error!"
        else if key = [] then raise "XML Key is Empty!"
        else .ok (key, true, step 1 s)
      else .ok ([], false, s)

def scanAttribKey : Text → Result Text
  | [] => .ok []
  | ch :: s =>
    if ch = '\x00' ∨ ch = '>' then .ok (ch :: s)
    else if isSpaceChar ch || ch = '=' then .ok (ch :: s)
    else if !isAllowedKeyChar ch then raise "Invalid Key char"
    else scanAttribKey s

def scanAttribVal (quote : Char) (s : Text) : Text :=
  s.dropWhile fun ch => ch ≠ '\x00' ∧ ch ≠ '>' ∧ ch ≠ quote

/-- One attribute, to its closing quote. -/
def parseAttrib (begin : Text) : Result (Value × Text) :=
  (scanAttribKey (firstNoSpaceChar begin)).bind fun t =>
    if getChar (firstNoSpaceChar t) 0 ≠ '=' then raise "Attrib Syntax error,May be '='??"
    else
      let q := firstNoSpaceChar (step 1 (firstNoSpaceChar t))
      let quote := getChar q 0
      if quote ≠ '"' ∧ quote ≠ '\'' then raise "Attrib Syntax error,use qoute \" or '??"
      else
        let v := firstNoSpaceChar (step 1 q)
        let u := scanAttribVal quote v
        if getChar (firstNoSpaceChar u) 0 ≠ quote then raise "Attrib Syntax error"
        else .ok (⟨blader (between begin t), blader (between v u)⟩, firstNoSpaceChar u)

def parseEnumAttrib : Nat → List Value → Text → Result (List Value × Text)
  | 0, _, _ => .error .fuel
  | fuel + 1, properties, s =>
    if getChar (firstNoSpaceChar s) 0 = '>' then .ok (properties, firstNoSpaceChar s)
    else if !isAllowedKeyStartChar (getChar (firstNoSpaceChar s) 0) then raise "Invalid Key char"
    else
      (parseAttrib (firstNoSpaceChar s)).bind fun (v, u) =>
        let s := firstNoSpaceChar (step 1 u)
        if getChar s 0 ≠ '>' then parseEnumAttrib fuel (properties ++ [v]) s
        else .ok (properties ++ [v], s)

def parseProperties (fuel : Nat) (s : Text) : Result (List Value × Text) :=
  if isSpaceChar (getChar s 0) ∧ getChar (firstNoSpaceChar s) 0 ≠ '>' then
    parseEnumAttrib fuel [] (firstNoSpaceChar s)
  else if isSpaceChar (getChar s 0) then .ok ([], firstNoSpaceChar s)
  else .ok ([], s)

mutual

def parseEnumElement : Nat → Text → Result (Element × Text)
  | 0, _ => .error .fuel
  | fuel + 1, s =>
    (parseKey s).bind fun (key, ended, s) =>
      if ended then .ok (⟨key, [], [], []⟩, s)
      else
        (parseProperties fuel s).bind fun (properties, s) =>
          if getChar s 0 = '>' then
            parseValue fuel ⟨key, [], properties, []⟩ (firstNoSpaceChar (step 1 s)) (firstNoSpaceChar (step 1 s))
          else raise "XML Key Syntex error!"

/-- The loop over the content of `e`, which began at `valBegin`. -/
def parseValue : Nat → Element → Text → Text → Result (Element × Text)
  | 0, _, _, _ => .error .fuel
  | fuel + 1, e, valBegin, s =>
    if getChar s 0 = '\x00' then raise "XML Key Syntex error!"
    else
      let s := firstNoSpaceChar s
      if getChar s 0 ≠ '<' then parseValue fuel e valBegin (step 1 s)
      else if getChar s 1 = '/' then
        let t := firstNoSpaceChar (step 2 s)
        match matchKeyword e.key t with
        | none => parseValue fuel e valBegin (step 1 t)
        | some t =>
          if getChar (firstNoSpaceChar t) 0 ≠ '>' then parseValue fuel e valBegin (step 1 (firstNoSpaceChar t))
          else .ok (⟨e.key, blader (between valBegin s), e.properties, e.subElements⟩, firstNoSpaceChar t)
      else if getChar s 1 = '!' then
        (parseIgnoreComment s).bind fun t => parseValue fuel e valBegin (step 1 t)
      else if isAllowedKeyStartChar (getChar s 1) then
        (parseEnumElement fuel s).bind fun (c, t) =>
          parseValue fuel ⟨e.key, e.value, e.properties, e.subElements ++ [c]⟩ valBegin (step 1 t)
      else parseValue fuel e valBegin (step 1 s)

end

-- ---------------------------------------------------------------------------
-- `CXMLParser`: the document
-- ---------------------------------------------------------------------------

/-- Behind the root element only comments may begin with `<`. -/
def parseRest : Nat → Text → Result Unit
  | 0, _ => .error .fuel
  | fuel + 1, s =>
    if getChar s 0 = '\x00' then .ok ()
    else if getChar s 0 ≠ '<' then parseRest fuel (step 1 s)
    else if getChar s 1 ≠ '!' then raise "No more element after root element!"
    else (parseIgnoreComment s).bind fun t => parseRest fuel (step 1 t)

def parseRootElement (s : Text) : Result Element :=
  let s := firstNoSpaceChar s
  (if getChar s 0 = '<' ∧ getChar s 1 = '!' then
      (parseIgnoreComment s).bind fun t => .ok (firstNoSpaceChar (step 1 t))
    else .ok s).bind fun s =>
  (parseEnumElement (s.length + 2) s).bind fun (root, t) =>
    (parseRest (s.length + 1) (firstNoSpaceChar (step 1 t))).bind fun _ => .ok root

def parseDocument (s : Text) : Result Document :=
  (parseDeclaration s).bind fun (declaration, s) =>
    (parseRootElement s).bind fun root => .ok ⟨declaration, root⟩

end GalaLua.Runtime.XML
