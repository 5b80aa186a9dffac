import WorkflowDag.Markup.Element
import WorkflowDag.Markup.Units
import WorkflowDag.Text.Blank
import WorkflowDag.Text.Cut

/-!
# Reading XML documents

Reads a well-formed XML 1.0 document with namespaces into its element tree: the five named entities,
character references, character data sections, comments, processing instructions, the declaration
and a document type without declarations of its own.  `none` means that the text is no such
document.
-/

namespace WorkflowDag
namespace Markup

/-- Line ends as one line feed each. -/
def unifyLineEnds : List Char → List Char
  | [] => []
  | '\r' :: '\n' :: cs => '\n' :: unifyLineEnds cs
  | '\r' :: cs => '\n' :: unifyLineEnds cs
  | c :: cs => c :: unifyLineEnds cs

/-- Drops white space. -/
def skipSpace (cs : List Char) : List Char :=
  cs.dropWhile isSpace

/-- White space is required here: what follows it. -/
def space? (cs : List Char) : Option (List Char) :=
  match cs with
  | c :: _ => if isSpace c then some (skipSpace cs) else none
  | [] => none

/-- A name that may carry a namespace prefix. -/
structure QName where
  space : Option String
  localName : String
deriving DecidableEq, Repr

/-- Reads a name without a colon. -/
def plainName? : List Char → Option (String × List Char)
  | c :: cs =>
    if isNameStart c then
      some (String.ofList (c :: cs.takeWhile isNamePart), cs.dropWhile isNamePart)
    else none
  | [] => none

/-- Reads a name with at most one colon inside. -/
def name? (cs : List Char) : Option (QName × List Char) := do
  let (first, rest) ← plainName? cs
  match rest with
  | ':' :: rest' =>
    let (second, rest'') ← plainName? rest'
    if Text.startsWith [':'] rest'' then none else some (⟨some first, second⟩, rest'')
  | _ => some (⟨none, first⟩, rest)

/-- Value of a digit below sixteen. -/
def digit? (c : Char) : Option Nat :=
  if c.isDigit then some (c.toNat - 48)
  else if 'a' ≤ c ∧ c ≤ 'f' then some (c.toNat - 87)
  else if 'A' ≤ c ∧ c ≤ 'F' then some (c.toNat - 55)
  else none

/-- The code point of a character reference, given its digits. -/
def codeOf? (base : Nat) (digits : List Char) : Option Nat := do
  if digits.isEmpty then none
  else
    let code ← digits.foldlM
      (fun acc c => do
        let d ← digit? c
        if d < base then some (min (acc * base + d) 0x110000) else none) 0
    if isDocumentCode code then some code else none

/-- What a named entity stands for. -/
def entity? (name : String) : Option Char :=
  if name = "lt" then some '<'
  else if name = "gt" then some '>'
  else if name = "amp" then some '&'
  else if name = "apos" then some '\x27'
  else if name = "quot" then some '\x22'
  else none

/-- Reads a reference behind its ampersand. -/
def reference? (cs : List Char) : Option (List Char × List Char) := do
  let (body, rest) ← Text.cut? [';'] cs
  match body with
  | '#' :: 'x' :: digits => (codeOf? 16 digits).map fun code => (Text.unitsOf code, rest)
  | '#' :: digits => (codeOf? 10 digits).map fun code => (Text.unitsOf code, rest)
  | name => (entity? (String.ofList name)).map fun c => ([c], rest)

/-- Reads an attribute value up to its closing quote.  White space written out counts as a space.
Each step consumes a unit. -/
def attributeValue? (quote : Char) : Nat → List Char → Option (List Char × List Char)
  | 0, _ => none
  | _ + 1, [] => none
  | steps + 1, c :: cs =>
    if c = quote then some ([], cs)
    else if c = '<' then none
    else if c = '&' then do
      let (units, rest) ← reference? cs
      let (value, rest') ← attributeValue? quote steps rest
      some (units ++ value, rest')
    else if isDocumentUnit c then do
      let (value, rest) ← attributeValue? quote steps cs
      some ((if isSpace c then ' ' else c) :: value, rest)
    else none

/-- A raw attribute: its name and its value. -/
abbrev Attribute := QName × String

/-- Reads an equals sign, with white space around it. -/
def equalsSign? (cs : List Char) : Option (List Char) :=
  match skipSpace cs with
  | '=' :: rest => some (skipSpace rest)
  | _ => none

/-- Reads the attributes of a tag up to its end; tells whether the tag closes itself.  Each step
consumes an attribute. -/
def attributes? : Nat → List Attribute → List Char → Option (List Attribute × Bool × List Char)
  | 0, _, _ => none
  | steps + 1, found, cs =>
    match skipSpace cs with
    | '>' :: rest => some (found.reverse, false, rest)
    | '/' :: '>' :: rest => some (found.reverse, true, rest)
    | _ => do
      let rest ← space? cs
      let (name, rest1) ← name? rest
      let rest2 ← equalsSign? rest1
      match rest2 with
      | quote :: rest3 =>
        if quote = '\x27' ∨ quote = '\x22' then
          let (value, rest4) ← attributeValue? quote (rest3.length + 1) rest3
          if found.any fun other => other.1 == name then none
          else attributes? steps ((name, String.ofList value) :: found) rest4
        else none
      | [] => none

/-- Namespaces in force, the nearest first: prefix and name. -/
abbrev Namespaces := List (String × String)

/-- The attribute declares a namespace. -/
def declares (a : Attribute) : Bool :=
  a.1.space == some "xmlns" || (a.1.space == none && a.1.localName == "xmlns")

/-- Namespaces in force inside a tag with these attributes. -/
def addNamespaces (outer : Namespaces) (attributes : List Attribute) : Namespaces :=
  attributes.foldl
    (fun acc a => if a.1.space == some "xmlns" then (a.1.localName, a.2) :: acc else acc) outer

/-- The namespace that a name's prefix stands for; a name without prefix needs none. -/
def bound? (namespaces : Namespaces) (name : QName) : Option String :=
  match name.space with
  | none => some ""
  | some space =>
    if space = "xml" then some "xml"
    else ((namespaces.find? fun entry => entry.1 == space).map Prod.snd).filter (· ≠ "")

/-- The record of attributes under their local names, when all their prefixes are bound and no two
have the same name. -/
def attributeRecord? (namespaces : Namespaces) (attributes : List Attribute) : Option Record := do
  let own := attributes.filter fun a => !declares a
  let keys ← own.mapM fun a => (bound? namespaces a.1).map fun space => (space, a.1)
  let clash := keys.any fun k =>
    k.1 != "" && decide (1 < (keys.filter fun l =>
      l.1 == k.1 && l.2.localName == k.2.localName).length)
  if clash then none
  else some (own.foldl (fun acc a => acc.assign a.1.localName a.2) .empty)

/-- An element that is still open: what has been read of it so far, children and text backwards. -/
structure OpenElement where
  name : QName
  attributes : Record
  namespaces : Namespaces
  text : List Char
  children : List Element

/-- The element once it is closed. -/
def OpenElement.close (e : OpenElement) : Element :=
  { tag := e.name.localName
    attributes := e.attributes
    text := String.ofList (Text.trimUnits e.text.reverse)
    children := e.children.reverse }

/-- Skips a comment behind its opening: no two dashes inside. -/
def comment? : List Char → Option (List Char)
  | '-' :: '-' :: '>' :: rest => some rest
  | '-' :: '-' :: _ => none
  | c :: rest => if isDocumentUnit c then comment? rest else none
  | [] => none

/-- Skips a processing instruction behind its opening. -/
def instruction? (cs : List Char) : Option (List Char) := do
  let (target, rest) ← name? cs
  if target.space ≠ none ∨ target.localName.toList.map Char.toLower = "xml".toList then none
  else
    let (body, rest') ← Text.cut? ['?', '>'] rest
    if body.all isDocumentUnit ∧ (body.isEmpty ∨ (space? body).isSome) then some rest' else none

/-- Skips comments, processing instructions and white space outside the root. -/
def misc? : Nat → List Char → Option (List Char)
  | 0, cs => some cs
  | steps + 1, cs =>
    match skipSpace cs with
    | '<' :: '!' :: '-' :: '-' :: rest => (comment? rest).bind (misc? steps)
    | '<' :: '?' :: rest => (instruction? rest).bind (misc? steps)
    | rest => some rest

/-- What an element that has just been closed becomes part of: the tree is complete, or its parent
goes on. -/
def attach (e : Element) : List OpenElement → Element ⊕ List OpenElement
  | [] => .inl e
  | parent :: outer => .inr ({ parent with children := e :: parent.children } :: outer)

/-- Opens the element of a start tag. -/
def openTag? (outer : List OpenElement) (cs : List Char) :
    Option (OpenElement × Bool × List Char) := do
  let (name, rest) ← name? cs
  let (found, closed, rest') ← attributes? (rest.length + 1) [] rest
  let around := match outer with
    | parent :: _ => parent.namespaces
    | [] => []
  let namespaces := addNamespaces around found
  let _ ← bound? namespaces name
  let record ← attributeRecord? namespaces found
  some (⟨name, record, namespaces, [], []⟩, closed, rest')

/-- Reads an end tag behind its opening. -/
def endTag? (cs : List Char) : Option (QName × List Char) := do
  let (name, rest) ← name? cs
  match skipSpace rest with
  | '>' :: rest' => some (name, rest')
  | _ => none

/-- Adds character data to the innermost open element. -/
def addText (units : List Char) : List OpenElement → List OpenElement
  | [] => []
  | e :: outer => { e with text := units.reverse ++ e.text } :: outer

/-- Reads the content of the open elements, the innermost first, until the outermost is closed.
Each step consumes a unit. -/
def content? : Nat → List OpenElement → List Char → Option (Element × List Char)
  | 0, _, _ => none
  | steps + 1, stack, cs =>
    let closeWith (e : Element) (outer : List OpenElement) (rest : List Char) :
        Option (Element × List Char) :=
      match attach e outer with
      | .inl root => some (root, rest)
      | .inr stack' => content? steps stack' rest
    match cs with
    | [] => none
    | '<' :: '/' :: rest => do
      let (name, rest') ← endTag? rest
      match stack with
      | e :: outer => if e.name = name then closeWith e.close outer rest' else none
      | [] => none
    | '<' :: '!' :: '-' :: '-' :: rest => (comment? rest).bind (content? steps stack)
    | '<' :: '!' :: rest => do
      let rest' ← Text.after? "[CDATA[".toList rest
      let (data, rest'') ← Text.cut? [']', ']', '>'] rest'
      if data.all isDocumentUnit then content? steps (addText data stack) rest'' else none
    | '<' :: '?' :: rest => (instruction? rest).bind (content? steps stack)
    | '<' :: rest => do
      let (e, closed, rest') ← openTag? stack rest
      if closed then closeWith e.close stack rest' else content? steps (e :: stack) rest'
    | '&' :: rest => do
      let (units, rest') ← reference? rest
      content? steps (addText units stack) rest'
    | ']' :: ']' :: '>' :: _ => none
    | c :: rest => if isDocumentUnit c then content? steps (addText [c] stack) rest else none

/-- Reads a quoted literal. -/
def literal? : List Char → Option (List Char × List Char)
  | quote :: rest =>
    if quote = '\x27' ∨ quote = '\x22' then Text.cut? [quote] rest else none
  | [] => none

/-- Reads one assignment of the declaration, if its name comes next. -/
def declared? (name : String) (ok : List Char → Bool) (cs : List Char) :
    Option (Option (List Char)) :=
  match space? cs with
  | none => some none
  | some rest =>
    match Text.after? name.toList rest with
    | none => some none
    | some rest' => do
      let rest'' ← equalsSign? rest'
      let (value, rest''') ← literal? rest''
      if ok value then some (some rest''') else none

/-- A version number of the first edition. -/
def isVersion (value : List Char) : Bool :=
  match Text.after? ['1', '.'] value with
  | some rest => !rest.isEmpty && rest.all Char.isDigit
  | none => false

/-- The name of an encoding. -/
def isEncoding : List Char → Bool
  | c :: rest =>
    c.isAlpha && rest.all fun d => d.isAlphanum || d == '.' || d == '_' || d == '-'
  | [] => false

/-- Skips the declaration, if the document begins with one. -/
def declaration? (cs : List Char) : Option (List Char) :=
  match Text.after? "<?xml".toList cs with
  | none => some cs
  | some rest =>
    match space? rest with
    | none => some cs
    | some _ => do
      let rest1 ← (← declared? "version" isVersion rest)
      let rest2 := (← declared? "encoding" isEncoding rest1).getD rest1
      let rest3 := (← declared? "standalone"
        (fun v => v == "yes".toList || v == "no".toList) rest2).getD rest2
      Text.after? ['?', '>'] (skipSpace rest3)

/-- Skips the declarations of a document type up to the closing bracket; quoted literals are skipped
whole. -/
def subset? : Nat → List Char → Option (List Char)
  | 0, _ => none
  | _ + 1, ']' :: rest => some rest
  | steps + 1, c :: rest =>
    if c = '\x27' ∨ c = '\x22' then (Text.cut? [c] rest).bind fun parts => subset? steps parts.2
    else subset? steps rest
  | _ + 1, [] => none

/-- Skips the identifier of an external document type, if there is one. -/
def externalId? (cs : List Char) : Option (List Char) :=
  match space? cs with
  | none => some cs
  | some rest =>
    match Text.after? "SYSTEM".toList rest, Text.after? "PUBLIC".toList rest with
    | some rest', _ => do
      let (_, rest'') ← literal? (← space? rest')
      some rest''
    | none, some rest' => do
      let (_, rest'') ← literal? (← space? rest')
      let (_, rest''') ← literal? (← space? rest'')
      some rest'''
    | none, none => some cs

/-- Skips the document type, if there is one. -/
def documentType? (cs : List Char) : Option (List Char) :=
  match Text.after? "<!DOCTYPE".toList cs with
  | none => some cs
  | some rest => do
    let (_, rest1) ← name? (← space? rest)
    let rest2 ← externalId? rest1
    let rest3 ← match skipSpace rest2 with
      | '[' :: inner => (subset? (inner.length + 1) inner).map skipSpace
      | other => some other
    match rest3 with
    | '>' :: rest4 => some rest4
    | _ => none

/-- Drops a byte order mark. -/
def skipMark : List Char → List Char
  | c :: cs => if c.toNat = 0xFEFF then cs else c :: cs
  | [] => []

/-- Reads a document from its units. -/
def readUnits? (units : List Char) : Option Element := do
  let cs := unifyLineEnds (skipMark units)
  let rest1 ← declaration? cs
  let rest2 ← misc? cs.length rest1
  let rest3 ← documentType? rest2
  let rest4 ← misc? cs.length rest3
  match rest4 with
  | '<' :: rest5 =>
    let (e, closed, rest6) ← openTag? [] rest5
    let (root, rest7) ←
      if closed then some (e.close, rest6) else content? (rest6.length + 1) [e] rest6
    let rest8 ← misc? cs.length rest7
    if rest8.isEmpty then some root else none
  | _ => none

/-- Reads a document. -/
def read? (source : String) : Option Element :=
  readUnits? source.toList

end Markup
end WorkflowDag
