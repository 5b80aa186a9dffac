import WorkflowDag.Pattern.Basic
import WorkflowDag.Text.Cut

/-!
# Reading search patterns

The written form of search patterns.  Braces and closing brackets that form no quantifier or class
stand for themselves, a reference to a group that does not exist is an octal code, and an escape
without a meaning of its own is the escaped unit.
-/

namespace WorkflowDag

/-- Why a text is no search pattern. -/
inductive PatternError where
  | unterminatedGroup
  | unmatchedParenthesis
  | unterminatedClass
  | nothingToRepeat
  | escapeAtEnd
  | classRangeOrder
  | repeatRangeOrder
  | invalidGroup
  | invalidQuantifier
  | invalidGroupName
  | duplicateGroupName
  | invalidNameReference
  | unknownGroupName
deriving DecidableEq, Repr

namespace PatternError

/-- The cause in words. -/
def message : PatternError → String
  | unterminatedGroup => "Unterminated group"
  | unmatchedParenthesis => "Unmatched \x27)\x27"
  | unterminatedClass => "Unterminated character class"
  | nothingToRepeat => "Nothing to repeat"
  | escapeAtEnd => "\\ at end of pattern"
  | classRangeOrder => "Range out of order in character class"
  | repeatRangeOrder => "numbers out of order in \x7b\x7d quantifier"
  | invalidGroup => "Invalid group"
  | invalidQuantifier => "Invalid quantifier"
  | invalidGroupName => "Invalid capture group name"
  | duplicateGroupName => "Duplicate capture group name"
  | invalidNameReference => "Invalid named reference"
  | unknownGroupName => "Invalid named capture referenced"

end PatternError

namespace Pattern

/-- Value of a hexadecimal digit. -/
def hexValue? (c : Char) : Option Nat :=
  if '0' ≤ c ∧ c ≤ '9' then some (c.toNat - 48)
  else if 'a' ≤ c ∧ c ≤ 'f' then some (c.toNat - 87)
  else if 'A' ≤ c ∧ c ≤ 'F' then some (c.toNat - 55)
  else none

/-- Reads exactly `count` hexadecimal digits. -/
def hexDigits? : Nat → Nat → List Char → Option (Nat × List Char)
  | 0, value, cs => some (value, cs)
  | _ + 1, _, [] => none
  | count + 1, value, c :: cs =>
    match hexValue? c with
    | some v => hexDigits? count (value * 16 + v) cs
    | none => none

/-- An octal digit. -/
def isOctal (c : Char) : Bool :=
  decide ('0' ≤ c) && decide (c ≤ '7')

/-- Value of a digit. -/
def digitNat (c : Char) : Nat :=
  c.toNat - 48

/-- An octal code of one to three digits below 256, whose first digit is `c`. -/
def octal (c : Char) : List Char → Nat × List Char
  | d :: rest =>
    if isOctal d then
      let two := digitNat c * 8 + digitNat d
      match rest with
      | e :: rest' =>
        if two < 32 ∧ isOctal e then (two * 8 + digitNat e, rest') else (two, rest)
      | [] => (two, rest)
    else (digitNat c, d :: rest)
  | [] => (digitNat c, [])

/-- The unit an escape stands for, given the units after the backslash. -/
def charEscape (inClass : Bool) (c : Char) (rest : List Char) : Nat × List Char :=
  if c = 'f' then (12, rest)
  else if c = 'n' then (10, rest)
  else if c = 'r' then (13, rest)
  else if c = 't' then (9, rest)
  else if c = 'v' then (11, rest)
  else if c = 'c' then
    match rest with
    | letter :: rest' =>
      if letter.isAlpha || (inClass && (letter.isDigit || letter == '_')) then
        (letter.toNat % 32, rest')
      else (92, c :: rest)
    | [] => (92, c :: rest)
  else if isOctal c then octal c rest
  else if c = 'x' then
    match hexDigits? 2 0 rest with
    | some (value, rest') => (value, rest')
    | none => (Text.unit c, rest)
  else if c = 'u' then
    match hexDigits? 4 0 rest with
    | some (value, rest') => (value, rest')
    | none => (Text.unit c, rest)
  else (Text.unit c, rest)

/-- The class an escape stands for: digits, word units, white space, or the complement of one. -/
def classEscape? (c : Char) : Option ClassItem :=
  if c = 'd' then some (.digit false)
  else if c = 'D' then some (.digit true)
  else if c = 'w' then some (.word false)
  else if c = 'W' then some (.word true)
  else if c = 's' then some (.space false)
  else if c = 'S' then some (.space true)
  else none

/-- Reads one member of a class: a unit or a class escape. -/
def classAtom : List Char → Except PatternError ((Nat ⊕ ClassItem) × List Char)
  | '\\' :: c :: rest =>
    match classEscape? c with
    | some item => .ok (.inr item, rest)
    | none =>
      if c = 'b' then .ok (.inl 8, rest)
      else
        let (value, rest') := charEscape true c rest
        .ok (.inl value, rest')
  | ['\\'] => .error .escapeAtEnd
  | c :: rest => .ok (.inl (Text.unit c), rest)
  | [] => .error .unterminatedClass

/-- The class items of one member. -/
def atomItem : Nat ⊕ ClassItem → ClassItem
  | .inl value => .range value value
  | .inr item => item

/-- Reads the members of a class up to its closing bracket. -/
def classItems : Nat → List ClassItem → List Char → Except PatternError (List ClassItem × List Char)
  | 0, _, _ => .error .unterminatedClass
  | _ + 1, _, [] => .error .unterminatedClass
  | _ + 1, items, ']' :: rest => .ok (items, rest)
  | steps + 1, items, cs => do
    let (first, rest) ← classAtom cs
    match rest with
    | '-' :: [] => .error .unterminatedClass
    | '-' :: ']' :: rest' => .ok (items ++ [atomItem first, .range 45 45], rest')
    | '-' :: rest' =>
      let (second, rest'') ← classAtom rest'
      match first, second with
      | .inl low, .inl high =>
        if high < low then .error .classRangeOrder
        else classItems steps (items ++ [.range low high]) rest''
      | _, _ =>
        classItems steps (items ++ [atomItem first, .range 45 45, atomItem second]) rest''
    | _ => classItems steps (items ++ [atomItem first]) rest

/-- Reads a class behind its opening bracket. -/
def classOf (cs : List Char) : Except PatternError (Pattern × List Char) := do
  match cs with
  | '^' :: rest =>
    let (items, rest') ← classItems (rest.length + 1) [] rest
    pure (.oneOf true items, rest')
  | rest =>
    let (items, rest') ← classItems (rest.length + 1) [] rest
    pure (.oneOf false items, rest')

/-- Reads the bounds of a repetition written in braces, behind the opening brace. -/
def interval? (cs : List Char) : Option (Nat × Option Nat × List Char) :=
  let number (ds : List Char) : Nat := ds.foldl (fun acc d => acc * 10 + digitNat d) 0
  let least := cs.takeWhile Char.isDigit
  if least = [] then none
  else
    match cs.dropWhile Char.isDigit with
    | '\x7d' :: rest => some (number least, some (number least), rest)
    | ',' :: '\x7d' :: rest => some (number least, none, rest)
    | ',' :: rest =>
      match rest.dropWhile Char.isDigit with
      | '\x7d' :: rest' => some (number least, some (number (rest.takeWhile Char.isDigit)), rest')
      | _ => none
    | _ => none

/-- What the whole pattern says about its groups before any of it is read. -/
structure GroupScan where
  count : Nat
  named : Bool

/-- Counts the capturing groups, escapes and classes left out. -/
def scanGroups : Bool → List Char → GroupScan
  | _, [] => ⟨0, false⟩
  | _, ['\\'] => ⟨0, false⟩
  | inClass, '\\' :: _ :: rest => scanGroups inClass rest
  | true, c :: rest => scanGroups (c != ']') rest
  | false, '[' :: rest => scanGroups true rest
  | false, '(' :: '?' :: '<' :: c :: rest =>
    let scan := scanGroups false (c :: rest)
    if c = '=' ∨ c = '!' then scan else ⟨scan.count + 1, true⟩
  | false, '(' :: '?' :: rest => scanGroups false rest
  | false, '(' :: rest => let scan := scanGroups false rest; ⟨scan.count + 1, scan.named⟩
  | false, _ :: rest => scanGroups false rest

/-- What is known while a pattern is being read. -/
structure Reading where
  /-- Groups begun so far. -/
  begun : Nat
  /-- Names given so far. -/
  names : List (String × Nat)
  /-- Names referred to so far. -/
  wanted : List String

/-- A unit that may begin a group name. -/
def isNameStart (c : Char) : Bool :=
  c.isAlpha || c == '_' || c == '$' || decide (0x80 ≤ c.toNat)

/-- A unit that may stand in a group name. -/
def isNamePart (c : Char) : Bool :=
  isNameStart c || c.isDigit

/-- Reads a group name and the bracket that closes it. -/
def groupName? (cs : List Char) : Option (String × List Char) :=
  let name := cs.takeWhile isNamePart
  match name, cs.dropWhile isNamePart with
  | c :: _, '>' :: rest => if isNameStart c then some (String.ofList name, rest) else none
  | _, _ => none

/-- Group number that a decimal escape refers to, when there is such a group. -/
def backrefIndex? (groups : Nat) (cs : List Char) : Option (Nat × List Char) :=
  let value := (cs.takeWhile Char.isDigit).foldl (fun acc d => acc * 10 + digitNat d) 0
  if value ≤ groups then some (value, cs.dropWhile Char.isDigit) else none

/-- Reads an escape outside classes that takes part in repetition. -/
def atomEscape (scan : GroupScan) (opened : List Nat) (st : Reading) (c : Char) (rest : List Char) :
    Except PatternError (Pattern × List Char × Reading) :=
  let plain : Except PatternError (Pattern × List Char × Reading) :=
    let (value, rest') := charEscape false c rest
    .ok (.char value, rest', st)
  match classEscape? c with
  | some item => .ok (.oneOf false [item], rest, st)
  | none =>
    if '1' ≤ c ∧ c ≤ '9' then
      match backrefIndex? scan.count (c :: rest) with
      | some (group, rest') =>
        .ok (if opened.contains group then .empty else .backref group, rest', st)
      | none => plain
    else if c = 'k' ∧ scan.named then
      match rest with
      | '<' :: rest' =>
        match groupName? rest' with
        | some (name, rest'') =>
          -- The group may follow later; its number is filled in when all names are known.
          .ok (.backref (scan.count + 1 + st.wanted.length), rest'',
            { st with wanted := st.wanted ++ [name] })
        | none => .error .invalidNameReference
      | _ => .error .invalidNameReference
    else plain

/-- A quantifier: least and most rounds, and whether it is greedy. -/
structure Quantifier where
  least : Nat
  most : Option Nat
  greedy : Bool

/-- Reads the quantifier behind an atom, if there is one. -/
def quantifier? (cs : List Char) : Except PatternError (Option (Quantifier × List Char)) :=
  let finish (least : Nat) (most : Option Nat) : List Char → Quantifier × List Char
    | '?' :: rest => (⟨least, most, false⟩, rest)
    | rest => (⟨least, most, true⟩, rest)
  match cs with
  | '*' :: rest => .ok (some (finish 0 none rest))
  | '+' :: rest => .ok (some (finish 1 none rest))
  | '?' :: rest => .ok (some (finish 0 (some 1) rest))
  | '\x7b' :: rest =>
    match interval? rest with
    | some (least, most, rest') =>
      match most with
      | some m =>
        if m < least then .error .repeatRangeOrder else .ok (some (finish least most rest'))
      | none => .ok (some (finish least most rest'))
    | none => .ok none
  | _ => .ok none

/-- Repeats an atom.  What matches the empty text only is taken once or not at all. -/
def quantified (q : Quantifier) (firstGroup groupCount : Nat) (atom : Pattern) :
    Except PatternError Pattern :=
  match atom with
  | .look true _ _ => .error .invalidQuantifier
  | _ =>
    if atom.onlyEmpty then .ok (if q.least = 0 then .empty else atom)
    else .ok (.many q.least q.most q.greedy firstGroup groupCount atom)

/-- The kinds of group. -/
inductive GroupKind where
  | capture (group : Nat)
  | plain
  | look (behind negated : Bool)

/-- The pattern of a group with the given body. -/
def GroupKind.wrap : GroupKind → Pattern → Pattern
  | .capture group, body => .capture group body
  | .plain, body => body
  | .look behind negated, body => .look behind negated body

/-- Reads what opens a group, behind its parenthesis. -/
def openGroup (st : Reading) (cs : List Char) :
    Except PatternError (GroupKind × List Char × Reading) :=
  match cs with
  | '?' :: ':' :: rest => .ok (.plain, rest, st)
  | '?' :: '=' :: rest => .ok (.look false false, rest, st)
  | '?' :: '!' :: rest => .ok (.look false true, rest, st)
  | '?' :: '<' :: '=' :: rest => .ok (.look true false, rest, st)
  | '?' :: '<' :: '!' :: rest => .ok (.look true true, rest, st)
  | '?' :: '<' :: rest =>
    match groupName? rest with
    | some (name, rest') =>
      if st.names.any fun entry => entry.1 == name then .error .duplicateGroupName
      else
        .ok (.capture (st.begun + 1), rest',
          { st with begun := st.begun + 1, names := st.names ++ [(name, st.begun + 1)] })
    | none => .error .invalidGroupName
  | '?' :: _ => .error .invalidGroup
  | rest => .ok (.capture (st.begun + 1), rest, { st with begun := st.begun + 1 })

/-- Groups that a group kind opens for references. -/
def GroupKind.opened : GroupKind → List Nat
  | .capture group => [group]
  | _ => []

/-- Reads alternatives up to the end of the text or the parenthesis that closes the group.  `terms`
holds the current alternative and `alts` the finished ones, both backwards; each step consumes a
unit, so as many steps as there are units suffice. -/
def alternatives (scan : GroupScan) :
    Nat → Bool → List Nat → Reading → List Pattern → List Pattern →
    List Char → Except PatternError (Pattern × List Char × Reading)
  | 0, _, _, _, _, _, _ => .error .unterminatedGroup
  | steps + 1, inGroup, opened, st, alts, terms, cs =>
    let whole : Pattern := choice (sequence terms.reverse :: alts).reverse
    let goOn (before : Nat) (atom : Pattern) (rest : List Char) (st' : Reading) :
        Except PatternError (Pattern × List Char × Reading) := do
      match ← quantifier? rest with
      | some (q, rest') =>
        let term ← quantified q (before + 1) (st'.begun - before) atom
        alternatives scan steps inGroup opened st' alts (term :: terms) rest'
      | none => alternatives scan steps inGroup opened st' alts (atom :: terms) rest
    match cs with
    | [] => if inGroup then .error .unterminatedGroup else .ok (whole, [], st)
    | ')' :: rest => if inGroup then .ok (whole, rest, st) else .error .unmatchedParenthesis
    | '|' :: rest =>
      alternatives scan steps inGroup opened st (sequence terms.reverse :: alts) [] rest
    | '*' :: _ => .error .nothingToRepeat
    | '+' :: _ => .error .nothingToRepeat
    | '?' :: _ => .error .nothingToRepeat
    | '^' :: rest => alternatives scan steps inGroup opened st alts (.atStart :: terms) rest
    | '$' :: rest => alternatives scan steps inGroup opened st alts (.atEnd :: terms) rest
    | '(' :: rest => do
      let (kind, rest', st') ← openGroup st rest
      let (body, rest'', st'') ←
        alternatives scan steps true (kind.opened ++ opened) st' [] [] rest'
      goOn st.begun (kind.wrap body) rest'' st''
    | '[' :: rest => do
      let (atom, rest') ← classOf rest
      goOn st.begun atom rest' st
    | '.' :: rest => goOn st.begun .dot rest st
    | ['\\'] => .error .escapeAtEnd
    | '\\' :: 'b' :: rest =>
      alternatives scan steps inGroup opened st alts (.boundary false :: terms) rest
    | '\\' :: 'B' :: rest =>
      alternatives scan steps inGroup opened st alts (.boundary true :: terms) rest
    | '\\' :: c :: rest => do
      let (atom, rest', st') ← atomEscape scan opened st c rest
      goOn st.begun atom rest' st'
    | '\x7b' :: rest =>
      if (interval? rest).isSome then .error .nothingToRepeat
      else goOn st.begun (.char 0x7b) rest st
    | c :: rest => goOn st.begun (.char (Text.unit c)) rest st

/-- Numbers of the groups that names refer to. -/
def resolveNames (names : List (String × Nat)) : List String → Except PatternError (List Nat)
  | [] => .ok []
  | name :: rest =>
    match names.find? fun entry => entry.1 == name with
    | some entry => (resolveNames names rest).map (entry.2 :: ·)
    | none => .error .unknownGroupName

/-- Puts the resolved numbers in place of references by name. -/
def fillNames (groups : Nat) (numbers : List Nat) : Pattern → Pattern
  | backref group =>
    if group ≤ groups then backref group else backref (numbers.getD (group - groups - 1) group)
  | capture group body => capture group (body.fillNames groups numbers)
  | look behind negated body => look behind negated (body.fillNames groups numbers)
  | seq first second => seq (first.fillNames groups numbers) (second.fillNames groups numbers)
  | alt first second => alt (first.fillNames groups numbers) (second.fillNames groups numbers)
  | many least most greedy firstGroup groupCount body =>
    many least most greedy firstGroup groupCount (body.fillNames groups numbers)
  | p => p

end Pattern

namespace SearchPattern

/-- Reads a search pattern. -/
def read (source : String) : Except PatternError SearchPattern := do
  let cs := source.toList
  let scan := Pattern.scanGroups false cs
  let (tree, _, st) ← Pattern.alternatives scan (cs.length + 1) false [] ⟨0, [], []⟩ [] [] cs
  let numbers ← Pattern.resolveNames st.names st.wanted
  pure ⟨tree.fillNames scan.count numbers, st.begun, st.names⟩

end SearchPattern
end WorkflowDag
