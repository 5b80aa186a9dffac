import Mathlib.Data.List.DropRight
import Mathlib.Algebra.Group.Nat.Even
import WorkflowDag.Properties

/-!
# The layouts of a property file

The same entries can be laid out in many ways: the separator is `=` or `:` with or without spaces,
lines end in a line feed with or without a carriage return, blank and comment lines stand in
between, and the line of an entry may be broken behind a backslash and indented where it goes on.
`Layout` says which texts lay out which entries, and all of them are read back (`read_of_layout`).

A broken line is put together again piece by piece.  What is carried along is the text joined so
far, which never ends in a backslash where the line is broken (`Wrapped.exists_continued`).
-/

namespace WorkflowDag

namespace Text

theorem trimStartUnits_append {blanks cs : List Char} (hBlanks : ∀ c ∈ blanks, isBlank c = true) :
    trimStartUnits (blanks ++ cs) = trimStartUnits cs :=
  List.dropWhile_append_of_pos hBlanks

theorem trimStartUnits_eq_self {cs : List Char} (hHead : ∀ c ∈ cs.head?, isBlank c = false) :
    trimStartUnits cs = cs := by
  cases cs with
  | nil => rfl
  | cons c cs => exact List.dropWhile_cons_of_neg (by simp [hHead c rfl])

theorem trimEndUnits_eq_self {cs : List Char} (hLast : ∀ c ∈ cs.getLast?, isBlank c = false) :
    trimEndUnits cs = cs := by
  induction cs with
  | nil => rfl
  | cons c cs ih =>
      cases cs with
      | nil => simp [trimEndUnits, hLast c rfl]
      | cons d ds =>
          rw [trimEndUnits, ih (by simpa using hLast)]

end Text

namespace Properties

/-! ### Layouts -/

/-- A unit that indents a line or stands beside a separator. -/
def isIndent (c : Char) : Bool :=
  c == ' ' || c == '\t'

/-- The units that end a line. -/
inductive LineEnd : List Char → Prop
  | feed : LineEnd ['\n']
  | returnFeed : LineEnd ['\r', '\n']

/-- What stands between a line and the text behind it: a line end, or nothing where the file
ends. -/
inductive Ends : List Char → List Char → Prop
  | line {lineEnd behind : List Char} (hEnd : LineEnd lineEnd) : Ends lineEnd behind
  | file : Ends [] []

/-- A blank line, or a comment behind any blanks. -/
inductive Filler : List Char → Prop
  | blank {blanks : List Char} (hBlanks : ∀ c ∈ blanks, Text.isBlank c = true ∧ c ≠ '\n') :
      Filler blanks
  | comment {blanks text : List Char} {mark : Char}
      (hBlanks : ∀ c ∈ blanks, Text.isBlank c = true ∧ c ≠ '\n') (hMark : mark = '#' ∨ mark = '!')
      (hText : '\n' ∉ text) : Filler (blanks ++ mark :: text)

/-- An equals sign or a colon, with any spaces around it. -/
inductive Separator : List Char → Prop
  | mk {left right : List Char} {mark : Char} (hLeft : ∀ c ∈ left, isIndent c = true)
      (hMark : mark = '=' ∨ mark = ':') (hRight : ∀ c ∈ right, isIndent c = true) :
      Separator (left ++ mark :: right)

/-- An entry that can be written on a line. -/
structure Fits (key value : List Char) : Prop where
  key_ne_nil : key ≠ []
  key_units : ∀ c ∈ key, Text.isBlank c = false ∧ c ≠ '=' ∧ c ≠ ':'
  key_head : key.head? ≠ some '#' ∧ key.head? ≠ some '!'
  value_units : '\n' ∉ value
  value_head : ∀ c ∈ value.head?, Text.isBlank c = false
  value_last : ∀ c ∈ value.getLast?, Text.isBlank c = false
  value_backslashes : Even (value.rtakeWhile (· == '\\')).length

/-- A line as it is written: broken at any points by a backslash, a line end and an indent.  The
text in front of a break does not end in a backslash, and the text behind it does not start with a
blank.  Breaks may stand next to each other, at the start of the line and at its end. -/
inductive Wrapped : List Char → List Char → Prop
  | whole (line : List Char) : Wrapped line line
  | broken {before after written lineEnd indent : List Char}
      (hBefore : before.getLast? ≠ some '\\') (hAfter : ∀ c ∈ after.head?, Text.isBlank c = false)
      (hEnd : LineEnd lineEnd) (hIndent : ∀ c ∈ indent, isIndent c = true)
      (hWritten : Wrapped after written) :
      Wrapped (before ++ after) (before ++ '\\' :: (lineEnd ++ (indent ++ written)))

/-- The text lays out the entries in order, each on a line of its own. -/
inductive Layout : List (String × String) → List Char → Prop
  | empty : Layout [] []
  | filler {entries : List (String × String)} {line lineEnd text : List Char}
      (hFiller : Filler line) (hEnds : Ends lineEnd text) (hLayout : Layout entries text) :
      Layout entries (line ++ (lineEnd ++ text))
  | entry {entries : List (String × String)} {key value : String}
      {sep written lineEnd text : List Char} (hFits : Fits key.toList value.toList)
      (hSep : Separator sep) (hWritten : Wrapped (key.toList ++ (sep ++ value.toList)) written)
      (hEnds : Ends lineEnd text) (hLayout : Layout entries text) :
      Layout ((key, value) :: entries) (written ++ (lineEnd ++ text))

/-! ### Physical lines -/

theorem isBlank_of_isIndent {c : Char} (hIndent : isIndent c = true) : Text.isBlank c = true := by
  rw [isIndent, Bool.or_eq_true, beq_iff_eq, beq_iff_eq] at hIndent
  rcases hIndent with rfl | rfl
  · decide
  · decide

theorem ne_of_isIndent {c d : Char} (hIndent : isIndent c = true) (hOther : isIndent d = false) :
    c ≠ d := by
  rintro rfl
  exact Bool.noConfusion (hIndent.symm.trans hOther)

theorem lines_append {line text first : List Char} {rest : List (List Char)}
    (hFeed : '\n' ∉ line) (hReturn : line.getLast? = some '\r' → text.head? ≠ some '\n')
    (hText : lines text = first :: rest) : lines (line ++ text) = (line ++ first) :: rest := by
  induction line with
  | nil => exact hText
  | cons c line ih =>
      obtain ⟨hUnit, hUnits⟩ := not_or.mp (List.mem_cons.not.mp hFeed)
      have hBehind : lines (line ++ text) = (line ++ first) :: rest := by
        refine ih hUnits fun hLast => hReturn ?_
        rw [List.getLast?_cons, hLast, Option.getD_some]
      rw [List.cons_append, lines.eq_4 c (line ++ text) (fun h => hUnit h.symm), hBehind]
      · rfl
      · -- No carriage return of the line stands before a line feed.
        rintro cs rfl hCut
        cases line with
        | nil => exact hReturn rfl (by rw [show text = '\n' :: cs from hCut]; rfl)
        | cons d line => exact hUnits (List.head_eq_of_cons_eq hCut ▸ List.mem_cons_self)

theorem LineEnd.lines_append {lineEnd text : List Char} (hEnd : LineEnd lineEnd) :
    lines (lineEnd ++ text) = [] :: lines text := by
  cases hEnd with
  | feed => exact lines.eq_2 text
  | returnFeed => exact lines.eq_3 text

theorem logicalLines_cons_comment {line : List Char} {rest : List (List Char)}
    (hComment : isComment (Text.trimStartUnits line) = true) :
    logicalLines (line :: rest) = logicalLines rest := by
  rw [logicalLines, if_pos hComment]

/-- Behind the end of a line come the entries of the text behind it. -/
theorem Ends.exists_lines {lineEnd text : List Char} (hEnds : Ends lineEnd text) :
    ∃ following, lines (lineEnd ++ text) = [] :: following ∧
      logicalLines following = logicalLines (lines text) := by
  cases hEnds with
  | line hEnd => exact ⟨lines text, hEnd.lines_append, rfl⟩
  | file => exact ⟨[], rfl, (logicalLines_cons_comment rfl).symm⟩

/-! ### Lines without an entry -/

theorem Filler.notMem {line : List Char} (hFiller : Filler line) : '\n' ∉ line := by
  cases hFiller with
  | blank hBlanks => exact fun hMem => (hBlanks _ hMem).2 rfl
  | comment hBlanks hMark hText =>
      rw [List.mem_append, List.mem_cons]
      rintro (hMem | rfl | hMem)
      · exact (hBlanks _ hMem).2 rfl
      · revert hMark
        decide
      · exact hText hMem

theorem Filler.isComment {line : List Char} (hFiller : Filler line) :
    Properties.isComment (Text.trimStartUnits line) = true := by
  cases hFiller with
  | blank hBlanks =>
      rw [← List.append_nil line, Text.trimStartUnits_append fun c hMem => (hBlanks c hMem).1]
      rfl
  | comment hBlanks hMark hText =>
      rw [Text.trimStartUnits_append fun c hMem => (hBlanks c hMem).1]
      rcases hMark with rfl | rfl
      · rfl
      · rfl

theorem Filler.dropLast {line : List Char} (hFiller : Filler line) : Filler line.dropLast := by
  cases hFiller with
  | blank hBlanks => exact .blank fun c hMem => hBlanks c (List.dropLast_subset _ hMem)
  | @comment blanks text mark hBlanks hMark hText =>
      rw [List.dropLast_append_of_ne_nil (List.cons_ne_nil _ _)]
      cases text with
      | nil => simpa using Filler.blank hBlanks
      | cons c text =>
          exact .comment hBlanks hMark fun hMem => hText (List.dropLast_subset _ hMem)

/-- A line without an entry is passed over. -/
theorem Filler.logicalLines_append {line lineEnd text : List Char} (hFiller : Filler line)
    (hEnds : Ends lineEnd text) :
    logicalLines (lines (line ++ (lineEnd ++ text))) = logicalLines (lines text) := by
  obtain ⟨following, hLines, hFollowing⟩ := hEnds.exists_lines
  by_cases hReturn : line.getLast? = some '\r' ∧ (lineEnd ++ text).head? = some '\n'
  · -- The carriage return that ends the line belongs to the line end.
    obtain ⟨hLast, hHead⟩ := hReturn
    obtain ⟨front, rfl⟩ := List.getLast?_eq_some_iff.mp hLast
    obtain ⟨behind, hBehind⟩ := List.head?_eq_some_iff.mp hHead
    have hFront : Filler front := by simpa using hFiller.dropLast
    rw [hBehind, lines.eq_2] at hLines
    have hCut : lines (front ++ '\r' :: '\n' :: behind) = front :: lines behind := by
      simpa using lines_append hFront.notMem (fun _ => by simp) (lines.eq_3 behind)
    rw [hBehind, List.append_assoc, List.singleton_append, hCut,
      logicalLines_cons_comment hFront.isComment, (List.cons.inj hLines).2, hFollowing]
  · rw [lines_append hFiller.notMem (fun hLast hHead => hReturn ⟨hLast, hHead⟩) hLines,
      List.append_nil, logicalLines_cons_comment hFiller.isComment, hFollowing]

/-! ### Lines that go on -/

/-- Backslashes at the end of a line are counted no further than to the first other unit. -/
theorem trailingBackslashes_append {front line : List Char} (hFront : front.getLast? ≠ some '\\') :
    trailingBackslashes (front ++ line) = trailingBackslashes line := by
  have hNone : front.reverse.takeWhile (fun c => c == '\\') = [] := by
    rcases front.eq_nil_or_concat with rfl | ⟨front, c, rfl⟩
    · rfl
    · rw [List.concat_eq_append, List.reverse_concat, List.takeWhile_cons_of_neg]
      simpa using hFront
  rw [trailingBackslashes, trailingBackslashes, List.reverse_append, List.takeWhile_append, hNone]
  split
  next hAll => rw [List.append_nil, hAll]
  next => rfl

theorem goesOn_append {front line : List Char} (hFront : front.getLast? ≠ some '\\') :
    goesOn (front ++ line) = goesOn line := by
  rw [goesOn, goesOn, trailingBackslashes_append hFront]

theorem continued_of_not_goesOn {line : List Char} (hLine : goesOn line = false)
    (rest : List (List Char)) : continued line rest = (line, rest) := by
  cases rest with
  | nil => rfl
  | cons next rest => rw [continued, if_neg (by rw [hLine]; exact Bool.false_ne_true)]

/-- A line broken behind a backslash is joined with the next one. -/
theorem continued_break {line next : List Char} {rest : List (List Char)}
    (hLine : line.getLast? ≠ some '\\') :
    continued (line ++ ['\\']) (next :: rest) =
      continued (line ++ Text.trimStartUnits next) rest := by
  rw [continued, if_pos ((goesOn_append hLine).trans (by decide)), List.dropLast_concat]

theorem getLast?_append_ne {front line : List Char} {c : Char} (hFront : front.getLast? ≠ some c)
    (hLine : line.getLast? ≠ some c) : (front ++ line).getLast? ≠ some c := by
  rw [List.getLast?_append, ne_eq, Option.or_eq_some_iff]
  rintro (hLast | ⟨-, hLast⟩)
  · exact hLine hLast
  · exact hFront hLast

theorem lines_indent_append {indent text first : List Char} {rest : List (List Char)}
    (hIndent : ∀ c ∈ indent, isIndent c = true) (hText : lines text = first :: rest) :
    lines (indent ++ text) = (indent ++ first) :: rest := by
  have hOther {c : Char} (hUnit : isIndent c = false) : c ∉ indent :=
    fun hMem => ne_of_isIndent (hIndent c hMem) hUnit rfl
  refine lines_append (hOther (by decide)) (fun hLast => ?_) hText
  exact absurd (List.mem_of_getLast? hLast) (hOther (by decide))

/-- Only the indent goes where a line goes on: the next piece of the line starts with a unit of the
line or is broken at once. -/
theorem trimStartUnits_indent_append {indent first line : List Char}
    (hIndent : ∀ c ∈ indent, isIndent c = true) (hLine : ∀ c ∈ line.head?, Text.isBlank c = false)
    (hHead : first.head? = line.head? ∨ first.head? = some '\\') :
    Text.trimStartUnits (indent ++ first) = first := by
  rw [Text.trimStartUnits_append fun c hMem => isBlank_of_isIndent (hIndent c hMem)]
  refine Text.trimStartUnits_eq_self fun c hMem => ?_
  rcases hHead with hHead | hHead
  · exact hLine c (hHead ▸ hMem)
  · rw [hHead, Option.mem_some_iff] at hMem
    exact hMem ▸ by decide

/-- A broken line is joined again, whatever text has been joined before it. -/
theorem Wrapped.exists_continued {line written text : List Char} {following : List (List Char)}
    (hWrapped : Wrapped line written) (hFeed : '\n' ∉ line) (hReturn : line.getLast? ≠ some '\r')
    (hText : lines text = [] :: following) :
    ∃ first more, lines (written ++ text) = first :: (more ++ following) ∧
      (first.head? = line.head? ∨ first.head? = some '\\') ∧
      ∀ joined : List Char, joined.getLast? ≠ some '\\' → goesOn (joined ++ line) = false →
        continued (joined ++ first) (more ++ following) = (joined ++ line, following) := by
  induction hWrapped with
  | whole line =>
      refine ⟨line, [], ?_, .inl rfl, fun joined _ hEven => continued_of_not_goesOn hEven _⟩
      rw [lines_append hFeed (fun hLast => absurd hLast hReturn) hText, List.append_nil,
        List.nil_append]
  | @broken before after written lineEnd indent hBefore hAfter hEnd hIndent _ ih =>
      rw [List.mem_append, not_or] at hFeed
      have hLast : after.getLast? ≠ some '\r' := by
        intro hLast
        exact hReturn (by rw [List.getLast?_append, hLast, Option.some_or])
      obtain ⟨first, more, hLines, hHead, hJoin⟩ := ih hFeed.2 hLast
      refine ⟨before ++ ['\\'], (indent ++ first) :: more, ?_, ?_, ?_⟩
      · have hWritten : before ++ '\\' :: (lineEnd ++ (indent ++ written)) ++ text =
            (before ++ ['\\']) ++ (lineEnd ++ (indent ++ (written ++ text))) := by simp
        rw [hWritten, lines_append (by simp [hFeed.1]) (by simp) hEnd.lines_append,
          lines_indent_append hIndent hLines, List.append_nil, List.cons_append]
      · cases before with
        | nil => exact .inr rfl
        | cons c before => exact .inl rfl
      · intro joined hJoined hEven
        rw [← List.append_assoc] at hEven ⊢
        rw [List.cons_append, continued_break (getLast?_append_ne hJoined hBefore),
          trimStartUnits_indent_append hIndent hAfter hHead, ← List.append_assoc]
        exact hJoin (joined ++ before) (getLast?_append_ne hJoined hBefore) hEven

/-! ### Entries -/

theorem Separator.ne_nil {sep : List Char} (hSep : Separator sep) : sep ≠ [] := by
  obtain ⟨-, -, -⟩ := hSep
  exact List.append_ne_nil_of_right_ne_nil _ (List.cons_ne_nil _ _)

theorem Separator.units {sep : List Char} (hSep : Separator sep) :
    ∀ c ∈ sep, isIndent c = true ∨ c = '=' ∨ c = ':' := by
  obtain ⟨hLeft, hMark, hRight⟩ := hSep
  intro c hMem
  rw [List.mem_append, List.mem_cons] at hMem
  rcases hMem with hMem | rfl | hMem
  · exact .inl (hLeft c hMem)
  · exact .inr hMark
  · exact .inl (hRight c hMem)

theorem Separator.notMem {sep : List Char} (hSep : Separator sep) {c : Char}
    (hIndent : isIndent c = false) (hEquals : c ≠ '=') (hColon : c ≠ ':') : c ∉ sep := by
  intro hMem
  rcases hSep.units c hMem with hUnit | hUnit | hUnit
  · exact ne_of_isIndent hUnit hIndent rfl
  · exact hEquals hUnit
  · exact hColon hUnit

theorem Separator.getLast?_append_ne {sep : List Char} (hSep : Separator sep) (key : List Char)
    {c : Char} (hOther : c ∉ sep) : (key ++ sep).getLast? ≠ some c := by
  rw [List.getLast?_append_of_ne_nil _ hSep.ne_nil]
  exact fun hLast => hOther (List.mem_of_getLast? hLast)

theorem Separator.isSeparator {sep : List Char} (hSep : Separator sep) :
    ∀ c ∈ sep, Properties.isSeparator c = true := by
  intro c hMem
  rcases hSep.units c hMem with hUnit | rfl | rfl
  · rw [Properties.isSeparator, isBlank_of_isIndent hUnit, Bool.or_true]
  · rfl
  · rfl

/-- The separator goes with the blanks around it, and the value is left. -/
theorem Separator.dropSeparator_append {sep value : List Char} (hSep : Separator sep)
    (hHead : ∀ c ∈ value.head?, Text.isBlank c = false) : dropSeparator (sep ++ value) = value := by
  obtain @⟨left, right, mark, hLeft, hMark, hRight⟩ := hSep
  have hStart : Text.trimStartUnits (left ++ mark :: right ++ value) =
      mark :: (right ++ value) := by
    rw [List.append_assoc,
      Text.trimStartUnits_append fun c hMem => isBlank_of_isIndent (hLeft c hMem)]
    refine Text.trimStartUnits_eq_self fun c hMem => ?_
    obtain rfl : mark = c := Option.some.inj hMem
    rcases hMark with rfl | rfl
    · decide
    · decide
  have hValue : Text.trimStartUnits (right ++ value) = value := by
    rw [Text.trimStartUnits_append fun c hMem => isBlank_of_isIndent (hRight c hMem)]
    exact Text.trimStartUnits_eq_self hHead
  rw [dropSeparator, hStart]
  rcases hMark with rfl | rfl
  · exact hValue
  · exact hValue

namespace Fits

variable {key value sep : List Char}

theorem not_isSeparator (hFits : Fits key value) : ∀ c ∈ key, (!isSeparator c) = true := by
  intro c hMem
  obtain ⟨hBlank, hEquals, hColon⟩ := hFits.key_units c hMem
  simp [isSeparator, hBlank, hEquals, hColon]

theorem entryOf_append (hFits : Fits key value) (hSep : Separator sep) :
    entryOf (key ++ (sep ++ value)) = (String.ofList key, String.ofList value) := by
  have hCut : (sep ++ value).takeWhile (fun c => !isSeparator c) = [] ∧
      (sep ++ value).dropWhile (fun c => !isSeparator c) = sep ++ value := by
    obtain ⟨c, rest, rfl⟩ := List.exists_cons_of_ne_nil hSep.ne_nil
    simp [hSep.isSeparator c List.mem_cons_self]
  rw [entryOf, List.takeWhile_append_of_pos hFits.not_isSeparator,
    List.dropWhile_append_of_pos hFits.not_isSeparator, hCut.1, hCut.2, List.append_nil,
    hSep.dropSeparator_append hFits.value_head, Text.trimEndUnits_eq_self hFits.value_last]

theorem notMem (hFits : Fits key value) (hSep : Separator sep) : '\n' ∉ key ++ (sep ++ value) := by
  rw [List.mem_append, List.mem_append]
  rintro (hMem | hMem | hMem)
  · exact Bool.noConfusion (hFits.key_units _ hMem).1
  · exact hSep.notMem (by decide) (by decide) (by decide) hMem
  · exact hFits.value_units hMem

theorem getLast?_ne_return (hFits : Fits key value) (hSep : Separator sep) :
    (key ++ (sep ++ value)).getLast? ≠ some '\r' := by
  rw [← List.append_assoc]
  refine getLast?_append_ne (hSep.getLast?_append_ne key ?_) fun hLast => ?_
  · exact hSep.notMem (by decide) (by decide) (by decide)
  · exact Bool.noConfusion (hFits.value_last _ hLast)

/-- The line of an entry ends in the backslashes of the value, so nothing continues it. -/
theorem not_goesOn (hFits : Fits key value) (hSep : Separator sep) :
    goesOn (key ++ (sep ++ value)) = false := by
  have hFront : (key ++ sep).getLast? ≠ some '\\' :=
    hSep.getLast?_append_ne key (hSep.notMem (by decide) (by decide) (by decide))
  have hCount : trailingBackslashes value = (value.rtakeWhile (· == '\\')).length :=
    List.length_reverse.symm
  rw [← List.append_assoc, goesOn_append hFront, goesOn, hCount,
    Nat.even_iff.mp hFits.value_backslashes]
  rfl

/-- An entry is read from its line however the line is broken. -/
theorem logicalLines_append {written lineEnd text : List Char} (hFits : Fits key value)
    (hSep : Separator sep) (hWritten : Wrapped (key ++ (sep ++ value)) written)
    (hEnds : Ends lineEnd text) :
    logicalLines (lines (written ++ (lineEnd ++ text))) =
      (key ++ (sep ++ value)) :: logicalLines (lines text) := by
  obtain ⟨following, hEnd, hFollowing⟩ := hEnds.exists_lines
  obtain ⟨first, more, hLines, hHead, hJoin⟩ := hWritten.exists_continued (hFits.notMem hSep)
    (hFits.getLast?_ne_return hSep) hEnd
  -- The line starts with the key, or it is broken before the key.
  obtain ⟨c, hFirst, hBlank, hComment⟩ : ∃ c, first.head? = some c ∧ Text.isBlank c = false ∧
      (c == '#' || c == '!') = false := by
    rcases hHead with hHead | hHead
    · obtain ⟨c, rest, rfl⟩ := List.exists_cons_of_ne_nil hFits.key_ne_nil
      refine ⟨c, hHead, (hFits.key_units c List.mem_cons_self).1, ?_⟩
      simpa using hFits.key_head
    · exact ⟨'\\', hHead, by decide, by decide⟩
  obtain ⟨rest, rfl⟩ := List.head?_eq_some_iff.mp hFirst
  have hTrim : Text.trimStartUnits (c :: rest) = c :: rest :=
    Text.trimStartUnits_eq_self fun d hMem => Option.some.inj hMem ▸ hBlank
  have hJoined : continued (c :: rest) (more ++ following) = (key ++ (sep ++ value), following) :=
    hJoin [] nofun (hFits.not_goesOn hSep)
  rw [hLines, logicalLines, hTrim, isComment, hComment, hJoined, hFollowing]
  rfl

end Fits

/-- Whatever way the entries are laid out, reading gives them back in order. -/
theorem read_of_layout {entries : List (String × String)} {text : String}
    (hLayout : Layout entries text.toList) : read text = entries := by
  rw [read]
  generalize text.toList = units at hLayout
  induction hLayout with
  | empty => rw [lines, logicalLines_cons_comment rfl, logicalLines, List.map_nil]
  | filler hFiller hEnds _ ih => rw [hFiller.logicalLines_append hEnds, ih]
  | entry hFits hSep hWritten hEnds _ ih =>
      rw [hFits.logicalLines_append hSep hWritten hEnds, List.map_cons, ih,
        hFits.entryOf_append hSep, String.ofList_toList, String.ofList_toList]

/-- A comment that ends in a backslash, a line broken before its key, within it and within its
value, and a value that starts like a comment. -/
def brokenLines : String :=
  "# two \\\r\n \t\n\\\n  na\\\r\n\tme=a=\\\nb\\\\\r\npath : \\\n#x"

def brokenEntries : List (String × String) :=
  [("name", "a=b\\\\"), ("path", "#x")]

theorem wrapped_brokenName :
    Wrapped ("name".toList ++ (['='] ++ "a=b\\\\".toList))
      "\\\n  na\\\r\n\tme=a=\\\nb\\\\".toList := by
  have hLine : "name".toList ++ (['='] ++ "a=b\\\\".toList) =
      [] ++ (['n', 'a'] ++ (['m', 'e', '=', 'a', '='] ++ ['b', '\\', '\\'])) := by decide +kernel
  have hWritten : "\\\n  na\\\r\n\tme=a=\\\nb\\\\".toList =
      [] ++ '\\' :: (['\n'] ++ ([' ', ' '] ++
        (['n', 'a'] ++ '\\' :: (['\r', '\n'] ++ (['\t'] ++
          (['m', 'e', '=', 'a', '='] ++ '\\' :: (['\n'] ++ ([] ++ ['b', '\\', '\\'])))))))) := by
    decide +kernel
  rw [hLine, hWritten]
  refine .broken nofun (by simp [Text.isBlank]) .feed (by simp [isIndent]) ?_
  refine .broken (by decide) (by simp [Text.isBlank]) .returnFeed (by simp [isIndent]) ?_
  exact .broken (by decide) (by simp [Text.isBlank]) .feed nofun (.whole _)

theorem wrapped_brokenPath :
    Wrapped ("path".toList ++ ([' ', ':', ' '] ++ "#x".toList)) "path : \\\n#x".toList := by
  have hLine : "path".toList ++ ([' ', ':', ' '] ++ "#x".toList) =
      ['p', 'a', 't', 'h', ' ', ':', ' '] ++ ['#', 'x'] := by decide +kernel
  have hWritten : "path : \\\n#x".toList =
      ['p', 'a', 't', 'h', ' ', ':', ' '] ++ '\\' :: (['\n'] ++ ([] ++ ['#', 'x'])) := by
    decide +kernel
  rw [hLine, hWritten]
  exact .broken (by decide) (by simp [Text.isBlank]) .feed nofun (.whole _)

theorem layout_brokenLines : Layout brokenEntries brokenLines.toList := by
  have hText : brokenLines.toList =
      ([] ++ '#' :: [' ', 't', 'w', 'o', ' ', '\\']) ++ (['\r', '\n'] ++ ([' ', '\t'] ++ (['\n'] ++
        ("\\\n  na\\\r\n\tme=a=\\\nb\\\\".toList ++ (['\r', '\n'] ++
          ("path : \\\n#x".toList ++ ([] ++ []))))))) := by decide +kernel
  rw [hText]
  refine .filler (.comment nofun (.inl rfl) (by decide)) (.line .returnFeed) ?_
  refine .filler (.blank (by simp [Text.isBlank])) (.line .feed) ?_
  refine .entry ?_ (@Separator.mk [] [] '=' nofun (.inl rfl) nofun) wrapped_brokenName
    (.line .returnFeed) ?_
  · exact ⟨by simp, by simp [Text.isBlank], by simp, by simp, by simp [Text.isBlank],
      by simp [Text.isBlank], by decide +kernel⟩
  refine .entry ?_
    (@Separator.mk [' '] [' '] ':' (by simp [isIndent]) (.inr rfl) (by simp [isIndent]))
    wrapped_brokenPath .file .empty
  · exact ⟨by simp, by simp [Text.isBlank], by simp, by simp, by simp [Text.isBlank],
      by simp [Text.isBlank], by decide +kernel⟩

theorem read_of_layout_brokenLines :
    Layout brokenEntries brokenLines.toList ∧ read brokenLines = brokenEntries :=
  ⟨layout_brokenLines, read_of_layout layout_brokenLines⟩

end Properties
end WorkflowDag
