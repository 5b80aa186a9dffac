import WorkflowDag.Proofs.LiteralDenotation

/-!
# What dictionaries denote

A dictionary between braces is read from its tokens (`Python.dict?`).  The entries of a record are
written one on a line (`join_dict`), each is read as the code points of its name and its text
(`tokens?_entry`), and so the dictionary is read as the record (`denotes_dict`).

Main statement: `literals_denote`.
-/

namespace WorkflowDag

namespace Python

/-- The entries up to the brace that closes a dictionary; a comma may stand behind the last. -/
def entries? : List Token → Option (List (List Nat × List Nat))
  | [.mark '\x7d'] => some []
  | [.literal key, .mark ':', .literal value, .mark '\x7d'] => some [(key, value)]
  | .literal key :: .mark ':' :: .literal value :: .mark ',' :: rest =>
    (entries? rest).map ((key, value) :: ·)
  | _ => none

/-- The entries of a dictionary, in the order in which they are written. -/
def dict? (names : Names) (text : String) : Option (List (List Nat × List Nat)) :=
  (tokens? names 0 text.toList).bind fun tokens =>
    match tokens with
    | .mark '\x7b' :: rest => entries? rest
    | _ => none

end Python

/-- No name of the record is repeated, and names and texts are in unit form. -/
structure Record.WellFormed (r : Record) : Prop where
  distinct : r.names.Nodup
  forms : ∀ entry ∈ r.entries, Text.UnitForm entry.1 ∧ Text.UnitForm entry.2

theorem Record.WellFormed.get? {r : Record} (hRecord : r.WellFormed) {name text : String}
    (hText : r.get? name = some text) : Text.UnitForm name ∧ Text.UnitForm text :=
  hRecord.forms _ ((Record.mem_entries_iff hRecord.distinct).mpr hText)

namespace Literal

/-- How an entry is written, given the code points of its name and its text. -/
def writeEntry (indent : String) (entry : List Nat × List Nat) : List Char :=
  (indent ++ indentation).toList ++
    (writePoints entry.1 ++ ([':', ' '] ++ (writePoints entry.2 ++ [','])))

/-- The lines of entries and of the brace that closes a dictionary. -/
def writeEntries (indent : String) (entries : List (List Nat × List Nat)) : List String :=
  (entries.map fun entry => String.ofList (writeEntry indent entry)) ++ [indent ++ "\x7d"]

/-- The code points of the names and texts of a record, with names in ascending order. -/
def pointEntries (r : Record) : List (List Nat × List Nat) :=
  r.sortedNames.map fun name => (Text.points name, Text.points ((r.get? name).getD ""))

/-- The text is made of spaces. -/
def Spaces (indent : String) : Prop :=
  ∀ c ∈ indent.toList, c = ' '

instance (indent : String) : Decidable (Spaces indent) :=
  List.decidableBAll (fun c => c = ' ') indent.toList

section Lines

variable {indent : String} {r : Record}

theorem spaces_append (hIndent : Spaces indent) : Spaces (indent ++ indentation) := by
  have hStep : Spaces indentation := by decide
  intro c hMem
  rw [String.toList_append, List.mem_append] at hMem
  exact hMem.elim (hIndent c) (hStep c)

theorem isWhole_of_spaces (hIndent : Spaces indent) :
    ∀ c ∈ indent.toList, Text.isWhole c = true := by
  intro c hMem
  rw [hIndent c hMem]
  decide

/-- A line of a dictionary is an entry in code points. -/
theorem join_entryLine (hIndent : Spaces indent) (hRecord : r.WellFormed) {name : String}
    (hName : name ∈ r.names) :
    Text.join (entryLine indent r name) = String.ofList (writeEntry indent
      (Text.points name, Text.points ((r.get? name).getD ""))) := by
  obtain ⟨text, hText⟩ := Record.mem_names_iff.mp hName
  have hUnits : (entryLine indent r name).toList = (indent ++ indentation).toList ++
      ((quote name).toList ++ ([':', ' '] ++ ((quote text).toList ++ [',']))) := by
    simp [entryLine, hText]
  have hMarks : ∀ c ∈ [':', ' '], Text.isWhole c = true := List.all_eq_true.mp rfl
  rw [Text.join, hUnits, Text.joinUnits_append (isWhole_of_spaces (spaces_append hIndent)),
    joinUnits_quote (hRecord.get? hText).1, Text.joinUnits_append hMarks,
    joinUnits_quote (hRecord.get? hText).2, hText]
  rfl

/-- The dictionary of a record with entries is written a line at a time. -/
theorem join_dict (hIndent : Spaces indent) (hRecord : r.WellFormed) (hSome : r.size ≠ 0) :
    Text.join (dict indent r) =
      Text.joinWith "\n" ("\x7b" :: writeEntries indent (pointEntries r)) := by
  have hOpen : Text.join "\x7b" = "\x7b" := Text.join_of_whole (Text.forall_units rfl)
  have hClose : Text.join (indent ++ "\x7d") = indent ++ "\x7d" := by
    have hBrace : ∀ c ∈ "\x7d".toList, Text.isWhole c = true := Text.forall_units rfl
    refine Text.join_of_whole fun c hMem => ?_
    rw [String.toList_append, List.mem_append] at hMem
    exact hMem.elim (isWhole_of_spaces hIndent c) (hBrace c)
  have hLines : (r.sortedNames.map (entryLine indent r)).map Text.join =
      (pointEntries r).map fun entry => String.ofList (writeEntry indent entry) := by
    rw [List.map_map, pointEntries, List.map_map]
    exact List.map_congr_left fun name hMem =>
      join_entryLine hIndent hRecord (Record.mem_sortedNames_iff.mp hMem)
  rw [dict, if_neg hSome, List.cons_append, Text.join_joinWith, List.map_cons, List.map_append,
    hOpen, hLines, List.map_singleton, hClose]
  rfl

end Lines
end Literal

namespace Python

open Literal (Spaces writePoints writeEntry writeEntries)

variable (names : Names) {indent : String}

/-- The tokens of an entry and the comma behind it. -/
def entryTokens (entry : List Nat × List Nat) : List Token :=
  [.literal entry.1, .mark ':', .literal entry.2, .mark ',']

/-- Names and texts of the entries are made of code points. -/
def Pointed (entries : List (List Nat × List Nat)) : Prop :=
  ∀ entry ∈ entries, (∀ n ∈ entry.1, n < 0x110000) ∧ ∀ n ∈ entry.2, n < 0x110000

theorem isBlank_of_spaces (hIndent : Spaces indent) : ∀ c ∈ indent.toList, isBlank c = true := by
  intro c hMem
  rw [hIndent c hMem]
  decide

theorem tokens?_entry (hIndent : Spaces indent) {entry : List Nat × List Nat}
    (hKey : ∀ n ∈ entry.1, n < 0x110000) (hValue : ∀ n ∈ entry.2, n < 0x110000)
    (rest : List Char) : tokens? names 0 (writeEntry indent entry ++ rest) =
      (tokens? names 0 rest).map (entryTokens entry ++ ·) := by
  have hBlank : ∀ c ∈ [' '], isBlank c = true := List.all_eq_true.mp rfl
  have hKeyNext : ([':', ' '] ++ (writePoints entry.2 ++ (',' :: rest))).head? ≠ some '\x22' := by
    simp
  have hColon (behind : List Char) : tokens? names 0 ([':', ' '] ++ behind) =
      (tokens? names 0 behind).map (Token.mark ':' :: ·) := by
    rw [List.cons_append, tokens?_mark names _ rfl, tokens?_blanks names behind hBlank]
  have hUnits : writeEntry indent entry ++ rest = (indent ++ Literal.indentation).toList ++
      (writePoints entry.1 ++ ([':', ' '] ++ (writePoints entry.2 ++ (',' :: rest)))) := by
    simp [writeEntry]
  rw [hUnits, tokens?_blanks names _ (isBlank_of_spaces (Literal.spaces_append hIndent)),
    tokens?_writePoints names _ hKey hKeyNext, hColon,
    tokens?_writePoints names _ hValue (by simp), tokens?_mark names rest rfl]
  simp only [Option.map_map]
  rfl

theorem tokens?_writeEntries (hIndent : Spaces indent) (entries : List (List Nat × List Nat))
    (hPointed : Pointed entries) :
    tokens? names 0 (Text.joinWith "\n" (writeEntries indent entries)).toList =
      some (entries.flatMap entryTokens ++ [.mark '\x7d']) := by
  induction entries with
  | nil =>
      have hUnits : (Text.joinWith "\n" (writeEntries indent [])).toList =
          indent.toList ++ ['\x7d'] := by
        simp [writeEntries, Text.joinWith]
      rw [hUnits, tokens?_blanks names _ (isBlank_of_spaces hIndent)]
      rfl
  | cons entry entries ih =>
      obtain ⟨⟨hKey, hValue⟩, hRest⟩ := List.forall_mem_cons.mp hPointed
      have hBlank : ∀ c ∈ ['\n'], isBlank c = true := List.all_eq_true.mp rfl
      have hUnits : (Text.joinWith "\n" (writeEntries indent (entry :: entries))).toList =
          writeEntry indent entry ++ (['\n'] ++
            (Text.joinWith "\n" (writeEntries indent entries)).toList) := by
        rw [writeEntries, List.map_cons, List.cons_append,
          Text.toList_joinWith _ (by simp), String.toList_ofList]
        rfl
      rw [hUnits, tokens?_entry names hIndent hKey hValue, tokens?_blanks names _ hBlank, ih hRest]
      rfl

theorem entries?_tokens (entries : List (List Nat × List Nat)) :
    entries? (entries.flatMap entryTokens ++ [.mark '\x7d']) = some entries := by
  induction entries with
  | nil => rfl
  | cons entry entries ih =>
      rw [List.flatMap_cons, List.append_assoc]
      exact congrArg (Option.map _) ih

/-- What is written for entries is read as these entries. -/
theorem dict?_writeEntries (hIndent : Spaces indent) {entries : List (List Nat × List Nat)}
    (hPointed : Pointed entries) :
    dict? names (Text.joinWith "\n" ("\x7b" :: writeEntries indent entries)) = some entries := by
  have hUnits : (Text.joinWith "\n" ("\x7b" :: writeEntries indent entries)).toList =
      '\x7b' :: (['\n'] ++ (Text.joinWith "\n" (writeEntries indent entries)).toList) :=
    Text.toList_joinWith _ (by simp [writeEntries])
  have hBlank : ∀ c ∈ ['\n'], isBlank c = true := List.all_eq_true.mp rfl
  rw [dict?, hUnits, tokens?_mark names _ rfl, tokens?_blanks names _ hBlank,
    tokens?_writeEntries names hIndent entries hPointed, Option.map_some, Option.bind_some]
  exact entries?_tokens entries

end Python

namespace Literal

/-- The text is a dictionary of the record: it is read as entries in ascending order of their names,
which are those of the record, and each of them is a line of the text. -/
structure Denotes (names : Python.Names) (indent : String) (r : Record) (text : String)
    (made : List (List Nat × List Nat)) : Prop where
  read : Python.dict? names text = some made
  ascending : (made.map fun entry => Text.unitsOfPoints entry.1).Pairwise (· < ·)
  mapping : ∀ key value, (key, value) ∈ made ↔ ∃ name text, r.get? name = some text ∧
    Text.points name = key ∧ Text.points text = value
  layout : made = [] ∧ text = "\x7b\x7d" ∨ made ≠ [] ∧ ∃ lines,
    Text.lines text = "\x7b" :: (lines ++ [indent ++ "\x7d"]) ∧
    List.Forall₂ (fun entry line =>
      Python.tokens? names 0 line.toList = some (Python.entryTokens entry)) made lines

section Dictionaries

variable (names : Python.Names) {indent : String} {r : Record}

theorem pointed_pointEntries (r : Record) : Python.Pointed (pointEntries r) := by
  intro entry hMem
  obtain ⟨name, -, rfl⟩ := List.mem_map.mp hMem
  exact ⟨Text.lt_of_mem_pointsOf _, Text.lt_of_mem_pointsOf _⟩

theorem ascending_pointEntries (hRecord : r.WellFormed) :
    ((pointEntries r).map fun entry => Text.unitsOfPoints entry.1).Pairwise (· < ·) := by
  -- The units of a name are found again from its code points, and names are sorted by units.
  have hUnits : ((pointEntries r).map fun entry => Text.unitsOfPoints entry.1) =
      r.sortedNames.map Text.units := by
    rw [pointEntries, List.map_map]
    refine List.map_congr_left fun name hMem => ?_
    obtain ⟨text, hText⟩ := Record.mem_names_iff.mp (Record.mem_sortedNames_iff.mp hMem)
    exact Text.unitsOfPoints_points (hRecord.get? hText).1
  rw [hUnits, List.pairwise_map]
  exact Text.pairwise_sorted hRecord.distinct

theorem mem_pointEntries_iff {key value : List Nat} : (key, value) ∈ pointEntries r ↔
    ∃ name text, r.get? name = some text ∧ Text.points name = key ∧ Text.points text = value := by
  rw [pointEntries, List.mem_map]
  constructor
  · rintro ⟨name, hMem, hEntry⟩
    obtain ⟨text, hText⟩ := Record.mem_names_iff.mp (Record.mem_sortedNames_iff.mp hMem)
    rw [hText] at hEntry
    obtain ⟨hKey, hValue⟩ := Prod.mk.inj hEntry
    exact ⟨name, text, hText, hKey, hValue⟩
  · rintro ⟨name, text, hText, rfl, rfl⟩
    refine ⟨name, Record.mem_sortedNames_iff.mpr (Record.mem_names_iff.mpr ⟨text, hText⟩), ?_⟩
    rw [hText]
    rfl

theorem unbroken_writeEntry (hIndent : Spaces indent) {entry : List Nat × List Nat}
    (hKey : ∀ n ∈ entry.1, n < 0x110000) (hValue : ∀ n ∈ entry.2, n < 0x110000) :
    Text.Unbroken (String.ofList (writeEntry indent entry)) := by
  -- Nothing on the line is a control character, and line ends are.
  have hLiteral : ∀ points : List Nat, (∀ n ∈ points, n < 0x110000) →
      ∀ c ∈ writePoints points, 0x20 ≤ c.toNat := by
    intro points hPoints
    exact List.forall_mem_cons.mpr ⟨by decide, List.forall_mem_append.mpr
      ⟨(escaped_flatMap hPoints).printable, List.forall_mem_singleton.mpr (by decide)⟩⟩
  have hPrintable : ∀ c ∈ writeEntry indent entry, 0x20 ≤ c.toNat := by
    have hColon : ∀ c ∈ [':', ' '], 0x20 ≤ c.toNat :=
      List.forall_mem_cons.mpr ⟨by decide, List.forall_mem_singleton.mpr (by decide)⟩
    have hComma : ∀ c ∈ [','], 0x20 ≤ c.toNat := List.forall_mem_singleton.mpr (by decide)
    refine List.forall_mem_append.mpr ⟨fun c hMem => ?_,
      List.forall_mem_append.mpr ⟨hLiteral _ hKey, List.forall_mem_append.mpr ⟨hColon,
        List.forall_mem_append.mpr ⟨hLiteral _ hValue, hComma⟩⟩⟩⟩
    rw [spaces_append hIndent c hMem]
    decide
  refine .of_notMem ?_ ?_
  · rw [String.toList_ofList]
    exact fun hMem => absurd (hPrintable _ hMem) (by decide)
  · rw [String.toList_ofList]
    exact fun hMem => absurd (hPrintable _ hMem) (by decide)

theorem lines_writeEntries (hIndent : Spaces indent) {entries : List (List Nat × List Nat)}
    (hPointed : Python.Pointed entries) :
    Text.lines (Text.joinWith "\n" ("\x7b" :: writeEntries indent entries)) =
      "\x7b" :: writeEntries indent entries := by
  have hClose : Text.Unbroken (indent ++ "\x7d") := by
    refine .append (fun c hMem => ?_) (.ofList rfl)
    rw [hIndent c hMem]
    decide
  refine Text.lines_of_joinWith (List.cons_ne_nil _ _) (List.forall_mem_cons.mpr ⟨.ofList rfl, ?_⟩)
  refine List.forall_mem_append.mpr ⟨fun line hMem => ?_, fun line hMem => ?_⟩
  · obtain ⟨entry, hEntry, rfl⟩ := List.mem_map.mp hMem
    exact unbroken_writeEntry hIndent (hPointed entry hEntry).1 (hPointed entry hEntry).2
  · rw [List.mem_singleton.mp hMem]
    exact hClose

/-- Each entry is a line, and the line is read as the entry. -/
theorem forall₂_writeEntry (hIndent : Spaces indent) {entries : List (List Nat × List Nat)}
    (hPointed : Python.Pointed entries) :
    List.Forall₂ (fun entry line =>
      Python.tokens? names 0 line.toList = some (Python.entryTokens entry)) entries
      (entries.map fun entry => String.ofList (writeEntry indent entry)) := by
  rw [List.forall₂_map_right_iff, List.forall₂_same]
  intro entry hEntry
  have hTokens := Python.tokens?_entry names hIndent (hPointed entry hEntry).1
    (hPointed entry hEntry).2 []
  rw [List.append_nil] at hTokens
  rw [String.toList_ofList, hTokens]
  rfl

/-- The dictionary of a record denotes it. -/
theorem denotes_dict (hIndent : Spaces indent) (hRecord : r.WellFormed) :
    Denotes names indent r (Text.join (dict indent r)) (pointEntries r) := by
  have hPointed := pointed_pointEntries r
  by_cases hNone : r.size = 0
  · obtain ⟨entries⟩ := r
    obtain rfl : entries = [] := List.length_eq_zero_iff.mp hNone
    have hText : Text.join (dict indent ⟨[]⟩) = "\x7b\x7d" := by
      rw [dict, if_pos hNone]
      exact Text.join_of_whole (Text.forall_units rfl)
    rw [hText]
    exact ⟨rfl, ascending_pointEntries hRecord, fun _ _ => mem_pointEntries_iff, Or.inl ⟨rfl, rfl⟩⟩
  · have hSome : pointEntries r ≠ [] := by
      intro hEmpty
      obtain ⟨entry, hEntry⟩ := List.exists_mem_of_length_pos (Nat.pos_of_ne_zero hNone)
      have hName : entry.1 ∈ r.sortedNames :=
        Record.mem_sortedNames_iff.mpr (List.mem_map_of_mem hEntry)
      rw [List.map_eq_nil_iff.mp hEmpty] at hName
      exact absurd hName List.not_mem_nil
    have hText := join_dict hIndent hRecord hNone
    refine ⟨?_, ascending_pointEntries hRecord, fun _ _ => mem_pointEntries_iff, Or.inr ⟨hSome, ?_⟩⟩
    · rw [hText]
      exact Python.dict?_writeEntries names hIndent hPointed
    · exact ⟨_, by rw [hText, lines_writeEntries hIndent hPointed, writeEntries],
        forall₂_writeEntry names hIndent hPointed⟩

end Dictionaries

/-- A text is written as a literal that denotes it.  No quote stands by itself between the quotes of
the literal, nor does a control character, and it is read as the characters of the text.  A record
is written as a dictionary that denotes it: two braces, or an entry on each line between them, read
as the code points of the names and texts of the record, with names in ascending order of their
units. -/
theorem literals_denote (names : Python.Names) :
    (∀ t : String, ∃ body, Text.join (quote (Text.split t)) = "\"" ++ body ++ "\"" ∧
      Escaped body.toList ∧ (∀ c ∈ body.toList, 0x20 ≤ c.toNat) ∧
      Python.tokens? names 0 (Text.join (quote (Text.split t))).toList =
        some [.literal (t.toList.map Char.toNat)]) ∧
    ∀ indent r, Spaces indent → r.WellFormed →
      ∃ made, Denotes names indent r (Text.join (dict indent r)) made := by
  refine ⟨fun t => ?_, fun indent r hIndent hRecord => ⟨_, denotes_dict names hIndent hRecord⟩⟩
  have hPoints := Text.lt_of_mem_pointsOf (Text.split t).toList
  have hEscaped := escaped_flatMap hPoints
  have hUnits : (Text.join (quote (Text.split t))).toList =
      writePoints (Text.points (Text.split t)) := by
    have hJoined := joinUnits_quote (Text.unitForm_split t) []
    rw [List.append_nil] at hJoined
    rw [Text.join, String.toList_ofList, hJoined, Text.joinUnits, List.append_nil]
  refine ⟨String.ofList ((Text.points (Text.split t)).flatMap escapePoint), ?_, ?_, ?_, ?_⟩
  · apply String.toList_injective
    rw [hUnits]
    simp [writePoints]
  · rw [String.toList_ofList]
    exact hEscaped
  · rw [String.toList_ofList]
    exact hEscaped.printable
  · have hTokens := Python.tokens?_writePoints names [] hPoints (by simp)
    rw [List.append_nil] at hTokens
    rw [hUnits, Text.points, hTokens, ← Text.points_split]
    rfl

namespace MixedPlanes

/-- A name of the first plane and one beyond it, in the order of their code points, over a text with
a half that stands alone and one with characters that have to be escaped. -/
def record : Record :=
  ⟨[(String.ofList [Char.ofNat 0xFFFF], String.ofList [Text.ofUnit 0xDFFF, 'a']),
    (String.ofList [Text.ofUnit 0xD800, Text.ofUnit 0xDC00], "\"\\\n\x01")]⟩

end MixedPlanes

theorem literals_denote_planes : Spaces "  " ∧ MixedPlanes.record.WellFormed ∧
    ∃ made, Denotes (fun _ => none) "  " MixedPlanes.record
      (Text.join (dict "  " MixedPlanes.record)) made := by
  have hSpaces : Spaces "  " := by decide
  have hRecord : MixedPlanes.record.WellFormed := ⟨by decide, by decide⟩
  exact ⟨hSpaces, hRecord, (literals_denote _).2 _ _ hSpaces hRecord⟩

end Literal
end WorkflowDag
