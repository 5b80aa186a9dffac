import WorkflowDag.Proofs.PropertyLayout
import WorkflowDag.Proofs.Records
import WorkflowDag.Proofs.Success

/-!
# Property texts one after the other

Expanding a text and then another over the result is expanding both as one text, if the first ends
neither within a line that goes on nor within a line end (`expand_composes`).  The lines of the two
texts are then the lines of the whole, and no line of the first is joined with one of the second: a
line that goes on at the end of the first text is joined with nothing, which leaves an even number
of backslashes.

What an entry can refer to is the record that the base and the entries before it leave.  `WorkedOut`
says which texts entries come to, each in the record `extended` by those before it.
-/

namespace WorkflowDag

namespace Record

theorem has_eq_isSome (r : Record) (name : String) : r.has name = (r.get? name).isSome := by
  rw [has, get?, Option.isSome_map, List.isSome_find?]

theorem has_insert_of_ne {r : Record} {name value other : String} (hName : name ≠ other) :
    (r.insert name value).has other = r.has other := by
  rw [has_eq_isSome, has_eq_isSome, get?_insert, if_neg hName]

theorem has_insert_of_has {r : Record} {name value other : String} (hHas : r.has other = true) :
    (r.insert name value).has other = true := by
  rw [has_eq_isSome] at hHas ⊢
  rw [get?_insert]
  split
  · rfl
  · exact hHas

theorem merge_concat (r : Record) (entries : List (String × String)) (name text : String) :
    r.merge ⟨entries ++ [(name, text)]⟩ = (r.merge ⟨entries⟩).insert name text := by
  simp only [merge, List.foldl_append, List.foldl_cons, List.foldl_nil]

end Record

namespace Properties

/-! ### The lines of two texts -/

theorem lines_ne_nil (text : List Char) : lines text ≠ [] := by
  unfold lines
  split
  · exact List.cons_ne_nil _ _
  · exact List.cons_ne_nil _ _
  · exact List.cons_ne_nil _ _
  · split
    · exact List.cons_ne_nil _ _
    · exact List.cons_ne_nil _ _

/-- A text of one line is that line. -/
theorem eq_of_lines_singleton (text : List Char) : ∀ line, lines text = [line] → line = text := by
  fun_induction lines text with
  | case1 =>
      rintro line ⟨⟩
      rfl
  | case2 text ih =>
      intro line hLines
      exact absurd (List.cons.inj hLines).2 (lines_ne_nil text)
  | case3 text ih =>
      intro line hLines
      exact absurd (List.cons.inj hLines).2 (lines_ne_nil text)
  | case4 c text hFeed hReturn hNone ih => exact absurd hNone (lines_ne_nil text)
  | case5 c text hFeed hReturn first rest hLines ih =>
      rintro line ⟨⟩
      rw [ih first hLines]

/-- The last line is what stands at the end of the text. -/
theorem suffix_of_lines_getLast? (text : List Char) :
    ∀ line ∈ (lines text).getLast?, line <:+ text := by
  -- Behind a line end the last line is that of the text behind.
  have hBehind {line : List Char} {text : List Char} :
      line ∈ ([] :: lines text).getLast? → line ∈ (lines text).getLast? := by
    rw [List.getLast?_cons_of_ne_nil (lines_ne_nil text)]
    exact id
  fun_induction lines text with
  | case1 => simp
  | case2 text ih =>
      exact fun line hLine => (ih line (hBehind hLine)).trans (List.suffix_cons _ _)
  | case3 text ih =>
      exact fun line hLine => (ih line (hBehind hLine)).trans (List.suffix_append ['\r', '\n'] _)
  | case4 c text hFeed hReturn hNone ih => exact absurd hNone (lines_ne_nil text)
  | case5 c text hFeed hReturn first rest hLines ih =>
      intro line hLine
      cases rest with
      | nil =>
          obtain rfl : c :: first = line := Option.some.inj hLine
          have hText := eq_of_lines_singleton text first hLines
          exact hText ▸ List.suffix_refl _
      | cons next rest =>
          rw [List.getLast?_cons_cons] at hLine
          refine (ih line ?_).trans (List.suffix_cons _ _)
          rw [hLines, List.getLast?_cons_cons]
          exact hLine

/-- A line feed that completes no other line end divides the lines of a text. -/
theorem lines_append_feed {first : List Char} (second : List Char)
    (hReturn : first.getLast? ≠ some '\r') :
    lines (first ++ '\n' :: second) = lines first ++ lines second := by
  fun_induction lines first with
  | case1 => rw [List.nil_append, lines.eq_2, List.singleton_append]
  | case2 text ih =>
      rw [List.cons_append, lines.eq_2, List.cons_append, ih fun hLast => hReturn ?_]
      rw [List.getLast?_cons, hLast, Option.getD_some]
  | case3 text ih =>
      rw [List.cons_append, List.cons_append, lines.eq_3, List.cons_append,
        ih fun hLast => hReturn ?_]
      rw [List.getLast?_cons, List.getLast?_cons, hLast, Option.getD_some, Option.getD_some]
  | case4 c text hFeed hPair hNone ih => exact absurd hNone (lines_ne_nil text)
  | case5 c text hFeed hPair line rest hLines ih =>
      have hBehind : lines (text ++ '\n' :: second) = (line :: rest) ++ lines second := by
        rw [← hLines]
        refine ih fun hLast => hReturn ?_
        rw [List.getLast?_cons, hLast, Option.getD_some]
      rw [List.cons_append, lines.eq_4 c _ hFeed, hBehind]
      · rfl
      · -- A carriage return before the line feed would end the first text.
        rintro cs rfl hCut
        cases text with
        | nil => exact hReturn rfl
        | cons d text =>
            obtain ⟨rfl, -⟩ := List.cons.inj hCut
            exact hPair text rfl rfl

/-! ### The entries of two texts -/

theorem getLast?_of_suffix {α : Type} {back whole : List α} {a : α} (hSuffix : back <:+ whole)
    (hLast : back.getLast? = some a) : whole.getLast? = some a := by
  obtain ⟨front, rfl⟩ := hSuffix
  rw [List.getLast?_append, hLast, Option.some_or]

theorem goesOn_of_getLast?_ne {line : List Char} (hLine : line.getLast? ≠ some '\\') :
    goesOn line = false := by
  rw [← List.append_nil line, goesOn_append hLine]
  decide

/-- Without its last backslash, a line that went on goes on no more. -/
theorem goesOn_dropLast {line : List Char} (hLine : goesOn line = true) :
    goesOn line.dropLast = false := by
  rcases line.eq_nil_or_concat with rfl | ⟨front, c, rfl⟩
  · rfl
  rw [List.concat_eq_append] at hLine ⊢
  rw [List.dropLast_concat]
  by_cases hLast : c = '\\'
  · have hCount : trailingBackslashes (front ++ [c]) = trailingBackslashes front + 1 := by
      rw [trailingBackslashes, hLast, List.reverse_concat, List.takeWhile_cons_of_pos rfl,
        List.length_cons, trailingBackslashes]
    rw [goesOn, hCount, beq_iff_eq] at hLine
    rw [goesOn, beq_eq_false_iff_ne]
    omega
  · rw [goesOn_of_getLast?_ne (by simpa using hLast)] at hLine
    cases hLine

theorem getLast?_trimStartUnits_ne {line : List Char} {c : Char} (hLine : line.getLast? ≠ some c) :
    (Text.trimStartUnits line).getLast? ≠ some c :=
  fun hLast => hLine (getLast?_of_suffix (List.dropWhile_suffix _) hLast)

theorem continued_suffix (rest : List (List Char)) :
    ∀ line, (continued line rest).2 <:+ rest := by
  induction rest with
  | nil => exact fun line => List.suffix_refl _
  | cons next rest ih =>
      intro line
      rw [continued]
      split
      · exact (ih _).trans (List.suffix_cons _ _)
      · exact List.suffix_refl _

/-- A line is joined with lines of the first text only, if the last of them does not go on. -/
theorem continued_append (others : List (List Char)) (rest : List (List Char)) :
    ∀ line, (rest = [] → goesOn line = false) →
      (∀ last ∈ rest.getLast?, last.getLast? ≠ some '\\') →
      continued line (rest ++ others) =
        ((continued line rest).1, (continued line rest).2 ++ others) := by
  induction rest with
  | nil =>
      intro line hLine _
      rw [List.nil_append, continued_of_not_goesOn (hLine rfl), continued, List.nil_append]
  | cons next rest ih =>
      intro line _ hLast
      rw [List.cons_append, continued, continued]
      split
      next hGoesOn =>
        refine ih _ ?_ ?_
        · rintro rfl
          -- What is joined last is no backslash, or nothing in place of the backslash before.
          have hNext := getLast?_trimStartUnits_ne (hLast next rfl)
          cases hTrim : Text.trimStartUnits next with
          | nil => rw [List.append_nil, goesOn_dropLast hGoesOn]
          | cons c cs =>
              refine goesOn_of_getLast?_ne ?_
              rw [List.getLast?_append_of_ne_nil _ (List.cons_ne_nil _ _), ← hTrim]
              exact hNext
        · intro last hMem
          refine hLast last ?_
          rw [List.getLast?_cons, hMem, Option.getD_some]
          rfl
      next => rfl

/-- Lines of which the last does not go on hold the same entries whatever follows. -/
theorem logicalLines_append (others : List (List Char)) (given : List (List Char)) :
    (∀ last ∈ given.getLast?, last.getLast? ≠ some '\\') →
      logicalLines (given ++ others) = logicalLines given ++ logicalLines others := by
  fun_induction logicalLines given with
  | case1 =>
      intro _
      rw [List.nil_append, List.nil_append]
  | case2 line rest start hComment ih =>
      intro hLast
      rw [List.cons_append, logicalLines_cons_comment hComment]
      refine ih fun last hMem => hLast last ?_
      exact getLast?_of_suffix (List.suffix_cons _ _) hMem
  | case3 line rest start hComment ih =>
      intro hLast
      have hStart : rest = [] → goesOn start = false := by
        rintro rfl
        exact goesOn_of_getLast?_ne (getLast?_trimStartUnits_ne (hLast line rfl))
      have hRest : ∀ last ∈ rest.getLast?, last.getLast? ≠ some '\\' :=
        fun last hMem => hLast last (getLast?_of_suffix (List.suffix_cons _ _) hMem)
      rw [List.cons_append, logicalLines, if_neg hComment,
        continued_append others rest start hStart hRest,
        ih fun last hMem => hRest last (getLast?_of_suffix (continued_suffix rest start) hMem),
        List.cons_append]

/-- The entries of two texts, one after the other. -/
theorem read_append_feed {first : String} (second : String)
    (hBackslash : first.toList.getLast? ≠ some '\\') (hReturn : first.toList.getLast? ≠ some '\r') :
    read (first ++ "\n" ++ second) = read first ++ read second := by
  have hUnits : (first ++ "\n" ++ second).toList = first.toList ++ '\n' :: second.toList := by
    simp
  rw [read, hUnits, lines_append_feed _ hReturn, logicalLines_append, List.map_append, read, read]
  intro last hMem hLast
  exact hBackslash (getLast?_of_suffix (suffix_of_lines_getLast? _ last hMem) hLast)

/-! ### What entries come to -/

/-- The entries that a record takes over.  Those of the reserved name are lost, unless the record
has an entry of that name. -/
def taken (base : Record) (entries : List (String × String)) : List (String × String) :=
  entries.filter fun entry => entry.1 != Record.reservedName || base.has Record.reservedName

/-- The record that a base and entries written over it leave. -/
def extended (base : Record) (entries : List (String × String)) : Record :=
  base.merge ⟨taken base entries⟩

/-- The texts that entries come to, one after the other: each is worked out in the record that the
base and the entries before it leave. -/
inductive WorkedOut (base : Record) : List (String × String) → List (String × String) → Prop
  | nil : WorkedOut base [] []
  | snoc {entries done : List (String × String)} {name value text : String}
      (hBefore : WorkedOut base entries done)
      (hText : Template.interpolate { definitions := extended base done } value = .ok text) :
      WorkedOut base (entries ++ [(name, value)]) (done ++ [(name, text)])

theorem extended_concat (base : Record) (done : List (String × String)) (name text : String) :
    extended base (done ++ [(name, text)]) =
      if name = Record.reservedName ∧ base.has Record.reservedName = false then extended base done
      else (extended base done).insert name text := by
  unfold extended taken
  rw [List.filter_append, List.filter_singleton]
  by_cases hLost : name = Record.reservedName ∧ base.has Record.reservedName = false
  · rw [if_pos hLost, hLost.1, hLost.2, bne_self_eq_false, Bool.false_or, cond_false,
      List.append_nil]
  · have hTaken : (name != Record.reservedName || base.has Record.reservedName) = true := by
      rw [Bool.or_eq_true, bne_iff_ne, ← Bool.not_eq_false]
      exact not_and_or.mp hLost
    rw [if_neg hLost, hTaken, cond_true, Record.merge_concat]

/-- Entries neither add nor take away the reserved name. -/
theorem has_extended (base : Record) (done : List (String × String)) :
    (extended base done).has Record.reservedName = base.has Record.reservedName := by
  induction done using List.reverseRecOn with
  | nil => rfl
  | append_singleton done entry ih =>
      rw [extended_concat]
      split
      next => exact ih
      next hTaken =>
        by_cases hName : entry.1 = Record.reservedName
        · have hBase : base.has Record.reservedName = true :=
            Bool.not_eq_false _ ▸ fun hNone => hTaken ⟨hName, hNone⟩
          rw [hBase] at ih ⊢
          exact Record.has_insert_of_has ih
        · rw [Record.has_insert_of_ne hName, ih]

/-- Writing one more entry assigns its text. -/
theorem assign_extended (base : Record) (done : List (String × String)) (name text : String) :
    (extended base done).assign name text = extended base (done ++ [(name, text)]) := by
  rw [extended_concat, Record.assign]
  by_cases hName : name = Record.reservedName
  · rw [hName, has_extended]
    simp
  · simp [hName]

/-- An entry refers to the last entry of a name before it, or else to the base. -/
theorem get?_extended {base : Record} {name : String}
    (hName : name ≠ Record.reservedName ∨ base.has Record.reservedName = true)
    (done : List (String × String)) :
    (extended base done).get? name = (Record.get? ⟨done.reverse⟩ name).or (base.get? name) := by
  induction done using List.reverseRecOn with
  | nil => rfl
  | append_singleton done entry ih =>
      rw [extended_concat, List.reverse_concat, Record.get?_cons]
      split
      next hLost =>
        -- The entry is lost, so the name asked for is another.
        have hOther : entry.1 ≠ name := by
          rintro rfl
          rcases hName with hName | hBase
          · exact hName hLost.1
          · exact Bool.noConfusion (hBase.symm.trans hLost.2)
        rw [if_neg hOther, ih]
      next =>
        rw [Record.get?_insert, ih]
        split
        · rfl
        · rfl

theorem expandEntries_append (source : String) (behind : List (String × String))
    (entries : List (String × String)) :
    ∀ base, expandEntries source base (entries ++ behind) =
      (expandEntries source base entries >>= fun r => expandEntries source r behind) := by
  induction entries with
  | nil => exact fun base => rfl
  | cons entry rest ih =>
      obtain ⟨name, value⟩ := entry
      intro base
      rw [List.cons_append, expandEntries, expandEntries]
      split
      next text _ => exact ih _
      next cause _ => rfl

theorem expandEntries_concat (source : String) (base : Record) (entries : List (String × String))
    (name value : String) :
    expandEntries source base (entries ++ [(name, value)]) =
      (expandEntries source base entries >>= fun r =>
        match Template.interpolate { definitions := r } value with
        | .ok text => .ok (r.assign name text)
        | .error cause => .error (.configuration source [.property name cause])) :=
  expandEntries_append source [(name, value)] entries base

theorem WorkedOut.eq_nil {base : Record} {done : List (String × String)}
    (hDone : WorkedOut base [] done) : done = [] := by
  generalize hEntries : [] = entries at hDone
  cases hDone with
  | nil => rfl
  | snoc => exact absurd hEntries.symm (List.append_ne_nil_of_right_ne_nil _ (List.cons_ne_nil _ _))

theorem WorkedOut.exists_of_concat {base : Record} {entries all : List (String × String)}
    {name value : String} (hAll : WorkedOut base (entries ++ [(name, value)]) all) :
    ∃ done text, WorkedOut base entries done ∧
      Template.interpolate { definitions := extended base done } value = .ok text ∧
      all = done ++ [(name, text)] := by
  generalize hEntries : entries ++ [(name, value)] = whole at hAll
  cases hAll with
  | nil => exact absurd hEntries (List.append_ne_nil_of_right_ne_nil _ (List.cons_ne_nil _ _))
  | snoc hBefore hText =>
      obtain ⟨rfl, hLast⟩ := List.append_inj' hEntries rfl
      cases hLast
      exact ⟨_, _, hBefore, hText, rfl⟩

/-- Expanding works the entries out. -/
theorem expandEntries_eq_ok_iff {source : String} {base : Record}
    (entries : List (String × String)) :
    ∀ r, expandEntries source base entries = .ok r ↔
      ∃ done, WorkedOut base entries done ∧ r = extended base done := by
  induction entries using List.reverseRecOn with
  | nil =>
      intro r
      constructor
      · rintro ⟨⟩
        exact ⟨[], .nil, rfl⟩
      · rintro ⟨done, hDone, rfl⟩
        rw [hDone.eq_nil]
        rfl
  | append_singleton entries entry ih =>
      obtain ⟨name, value⟩ := entry
      intro r
      rw [expandEntries_concat, bind_eq_ok_iff]
      constructor
      · rintro ⟨before, hBefore, hLast⟩
        obtain ⟨done, hDone, rfl⟩ := (ih before).mp hBefore
        split at hLast
        next text hText =>
          cases hLast
          exact ⟨_, hDone.snoc hText, assign_extended base done name text⟩
        next => cases hLast
      · rintro ⟨all, hAll, rfl⟩
        obtain ⟨done, text, hDone, hText, rfl⟩ := hAll.exists_of_concat
        refine ⟨_, (ih _).mpr ⟨done, hDone, rfl⟩, ?_⟩
        simp only [hText, assign_extended]

/-- Expanding fails at the first entry that cannot be worked out. -/
theorem expandEntries_eq_error_iff {source : String} {base : Record}
    (entries : List (String × String)) :
    ∀ e, expandEntries source base entries = .error e ↔
      ∃ before name value behind done cause, entries = before ++ (name, value) :: behind ∧
        WorkedOut base before done ∧
        Template.interpolate { definitions := extended base done } value = .error cause ∧
        e = .configuration source [.property name cause] := by
  intro e
  constructor
  · induction entries using List.reverseRecOn with
    | nil => rintro ⟨⟩
    | append_singleton entries entry ih =>
        obtain ⟨name, value⟩ := entry
        rw [expandEntries_concat, bind_eq_error_iff]
        rintro (hBefore | ⟨r, hBefore, hLast⟩)
        · obtain ⟨before, other, given, behind, done, cause, rfl, hFails⟩ := ih hBefore
          exact ⟨before, other, given, behind ++ [(name, value)], done, cause, by simp, hFails⟩
        · obtain ⟨done, hDone, rfl⟩ := (expandEntries_eq_ok_iff entries r).mp hBefore
          split at hLast
          next => cases hLast
          next cause hText =>
            cases hLast
            exact ⟨entries, name, value, [], done, cause, rfl, hDone, hText, rfl⟩
  · rintro ⟨before, name, value, behind, done, cause, rfl, hDone, hText, rfl⟩
    rw [expandEntries_append, (expandEntries_eq_ok_iff before _).mpr ⟨done, hDone, rfl⟩, ok_bind,
      expandEntries, hText]

/-- Expanding two texts as one is expanding the second over what the first leaves.  An entry refers
to the base and to the entries before it, of which the last one of a name counts, and what is
reported is the first entry that cannot be worked out.  Entries of the reserved name can be referred
to only where the base has one. -/
theorem expand_composes {first second : String} (hBackslash : first.toList.getLast? ≠ some '\\')
    (hReturn : first.toList.getLast? ≠ some '\r') (base : Record) (source : String) :
    (expand (first ++ "\n" ++ second) base source =
      expand first base source >>= fun r => expand second r source) ∧
    (∀ r, expand (first ++ "\n" ++ second) base source = .ok r ↔
      ∃ done, WorkedOut base (read first ++ read second) done ∧ r = extended base done) ∧
    (∀ e, expand (first ++ "\n" ++ second) base source = .error e ↔
      ∃ before name value behind done cause,
        read first ++ read second = before ++ (name, value) :: behind ∧
        WorkedOut base before done ∧
        Template.interpolate { definitions := extended base done } value = .error cause ∧
        e = .configuration source [.property name cause]) ∧
    ∀ done name, name ≠ Record.reservedName ∨ base.has Record.reservedName = true →
      (extended base done).get? name = (Record.get? ⟨done.reverse⟩ name).or (base.get? name) := by
  have hEntries := read_append_feed second hBackslash hReturn
  simp only [expand, hEntries]
  exact ⟨expandEntries_append source _ _ base, expandEntries_eq_ok_iff _,
    expandEntries_eq_error_iff _, fun done name hName => get?_extended hName done⟩

/-- A broken line, and an entry that refers to the earlier one of its own name. -/
def redefiningText : String :=
  "path=a\\\n  b\n1=$\x7bpath\x7d\npath=$\x7bpath\x7d/x"

def referringText : String :=
  "out=$\x7bpath\x7d"

theorem expand_composes_redefining :
    redefiningText.toList.getLast? ≠ some '\\' ∧ redefiningText.toList.getLast? ≠ some '\r' ∧
    expand (redefiningText ++ "\n" ++ referringText) .empty "s" =
      (expand redefiningText .empty "s" >>= fun r => expand referringText r "s") ∧
    (expand (redefiningText ++ "\n" ++ referringText) .empty "s").toOption =
      some ⟨[("1", "ab"), ("path", "ab/x"), ("out", "ab/x")]⟩ := by
  have hBackslash : redefiningText.toList.getLast? ≠ some '\\' := by decide +kernel
  have hReturn : redefiningText.toList.getLast? ≠ some '\r' := by decide +kernel
  exact ⟨hBackslash, hReturn, (expand_composes hBackslash hReturn .empty "s").1, by decide +kernel⟩

/-- An entry of the reserved name is lost: the entry behind it does not refer to its text. -/
theorem reserved_entry_lost :
    read "__proto__=x\na=$\x7b__proto__\x7d" = [("__proto__", "x"), ("a", "$\x7b__proto__\x7d")] ∧
    (Template.interpolate { definitions := ⟨[("__proto__", "x")]⟩ } "$\x7b__proto__\x7d").toOption =
      some "x" ∧
    (expand "__proto__=x\na=$\x7b__proto__\x7d" .empty "s").toOption =
      some ⟨[("a", "[object Object]")]⟩ := by
  decide +kernel

end Properties
end WorkflowDag
