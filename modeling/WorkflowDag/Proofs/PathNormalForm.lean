import Mathlib.Data.List.Infix
import WorkflowDag.Location
import WorkflowDag.Proofs.KeyTexts
import WorkflowDag.Proofs.TextLines

/-!
# The normal form of a path

Normalising works out the parts of a path one by one.  What is left are steps up, which a path from
the root has none of, and names behind them (`cleanParts_normal`).  Steps up are left exactly when
the path leads above where it starts (`back_notMem_cleanParts_iff`).

The text of a normalised path holds nothing but these parts: it is cut into them again, with a last
empty part where a slash ends the path (`parts_normalize`).  What a text without slashes is in, or
begins with, is therefore seen from the parts.
-/

namespace WorkflowDag

namespace Text

section Pieces

variable {p : Char → Bool}

theorem not_of_mem_pieces (cs : List Char) : ∀ piece ∈ pieces p cs, ∀ c ∈ piece, p c = false := by
  induction cs with
  | nil => simp [pieces]
  | cons d cs ih =>
      rw [pieces]
      split
      · exact List.forall_mem_cons.mpr ⟨List.forall_mem_nil _, ih⟩
      next hKept =>
        cases hPieces : pieces p cs with
        | nil => exact absurd hPieces (pieces_ne_nil cs)
        | cons first rest =>
            rw [hPieces] at ih
            obtain ⟨hFirst, hRest⟩ := List.forall_mem_cons.mp ih
            refine List.forall_mem_cons.mpr ⟨?_, hRest⟩
            exact List.forall_mem_cons.mpr ⟨Bool.not_eq_true _ ▸ hKept, hFirst⟩

/-- What holds no separator begins the text exactly when it begins the first piece. -/
theorem prefix_iff_of_pieces {mark : List Char} (hMark : ∀ c ∈ mark, p c = false) :
    ∀ {cs first : List Char} {rest : List (List Char)}, pieces p cs = first :: rest →
      (mark <+: cs ↔ mark <+: first) := by
  induction mark with
  | nil => simp
  | cons m mark ih =>
      obtain ⟨hUnit, hUnits⟩ := List.forall_mem_cons.mp hMark
      intro cs first rest hPieces
      cases cs with
      | nil =>
          obtain ⟨rfl, -⟩ := List.cons.inj hPieces
          rfl
      | cons c cs =>
          rw [pieces] at hPieces
          split at hPieces
          next hCut =>
            obtain ⟨rfl, -⟩ := List.cons.inj hPieces
            have hOther : m ≠ c := by
              rintro rfl
              exact Bool.noConfusion (hUnit.symm.trans hCut)
            simp [List.cons_prefix_cons, hOther]
          next =>
            cases hBehind : pieces p cs with
            | nil => exact absurd hBehind (pieces_ne_nil cs)
            | cons next others =>
                rw [hBehind] at hPieces
                obtain ⟨rfl, -⟩ := List.cons.inj hPieces
                rw [List.cons_prefix_cons, List.cons_prefix_cons, ih hUnits hBehind]

/-- What holds no separator lies in the text exactly when it lies in a piece. -/
theorem infix_iff_of_pieces {mark : List Char} (hMark : ∀ c ∈ mark, p c = false) (hSome : mark ≠ [])
    (cs : List Char) : mark <:+: cs ↔ ∃ piece ∈ pieces p cs, mark <:+: piece := by
  induction cs with
  | nil => simp [pieces]
  | cons c cs ih =>
      cases hPieces : pieces p (c :: cs) with
      | nil => exact absurd hPieces (pieces_ne_nil _)
      | cons first rest =>
          rw [List.infix_cons_iff, prefix_iff_of_pieces hMark hPieces, ih]
          rw [pieces] at hPieces
          split at hPieces
          next =>
            cases hPieces
            simp [hSome]
          next =>
            cases hBehind : pieces p cs with
            | nil => exact absurd hBehind (pieces_ne_nil cs)
            | cons next others =>
                rw [hBehind] at hPieces
                cases hPieces
                simp only [List.exists_mem_cons_iff, List.infix_cons_iff, or_assoc]

end Pieces
end Text

namespace Location

/-! ### Parts -/

section Parts

variable {path part : String}

theorem ne_slash_of_notMem {units : List Char} (hUnits : '/' ∉ units) :
    ∀ c ∈ units, (c == '/') = false := by
  intro c hMem
  rw [beq_eq_false_iff_ne]
  rintro rfl
  exact hUnits hMem

theorem slash_notMem_of_mem_parts (hPart : part ∈ parts path) : '/' ∉ part.toList := by
  obtain ⟨piece, hPiece, rfl⟩ := List.mem_map.mp hPart
  rw [String.toList_ofList]
  exact fun hMem => Bool.noConfusion (Text.not_of_mem_pieces _ piece hPiece '/' hMem)

theorem parts_ne_nil (path : String) : parts path ≠ [] := by
  rw [parts, ne_eq, List.map_eq_nil_iff]
  exact Text.pieces_ne_nil _

theorem parts_append_slash (front back : String) :
    parts (front ++ "/" ++ back) = parts front ++ parts back := by
  have hUnits : (front ++ "/" ++ back).toList = front.toList ++ '/' :: back.toList := by simp
  rw [parts, hUnits, Text.pieces_append rfl, List.map_append]
  rfl

theorem parts_slash_append (back : String) : parts ("/" ++ back) = "" :: parts back :=
  parts_append_slash "" back

theorem parts_of_notMem (hPath : '/' ∉ path.toList) : parts path = [path] := by
  rw [parts, Text.pieces_of_forall (ne_slash_of_notMem hPath), List.map_singleton,
    String.ofList_toList]

theorem parts_joinWith {names : List String} (hSome : names ≠ [])
    (hNames : ∀ name ∈ names, '/' ∉ name.toList) : parts (Text.joinWith "/" names) = names := by
  induction names with
  | nil => exact absurd rfl hSome
  | cons name rest ih =>
      obtain ⟨hName, hRest⟩ := List.forall_mem_cons.mp hNames
      cases rest with
      | nil => exact parts_of_notMem hName
      | cons next rest =>
          rw [Text.joinWith_cons_cons, parts_append_slash, parts_of_notMem hName,
            ih (List.cons_ne_nil _ _) hRest, List.singleton_append]

/-- A text without slashes lies in a path exactly when it lies in one of its parts. -/
theorem infix_iff_parts {mark : List Char} (hMark : '/' ∉ mark) (hSome : mark ≠ []) :
    mark <:+: path.toList ↔ ∃ part ∈ parts path, mark <:+: part.toList := by
  rw [Text.infix_iff_of_pieces (ne_slash_of_notMem hMark) hSome, parts]
  simp only [List.mem_map, exists_exists_and_eq_and, String.toList_ofList]

/-- A text without slashes begins a path exactly when it begins the first part. -/
theorem prefix_iff_parts {mark : List Char} (hMark : '/' ∉ mark) {first : String}
    {rest : List String} (hParts : parts path = first :: rest) :
    mark <+: path.toList ↔ mark <+: first.toList := by
  obtain ⟨piece, others, hPieces, rfl, -⟩ := List.map_eq_cons_iff.mp hParts
  rw [Text.prefix_iff_of_pieces (ne_slash_of_notMem hMark) hPieces, String.toList_ofList]

theorem isAbsolute_iff : isAbsolute path = true ↔ ∃ rest, path.toList = '/' :: rest := by
  unfold isAbsolute
  split
  next rest hUnits => simp [hUnits]
  next hOther =>
    refine iff_of_false Bool.false_ne_true ?_
    rintro ⟨rest, hUnits⟩
    exact hOther rest hUnits

theorem isAbsolute_of_parts {first : String} {rest : List String} (hFirst : first ≠ "")
    (hParts : parts path = first :: rest) : isAbsolute path = false := by
  rw [Bool.eq_false_iff, ne_eq, isAbsolute_iff]
  rintro ⟨units, hUnits⟩
  rw [parts, hUnits, Text.pieces, if_pos (beq_self_eq_true '/')] at hParts
  exact hFirst (List.cons.inj hParts).1.symm

end Parts

/-! ### Parts worked out -/

/-- The part leads to another place. -/
def leads (part : String) : Bool :=
  part != "" && part != "."

theorem leads_iff {part : String} : leads part = true ↔ ¬(part = "" ∨ part = ".") := by
  simp [leads]

theorem not_leads_iff {part : String} : leads part = false ↔ part = "" ∨ part = "." := by
  simp [leads, imp_iff_not_or]

/-- A part that holds more than one unit leads to another place. -/
theorem leads_of_infix {part : String} {mark : List Char} (hLong : 1 < mark.length)
    (hInfix : mark <:+: part.toList) : leads part = true := by
  rw [leads_iff]
  rintro (rfl | rfl)
  · exact absurd hInfix.length_le (Nat.not_le.mpr (Nat.zero_lt_of_lt hLong))
  · exact absurd hInfix.length_le (Nat.not_le.mpr hLong)

section Working

variable {absolute : Bool} {done : List String} {part : String}

theorem addPart_of_not_leads (hPart : leads part = false) : addPart absolute done part = done := by
  unfold addPart
  rw [if_pos (not_leads_iff.mp hPart)]

theorem addPart_back_nil : addPart absolute [] ".." = if absolute then [] else [".."] := by
  simp [addPart]

theorem addPart_back_back {before : List String} :
    addPart absolute (".." :: before) ".." = ".." :: ".." :: before := by
  simp [addPart]

theorem addPart_back_cons {last : String} {before : List String} (hLast : last ≠ "..") :
    addPart absolute (last :: before) ".." = before := by
  simp [addPart, hLast]

theorem addPart_name (hPart : leads part = true) (hBack : part ≠ "..") :
    addPart absolute done part = part :: done := by
  unfold addPart
  rw [if_neg (leads_iff.mp hPart), if_neg hBack]

/-- The parts in front are steps up, and names stand behind them.  Parts are held in reverse. -/
def Normal (absolute : Bool) (done : List String) : Prop :=
  ∃ names ups, done = names ++ List.replicate ups ".." ∧
    (∀ name ∈ names, leads name = true ∧ name ≠ "..") ∧ (absolute = true → ups = 0)

theorem Normal.nil (absolute : Bool) : Normal absolute [] :=
  ⟨[], 0, rfl, List.forall_mem_nil _, fun _ => rfl⟩

theorem Normal.leads_of_mem (hDone : Normal absolute done) : ∀ part ∈ done, leads part = true := by
  obtain ⟨names, ups, rfl, hNames, -⟩ := hDone
  intro part hMem
  rcases List.mem_append.mp hMem with hName | hUp
  · exact (hNames part hName).1
  · rw [List.eq_of_mem_replicate hUp]
    decide

theorem Normal.addPart (hDone : Normal absolute done) (part : String) :
    Normal absolute (Location.addPart absolute done part) := by
  obtain ⟨names, ups, rfl, hNames, hUps⟩ := hDone
  cases hLeads : leads part with
  | false =>
      rw [addPart_of_not_leads hLeads]
      exact ⟨names, ups, rfl, hNames, hUps⟩
  | true =>
      by_cases hBack : part = ".."
      · subst hBack
        cases names with
        | nil =>
            -- Only steps up are left, to which one is added unless the path starts at the root.
            cases absolute with
            | true =>
                rw [hUps rfl]
                exact .nil true
            | false =>
                refine ⟨[], ups + 1, ?_, List.forall_mem_nil _, by simp⟩
                cases ups with
                | zero => rfl
                | succ ups => exact addPart_back_back
        | cons name names =>
            obtain ⟨hName, hOthers⟩ := List.forall_mem_cons.mp hNames
            rw [List.cons_append, addPart_back_cons hName.2]
            exact ⟨names, ups, rfl, hOthers, hUps⟩
      · rw [addPart_name hLeads hBack]
        exact ⟨part :: names, ups, rfl, List.forall_mem_cons.mpr ⟨⟨hLeads, hBack⟩, hNames⟩, hUps⟩

theorem Normal.foldl (given : List String) :
    ∀ done, Normal absolute done →
      Normal absolute (given.foldl (Location.addPart absolute) done) := by
  induction given with
  | nil => exact fun done hDone => hDone
  | cons part rest ih => exact fun done hDone => ih _ (hDone.addPart part)

theorem mem_of_mem_addPart {other : String} (hMem : other ∈ addPart absolute done part) :
    other ∈ done ∨ other = part := by
  cases hLeads : leads part with
  | false =>
      rw [addPart_of_not_leads hLeads] at hMem
      exact .inl hMem
  | true =>
      by_cases hBack : part = ".."
      · subst hBack
        cases done with
        | nil =>
            rw [addPart_back_nil] at hMem
            split at hMem
            · exact .inl hMem
            · exact .inr (List.mem_singleton.mp hMem)
        | cons last before =>
            by_cases hLast : last = ".."
            · rw [hLast, addPart_back_back, List.mem_cons] at hMem
              exact hMem.symm.imp_left fun hBefore => hLast ▸ hBefore
            · rw [addPart_back_cons hLast] at hMem
              exact .inl (List.mem_cons_of_mem _ hMem)
      · rw [addPart_name hLeads hBack, List.mem_cons] at hMem
        exact hMem.symm

theorem mem_of_mem_foldl (given : List String) :
    ∀ done, part ∈ given.foldl (addPart absolute) done → part ∈ done ∨ part ∈ given := by
  induction given with
  | nil => exact fun done hMem => .inl hMem
  | cons next rest ih =>
      intro done hMem
      rcases ih _ hMem with hAdded | hRest
      · refine (mem_of_mem_addPart hAdded).imp_right ?_
        rintro rfl
        exact List.mem_cons_self
      · exact .inr (List.mem_cons_of_mem _ hRest)

/-- A step up above the start is never taken back. -/
theorem back_mem_addPart (hMem : ".." ∈ done) (part : String) : ".." ∈ addPart false done part := by
  cases hLeads : leads part with
  | false => rwa [addPart_of_not_leads hLeads]
  | true =>
      by_cases hBack : part = ".."
      · subst hBack
        cases done with
        | nil => cases hMem
        | cons last before =>
            by_cases hLast : last = ".."
            · rw [hLast, addPart_back_back]
              exact List.mem_cons_self
            · rw [addPart_back_cons hLast]
              exact (List.mem_cons.mp hMem).resolve_left fun hSame => hLast hSame.symm
      · rw [addPart_name hLeads hBack]
        exact List.mem_cons_of_mem _ hMem

theorem back_mem_foldl (given : List String) :
    ∀ done, ".." ∈ done → ".." ∈ given.foldl (addPart false) done := by
  induction given with
  | nil => exact fun done hMem => hMem
  | cons part rest ih => exact fun done hMem => ih _ (back_mem_addPart hMem part)

end Working

section Clean

variable {absolute : Bool} {given : List String}

/-- Following the parts from a place `depth` names below a directory never leads above it. -/
def StaysBelow : Nat → List String → Prop
  | _, [] => True
  | depth, part :: rest =>
    if part = "" ∨ part = "." then StaysBelow depth rest
    else if part = ".." then 0 < depth ∧ StaysBelow (depth - 1) rest
    else StaysBelow (depth + 1) rest

/-- Parts that have been worked out are steps up, and names behind them. -/
theorem cleanParts_normal (absolute : Bool) (given : List String) :
    ∃ ups names, cleanParts absolute given = List.replicate ups ".." ++ names ∧
      (∀ name ∈ names, leads name = true ∧ name ≠ "..") ∧ (absolute = true → ups = 0) := by
  obtain ⟨names, ups, hDone, hNames, hUps⟩ :=
    Normal.foldl given [] (.nil absolute)
  refine ⟨ups, names.reverse, ?_, fun name hMem => hNames name (List.mem_reverse.mp hMem), hUps⟩
  rw [cleanParts, hDone, List.reverse_append, List.reverse_replicate]

theorem leads_of_mem_cleanParts {part : String} (hPart : part ∈ cleanParts absolute given) :
    leads part = true :=
  (Normal.foldl given [] (.nil absolute)).leads_of_mem part (List.mem_reverse.mp hPart)

theorem mem_of_mem_cleanParts {part : String} (hPart : part ∈ cleanParts absolute given) :
    part ∈ given :=
  (mem_of_mem_foldl given [] (List.mem_reverse.mp hPart)).resolve_left List.not_mem_nil

/-- Where no step up has been left before, one is left exactly when the parts lead above where they
start. -/
theorem back_notMem_foldl_iff (given : List String) :
    ∀ done, ".." ∉ done →
      (".." ∉ given.foldl (addPart false) done ↔ StaysBelow done.length given) := by
  induction given with
  | nil => exact fun done hDone => iff_of_true hDone trivial
  | cons part rest ih =>
      intro done hDone
      rw [List.foldl_cons, StaysBelow]
      cases hLeads : leads part with
      | false =>
          rw [addPart_of_not_leads hLeads, if_pos (not_leads_iff.mp hLeads)]
          exact ih done hDone
      | true =>
          rw [if_neg (leads_iff.mp hLeads)]
          by_cases hBack : part = ".."
          · rw [if_pos hBack, hBack]
            cases done with
            | nil =>
                exact iff_of_false (fun hNone => hNone (back_mem_foldl rest _ List.mem_cons_self))
                  fun hBelow => Nat.not_lt_zero _ hBelow.1
            | cons last before =>
                obtain ⟨hLast, hBefore⟩ := not_or.mp (List.mem_cons.not.mp hDone)
                rw [addPart_back_cons (Ne.symm hLast), ih before hBefore]
                exact (and_iff_right (Nat.succ_pos _)).symm
          · rw [if_neg hBack, addPart_name hLeads hBack]
            exact ih _ (List.mem_cons.not.mpr (not_or.mpr ⟨Ne.symm hBack, hDone⟩))

/-- Steps up are left exactly when the parts lead above where they start. -/
theorem back_notMem_cleanParts_iff : ".." ∉ cleanParts false given ↔ StaysBelow 0 given := by
  rw [cleanParts, List.mem_reverse]
  exact back_notMem_foldl_iff given [] List.not_mem_nil

theorem foldl_of_back_notMem (given : List String) :
    ∀ done, ".." ∉ given →
      given.foldl (addPart absolute) done = (given.filter leads).reverse ++ done := by
  induction given with
  | nil => exact fun done _ => rfl
  | cons part rest ih =>
      intro done hGiven
      obtain ⟨hPart, hOthers⟩ := not_or.mp (List.mem_cons.not.mp hGiven)
      rw [List.foldl_cons, ih _ hOthers]
      cases hLeads : leads part with
      | false => rw [addPart_of_not_leads hLeads, List.filter_cons_of_neg (by simp [hLeads])]
      | true =>
          rw [addPart_name hLeads (Ne.symm hPart), List.filter_cons_of_pos hLeads,
            List.reverse_cons, List.append_assoc, List.singleton_append]

/-- Without steps up, the parts that lead anywhere are left. -/
theorem cleanParts_of_back_notMem (hGiven : ".." ∉ given) :
    cleanParts absolute given = given.filter leads := by
  rw [cleanParts, foldl_of_back_notMem given [] hGiven, List.append_nil, List.reverse_reverse]

end Clean

/-! ### Paths normalised -/

section Normalised

variable {path : String}

/-- The parts of a path that are left when it is normalised. -/
def normalParts (path : String) : List String :=
  cleanParts (isAbsolute path) (parts path)

theorem slash_notMem_of_mem_normalParts {part : String} (hPart : part ∈ normalParts path) :
    '/' ∉ part.toList :=
  slash_notMem_of_mem_parts (mem_of_mem_cleanParts hPart)

theorem ne_empty_of_mem_normalParts {part : String} (hPart : part ∈ normalParts path) :
    part ≠ "" := by
  rintro rfl
  exact Bool.noConfusion (leads_of_mem_cleanParts hPart)

theorem joinWith_normalParts_eq_empty_iff :
    Text.joinWith "/" (normalParts path) = "" ↔ normalParts path = [] := by
  cases hParts : normalParts path with
  | nil => exact iff_of_true rfl rfl
  | cons first rest =>
      have hFirst : first ≠ "" := ne_empty_of_mem_normalParts (hParts ▸ List.mem_cons_self)
      exact iff_of_false (Text.joinWith_cons_ne_empty '/' rfl hFirst rest) (List.cons_ne_nil _ _)

/-- The last part of a path that a slash ends is empty. -/
def ending (path : String) : List String :=
  if hasTrailingSlash path then [""] else []

theorem parts_append_ending (front : String) :
    parts (front ++ if hasTrailingSlash path then "/" else "") = parts front ++ ending path := by
  unfold ending
  split
  · rw [← String.append_empty (s := front ++ "/"), parts_append_slash]
    rfl
  · rw [String.append_empty, List.append_nil]

theorem normalize_of_relative (hPath : isAbsolute path = false) :
    normalize path =
      (if normalParts path = [] then "." else Text.joinWith "/" (normalParts path)) ++
        if hasTrailingSlash path then "/" else "" := by
  by_cases hEmpty : path = ""
  · subst hEmpty
    decide +kernel
  simp only [← joinWith_normalParts_eq_empty_iff]
  unfold normalize normalParts
  simp only [if_neg hEmpty, hPath, Bool.false_eq_true, if_false]
  split
  · rfl
  · rfl

theorem normalize_of_absolute (hPath : isAbsolute path = true) :
    normalize path =
      if normalParts path = [] then "/"
      else "/" ++ (Text.joinWith "/" (normalParts path) ++
        if hasTrailingSlash path then "/" else "") := by
  have hSome : path ≠ "" := by
    rintro rfl
    exact Bool.noConfusion hPath
  simp only [← joinWith_normalParts_eq_empty_iff]
  unfold normalize normalParts
  simp only [if_neg hSome, hPath, if_true, String.append_assoc]

theorem parts_joinWith_normalParts (hSome : normalParts path ≠ []) :
    parts (Text.joinWith "/" (normalParts path)) = normalParts path :=
  parts_joinWith hSome fun _ hMem => slash_notMem_of_mem_normalParts hMem

/-- A normalised path that does not start at the root has the parts that are left, or a dot where
none is. -/
theorem parts_normalize (hPath : isAbsolute path = false) :
    parts (normalize path) =
      (if normalParts path = [] then ["."] else normalParts path) ++ ending path := by
  rw [normalize_of_relative hPath, parts_append_ending]
  split
  · rfl
  next hSome => rw [parts_joinWith_normalParts hSome]

/-- The first part is that of the parts left, or a dot where none is. -/
theorem exists_parts_normalize (hPath : isAbsolute path = false) :
    ∃ rest, parts (normalize path) = (normalParts path).head?.getD "." :: rest := by
  rw [parts_normalize hPath]
  cases normalParts path with
  | nil => exact ⟨ending path, rfl⟩
  | cons first rest => exact ⟨rest ++ ending path, rfl⟩

theorem head_normalParts_ne_empty : (normalParts path).head?.getD "." ≠ "" := by
  cases hNormal : normalParts path with
  | nil => decide
  | cons first rest => exact ne_empty_of_mem_normalParts (hNormal ▸ List.mem_cons_self)

theorem isAbsolute_normalize (path : String) : isAbsolute (normalize path) = isAbsolute path := by
  cases hPath : isAbsolute path with
  | true =>
      rw [normalize_of_absolute hPath, isAbsolute_iff]
      split
      · exact ⟨[], by decide⟩
      · exact ⟨_, by rw [String.toList_append]; rfl⟩
  | false =>
      obtain ⟨rest, hParts⟩ := exists_parts_normalize hPath
      exact isAbsolute_of_parts head_normalParts_ne_empty hParts

theorem normalize_ne_empty (hPath : isAbsolute path = false) : normalize path ≠ "" := by
  obtain ⟨rest, hParts⟩ := exists_parts_normalize hPath
  intro hEmpty
  rw [hEmpty] at hParts
  exact head_normalParts_ne_empty (List.cons.inj hParts).1.symm

/-- Only the last part of a normalised path can be empty. -/
theorem empty_notMem_dropLast_parts_normalize (hPath : isAbsolute path = false) :
    "" ∉ (parts (normalize path)).dropLast := by
  have hParts : "" ∉ if normalParts path = [] then ["."] else normalParts path := by
    split
    · decide
    · exact fun hMem => ne_empty_of_mem_normalParts hMem rfl
  rw [parts_normalize hPath, ending]
  cases hasTrailingSlash path with
  | true =>
      rw [if_pos rfl, List.dropLast_concat]
      exact hParts
  | false =>
      rw [if_neg Bool.false_ne_true, List.append_nil]
      exact fun hMem => hParts (List.mem_of_mem_dropLast hMem)

/-- Whatever a path is written like, the parts that lead anywhere are left. -/
theorem filter_leads_parts_normalize (path : String) :
    (parts (normalize path)).filter leads = normalParts path := by
  have hEnding : (ending path).filter leads = [] := by
    unfold ending
    split
    · rfl
    · rfl
  have hNormal : (normalParts path).filter leads = normalParts path :=
    List.filter_eq_self.mpr fun part hMem => leads_of_mem_cleanParts hMem
  cases hPath : isAbsolute path with
  | false =>
      rw [parts_normalize hPath, List.filter_append, hEnding, List.append_nil]
      split
      next hNone => rw [hNone]; rfl
      next => exact hNormal
  | true =>
      rw [normalize_of_absolute hPath]
      split
      next hNone =>
        rw [hNone]
        decide
      next hSome =>
        rw [parts_slash_append, parts_append_ending, parts_joinWith_normalParts hSome,
          List.filter_cons_of_neg (by decide), List.filter_append, hEnding, hNormal,
          List.append_nil]

/-- A longer text without slashes lies in a normalised path exactly when it lies in a part that is
left. -/
theorem infix_normalize_iff {mark : List Char} (hMark : '/' ∉ mark) (hLong : 1 < mark.length) :
    mark <:+: (normalize path).toList ↔ ∃ part ∈ normalParts path, mark <:+: part.toList := by
  rw [infix_iff_parts hMark (List.ne_nil_of_length_pos (Nat.zero_lt_of_lt hLong)),
    ← filter_leads_parts_normalize]
  simp only [List.mem_filter]
  constructor
  · rintro ⟨part, hPart, hInfix⟩
    exact ⟨part, ⟨hPart, leads_of_infix hLong hInfix⟩, hInfix⟩
  · rintro ⟨part, ⟨hPart, -⟩, hInfix⟩
    exact ⟨part, hPart, hInfix⟩

/-- Neighbouring slashes are one in a normalised path. -/
theorem slashes_not_infix_normalize (hPath : isAbsolute path = false) :
    ¬['/', '/'] <:+: (normalize path).toList := by
  rintro ⟨front, back, hUnits⟩
  have hCut : normalize path = String.ofList front ++ "/" ++ ("/" ++ String.ofList back) := by
    refine String.toList_injective ?_
    rw [← hUnits]
    simp
  apply empty_notMem_dropLast_parts_normalize hPath
  rw [hCut, parts_append_slash, parts_slash_append,
    List.dropLast_append_of_ne_nil (List.cons_ne_nil _ _),
    List.dropLast_cons_of_ne_nil (parts_ne_nil _)]
  exact List.mem_append_right _ List.mem_cons_self

end Normalised

end Location
end WorkflowDag
