import Mathlib.Data.List.Chain
import Mathlib.Data.List.Infix
import WorkflowDag.Proofs.EvaluationFaults
import WorkflowDag.Proofs.ExpressionGrammar
import WorkflowDag.Template.Evaluation

/-!
# The segments of a template

A template is divided without loss: its segments written one after the other are the template, plain
segments hold no opener and do not stand side by side, and every expression is what is read between
its braces (`Template.Divides`).  Every such list of segments is what its text is divided into
(`Template.read_eq_ok_iff`).

The closing brace of an expression is found by one scan and its inside is divided into tokens by
another.  They agree: what is a sequence of tokens leaves no quote open and has no closing brace
outside of strings (`passes_of_sequence`).
-/

namespace WorkflowDag

namespace Text

theorem after?_eq_some_iff {mark cs rest : List Char} :
    after? mark cs = some rest ↔ cs = mark ++ rest := by
  induction mark generalizing cs with
  | nil => simp [after?, eq_comm]
  | cons m ms ih =>
      cases cs with
      | nil => simp [after?]
      | cons c cs =>
          rw [after?]
          split
          next hSame => simp [ih, hSame]
          next hOther => simp [Ne.symm hOther]

theorem isSome_after?_iff {mark cs : List Char} : (after? mark cs).isSome = true ↔ mark <+: cs := by
  rw [Option.isSome_iff_exists]
  constructor
  · rintro ⟨rest, hRest⟩
    exact ⟨rest, (after?_eq_some_iff.mp hRest).symm⟩
  · rintro ⟨rest, hRest⟩
    exact ⟨rest, after?_eq_some_iff.mpr hRest.symm⟩

/-- Searching finds a mark exactly where it lies in the text. -/
theorem contains_iff {mark cs : List Char} : contains mark cs = true ↔ mark <:+: cs := by
  unfold contains
  induction cs with
  | nil => rw [cut?, Option.isSome_map, isSome_after?_iff, List.prefix_nil, List.infix_nil]
  | cons c cs ih =>
      rw [cut?, List.infix_cons_iff, ← isSome_after?_iff, ← ih]
      cases after? mark (c :: cs) with
      | none => simp
      | some rest => simp

end Text

namespace Segment

/-- The text of which a segment is made. -/
def source : Segment → String
  | plain text => text
  | expression source _ => source

/-- The segment is a run of plain text. -/
def isPlain : Segment → Bool
  | plain _ => true
  | expression _ _ => false

/-- The segment can stand in a template: a plain one is not empty and holds no opener, and an
expression is what is read between its braces. -/
def Fits : Segment → Prop
  | plain text => text ≠ "" ∧ ¬Template.opener <:+: text.toList
  | expression source parsed =>
      ∃ body, source = "$\x7b" ++ body ++ "\x7d" ∧ Expression.read body = .ok parsed

/-- Not both segments are plain. -/
def Apart (first second : Segment) : Prop :=
  first.isPlain = false ∨ second.isPlain = false

end Segment

namespace Template

/-- The segments divide the text. -/
structure Divides (segments : List Segment) (text : String) : Prop where
  join : String.join (segments.map Segment.source) = text
  fits : ∀ segment ∈ segments, segment.Fits
  apart : segments.IsChain Segment.Apart

section Plain

variable {held cs : List Char} {segments : List Segment}

theorem opener_prefix_iff {c : Char} : opener <+: c :: cs ↔ c = '$' ∧ cs.head? = some '\x7b' := by
  cases cs with
  | nil => simp [opener]
  | cons d cs => simp [opener, List.cons_prefix_cons, eq_comm]

theorem scan_inPlain_opener :
    scan (.inPlain held) ('$' :: '\x7b' :: cs) =
      (scan (.inExpression none []) cs >>= fun rest => pure (plainOf held ++ rest)) := by
  rw [scan]

theorem scan_inPlain_unit {c : Char} (hUnit : ¬opener <+: c :: cs) :
    scan (.inPlain held) (c :: cs) = scan (.inPlain (c :: held)) cs := by
  rw [scan]
  rintro rest rfl rfl
  exact hUnit (opener_prefix_iff.mpr ⟨rfl, rfl⟩)

/-- A run of plain text is taken as a whole where it ends the template or an opener follows. -/
theorem scan_inPlain_run {run behind : List Char} (hRun : ¬opener <:+: run)
    (hBehind : behind.head? ≠ some '\x7b') :
    ∀ held, scan (.inPlain held) (run ++ behind) =
      scan (.inPlain (run.reverse ++ held)) behind := by
  induction run with
  | nil => exact fun held => rfl
  | cons c run ih =>
      intro held
      rw [List.infix_cons_iff, not_or] at hRun
      have hUnit : ¬opener <+: c :: (run ++ behind) := by
        rw [opener_prefix_iff] at hRun ⊢
        cases run with
        | nil => exact fun hOpener => hBehind hOpener.2
        | cons d run => exact hRun.1
      rw [List.cons_append, scan_inPlain_unit hUnit, ih hRun.2, Text.reverse_cons_append]

/-- Plain text is divided off before an opener, or at the end. -/
theorem exists_run_of_scan (hScan : scan (.inPlain held) cs = .ok segments) :
    ∃ run, ¬opener <:+: run ∧
      (cs = run ∧ segments = plainOf (run.reverse ++ held) ∨
        ∃ behind others, cs = run ++ '$' :: '\x7b' :: behind ∧
          scan (.inExpression none []) behind = .ok others ∧
          segments = plainOf (run.reverse ++ held) ++ others) := by
  induction cs generalizing held with
  | nil =>
      cases hScan
      exact ⟨[], by simp [opener], .inl ⟨rfl, rfl⟩⟩
  | cons c cs ih =>
      by_cases hOpener : opener <+: c :: cs
      · obtain ⟨behind, hText⟩ := hOpener
        cases hText
        obtain ⟨others, hOthers, hResult⟩ := bind_eq_ok_iff.mp hScan
        cases hResult
        exact ⟨[], by simp [opener], .inr ⟨behind, others, rfl, hOthers, rfl⟩⟩
      · rw [scan_inPlain_unit hOpener] at hScan
        obtain ⟨run, hRun, hRest⟩ := ih hScan
        have hFront : run <+: cs := by
          rcases hRest with ⟨rfl, -⟩ | ⟨behind, others, rfl, -⟩
          · exact List.prefix_rfl
          · exact List.prefix_append _ _
        refine ⟨c :: run, ?_, by simpa using hRest⟩
        rw [List.infix_cons_iff, not_or]
        exact ⟨fun hPrefix => hOpener (hPrefix.trans (List.prefix_cons_inj c |>.mpr hFront)), hRun⟩

end Plain

section Expressions

/-- From a quote that may be open, the units lead to the end of an expression: every quote is closed
and no closing brace stands outside of quotes. -/
inductive Passes : Option Char → List Char → Prop
  | nil : Passes none []
  | unit {c : Char} {cs : List Char} (hBrace : c ≠ '\x7d') (hQuote : ¬(c = '\x27' ∨ c = '\x22'))
      (hRest : Passes none cs) : Passes none (c :: cs)
  | opened {c : Char} {cs : List Char} (hQuote : c = '\x27' ∨ c = '\x22')
      (hRest : Passes (some c) cs) : Passes none (c :: cs)
  | closed {quote : Char} {cs : List Char} (hBackslash : quote ≠ '\\')
      (hRest : Passes none cs) : Passes (some quote) (quote :: cs)
  | inside {quote c : Char} {cs : List Char} (hQuote : c ≠ quote) (hBackslash : c ≠ '\\')
      (hRest : Passes (some quote) cs) : Passes (some quote) (c :: cs)
  | escaped {quote c : Char} {cs : List Char} (hRest : Passes (some quote) cs) :
      Passes (some quote) ('\\' :: c :: cs)

theorem scan_inQuotes {quote c : Char} {held cs : List Char} (hBackslash : c ≠ '\\') :
    scan (.inExpression (some quote) held) (c :: cs) =
      if c = quote then scan (.inExpression none (c :: held)) cs
      else scan (.inExpression (some quote) (c :: held)) cs := by
  rw [scan]
  rintro d rest rfl
  exact absurd rfl hBackslash

/-- The scan for the closing brace runs over such units. -/
theorem scan_of_passes {quote? : Option Char} {body : List Char} (hPasses : Passes quote? body)
    (behind : List Char) : ∀ held, scan (.inExpression quote? held) (body ++ behind) =
      scan (.inExpression none (body.reverse ++ held)) behind := by
  induction hPasses with
  | nil => exact fun held => rfl
  | @unit c cs hBrace hQuote _ ih =>
      intro held
      rw [List.cons_append, scan, if_neg hBrace, if_neg hQuote, ih, Text.reverse_cons_append]
  | @opened c cs hQuote _ ih =>
      intro held
      have hBrace : c ≠ '\x7d' := by
        rcases hQuote with rfl | rfl
        · decide
        · decide
      rw [List.cons_append, scan, if_neg hBrace, if_pos hQuote, ih, Text.reverse_cons_append]
  | closed hBackslash _ ih =>
      intro held
      rw [List.cons_append, scan_inQuotes hBackslash, if_pos rfl, ih, Text.reverse_cons_append]
  | inside hQuote hBackslash _ ih =>
      intro held
      rw [List.cons_append, scan_inQuotes hBackslash, if_neg hQuote, ih, Text.reverse_cons_append]
  | escaped _ ih =>
      intro held
      rw [List.cons_append, List.cons_append, scan, ih, Text.reverse_cons_append,
        Text.reverse_cons_append]

section Agreement

open Token

variable {cs : List Char}

theorem passes_of_quoted {quote : Char} {body value : List Char} (hBackslash : quote ≠ '\\')
    (hBody : Quoted quote body value) (hRest : Passes none cs) :
    Passes (some quote) (body ++ quote :: cs) := by
  induction hBody with
  | nil => exact .closed hBackslash hRest
  | plain hQuote hPlain _ ih => exact .inside hQuote hPlain ih
  | escaped _ _ ih => exact .escaped ih

theorem passes_of_inName {units : List Char} (hUnits : ∀ c ∈ units, inName c = true)
    (hRest : Passes none cs) : Passes none (units ++ cs) := by
  induction units with
  | nil => exact hRest
  | cons c units ih =>
      obtain ⟨hFirst, hOthers⟩ := List.forall_mem_cons.mp hUnits
      refine .unit (ne_of_inName hFirst rfl) ?_ (ih hOthers)
      exact not_or.mpr ⟨ne_of_inName hFirst rfl, ne_of_inName hFirst rfl⟩

theorem passes_of_spelled {token : Token} {units : List Char} (hSpelled : Spelled token units)
    (hRest : Passes none cs) : Passes none (units ++ cs) := by
  cases hSpelled with
  | @string quote body value hQuote hBody =>
      have hBackslash : quote ≠ '\\' := by
        rcases hQuote with rfl | rfl
        · decide
        · decide
      rw [List.cons_append, List.append_assoc]
      exact .opened hQuote (passes_of_quoted hBackslash hBody hRest)
  | number hFirst hUnits =>
      refine passes_of_inName (List.forall_mem_cons.mpr ⟨?_, ?_⟩) hRest
      · exact inName_of_inNumber (inNumber_of_isDigit hFirst)
      · exact fun c hMem => inName_of_inNumber (hUnits c hMem)
  | name hFirst hUnits =>
      exact passes_of_inName (List.forall_mem_cons.mpr ⟨inName_of_startsName hFirst, hUnits⟩) hRest
  | opening | closing | comma => exact .unit (by decide) (by decide) hRest
  | equal | unequal => exact .unit (by decide) (by decide) (.unit (by decide) (by decide) hRest)

/-- What can be divided into tokens is passed over as a whole. -/
theorem passes_of_sequence {tokens : List Token} (hSequence : Sequence cs tokens) :
    Passes none cs := by
  induction hSequence with
  | nil => exact .nil
  | @blank c cs tokens hBlank _ ih =>
      have hNe : ∀ other, Text.isBlank other = false → c ≠ other := by
        rintro other hOther rfl
        rw [hBlank] at hOther
        cases hOther
      exact .unit (hNe _ rfl) (not_or.mpr ⟨hNe _ rfl, hNe _ rfl⟩) ih
  | token hSpelled _ _ ih => exact passes_of_spelled hSpelled ih

end Agreement

/-- Behind the units held, the text leads to the closing brace of an expression that can be read,
and the template goes on behind it. -/
def ClosesExpression (held cs : List Char) (segments : List Segment) : Prop :=
  ∃ body behind parsed others, cs = body ++ '\x7d' :: behind ∧
    Expression.read (String.ofList (held.reverse ++ body)) = .ok parsed ∧
    scan (.inPlain []) behind = .ok others ∧
    segments = .expression (written (held.reverse ++ body)) parsed :: others

/-- A unit that is passed over goes from the text to the units held. -/
theorem ClosesExpression.cons {c : Char} {held cs : List Char} {segments : List Segment}
    (hCloses : ClosesExpression (c :: held) cs segments) :
    ClosesExpression held (c :: cs) segments := by
  obtain ⟨body, behind, parsed, others, rfl, hRead, hOthers, rfl⟩ := hCloses
  rw [Text.reverse_cons_append] at hRead ⊢
  exact ⟨c :: body, behind, parsed, others, rfl, hRead, hOthers, rfl⟩

theorem closesExpression_of_scan {state : Scan} {cs : List Char} {segments : List Segment}
    (hScan : scan state cs = .ok segments) :
    ∀ quote? held, state = .inExpression quote? held → ClosesExpression held cs segments := by
  fun_induction scan state cs with
  | case1 | case3 | case4 => rintro _ _ ⟨⟩
  | case2 => cases hScan
  | case5 held cs ih =>
      rintro _ _ ⟨⟩
      obtain ⟨parsed, hRead, hRest⟩ := bind_eq_ok_iff.mp hScan
      obtain ⟨others, hOthers, hResult⟩ := bind_eq_ok_iff.mp hRest
      cases hResult
      exact ⟨[], cs, parsed, others, rfl, by rwa [List.append_nil], hOthers,
        by rw [List.append_nil]⟩
  | case6 held c cs _ _ ih =>
      rintro _ _ ⟨⟩
      exact (ih hScan _ _ rfl).cons
  | case7 held c cs _ _ ih =>
      rintro _ _ ⟨⟩
      exact (ih hScan _ _ rfl).cons
  | case8 quote held c cs ih =>
      rintro _ _ ⟨⟩
      exact (ih hScan _ _ rfl).cons.cons
  | case9 held c cs _ ih =>
      rintro _ _ ⟨⟩
      exact (ih hScan _ _ rfl).cons
  | case10 quote held c cs _ _ ih =>
      rintro _ _ ⟨⟩
      exact (ih hScan _ _ rfl).cons

/-- An expression that can be read is found again between its braces. -/
theorem scan_expression {body : String} {behind : List Char} {parsed : Expression}
    {others : List Segment} (hRead : Expression.read body = .ok parsed)
    (hOthers : scan (.inPlain []) behind = .ok others) :
    scan (.inExpression none []) (body.toList ++ '\x7d' :: behind) =
      .ok (.expression (written body.toList) parsed :: others) := by
  obtain ⟨tokens, hSequence, -⟩ := Expression.read_eq_ok_iff.mp hRead
  rw [scan_of_passes (passes_of_sequence hSequence), scan, if_pos rfl]
  simp only [List.append_nil, List.reverse_reverse, String.ofList_toList, hRead, hOthers]
  rfl

end Expressions

section Dividing

variable {segments : List Segment} {text body : String} {parsed : Expression}

theorem written_eq (body : String) : written body.toList = "$\x7b" ++ body ++ "\x7d" := by
  refine String.toList_injective ?_
  simp [written, opener]

theorem divides_nil : Divides [] "" :=
  ⟨rfl, nofun, .nil⟩

theorem Divides.expression (hDivides : Divides segments text)
    (hRead : Expression.read body = .ok parsed) :
    Divides (.expression (written body.toList) parsed :: segments)
      (written body.toList ++ text) where
  join := by rw [List.map_cons, String.join_cons, hDivides.join, Segment.source]
  fits := List.forall_mem_cons.mpr ⟨⟨body, written_eq body, hRead⟩, hDivides.fits⟩
  apart := List.isChain_cons.mpr ⟨fun _ _ => .inl rfl, hDivides.apart⟩

/-- A run without an opener goes before segments that do not begin with plain text. -/
theorem Divides.plainOf {run : List Char} (hDivides : Divides segments text)
    (hRun : ¬opener <:+: run) (hHead : ∀ segment ∈ segments.head?, segment.isPlain = false) :
    Divides (plainOf run.reverse ++ segments) (String.ofList run ++ text) := by
  cases run with
  | nil => simpa [Template.plainOf] using hDivides
  | cons c run =>
      have hPlain : Template.plainOf (c :: run).reverse = [.plain (String.ofList (c :: run))] := by
        simp [Template.plainOf]
      rw [hPlain, List.singleton_append]
      have hFits : (Segment.plain (String.ofList (c :: run))).Fits :=
        ⟨by simp, by rwa [String.toList_ofList]⟩
      exact {
        join := by rw [List.map_cons, String.join_cons, hDivides.join, Segment.source]
        fits := List.forall_mem_cons.mpr ⟨hFits, hDivides.fits⟩
        apart := List.isChain_cons.mpr
          ⟨fun segment hSegment => .inr (hHead segment hSegment), hDivides.apart⟩ }

/-- What the scan finds divides the text: one run of plain text and one expression at a time. -/
theorem divides_of_scan {cs : List Char} {segments : List Segment}
    (hScan : scan (.inPlain []) cs = .ok segments) : Divides segments (String.ofList cs) := by
  induction hLength : cs.length using Nat.strong_induction_on generalizing cs segments with
  | _ n ih =>
      obtain ⟨run, hRun, hEnd | hMore⟩ := exists_run_of_scan hScan
      · obtain ⟨rfl, rfl⟩ := hEnd
        simpa using divides_nil.plainOf hRun nofun
      · obtain ⟨behind, others, rfl, hOthers, rfl⟩ := hMore
        obtain ⟨body, rest, parsed, more, rfl, hRead, hRest, rfl⟩ :=
          closesExpression_of_scan hOthers none [] rfl
        have hShorter : rest.length < n := by
          simp only [List.length_append, List.length_cons] at hLength
          omega
        have hText : String.ofList (run ++ '$' :: '\x7b' :: (body ++ '\x7d' :: rest)) =
            String.ofList run ++ (written body ++ String.ofList rest) := by
          refine String.toList_injective ?_
          simp [written, opener]
        have hDivides := (ih rest.length hShorter hRest rfl).expression hRead
        rw [String.toList_ofList] at hDivides
        rw [hText, List.append_nil]
        refine hDivides.plainOf hRun fun segment hSegment => ?_
        cases hSegment
        rfl

theorem plainOf_reverse (hSome : text ≠ "") : plainOf text.toList.reverse = [.plain text] := by
  have hUnits : text.toList ≠ [] := fun hNil => hSome (String.toList_injective hNil)
  simp [plainOf, hUnits]

/-- Where an expression comes first or nothing at all, the text does not begin with a brace. -/
theorem head_join_ne (hFits : ∀ segment ∈ segments, segment.Fits)
    (hHead : ∀ segment ∈ segments.head?, segment.isPlain = false) :
    (String.join (segments.map Segment.source)).toList.head? ≠ some '\x7b' := by
  cases segments with
  | nil => exact nofun
  | cons segment segments =>
      cases segment with
      | plain => cases hHead _ rfl
      | expression =>
          obtain ⟨body, rfl, -⟩ := hFits _ List.mem_cons_self
          simp [Segment.source]

/-- Segments that fit and stand apart are found again, behind units held where they do not begin
with plain text themselves. -/
theorem scan_of_divides {segments : List Segment} (hFits : ∀ segment ∈ segments, segment.Fits)
    (hApart : segments.IsChain Segment.Apart) :
    ∀ held, (held = [] ∨ ∀ segment ∈ segments.head?, segment.isPlain = false) →
      scan (.inPlain held) (String.join (segments.map Segment.source)).toList =
        .ok (plainOf held ++ segments) := by
  induction segments with
  | nil =>
      intro held _
      rw [List.append_nil]
      rfl
  | cons segment segments ih =>
      obtain ⟨hFirst, hRest⟩ := List.forall_mem_cons.mp hFits
      obtain ⟨hNext, hOthers⟩ := List.isChain_cons.mp hApart
      intro held hHeld
      rw [List.map_cons, String.join_cons, String.toList_append]
      cases segment with
      | expression source parsed =>
          obtain ⟨body, rfl, hRead⟩ := hFirst
          have hScan := scan_expression hRead (ih hRest hOthers [] (.inl rfl))
          have hText : ("$\x7b" ++ body ++ "\x7d").toList ++
              (String.join (segments.map Segment.source)).toList =
                '$' :: '\x7b' :: (body.toList ++
                  '\x7d' :: (String.join (segments.map Segment.source)).toList) := by
            simp
          rw [Segment.source, hText, scan_inPlain_opener, hScan, ok_bind, written_eq]
          rfl
      | plain text =>
          -- Nothing is held, and an expression follows if anything does.
          obtain ⟨hSome, hRun⟩ := hFirst
          have hNothing : held = [] := by
            refine hHeld.resolve_right fun hHead => ?_
            cases hHead _ rfl
          subst hNothing
          have hHead : ∀ segment ∈ segments.head?, segment.isPlain = false :=
            fun segment hSegment => (hNext segment hSegment).resolve_left nofun
          rw [Segment.source, scan_inPlain_run hRun (head_join_ne hRest hHead),
            ih hRest hOthers _ (.inr hHead), List.append_nil, plainOf_reverse hSome]
          rfl

/-- A text is divided into the segments that divide it, and into no others. -/
theorem read_eq_ok_iff : read text = .ok segments ↔ Divides segments text := by
  constructor
  · intro hRead
    have hDivides := divides_of_scan hRead
    rwa [String.ofList_toList] at hDivides
  · intro hDivides
    have hScan := scan_of_divides hDivides.fits hDivides.apart [] (.inl rfl)
    rwa [hDivides.join] at hScan

end Dividing

section Evaluating

variable {scope : Scope} {text : String}

theorem evalSegments_eq_mapM (segments : List Segment) :
    evalSegments scope segments = (segments.mapM (evalSegment scope)).map String.join := by
  induction segments with
  | nil => rfl
  | cons segment segments ih =>
      rw [evalSegments, ih, List.mapM_cons]
      cases evalSegment scope segment with
      | error cause => rfl
      | ok first =>
          cases segments.mapM (evalSegment scope) with
          | error cause => rfl
          | ok others => exact congrArg Except.ok String.join_cons.symm

/-- A text without an opener is divided into itself, unless it is empty, and keeps its value. -/
theorem evalSegments_of_plain (hPlain : ¬opener <:+: text.toList) :
    (read text >>= evalSegments scope) = .ok text := by
  have hRead : read text = .ok (plainOf text.toList.reverse) := by
    have hScan := scan_inPlain_run hPlain (show ([] : List Char).head? ≠ some '\x7b' from nofun) []
    rwa [List.append_nil, List.append_nil] at hScan
  rw [hRead, ok_bind]
  by_cases hSome : text = ""
  · subst hSome
    rfl
  · rw [plainOf_reverse hSome]
    exact congrArg Except.ok String.append_empty

/-- Interpolation goes through the segments, also where it need not. -/
theorem interpolate_eq_bind : interpolate scope text = (read text >>= evalSegments scope) := by
  unfold interpolate
  split
  next => rfl
  next hPlain =>
    exact (evalSegments_of_plain fun hInfix => hPlain (Text.contains_iff.mpr hInfix)).symm

end Evaluating

/-- The segments of a template are those that divide it: they make up the text, plain ones hold no
opener and stand apart, and expressions are what is read between their braces.  Interpolation puts
the values of the segments together; that it leaves a text without an opener alone makes no
difference. -/
theorem template_division (text : String) (segments : List Segment) :
    (read text = .ok segments ↔ Divides segments text) ∧
    (Divides segments text → ∀ scope,
      interpolate scope text = (segments.mapM (evalSegment scope)).map String.join) ∧
    (¬opener <:+: text.toList → ∀ scope, interpolate scope text = .ok text ∧
      (read text >>= fun segments => (segments.mapM (evalSegment scope)).map String.join) =
        .ok text) := by
  refine ⟨read_eq_ok_iff, ?_, ?_⟩
  · intro hDivides scope
    rw [interpolate_eq_bind, read_eq_ok_iff.mpr hDivides, ok_bind, evalSegments_eq_mapM]
  · intro hPlain scope
    have hGeneral : (read text >>= evalSegments scope) = .ok text := evalSegments_of_plain hPlain
    refine ⟨interpolate_eq_bind.trans hGeneral, ?_⟩
    simpa only [← evalSegments_eq_mapM] using hGeneral

/-- A dollar sign before an opener, a brace and an escaped quote in a string, and a brace in plain
text. -/
def quotedBraces : List Segment :=
  [.plain "a$",
    .expression "$\x7btrim(\x27\x7d\\\x27\x27)\x7d" (.call "trim" [.literal "\x7d\x27"]),
    .expression "$\x7bb\x7d" (.reference "b"), .plain "\x7d"]

def quotedBracesText : String :=
  "a$$\x7btrim(\x27\x7d\\\x27\x27)\x7d$\x7bb\x7d\x7d"

theorem divides_quotedBraces : Divides quotedBraces quotedBracesText := by
  have hCall : Expression.read "trim(\x27\x7d\\\x27\x27)" =
      .ok (.call "trim" [.literal "\x7d\x27"]) := by
    refine Expression.read_eq_ok_iff.mpr
      ⟨.name "trim" :: .opening :: ([.string "\x7d\x27"] ++ [.closing]),
        Token.read_eq_ok_iff.mp (by decide +kernel), ?_⟩
    exact .operand (.call (by decide) (.lastArgument (.operand (.string _))))
  have hReference : Expression.read "b" = .ok (.reference "b") :=
    Expression.read_eq_ok_iff.mpr ⟨[.name "b"], Token.read_eq_ok_iff.mp (by decide +kernel),
      .operand (.reference (by decide))⟩
  refine ⟨by decide +kernel, ?_, by simp [quotedBraces, Segment.Apart, Segment.isPlain]⟩
  simp only [quotedBraces, List.forall_mem_cons]
  exact ⟨⟨by decide, by decide +kernel⟩, ⟨_, rfl, hCall⟩, ⟨_, rfl, hReference⟩,
    ⟨by decide, by decide +kernel⟩, nofun⟩

theorem template_division_quotedBraces :
    read quotedBracesText = .ok quotedBraces ∧
    (∀ scope, interpolate scope quotedBracesText =
      (quotedBraces.mapM (evalSegment scope)).map String.join) ∧
    ∀ scope, interpolate scope "$ \x7bb\x7d" = .ok "$ \x7bb\x7d" := by
  obtain ⟨hRead, hValue, -⟩ := template_division quotedBracesText quotedBraces
  obtain ⟨-, -, hPlain⟩ := template_division "$ \x7bb\x7d" []
  refine ⟨hRead.mpr divides_quotedBraces, hValue divides_quotedBraces, fun scope => ?_⟩
  exact (hPlain (by decide +kernel) scope).1

end Template
end WorkflowDag
