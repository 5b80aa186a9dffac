import Mathlib.Data.List.Forall2
import WorkflowDag.Proofs.Success
import WorkflowDag.Task.Resolution

/-!
# Where evaluation fails

An error of the texts of an action is the error of one of these texts
(`exists_text_of_resolveDetails`).  Most of the errors of a text say themselves what is wrong.  A
misuse does not, so it is traced back to the expression at fault: a built-in member is called as a
function, or a function that needs a text is given one (`misused_of_interpolate`).
-/

namespace WorkflowDag

namespace Expression

/-- The first expression is part of the second. -/
inductive Within : Expression → Expression → Prop
  | self (e : Expression) : Within e e
  | left {part left right : Expression} {op : Comparison} (hPart : Within part left) :
      Within part (.compare op left right)
  | right {part left right : Expression} {op : Comparison} (hPart : Within part right) :
      Within part (.compare op left right)
  | argument {part argument : Expression} {name : String} {arguments : List Expression}
      (hArgument : argument ∈ arguments) (hPart : Within part argument) :
      Within part (.call name arguments)

/-- The expression calls a built-in member, or passes one to a function that needs a text. -/
inductive Misuses (scope : Scope) : Expression → Misuse → Prop
  | called {name : String} {arguments : List Expression} {member : Intrinsic}
      (hMember : Intrinsic.ofName? name = some member) :
      Misuses scope (.call name arguments) .calledAsFunction
  | trimmed {argument : Expression} {member : Intrinsic}
      (hMember : argument.eval scope = .ok (.member member)) :
      Misuses scope (.call Builtin.trim.name [argument]) .trimmed
  | searched {text pattern replacement : Expression} {member : Intrinsic}
      (hMember : text.eval scope = .ok (.member member)) :
      Misuses scope (.call Builtin.replaceAll.name [text, pattern, replacement]) .searched
  | replacing {text pattern replacement : Expression} {member : Intrinsic}
      (hMember : replacement.eval scope = .ok (.member member)) :
      Misuses scope (.call Builtin.replaceAll.name [text, pattern, replacement]) .usedAsReplacer

end Expression

/-- The values, one or three of them, that a function has been given when it misuses a member. -/
inductive Builtin.Misused : Builtin → List Value → Misuse → Prop
  | trimmed (member : Intrinsic) : Misused .trim [.member member] .trimmed
  | searched (member : Intrinsic) (pattern replacement : Value) :
      Misused .replaceAll [.member member, pattern, replacement] .searched
  | replacing (text pattern : Value) (member : Intrinsic) :
      Misused .replaceAll [text, pattern, .member member] .usedAsReplacer

namespace Builtin

variable {scope : Scope} {misuse : Misuse}

theorem name_of_ofName? {name : String} {function : Builtin}
    (hFunction : ofName? name = some function) : function.name = name := by
  have hName := List.find?_some hFunction
  exact eq_of_beq hName

theorem misused_of_replaceAllIn {text pattern replacement : Value}
    (hApply : replaceAllIn text pattern replacement = .error (.misuse misuse)) :
    Misused .replaceAll [text, pattern, replacement] misuse := by
  unfold replaceAllIn at hApply
  split at hApply
  · cases hApply
  · cases text with
    | member member =>
        cases hApply
        exact .searched member pattern replacement
    | text content =>
        cases replacement with
        | text template => cases hApply
        | member member =>
            -- Only a member that cannot write fails, and only at a match.
            simp only [replaced] at hApply
            split at hApply
            · cases hApply
            · cases hApply
            · split at hApply
              · cases hApply
              · cases hApply
                exact .replacing (.text content) pattern member

theorem misused_of_apply {function : Builtin} {values : List Value}
    (hApply : function.apply scope values = .error (.misuse misuse)) :
    Misused function values misuse := by
  unfold apply at hApply
  split at hApply
  · cases hApply
  · cases hApply
  · cases hApply
  · cases hApply
    exact .trimmed _
  · exact misused_of_replaceAllIn hApply
  · cases hApply
  · unfold Scope.lookup at hApply
    split at hApply
    · cases hApply
    · cases hApply
  · split at hApply
    · cases hApply
    · cases hApply
  · cases hApply

end Builtin

namespace Expression

variable {scope : Scope} {misuse : Misuse}

theorem ofName?_of_callee {name : String} {arguments : List Expression} {function : Builtin}
    (hCallee : callee name arguments = .ok function) : Builtin.ofName? name = some function := by
  unfold callee at hCallee
  split at hCallee
  next found hFound =>
    split at hCallee
    · cases hCallee
      exact hFound
    · cases hCallee
  next =>
    split at hCallee
    · cases hCallee
    · cases hCallee

theorem misuses_of_callee {name : String} {arguments : List Expression}
    (hCallee : callee name arguments = .error (.misuse misuse)) :
    Misuses scope (.call name arguments) misuse := by
  unfold callee at hCallee
  split at hCallee
  · split at hCallee
    · cases hCallee
    · cases hCallee
  · split at hCallee
    next hMember =>
      cases hCallee
      obtain ⟨member, hMember⟩ := Option.isSome_iff_exists.mp hMember
      exact .called hMember
    next => cases hCallee

/-- Values of expressions are those of each of them. -/
theorem forall₂_of_evalAll (arguments : List Expression) :
    ∀ values, evalAll scope arguments = .ok values →
      List.Forall₂ (fun argument value => argument.eval scope = .ok value) arguments values := by
  induction arguments with
  | nil =>
      intro values hEval
      rw [evalAll] at hEval
      cases hEval
      exact .nil
  | cons argument rest ih =>
      intro values hEval
      rw [evalAll] at hEval
      obtain ⟨value, hValue, hEval⟩ := bind_eq_ok_iff.mp hEval
      obtain ⟨others, hOthers, hEval⟩ := bind_eq_ok_iff.mp hEval
      cases hEval
      exact .cons hValue (ih others hOthers)

/-- What a function misuses is the value of an argument of the call. -/
theorem misuses_of_misused {function : Builtin} {arguments : List Expression} {values : List Value}
    (hValues : List.Forall₂ (fun argument value => argument.eval scope = .ok value)
      arguments values)
    (hMisused : Builtin.Misused function values misuse) :
    Misuses scope (.call function.name arguments) misuse := by
  cases hMisused with
  | trimmed member =>
      rcases hValues with _ | ⟨hArgument, _ | _⟩
      exact .trimmed hArgument
  | searched member pattern replacement =>
      rcases hValues with _ | ⟨hText, _ | ⟨_, _ | ⟨_, _ | _⟩⟩⟩
      exact .searched hText
  | replacing text pattern member =>
      rcases hValues with _ | ⟨_, _ | ⟨_, _ | ⟨hReplacement, _ | _⟩⟩⟩
      exact .replacing hReplacement

mutual

/-- A misuse happens in some part of the expression. -/
theorem exists_misuses_of_eval (e : Expression)
    (hEval : e.eval scope = .error (.misuse misuse)) :
    ∃ part, Within part e ∧ Misuses scope part misuse := by
  match e with
  | .literal value =>
      rw [eval] at hEval
      cases hEval
  | .reference name =>
      rw [eval, Scope.lookup] at hEval
      split at hEval
      · cases hEval
      · cases hEval
  | .compare op left right =>
      rw [eval] at hEval
      rcases bind_eq_error_iff.mp hEval with hLeft | ⟨a, -, hEval⟩
      · obtain ⟨part, hPart, hMisuses⟩ := exists_misuses_of_eval left hLeft
        exact ⟨part, .left hPart, hMisuses⟩
      rcases bind_eq_error_iff.mp hEval with hRight | ⟨b, -, hEval⟩
      · obtain ⟨part, hPart, hMisuses⟩ := exists_misuses_of_eval right hRight
        exact ⟨part, .right hPart, hMisuses⟩
      cases hEval
  | .call name arguments =>
      rw [eval] at hEval
      rcases bind_eq_error_iff.mp hEval with hCallee | ⟨function, hCallee, hEval⟩
      · exact ⟨_, .self _, misuses_of_callee hCallee⟩
      rcases bind_eq_error_iff.mp hEval with hArguments | ⟨values, hValues, hApply⟩
      · obtain ⟨argument, hArgument, part, hPart, hMisuses⟩ :=
          exists_misuses_of_evalAll arguments hArguments
        exact ⟨part, .argument hArgument hPart, hMisuses⟩
      refine ⟨_, .self _, ?_⟩
      rw [← Builtin.name_of_ofName? (ofName?_of_callee hCallee)]
      exact misuses_of_misused (forall₂_of_evalAll arguments values hValues)
        (Builtin.misused_of_apply hApply)

theorem exists_misuses_of_evalAll (es : List Expression)
    (hEval : evalAll scope es = .error (.misuse misuse)) :
    ∃ e ∈ es, ∃ part, Within part e ∧ Misuses scope part misuse := by
  match es with
  | [] =>
      rw [evalAll] at hEval
      cases hEval
  | e :: rest =>
      rw [evalAll] at hEval
      rcases bind_eq_error_iff.mp hEval with hFirst | ⟨value, -, hEval⟩
      · obtain ⟨part, hPart, hMisuses⟩ := exists_misuses_of_eval e hFirst
        exact ⟨e, List.mem_cons_self, part, hPart, hMisuses⟩
      rcases bind_eq_error_iff.mp hEval with hRest | ⟨values, -, hEval⟩
      · obtain ⟨other, hOther, hMisuses⟩ := exists_misuses_of_evalAll rest hRest
        exact ⟨other, List.mem_cons_of_mem e hOther, hMisuses⟩
      cases hEval

end

end Expression

namespace Template

variable {scope : Scope} {misuse : Misuse}

/-- Some part of an expression in the text misuses a built-in member. -/
def Misused (scope : Scope) (text : String) (misuse : Misuse) : Prop :=
  ∃ segments source e part, read text = .ok segments ∧ Segment.expression source e ∈ segments ∧
    Expression.Within part e ∧ Expression.Misuses scope part misuse

/-- What is wrong with the form of a template is that an expression is not supported. -/
theorem exists_unsupported_of_scan {state : Scan} {cs : List Char} {cause : EvalError}
    (hScan : scan state cs = .error cause) :
    ∃ expression fault, cause = .unsupported expression fault := by
  fun_induction scan state cs with
  | case1 held => cases hScan
  | case2 quote held =>
      cases hScan
      exact ⟨_, _, rfl⟩
  | case3 held cs ih =>
      rcases bind_eq_error_iff.mp hScan with hRest | ⟨rest, -, hScan⟩
      · exact ih hRest
      · cases hScan
  | case4 held c cs _ ih => exact ih hScan
  | case5 held cs ih =>
      rcases bind_eq_error_iff.mp hScan with hRead | ⟨parsed, -, hScan⟩
      · obtain ⟨fault, -, rfl⟩ := mapError_eq_error_iff.mp hRead
        exact ⟨_, fault, rfl⟩
      rcases bind_eq_error_iff.mp hScan with hRest | ⟨rest, -, hScan⟩
      · exact ih hRest
      · cases hScan
  | case6 held c cs _ _ ih => exact ih hScan
  | case7 held c cs _ _ ih => exact ih hScan
  | case8 quote held c cs ih => exact ih hScan
  | case9 held c cs _ ih => exact ih hScan
  | case10 quote held c cs _ _ ih => exact ih hScan

theorem misuses_of_evalSegment {segment : Segment}
    (hEval : evalSegment scope segment = .error (.misuse misuse)) :
    ∃ source e part, segment = .expression source e ∧ Expression.Within part e ∧
      Expression.Misuses scope part misuse := by
  cases segment with
  | plain text => cases hEval
  | expression source e =>
      have hValue : e.eval scope = .error (.misuse misuse) := by
        simp only [evalSegment] at hEval
        split at hEval
        · split at hEval
          · cases hEval
          · exact map_eq_error_iff.mp hEval
        · exact map_eq_error_iff.mp hEval
      obtain ⟨part, hPart, hMisuses⟩ := Expression.exists_misuses_of_eval e hValue
      exact ⟨source, e, part, rfl, hPart, hMisuses⟩

theorem exists_segment_of_evalSegments {segments : List Segment} {cause : EvalError}
    (hEval : evalSegments scope segments = .error cause) :
    ∃ segment ∈ segments, evalSegment scope segment = .error cause := by
  induction segments with
  | nil => cases hEval
  | cons segment rest ih =>
      rcases bind_eq_error_iff.mp hEval with hFirst | ⟨first, -, hEval⟩
      · exact ⟨segment, List.mem_cons_self, hFirst⟩
      rcases bind_eq_error_iff.mp hEval with hRest | ⟨others, -, hEval⟩
      · obtain ⟨other, hOther, hFails⟩ := ih hRest
        exact ⟨other, List.mem_cons_of_mem segment hOther, hFails⟩
      cases hEval

/-- A misuse is one of an expression in the text. -/
theorem misused_of_interpolate {text : String}
    (hText : interpolate scope text = .error (.misuse misuse)) : Misused scope text misuse := by
  unfold interpolate at hText
  split at hText
  · rcases bind_eq_error_iff.mp hText with hRead | ⟨segments, hRead, hEval⟩
    · obtain ⟨expression, fault, hCause⟩ := exists_unsupported_of_scan hRead
      cases hCause
    · obtain ⟨segment, hSegment, hFails⟩ := exists_segment_of_evalSegments hEval
      obtain ⟨source, e, part, rfl, hPart, hMisuses⟩ := misuses_of_evalSegment hFails
      exact ⟨segments, source, e, part, hRead, hSegment, hPart, hMisuses⟩
  · cases hText

end Template

mutual

/-- The texts of an element: its own, those of its attributes and all below it. -/
def Element.texts : Element → List String
  | ⟨_, attributes, text, children⟩ =>
    text :: (attributes.entries.map Prod.snd ++ Element.textsOfAll children)

/-- The texts of a list of elements. -/
def Element.textsOfAll : List Element → List String
  | [] => []
  | e :: rest => e.texts ++ Element.textsOfAll rest

end

/-- The texts of an action in which expressions may stand. -/
def Action.texts (a : Action) : List String :=
  a.prepare.map Preparation.path ++ (a.configuration.entries.map Prod.snd ++
    (a.files ++ (a.archives ++ Element.textsOfAll a.payload)))

/-- The texts of a node that its task shows. -/
def Node.texts : Node → List String
  | .action a => a.texts
  | .kill _ message => [message]
  | _ => []

section Texts

variable {f : String → Except EvalError String} {cause : EvalError}

theorem exists_item_of_resolveEach {α : Type} {one : α → Except EvalError α} {items : List α}
    (hResolve : resolveEach one items = .error cause) :
    ∃ item ∈ items, one item = .error cause := by
  induction items with
  | nil => cases hResolve
  | cons item rest ih =>
      rcases bind_eq_error_iff.mp hResolve with hFirst | ⟨first, -, hResolve⟩
      · exact ⟨item, List.mem_cons_self, hFirst⟩
      rcases bind_eq_error_iff.mp hResolve with hRest | ⟨others, -, hResolve⟩
      · obtain ⟨other, hOther, hFails⟩ := ih hRest
        exact ⟨other, List.mem_cons_of_mem item hOther, hFails⟩
      cases hResolve

theorem exists_text_of_resolveEntries {entries : List (String × String)}
    (hResolve : resolveEach (resolveEntry f) entries = .error cause) :
    ∃ text ∈ entries.map Prod.snd, f text = .error cause := by
  obtain ⟨entry, hEntry, hFails⟩ := exists_item_of_resolveEach hResolve
  exact ⟨entry.2, List.mem_map.mpr ⟨entry, hEntry, rfl⟩, map_eq_error_iff.mp hFails⟩

mutual

theorem exists_text_of_resolveElement (e : Element)
    (hResolve : resolveElement f e = .error cause) : ∃ text ∈ e.texts, f text = .error cause := by
  match e with
  | ⟨tag, attributes, text, children⟩ =>
      rw [resolveElement] at hResolve
      rw [Element.texts]
      rcases bind_eq_error_iff.mp hResolve with hText | ⟨text', -, hResolve⟩
      · exact ⟨text, List.mem_cons_self, hText⟩
      rcases bind_eq_error_iff.mp hResolve with hAttributes | ⟨attributes', -, hResolve⟩
      · obtain ⟨value, hValue, hFails⟩ := exists_text_of_resolveEntries hAttributes
        exact ⟨value, List.mem_cons_of_mem _ (List.mem_append_left _ hValue), hFails⟩
      rcases bind_eq_error_iff.mp hResolve with hChildren | ⟨children', -, hResolve⟩
      · obtain ⟨below, hBelow, hFails⟩ := exists_text_of_resolveElements children hChildren
        exact ⟨below, List.mem_cons_of_mem _ (List.mem_append_right _ hBelow), hFails⟩
      cases hResolve

theorem exists_text_of_resolveElements (elements : List Element)
    (hResolve : resolveElements f elements = .error cause) :
    ∃ text ∈ Element.textsOfAll elements, f text = .error cause := by
  match elements with
  | [] =>
      rw [resolveElements] at hResolve
      cases hResolve
  | e :: rest =>
      rw [resolveElements] at hResolve
      rw [Element.textsOfAll]
      rcases bind_eq_error_iff.mp hResolve with hFirst | ⟨first, -, hResolve⟩
      · obtain ⟨text, hText, hFails⟩ := exists_text_of_resolveElement e hFirst
        exact ⟨text, List.mem_append_left _ hText, hFails⟩
      rcases bind_eq_error_iff.mp hResolve with hRest | ⟨others, -, hResolve⟩
      · obtain ⟨text, hText, hFails⟩ := exists_text_of_resolveElements rest hRest
        exact ⟨text, List.mem_append_right _ hText, hFails⟩
      cases hResolve

end

/-- The error of an action is that of one of its texts. -/
theorem exists_text_of_resolveDetails {a : Action} (hResolve : resolveDetails f a = .error cause) :
    ∃ text ∈ a.texts, f text = .error cause := by
  unfold Action.texts
  simp only [List.mem_append]
  rcases bind_eq_error_iff.mp hResolve with hPrepare | ⟨prepare, -, hResolve⟩
  · obtain ⟨step, hStep, hFails⟩ := exists_item_of_resolveEach hPrepare
    exact ⟨step.path, .inl (List.mem_map.mpr ⟨step, hStep, rfl⟩), map_eq_error_iff.mp hFails⟩
  rcases bind_eq_error_iff.mp hResolve with hConfiguration | ⟨configuration, -, hResolve⟩
  · obtain ⟨text, hText, hFails⟩ := exists_text_of_resolveEntries hConfiguration
    exact ⟨text, .inr (.inl hText), hFails⟩
  rcases bind_eq_error_iff.mp hResolve with hFiles | ⟨files, -, hResolve⟩
  · obtain ⟨text, hText, hFails⟩ := exists_item_of_resolveEach hFiles
    exact ⟨text, .inr (.inr (.inl hText)), hFails⟩
  rcases bind_eq_error_iff.mp hResolve with hArchives | ⟨archives, -, hResolve⟩
  · obtain ⟨text, hText, hFails⟩ := exists_item_of_resolveEach hArchives
    exact ⟨text, .inr (.inr (.inr (.inl hText))), hFails⟩
  rcases bind_eq_error_iff.mp hResolve with hPayload | ⟨payload, -, hResolve⟩
  · obtain ⟨text, hText, hFails⟩ := exists_text_of_resolveElements a.payload hPayload
    exact ⟨text, .inr (.inr (.inr (.inr hText))), hFails⟩
  cases hResolve

end Texts

end WorkflowDag
