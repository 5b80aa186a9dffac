import WorkflowDag.Proofs.ExpressionGrammar

/-!
# Written expressions are read back

The written form of an expression is a sequence of tokens from which the expression is derived
(`Expression.Writes`), so reading gives the expression again (`Expression.read_written`).  The
induction is on the expression and carries two facts: the form as it stands is an expression, and
the form with a comparison in parentheses is an operand.
-/

namespace WorkflowDag
namespace Expression

/-- A text that can be a name. -/
def isName (s : String) : Bool :=
  match s.toList with
  | [] => false
  | c :: cs => Token.startsName c && cs.all Token.inName

mutual

/-- The names of the variables and functions in an expression. -/
def names : Expression → List String
  | literal _ => []
  | reference name => [name]
  | call name arguments => name :: namesOfAll arguments
  | compare _ left right => names left ++ names right

/-- The names in a list of expressions. -/
def namesOfAll : List Expression → List String
  | [] => []
  | e :: rest => names e ++ namesOfAll rest

end

/-- The name can be written for a variable or a function. -/
def Writable (name : String) : Prop :=
  isName name = true ∧ name ∉ literalWords

/-- The units are tokens from which the phrase is derived. -/
def Writes (cs : List Char) (phrase : Phrase) : Prop :=
  ∃ tokens, Token.Sequence cs tokens ∧ Derives Reading tokens phrase

section Tokens

open Token

theorem sequence_name {name : String} (hName : isName name = true) :
    Sequence name.toList [.name name] := by
  unfold isName at hName
  split at hName
  · cases hName
  next c cs hUnits =>
    obtain ⟨hFirst, hRest⟩ := Bool.and_eq_true_iff.mp hName
    have hSpelled : Spelled (.name (String.ofList (c :: cs))) (c :: cs) :=
      .name hFirst (List.all_eq_true.mp hRest)
    rw [← hUnits, String.ofList_toList] at hSpelled
    exact hSpelled.sequence

theorem quoted_quoteUnits (cs : List Char) : Quoted '\x27' (quoteUnits cs) cs := by
  induction cs with
  | nil => exact .nil
  | cons c cs ih =>
      rw [quoteUnits]
      split
      · exact .escaped (by decide) ih
      next hPlain =>
        obtain ⟨hBackslash, hQuote⟩ := not_or.mp hPlain
        exact .plain hQuote hBackslash ih

theorem sequence_literal (value : String) :
    Sequence (write (.literal value)).toList [.string value] := by
  have hSpelled := Spelled.string (.inl rfl) (quoted_quoteUnits value.toList)
  rw [String.ofList_toList] at hSpelled
  simpa [write] using hSpelled.sequence

end Tokens

namespace Writes

variable {cs ds : List Char} {e f : Expression} {es : List Expression} {name : String}

theorem compare (hLeft : Writes cs (.operand e)) (op : Comparison)
    (hRight : Writes ds (.operand f)) :
    Writes (cs ++ ' ' :: (op.word.toList ++ ' ' :: ds)) (.expression (.compare op e f)) := by
  obtain ⟨left, hSequence, hDerives⟩ := hLeft
  obtain ⟨right, hSequence', hDerives'⟩ := hRight
  have hWord : Token.Sequence op.word.toList [.name op.word] := by
    cases op with
    | eq | ne => exact sequence_name rfl
  have hReading : Reading (.name op.word) op := by
    cases op with
    | eq | ne => rfl
  have hTail : Token.Sequence (op.word.toList ++ ' ' :: ds) (.name op.word :: right) :=
    hWord.append (.blank rfl hSequence') rfl
  exact ⟨_, hSequence.append (.blank rfl hTail) rfl, .compare hDerives hReading hDerives'⟩

/-- What stands in parentheses, with the tokens of the parentheses. -/
theorem sequence_parentheses {tokens : List Token} (hSequence : Token.Sequence cs tokens) :
    Token.Sequence ('(' :: (cs ++ [')'])) (.opening :: (tokens ++ [.closing])) :=
  .token .opening (fun _ _ => rfl) (hSequence.append Token.Spelled.closing.sequence rfl)

theorem parentheses (hInner : Writes cs (.expression e)) :
    Writes ('(' :: (cs ++ [')'])) (.operand e) := by
  obtain ⟨tokens, hSequence, hDerives⟩ := hInner
  exact ⟨_, sequence_parentheses hSequence, .parentheses hDerives⟩

theorem callEmpty (hName : Writable name) :
    Writes (name.toList ++ ['(', ')']) (.operand (.call name [])) := by
  have hSequence := (sequence_name hName.1).append (sequence_parentheses .nil) rfl
  exact ⟨_, hSequence, .callEmpty hName.2⟩

theorem call (hName : Writable name) (hArguments : Writes cs (.arguments es)) :
    Writes (name.toList ++ '(' :: (cs ++ [')'])) (.operand (.call name es)) := by
  obtain ⟨tokens, hSequence, hDerives⟩ := hArguments
  have hCall := (sequence_name hName.1).append (sequence_parentheses hSequence) rfl
  exact ⟨_, hCall, .call hName.2 hDerives⟩

theorem lastArgument (hArgument : Writes cs (.expression e)) : Writes cs (.arguments [e]) := by
  obtain ⟨tokens, hSequence, hDerives⟩ := hArgument
  exact ⟨tokens, hSequence, .lastArgument hDerives⟩

theorem argument (hArgument : Writes cs (.expression e)) (hOthers : Writes ds (.arguments es)) :
    Writes (cs ++ ',' :: ' ' :: ds) (.arguments (e :: es)) := by
  obtain ⟨tokens, hSequence, hDerives⟩ := hArgument
  obtain ⟨others, hSequence', hDerives'⟩ := hOthers
  have hTail : Token.Sequence (',' :: ' ' :: ds) (.comma :: others) :=
    .token .comma (fun _ _ => rfl) (.blank rfl hSequence')
  exact ⟨_, hSequence.append hTail rfl, .argument hDerives hDerives'⟩

theorem expression_of_operand (hOperand : Writes cs (.operand e)) : Writes cs (.expression e) := by
  obtain ⟨tokens, hSequence, hDerives⟩ := hOperand
  exact ⟨tokens, hSequence, .operand hDerives⟩

end Writes

mutual

/-- The written form is an expression and, with a comparison in parentheses, an operand. -/
theorem writes_write (e : Expression) (hNames : ∀ name ∈ e.names, Writable name) :
    Writes (write e).toList (.expression e) ∧ Writes (embrace e (write e)).toList (.operand e) := by
  cases e with
  | literal value =>
      have hLiteral : Writes (write (.literal value)).toList (.operand (.literal value)) :=
        ⟨_, sequence_literal value, .string value⟩
      exact ⟨hLiteral.expression_of_operand, hLiteral⟩
  | reference name =>
      have hName := hNames name (by simp [names])
      have hReference : Writes (write (.reference name)).toList (.operand (.reference name)) := by
        rw [write]
        exact ⟨_, sequence_name hName.1, .reference hName.2⟩
      exact ⟨hReference.expression_of_operand, hReference⟩
  | call name arguments =>
      rw [names] at hNames
      obtain ⟨hName, hArguments⟩ := List.forall_mem_cons.mp hNames
      have hCall : Writes (write (.call name arguments)).toList
          (.operand (.call name arguments)) := by
        cases arguments with
        | nil => simpa [write, writeAll] using Writes.callEmpty hName
        | cons e es =>
            have hInside := writes_writeAll (e :: es) (List.cons_ne_nil e es) hArguments
            simpa [write] using hInside.call hName
      exact ⟨hCall.expression_of_operand, hCall⟩
  | compare op left right =>
      rw [names] at hNames
      obtain ⟨hLeft, hRight⟩ := List.forall_mem_append.mp hNames
      have hCompare : Writes (write (.compare op left right)).toList
          (.expression (.compare op left right)) := by
        simpa [write] using (writes_write left hLeft).2.compare op (writes_write right hRight).2
      refine ⟨hCompare, ?_⟩
      simpa [embrace] using hCompare.parentheses

theorem writes_writeAll (es : List Expression) (hSome : es ≠ [])
    (hNames : ∀ name ∈ namesOfAll es, Writable name) :
    Writes (writeAll es).toList (.arguments es) := by
  cases es with
  | nil => exact absurd rfl hSome
  | cons e rest =>
      rw [namesOfAll] at hNames
      obtain ⟨hFirst, hRest⟩ := List.forall_mem_append.mp hNames
      have hArgument := (writes_write e hFirst).1
      cases rest with
      | nil =>
          rw [writeAll]
          exact hArgument.lastArgument
      | cons f others =>
          have hOthers := writes_writeAll (f :: others) (List.cons_ne_nil f others) hRest
          simpa [writeAll] using hArgument.argument hOthers

end

/-- Whatever is written is read back, if its variables and functions have names that can be written:
other names than those of literals, made of the units of names. -/
theorem read_written (e : Expression)
    (hNames : ∀ name ∈ e.names, isName name = true ∧ name ∉ literalWords) :
    read (write e) = .ok e :=
  read_eq_ok_iff.mpr (writes_write e hNames).1

/-- Comparisons inside a call, names that are words of comparisons, and a literal with a quote and a
backslash. -/
def nestedCalls : Expression :=
  .compare .eq (.reference "eq") (.call "ne" [.compare .ne (.literal "it\x27s \\")
    (.compare .eq (.reference "wf:conf-1.x") (.literal "")), .call "ne" []])

theorem read_written_nestedCalls :
    (∀ name ∈ nestedCalls.names, isName name = true ∧ name ∉ literalWords) ∧
    read (write nestedCalls) = .ok nestedCalls := by
  have hNames : ∀ name ∈ nestedCalls.names, isName name = true ∧ name ∉ literalWords := by
    decide +kernel
  exact ⟨hNames, read_written nestedCalls hNames⟩

end Expression
end WorkflowDag
