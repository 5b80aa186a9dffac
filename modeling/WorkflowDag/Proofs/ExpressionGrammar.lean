import WorkflowDag.Expression.Reading
import WorkflowDag.Proofs.TokenSequences

/-!
# The grammar of expressions

    expression := operand (("eq" | "ne" | "==" | "!=") operand)?
    operand    := string | number | true | false | null
                | name "(" [expression ("," expression)*] ")"
                | name
                | "(" expression ")"

`Expression.Derives` is this grammar as a relation between runs of tokens and what they stand for.
It has one parameter: which tokens compare.

Reading gives exactly what the grammar derives with the comparisons that it knows
(`Expression.read_eq_ok_iff`).  One direction says that enough steps are left for every phrase
(`reads_of_derives`), the other that a phrase is derived from the tokens that were taken for it
(`sound`).
-/

namespace WorkflowDag
namespace Expression

/-- The words that stand for literals; they name no variable and no function. -/
def literalWords : List String := ["true", "false", "null"]

/-- What a run of tokens stands for. -/
inductive Phrase where
  | expression (e : Expression)
  | operand (e : Expression)
  | arguments (es : List Expression)

/-- The grammar, with the tokens that compare left open. -/
inductive Derives (Comparing : Token → Comparison → Prop) : List Token → Phrase → Prop
  | operand {tokens : List Token} {e : Expression}
      (hOperand : Derives Comparing tokens (.operand e)) :
      Derives Comparing tokens (.expression e)
  | compare {left right : List Token} {token : Token} {op : Comparison} {e f : Expression}
      (hLeft : Derives Comparing left (.operand e)) (hCompares : Comparing token op)
      (hRight : Derives Comparing right (.operand f)) :
      Derives Comparing (left ++ token :: right) (.expression (.compare op e f))
  | string (value : String) : Derives Comparing [.string value] (.operand (.literal value))
  | number (value : String) : Derives Comparing [.number value] (.operand (.literal value))
  | trueWord : Derives Comparing [.name "true"] (.operand (.literal "true"))
  | falseWord : Derives Comparing [.name "false"] (.operand (.literal "false"))
  | nullWord : Derives Comparing [.name "null"] (.operand (.literal ""))
  | reference {name : String} (hName : name ∉ literalWords) :
      Derives Comparing [.name name] (.operand (.reference name))
  | callEmpty {name : String} (hName : name ∉ literalWords) :
      Derives Comparing [.name name, .opening, .closing] (.operand (.call name []))
  | call {name : String} {tokens : List Token} {es : List Expression} (hName : name ∉ literalWords)
      (hArguments : Derives Comparing tokens (.arguments es)) :
      Derives Comparing (.name name :: .opening :: (tokens ++ [.closing]))
        (.operand (.call name es))
  | parentheses {tokens : List Token} {e : Expression}
      (hInner : Derives Comparing tokens (.expression e)) :
      Derives Comparing (.opening :: (tokens ++ [.closing])) (.operand e)
  | lastArgument {tokens : List Token} {e : Expression}
      (hArgument : Derives Comparing tokens (.expression e)) :
      Derives Comparing tokens (.arguments [e])
  | argument {tokens others : List Token} {e : Expression} {es : List Expression}
      (hArgument : Derives Comparing tokens (.expression e))
      (hOthers : Derives Comparing others (.arguments es)) :
      Derives Comparing (tokens ++ .comma :: others) (.arguments (e :: es))

/-- The tokens that reading takes for comparisons. -/
def Reading (token : Token) (op : Comparison) : Prop :=
  comparison? token = some op

section Derivations

variable {Comparing Comparing' : Token → Comparison → Prop} {tokens : List Token} {phrase : Phrase}

/-- A derivation holds with other comparisons where these agree on the tokens at hand. -/
theorem Derives.mono (hDerives : Derives Comparing tokens phrase) :
    (∀ token ∈ tokens, ∀ op, Comparing token op → Comparing' token op) →
      Derives Comparing' tokens phrase := by
  induction hDerives with
  | operand _ ih => exact fun hMono => .operand (ih hMono)
  | compare _ hCompares _ ihLeft ihRight =>
      intro hMono
      obtain ⟨hLeft, hRest⟩ := List.forall_mem_append.mp hMono
      obtain ⟨hToken, hRight⟩ := List.forall_mem_cons.mp hRest
      exact .compare (ihLeft hLeft) (hToken _ hCompares) (ihRight hRight)
  | string value => exact fun _ => .string value
  | number value => exact fun _ => .number value
  | trueWord => exact fun _ => .trueWord
  | falseWord => exact fun _ => .falseWord
  | nullWord => exact fun _ => .nullWord
  | reference hName => exact fun _ => .reference hName
  | callEmpty hName => exact fun _ => .callEmpty hName
  | call hName _ ih =>
      intro hMono
      obtain ⟨-, hRest⟩ := List.forall_mem_cons.mp hMono
      obtain ⟨-, hRest⟩ := List.forall_mem_cons.mp hRest
      exact .call hName (ih (List.forall_mem_append.mp hRest).1)
  | parentheses _ ih =>
      intro hMono
      obtain ⟨-, hRest⟩ := List.forall_mem_cons.mp hMono
      exact .parentheses (ih (List.forall_mem_append.mp hRest).1)
  | lastArgument _ ih => exact fun hMono => .lastArgument (ih hMono)
  | argument _ _ ihFirst ihOthers =>
      intro hMono
      obtain ⟨hFirst, hRest⟩ := List.forall_mem_append.mp hMono
      exact .argument (ihFirst hFirst) (ihOthers (List.forall_mem_cons.mp hRest).2)

/-- Nothing is derived from no tokens, and nothing that begins with a closing parenthesis. -/
theorem Derives.exists_head (hDerives : Derives Comparing tokens phrase) :
    ∃ first rest, tokens = first :: rest ∧ first ≠ .closing := by
  induction hDerives with
  | operand _ ih => exact ih
  | lastArgument _ ih => exact ih
  | compare _ _ _ ihLeft _ =>
      obtain ⟨first, rest, rfl, hFirst⟩ := ihLeft
      exact ⟨first, _, rfl, hFirst⟩
  | argument _ _ ihFirst _ =>
      obtain ⟨first, rest, rfl, hFirst⟩ := ihFirst
      exact ⟨first, _, rfl, hFirst⟩
  | string => exact ⟨_, _, rfl, nofun⟩
  | number => exact ⟨_, _, rfl, nofun⟩
  | trueWord => exact ⟨_, _, rfl, nofun⟩
  | falseWord => exact ⟨_, _, rfl, nofun⟩
  | nullWord => exact ⟨_, _, rfl, nofun⟩
  | reference => exact ⟨_, _, rfl, nofun⟩
  | callEmpty => exact ⟨_, _, rfl, nofun⟩
  | call => exact ⟨_, _, rfl, nofun⟩
  | parentheses => exact ⟨_, _, rfl, nofun⟩

end Derivations

section Completeness

variable {steps : Nat} {name : String} {tokens rest : List Token}

theorem ne_of_notMem_literalWords (hName : name ∉ literalWords) :
    ¬(name = "true" ∨ name = "false") ∧ name ≠ "null" := by
  simpa [literalWords, and_assoc] using hName

theorem operand_reference (hName : name ∉ literalWords) (hRest : rest.head? ≠ some .opening) :
    operand (steps + 1) (.name name :: rest) = .ok (.reference name, rest) := by
  obtain ⟨hTruth, hNull⟩ := ne_of_notMem_literalWords hName
  simp only [operand, if_neg hTruth, if_neg hNull]
  split
  next => exact absurd rfl hRest
  next => exact absurd rfl hRest
  next => rfl

theorem operand_callEmpty (hName : name ∉ literalWords) :
    operand (steps + 1) (.name name :: .opening :: .closing :: rest) =
      .ok (.call name [], rest) := by
  obtain ⟨hTruth, hNull⟩ := ne_of_notMem_literalWords hName
  simp only [operand, if_neg hTruth, if_neg hNull]

theorem operand_call {first : Token} {es : List Expression} (hName : name ∉ literalWords)
    (hFirst : first ≠ .closing)
    (hArguments : arguments steps (first :: tokens) = .ok (es, .closing :: rest)) :
    operand (steps + 1) (.name name :: .opening :: first :: tokens) =
      .ok (.call name es, rest) := by
  obtain ⟨hTruth, hNull⟩ := ne_of_notMem_literalWords hName
  simp only [operand, if_neg hTruth, if_neg hNull]
  split
  next hTokens => exact absurd (List.cons.inj (List.cons.inj hTokens).2).1 hFirst
  next hTokens =>
    cases hTokens
    rw [hArguments]
    rfl
  next hOther => exact absurd rfl (hOther _)

theorem operand_parentheses {e : Expression}
    (hInner : expression steps tokens = .ok (e, .closing :: rest)) :
    operand (steps + 1) (.opening :: tokens) = .ok (e, rest) := by
  simp only [operand, hInner]
  rfl

theorem expression_operand {e : Expression} (hOperand : operand steps tokens = .ok (e, rest))
    (hEnd : ∀ token ∈ rest.head?, comparison? token = none) :
    expression (steps + 1) tokens = .ok (e, rest) := by
  rw [expression, hOperand, ok_bind]
  cases rest with
  | nil => rfl
  | cons token rest =>
      dsimp only
      rw [hEnd token rfl]
      rfl

theorem expression_compare {e f : Expression} {token : Token} {op : Comparison}
    {right : List Token} (hLeft : operand steps tokens = .ok (e, token :: right))
    (hCompares : Reading token op) (hRight : operand steps right = .ok (f, rest)) :
    expression (steps + 1) tokens = .ok (.compare op e f, rest) := by
  rw [expression, hLeft, ok_bind]
  dsimp only
  rw [hCompares]
  dsimp only
  rw [hRight]
  rfl

theorem arguments_last {e : Expression}
    (hArgument : expression steps tokens = .ok (e, .closing :: rest)) :
    arguments (steps + 1) tokens = .ok ([e], .closing :: rest) := by
  rw [arguments, hArgument]
  rfl

theorem arguments_more {e : Expression} {es : List Expression} {others : List Token}
    (hArgument : expression steps tokens = .ok (e, .comma :: others))
    (hOthers : arguments steps others = .ok (es, rest)) :
    arguments (steps + 1) tokens = .ok (e :: es, rest) := by
  rw [arguments, hArgument, ok_bind]
  dsimp only
  rw [hOthers]
  rfl

/-- An expression can end before these tokens: a closing parenthesis, a comma or nothing. -/
def Ends (rest : List Token) : Prop :=
  ∀ token ∈ rest.head?, token = .closing ∨ token = .comma

theorem ends_nil : Ends [] := nofun

theorem ends_closing : Ends (.closing :: rest) :=
  fun _ hToken => .inl (Option.some.inj hToken).symm

theorem ends_comma : Ends (.comma :: rest) :=
  fun _ hToken => .inr (Option.some.inj hToken).symm

theorem Ends.head_ne_opening (hEnds : Ends rest) : rest.head? ≠ some .opening := by
  intro hHead
  rcases hEnds _ hHead with hToken | hToken
  · cases hToken
  · cases hToken

theorem Ends.comparison?_eq_none (hEnds : Ends rest) :
    ∀ token ∈ rest.head?, comparison? token = none := by
  intro token hToken
  rcases hEnds token hToken with rfl | rfl
  · rfl
  · rfl

/-- The tokens are read as what they stand for wherever the tokens behind them can stand behind such
a phrase.  Each kind of phrase needs its number of steps. -/
def Phrase.Reads (tokens : List Token) : Phrase → Prop
  | .expression e => ∀ steps rest, tokens.length + 1 ≤ steps → Ends rest →
      Expression.expression steps (tokens ++ rest) = .ok (e, rest)
  | .operand e => ∀ steps rest, tokens.length ≤ steps → rest.head? ≠ some .opening →
      Expression.operand steps (tokens ++ rest) = .ok (e, rest)
  | .arguments es => ∀ steps rest, tokens.length + 2 ≤ steps →
      Expression.arguments steps (tokens ++ .closing :: rest) = .ok (es, .closing :: rest)

theorem ne_opening_of_reading {token : Token} {op : Comparison} (hCompares : Reading token op) :
    token ≠ .opening := by
  rintro rfl
  cases hCompares

theorem reads_of_derives {phrase : Phrase} (hDerives : Derives Reading tokens phrase) :
    phrase.Reads tokens := by
  induction hDerives with
  | operand _ ih =>
      intro steps rest hSteps hEnds
      obtain ⟨steps, rfl⟩ := Nat.exists_eq_add_of_le' (show 1 ≤ steps by omega)
      exact expression_operand (ih steps rest (by omega) hEnds.head_ne_opening)
        hEnds.comparison?_eq_none
  | @compare left right token op e f _ hCompares _ ihLeft ihRight =>
      intro steps rest hSteps hEnds
      rw [List.length_append, List.length_cons] at hSteps
      obtain ⟨steps, rfl⟩ := Nat.exists_eq_add_of_le' (show 1 ≤ steps by omega)
      have hLeft : operand steps (left ++ token :: (right ++ rest)) =
          .ok (e, token :: (right ++ rest)) := by
        refine ihLeft steps (token :: (right ++ rest)) (by omega) ?_
        exact fun hHead => ne_opening_of_reading hCompares (Option.some.inj hHead)
      rw [List.append_assoc, List.cons_append]
      exact expression_compare hLeft hCompares (ihRight steps rest (by omega) hEnds.head_ne_opening)
  | string | number | trueWord | falseWord | nullWord =>
      intro steps rest hSteps _
      obtain ⟨steps, rfl⟩ := Nat.exists_eq_add_of_le' hSteps
      rfl
  | reference hName =>
      intro steps rest hSteps hRest
      obtain ⟨steps, rfl⟩ := Nat.exists_eq_add_of_le' hSteps
      exact operand_reference hName hRest
  | callEmpty hName =>
      intro steps rest hSteps _
      obtain ⟨steps, rfl⟩ := Nat.exists_eq_add_of_le' (Nat.le_of_add_left_le hSteps)
      exact operand_callEmpty hName
  | @call name tokens es hName hArguments ih =>
      intro steps rest hSteps _
      rw [List.length_cons, List.length_cons, List.length_append, List.length_singleton] at hSteps
      obtain ⟨steps, rfl⟩ := Nat.exists_eq_add_of_le' (show 1 ≤ steps by omega)
      have hInside := ih steps rest (by omega)
      -- What is not a closing parenthesis keeps the call from being read as one of nothing.
      obtain ⟨first, others, rfl, hFirst⟩ := hArguments.exists_head
      have hCall := operand_call hName hFirst hInside
      simpa using hCall
  | @parentheses tokens e _ ih =>
      intro steps rest hSteps _
      rw [List.length_cons, List.length_append, List.length_singleton] at hSteps
      obtain ⟨steps, rfl⟩ := Nat.exists_eq_add_of_le' (show 1 ≤ steps by omega)
      rw [List.cons_append, List.append_assoc]
      exact operand_parentheses (ih steps (.closing :: rest) (by omega) ends_closing)
  | lastArgument _ ih =>
      intro steps rest hSteps
      obtain ⟨steps, rfl⟩ := Nat.exists_eq_add_of_le' (show 1 ≤ steps by omega)
      exact arguments_last (ih steps (.closing :: rest) (by omega) ends_closing)
  | @argument tokens others e es _ _ ihFirst ihOthers =>
      intro steps rest hSteps
      rw [List.length_append, List.length_cons] at hSteps
      obtain ⟨steps, rfl⟩ := Nat.exists_eq_add_of_le' (show 1 ≤ steps by omega)
      rw [List.append_assoc, List.cons_append]
      exact arguments_more
        (ihFirst steps (.comma :: (others ++ .closing :: rest)) (by omega) ends_comma)
        (ihOthers steps rest (by omega))

end Completeness

section Soundness

variable {steps : Nat} {tokens rest : List Token}

theorem takeClose_eq_ok {fault : ExpressionFault} (hClose : takeClose fault tokens = .ok rest) :
    tokens = .closing :: rest := by
  unfold takeClose at hClose
  split at hClose
  · cases hClose
  · cases hClose
    rfl
  · cases hClose

/-- The tokens in front of the rest derive the phrase. -/
def Consumes (tokens : List Token) (phrase : Phrase) (rest : List Token) : Prop :=
  ∃ front, tokens = front ++ rest ∧ Derives Reading front phrase

/-- Whatever is read in a number of steps is derived from the tokens that were taken. -/
structure Sound (steps : Nat) : Prop where
  expression : ∀ tokens e rest, Expression.expression steps tokens = .ok (e, rest) →
    Consumes tokens (.expression e) rest
  operand : ∀ tokens e rest, Expression.operand steps tokens = .ok (e, rest) →
    Consumes tokens (.operand e) rest
  arguments : ∀ tokens es rest, Expression.arguments steps tokens = .ok (es, rest) →
    Consumes tokens (.arguments es) rest

theorem Sound.of_operand_name {e : Expression} {name : String} (hSound : Sound steps)
    (hOperand : Expression.operand (steps + 1) (.name name :: tokens) = .ok (e, rest)) :
    Consumes (.name name :: tokens) (.operand e) rest := by
  simp only [Expression.operand] at hOperand
  split at hOperand
  next hTruth =>
    cases hOperand
    rcases hTruth with rfl | rfl
    · exact ⟨_, rfl, .trueWord⟩
    · exact ⟨_, rfl, .falseWord⟩
  split at hOperand
  next hNull =>
    cases hOperand
    subst hNull
    exact ⟨_, rfl, .nullWord⟩
  next hTruth hNull =>
    have hName : name ∉ literalWords := by
      simpa [literalWords, and_assoc] using And.intro hTruth hNull
    split at hOperand
    · cases hOperand
      exact ⟨[.name name, .opening, .closing], rfl, .callEmpty hName⟩
    next inside _ =>
      obtain ⟨⟨es, behind⟩, hArguments, hCall⟩ := bind_eq_ok_iff.mp hOperand
      obtain ⟨behind', hClose, hResult⟩ := bind_eq_ok_iff.mp hCall
      cases hResult
      obtain ⟨front, rfl, hDerives⟩ := hSound.arguments _ _ _ hArguments
      have hBehind : behind = .closing :: rest := takeClose_eq_ok hClose
      exact ⟨_, by simp [hBehind], .call hName hDerives⟩
    · cases hOperand
      exact ⟨[.name name], rfl, .reference hName⟩

theorem Sound.of_operand {e : Expression} (hSound : Sound steps)
    (hOperand : Expression.operand (steps + 1) tokens = .ok (e, rest)) :
    Consumes tokens (.operand e) rest := by
  cases tokens with
  | nil => cases hOperand
  | cons token tokens =>
      cases token with
      | string value =>
          cases hOperand
          exact ⟨[.string value], rfl, .string value⟩
      | number value =>
          cases hOperand
          exact ⟨[.number value], rfl, .number value⟩
      | name value => exact hSound.of_operand_name hOperand
      | opening =>
          obtain ⟨⟨inner, behind⟩, hInner, hClosed⟩ := bind_eq_ok_iff.mp hOperand
          obtain ⟨behind', hClose, hResult⟩ := bind_eq_ok_iff.mp hClosed
          cases hResult
          obtain ⟨front, rfl, hDerives⟩ := hSound.expression _ _ _ hInner
          have hBehind : behind = .closing :: rest := takeClose_eq_ok hClose
          exact ⟨_, by simp [hBehind], .parentheses hDerives⟩
      | closing | comma | equal | unequal => cases hOperand

theorem Sound.of_expression {e : Expression} (hSound : Sound steps)
    (hExpression : Expression.expression (steps + 1) tokens = .ok (e, rest)) :
    Consumes tokens (.expression e) rest := by
  rw [Expression.expression] at hExpression
  obtain ⟨⟨left, behind⟩, hLeft, hBehind⟩ := bind_eq_ok_iff.mp hExpression
  obtain ⟨front, rfl, hDerives⟩ := hSound.operand _ _ _ hLeft
  cases behind with
  | nil =>
      cases hBehind
      exact ⟨front, rfl, .operand hDerives⟩
  | cons token behind =>
      dsimp only at hBehind
      cases hCompares : comparison? token with
      | none =>
          rw [hCompares] at hBehind
          cases hBehind
          exact ⟨front, rfl, .operand hDerives⟩
      | some op =>
          rw [hCompares] at hBehind
          obtain ⟨⟨right, behind'⟩, hRight, hResult⟩ := bind_eq_ok_iff.mp hBehind
          cases hResult
          obtain ⟨second, rfl, hSecond⟩ := hSound.operand _ _ _ hRight
          exact ⟨_, by simp, .compare hDerives hCompares hSecond⟩

theorem Sound.of_arguments {es : List Expression} (hSound : Sound steps)
    (hArguments : Expression.arguments (steps + 1) tokens = .ok (es, rest)) :
    Consumes tokens (.arguments es) rest := by
  rw [Expression.arguments] at hArguments
  obtain ⟨⟨first, behind⟩, hFirst, hBehind⟩ := bind_eq_ok_iff.mp hArguments
  obtain ⟨front, rfl, hDerives⟩ := hSound.expression _ _ _ hFirst
  dsimp only at hBehind
  split at hBehind
  next behind' =>
    obtain ⟨⟨others, behind''⟩, hOthers, hResult⟩ := bind_eq_ok_iff.mp hBehind
    cases hResult
    obtain ⟨second, rfl, hSecond⟩ := hSound.arguments _ _ _ hOthers
    exact ⟨_, by simp, .argument hDerives hSecond⟩
  next =>
    cases hBehind
    exact ⟨front, rfl, .lastArgument hDerives⟩

theorem sound (steps : Nat) : Sound steps := by
  induction steps with
  | zero => exact ⟨nofun, nofun, nofun⟩
  | succ steps ih =>
      exact ⟨fun _ _ _ => ih.of_expression, fun _ _ _ => ih.of_operand,
        fun _ _ _ => ih.of_arguments⟩

end Soundness

theorem ofTokens_eq_ok_iff {tokens : List Token} {e : Expression} :
    ofTokens tokens = .ok e ↔ Derives Reading tokens (.expression e) := by
  unfold ofTokens
  constructor
  · intro hRead
    obtain ⟨⟨result, rest⟩, hExpression, hResult⟩ := bind_eq_ok_iff.mp hRead
    obtain ⟨front, rfl, hDerives⟩ := (sound _).expression _ _ _ hExpression
    cases rest with
    | nil =>
        cases hResult
        rw [List.append_nil]
        exact hDerives
    | cons token rest => cases hResult
  · intro hDerives
    have hExpression := reads_of_derives hDerives (3 * tokens.length + 3) [] (by omega) ends_nil
    rw [List.append_nil] at hExpression
    rw [hExpression]
    rfl

/-- An expression is read from a text that is a sequence of tokens from which it is derived. -/
theorem read_eq_ok_iff {source : String} {e : Expression} :
    read source = .ok e ↔
      ∃ tokens, Token.Sequence source.toList tokens ∧ Derives Reading tokens (.expression e) := by
  unfold read
  dsimp only
  rw [mapError_eq_ok_iff, bind_eq_ok_iff]
  simp only [Token.read_eq_ok_iff, ofTokens_eq_ok_iff]

end Expression
end WorkflowDag
