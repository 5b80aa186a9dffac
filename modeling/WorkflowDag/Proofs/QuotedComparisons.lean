import WorkflowDag.Proofs.ExpressionGrammar

/-!
# Words in quotes that compare

In the grammar of expressions the words that compare are names (`Expression.Compares`).  Reading
takes them in quotes as well (`Expression.ComparesQuoted`), although a quoted word is a string.  So
it reads all that the grammar derives and, besides, comparisons by a quoted word
(`Expression.reads_grammar`).
-/

namespace WorkflowDag
namespace Expression

/-- The tokens that compare, by the grammar. -/
inductive Compares : Token → Comparison → Prop
  | equal : Compares .equal .eq
  | unequal : Compares .unequal .ne
  | eqWord : Compares (.name "eq") .eq
  | neWord : Compares (.name "ne") .ne

/-- The tokens that compare where words may stand in quotes. -/
inductive ComparesQuoted : Token → Comparison → Prop
  | unquoted {token : Token} {op : Comparison} (hCompares : Compares token op) :
      ComparesQuoted token op
  | eqQuoted : ComparesQuoted (.string "eq") .eq
  | neQuoted : ComparesQuoted (.string "ne") .ne

section Comparisons

variable {source : String} {tokens : List Token} {token : Token} {op : Comparison} {e : Expression}

theorem reading_of_comparesQuoted (hCompares : ComparesQuoted token op) : Reading token op := by
  cases hCompares with
  | unquoted hCompares =>
      cases hCompares with
      | equal | unequal | eqWord | neWord => rfl
  | eqQuoted | neQuoted => rfl

/-- Numbers begin with a digit, so no number is a word. -/
theorem comparesQuoted_of_reading {units : List Char} (hSpelled : Token.Spelled token units)
    (hReading : Reading token op) : ComparesQuoted token op := by
  have hWord : ∀ value : String, (if value = "eq" then some Comparison.eq
      else if value = "ne" then some Comparison.ne else none) = some op →
      value = "eq" ∧ op = .eq ∨ value = "ne" ∧ op = .ne := by
    intro value hValue
    split at hValue
    next hEq => exact .inl ⟨hEq, (Option.some.inj hValue).symm⟩
    split at hValue
    next hNe => exact .inr ⟨hNe, (Option.some.inj hValue).symm⟩
    next => cases hValue
  cases hSpelled with
  | string =>
      rcases hWord _ hReading with ⟨hValue, rfl⟩ | ⟨hValue, rfl⟩
      · exact hValue ▸ .eqQuoted
      · exact hValue ▸ .neQuoted
  | name =>
      rcases hWord _ hReading with ⟨hValue, rfl⟩ | ⟨hValue, rfl⟩
      · exact hValue ▸ .unquoted .eqWord
      · exact hValue ▸ .unquoted .neWord
  | number hFirst =>
      rcases hWord _ hReading with ⟨hValue, -⟩ | ⟨hValue, -⟩
      · cases String.ofList_injective hValue
        cases hFirst
      · cases String.ofList_injective hValue
        cases hFirst
  | opening | closing | comma => cases hReading
  | equal =>
      cases hReading
      exact .unquoted .equal
  | unequal =>
      cases hReading
      exact .unquoted .unequal

theorem derives_reading_iff (hSequence : Token.Sequence source.toList tokens) :
    Derives Reading tokens (.expression e) ↔ Derives ComparesQuoted tokens (.expression e) := by
  constructor
  · intro hDerives
    refine hDerives.mono fun token hToken op hReading => ?_
    obtain ⟨units, hSpelled⟩ := hSequence.exists_spelled token hToken
    exact comparesQuoted_of_reading hSpelled hReading
  · intro hDerives
    exact hDerives.mono fun _ _ _ hCompares => reading_of_comparesQuoted hCompares

/-- Without a quoted word among the tokens, quotes make no difference. -/
theorem derives_quoted_iff (hEq : .string "eq" ∉ tokens) (hNe : .string "ne" ∉ tokens) :
    Derives ComparesQuoted tokens (.expression e) ↔ Derives Compares tokens (.expression e) := by
  constructor
  · intro hDerives
    refine hDerives.mono fun token hToken op hCompares => ?_
    cases hCompares with
    | unquoted hCompares => exact hCompares
    | eqQuoted => exact absurd hToken hEq
    | neQuoted => exact absurd hToken hNe
  · intro hDerives
    exact hDerives.mono fun _ _ _ hCompares => .unquoted hCompares

/-- A text has one sequence of tokens. -/
theorem sequence_unique {cs : List Char} {tokens' : List Token}
    (hSequence : Token.Sequence cs tokens) (hSequence' : Token.Sequence cs tokens') :
    tokens = tokens' :=
  Except.ok.inj ((Token.read_eq_ok_iff.mpr hSequence).symm.trans
    (Token.read_eq_ok_iff.mpr hSequence'))

/-- The grammar derives nothing from two names with a string between them. -/
theorem not_derives_quoted_word {first second value : String} :
    ¬Derives Compares [.name first, .string value, .name second] (.expression e) := by
  intro hDerives
  generalize hTokens : [Token.name first, .string value, .name second] = tokens at hDerives
  cases hDerives with
  | operand hOperand =>
      cases hOperand
      all_goals cases hTokens
  | compare hLeft hCompares hRight =>
      obtain ⟨left, lefts, rfl, -⟩ := hLeft.exists_head
      obtain ⟨right, rights, rfl, -⟩ := hRight.exists_head
      cases lefts with
      | nil =>
          cases hTokens
          cases hCompares
      | cons other lefts =>
          have hLength := congrArg List.length hTokens
          simp at hLength
          omega

end Comparisons

/-- Reading accepts the texts that the grammar derives where words that compare may stand in quotes,
and gives what is derived; on all other texts it fails and names the text.  So whatever the grammar
itself derives is read, and nothing else is read from a text without a quoted `eq` or `ne`. -/
theorem reads_grammar (source : String) :
    (∀ e, read source = .ok e ↔ ∃ tokens, Token.Sequence source.toList tokens ∧
      Derives ComparesQuoted tokens (.expression e)) ∧
    (∀ tokens e, Token.Sequence source.toList tokens → Derives Compares tokens (.expression e) →
      read source = .ok e) ∧
    (∀ tokens e, Token.Sequence source.toList tokens → .string "eq" ∉ tokens →
      .string "ne" ∉ tokens → read source = .ok e → Derives Compares tokens (.expression e)) ∧
    ((∀ e, read source ≠ .ok e) → ∃ fault, read source = .error (.unsupported source fault)) := by
  have hReads : ∀ e, read source = .ok e ↔ ∃ tokens, Token.Sequence source.toList tokens ∧
      Derives ComparesQuoted tokens (.expression e) := by
    intro e
    rw [read_eq_ok_iff]
    refine exists_congr fun tokens => and_congr_right fun hSequence => ?_
    exact derives_reading_iff hSequence
  refine ⟨hReads, ?_, ?_, ?_⟩
  · intro tokens e hSequence hDerives
    exact (hReads e).mpr
      ⟨tokens, hSequence, hDerives.mono fun _ _ _ hCompares => .unquoted hCompares⟩
  · intro tokens e hSequence hEq hNe hRead
    obtain ⟨tokens', hSequence', hDerives⟩ := (hReads e).mp hRead
    cases sequence_unique hSequence' hSequence
    exact (derives_quoted_iff hEq hNe).mp hDerives
  · intro hFails
    cases hRead : read source with
    | ok e => exact absurd hRead (hFails e)
    | error cause =>
        obtain ⟨fault, -, rfl⟩ := mapError_eq_error_iff.mp hRead
        exact ⟨fault, rfl⟩

/-- A variable may be named like a comparison. -/
theorem reads_grammar_words :
    Token.Sequence "eq eq null".toList [.name "eq", .name "eq", .name "null"] ∧
    Derives Compares [.name "eq", .name "eq", .name "null"]
      (.expression (.compare .eq (.reference "eq") (.literal ""))) ∧
    read "eq eq null" = .ok (.compare .eq (.reference "eq") (.literal "")) := by
  have hSequence : Token.Sequence "eq eq null".toList [.name "eq", .name "eq", .name "null"] :=
    Token.read_eq_ok_iff.mp (by decide +kernel)
  have hDerives : Derives Compares [.name "eq", .name "eq", .name "null"]
      (.expression (.compare .eq (.reference "eq") (.literal ""))) :=
    .compare (.reference (by decide)) .eqWord .nullWord
  exact ⟨hSequence, hDerives, (reads_grammar "eq eq null").2.1 _ _ hSequence hDerives⟩

/-- A quoted word is read as a comparison, where the grammar has only a string. -/
theorem quoted_word_compares :
    read "a \x27eq\x27 b" = .ok (.compare .eq (.reference "a") (.reference "b")) ∧
    ¬∃ tokens e, Token.Sequence "a \x27eq\x27 b".toList tokens ∧
      Derives Compares tokens (.expression e) := by
  have hSequence : Token.Sequence "a \x27eq\x27 b".toList [.name "a", .string "eq", .name "b"] :=
    Token.read_eq_ok_iff.mp (by decide +kernel)
  constructor
  · refine read_eq_ok_iff.mpr ⟨_, hSequence, ?_⟩
    exact .compare (.reference (by decide)) rfl (.reference (by decide))
  · rintro ⟨tokens, e, hSequence', hDerives⟩
    cases sequence_unique hSequence' hSequence
    exact not_derives_quoted_word hDerives

end Expression
end WorkflowDag
