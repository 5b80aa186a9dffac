import Mathlib.Data.List.Basic
import WorkflowDag.Expression.Token
import WorkflowDag.Proofs.Success

/-!
# Texts as sequences of tokens

What the tokens of a text are, said without a scanner: a token is spelled by certain units
(`Token.Spelled`), and a text is a sequence of such spellings with blanks anywhere between them
(`Token.Sequence`).  A name or number is as long as it can be: the unit behind it does not go on
with it.

The scan finds exactly these tokens (`Token.read_eq_ok_iff`).  The proof says for every place that
the scan can stand at which texts lead on from there to which tokens (`Token.Scan.Gives`).
-/

namespace WorkflowDag

namespace Text

/-- Units are held in reverse, so the next one that is taken comes behind them. -/
theorem reverse_cons_append (c : Char) (held cs : List Char) :
    (c :: held).reverse ++ cs = held.reverse ++ c :: cs := by
  rw [List.reverse_cons, List.append_assoc, List.singleton_append]

end Text

namespace Token

/-- The inside of a string between two units `quote`, and the text it stands for: a backslash takes
the unit behind it as it is. -/
inductive Quoted (quote : Char) : List Char → List Char → Prop
  | nil : Quoted quote [] []
  | plain {c : Char} {cs value : List Char} (hQuote : c ≠ quote) (hBackslash : c ≠ '\\')
      (hRest : Quoted quote cs value) : Quoted quote (c :: cs) (c :: value)
  | escaped {c : Char} {cs value : List Char} (hQuote : quote ≠ '\\')
      (hRest : Quoted quote cs value) : Quoted quote ('\\' :: c :: cs) (c :: value)

/-- The units spell the token. -/
inductive Spelled : Token → List Char → Prop
  | string {quote : Char} {body value : List Char} (hQuote : quote = '\x27' ∨ quote = '\x22')
      (hBody : Quoted quote body value) :
      Spelled (.string (String.ofList value)) (quote :: (body ++ [quote]))
  | number {c : Char} {cs : List Char} (hFirst : c.isDigit = true)
      (hUnits : ∀ d ∈ cs, inNumber d = true) : Spelled (.number (String.ofList (c :: cs))) (c :: cs)
  | name {c : Char} {cs : List Char} (hFirst : startsName c = true)
      (hUnits : ∀ d ∈ cs, inName d = true) : Spelled (.name (String.ofList (c :: cs))) (c :: cs)
  | opening : Spelled .opening ['(']
  | closing : Spelled .closing [')']
  | comma : Spelled .comma [',']
  | equal : Spelled .equal ['=', '=']
  | unequal : Spelled .unequal ['!', '=']

/-- The unit would go on with the token if it stood right behind it. -/
def goesOnWith : Token → Char → Bool
  | .number _, c => inNumber c
  | .name _, c => inName c
  | _, _ => false

/-- The text consists of these tokens and of blanks between them. -/
inductive Sequence : List Char → List Token → Prop
  | nil : Sequence [] []
  | blank {c : Char} {cs : List Char} {tokens : List Token} (hBlank : Text.isBlank c = true)
      (hRest : Sequence cs tokens) : Sequence (c :: cs) tokens
  | token {token : Token} {units cs : List Char} {tokens : List Token}
      (hSpelled : Spelled token units) (hEnd : ∀ c ∈ cs.head?, goesOnWith token c = false)
      (hRest : Sequence cs tokens) : Sequence (units ++ cs) (token :: tokens)

/-- The text goes on with a token for as long as its units are `inside`, and other tokens follow.
The units of the token so far are held backwards. -/
def RunGives (make : String → Token) (inside : Char → Bool) (held cs : List Char)
    (tokens : List Token) : Prop :=
  ∃ units rest others, cs = units ++ rest ∧ (∀ c ∈ units, inside c = true) ∧
    (∀ c ∈ rest.head?, inside c = false) ∧ Sequence rest others ∧
    tokens = make (String.ofList (held.reverse ++ units)) :: others

/-- Where the scan stands, the rest of the text leads on to these tokens. -/
def Scan.Gives : Scan → List Char → List Token → Prop
  | .between, cs, tokens => Sequence cs tokens
  | .inString quote held, cs, tokens => ∃ body value rest others, cs = body ++ quote :: rest ∧
      Quoted quote body value ∧ Sequence rest others ∧
      tokens = .string (String.ofList (held.reverse ++ value)) :: others
  | .inNumber held, cs, tokens => RunGives .number Token.inNumber held cs tokens
  | .inName held, cs, tokens => RunGives .name Token.inName held cs tokens
  | .afterSign sign, cs, tokens => ∃ rest others, cs = '=' :: rest ∧ Sequence rest others ∧
      tokens = ofSign sign :: others

section Units

variable {c : Char}

theorem inName_of_startsName (hStart : startsName c = true) : inName c = true := by
  rw [startsName, Bool.or_eq_true] at hStart
  rcases hStart with hAlpha | hUnderscore
  · simp [inName, Char.isAlphanum, hAlpha]
  · simp [inName, hUnderscore]

theorem inName_of_inNumber (hNumber : inNumber c = true) : inName c = true := by
  rw [inNumber, Bool.or_eq_true] at hNumber
  rcases hNumber with hDigit | hPoint
  · simp [inName, Char.isAlphanum, hDigit]
  · simp [inName, hPoint]

theorem inNumber_of_isDigit (hDigit : c.isDigit = true) : inNumber c = true := by
  rw [inNumber, hDigit, Bool.true_or]

theorem isAlpha_iff : c.isAlpha = true ↔
    0x41 ≤ c.toNat ∧ c.toNat ≤ 0x5A ∨ 0x61 ≤ c.toNat ∧ c.toNat ≤ 0x7A := by
  have hRanges : c.isAlpha = (decide ('A'.val ≤ c.val ∧ c.val ≤ 'Z'.val) ||
      decide ('a'.val ≤ c.val) && decide (c.val ≤ 'z'.val)) := rfl
  simp only [hRanges, Bool.or_eq_true, Bool.and_eq_true, decide_eq_true_eq, UInt32.le_iff_toNat_le]
  rfl

theorem isDigit_iff : c.isDigit = true ↔ 0x30 ≤ c.toNat ∧ c.toNat ≤ 0x39 :=
  Char.isDigit_iff_toNat

/-- The units of names are printed characters of the first 128. -/
theorem toNat_of_inName (hName : inName c = true) : 0x2D ≤ c.toNat ∧ c.toNat ≤ 0x7A := by
  simp only [inName, Char.isAlphanum, Bool.or_eq_true, beq_iff_eq, isAlpha_iff, isDigit_iff]
    at hName
  rcases hName with (((hRange | rfl) | rfl) | rfl) | rfl
  · omega
  all_goals decide

theorem isBlank_of_inName (hName : inName c = true) : Text.isBlank c = false := by
  obtain ⟨hLow, hHigh⟩ := toNat_of_inName hName
  simp only [Text.isBlank, Bool.or_eq_false_iff, Bool.and_eq_false_iff, decide_eq_false_iff_not,
    beq_eq_false_iff_ne]
  omega

theorem ne_of_inName (hName : inName c = true) {other : Char} (hOther : inName other = false) :
    c ≠ other := by
  rintro rfl
  rw [hName] at hOther
  cases hOther

theorem goesOnWith_of_inName (hName : inName c = false) {token : Token} :
    goesOnWith token c = false := by
  cases token with
  | name => exact hName
  | number =>
      refine Bool.eq_false_iff.mpr fun hNumber => ?_
      rw [inName_of_inNumber hNumber] at hName
      cases hName
  | string | opening | closing | comma | equal | unequal => rfl

theorem isDigit_of_startsName (hStart : startsName c = true) : c.isDigit = false := by
  rw [startsName, Bool.or_eq_true, isAlpha_iff, beq_iff_eq] at hStart
  rcases hStart with hRange | rfl
  · rw [Bool.eq_false_iff, ne_eq, isDigit_iff]
    omega
  · rfl

/-- Where a name or number can stand, no other token begins. -/
theorem begin_of_inName (hName : inName c = true) :
    begin c = if c.isDigit then .ok ([], .inNumber [c])
      else if startsName c then .ok ([], .inName [c])
      else .error (.unexpected (String.singleton c)) := by
  have hQuotes : ¬(c = '\x27' ∨ c = '\x22') :=
    not_or.mpr ⟨ne_of_inName hName rfl, ne_of_inName hName rfl⟩
  have hSigns : ¬(c = '=' ∨ c = '!') :=
    not_or.mpr ⟨ne_of_inName hName rfl, ne_of_inName hName rfl⟩
  rw [begin, isBlank_of_inName hName, if_neg Bool.false_ne_true, if_neg hQuotes, if_neg hSigns,
    if_neg (ne_of_inName hName rfl), if_neg (ne_of_inName hName rfl),
    if_neg (ne_of_inName hName rfl)]

theorem begin_of_isDigit (hDigit : c.isDigit = true) : begin c = .ok ([], .inNumber [c]) := by
  rw [begin_of_inName (inName_of_inNumber (inNumber_of_isDigit hDigit)), if_pos hDigit]

theorem begin_of_startsName (hStart : startsName c = true) : begin c = .ok ([], .inName [c]) := by
  rw [begin_of_inName (inName_of_startsName hStart), isDigit_of_startsName hStart,
    if_neg Bool.false_ne_true, if_pos hStart]

end Units

section Scanning

variable {c : Char} {cs : List Char} {tokens : List Token}

/-- What begins with a unit and goes on as the scan says is a sequence of tokens. -/
theorem sequence_of_begin {found others : List Token} {state : Scan}
    (hBegin : begin c = .ok (found, state)) (hGives : state.Gives cs others) :
    Sequence (c :: cs) (found ++ others) := by
  unfold begin at hBegin
  split at hBegin
  next hBlank =>
    cases hBegin
    exact .blank hBlank hGives
  split at hBegin
  next hQuote =>
    cases hBegin
    obtain ⟨body, value, rest, others, rfl, hBody, hRest, rfl⟩ := hGives
    have hSequence := Sequence.token (.string hQuote hBody) (fun _ _ => rfl) hRest
    simpa using hSequence
  split at hBegin
  next hSign =>
    cases hBegin
    obtain ⟨rest, others, rfl, hRest, rfl⟩ := hGives
    rcases hSign with rfl | rfl
    · exact .token .equal (fun _ _ => rfl) hRest
    · exact .token .unequal (fun _ _ => rfl) hRest
  split at hBegin
  next hOpening =>
    cases hBegin
    subst hOpening
    exact .token .opening (fun _ _ => rfl) hGives
  split at hBegin
  next hClosing =>
    cases hBegin
    subst hClosing
    exact .token .closing (fun _ _ => rfl) hGives
  split at hBegin
  next hComma =>
    cases hBegin
    subst hComma
    exact .token .comma (fun _ _ => rfl) hGives
  split at hBegin
  next hDigit =>
    cases hBegin
    obtain ⟨units, rest, others, rfl, hUnits, hEnd, hRest, rfl⟩ := hGives
    exact .token (.number hDigit hUnits) hEnd hRest
  split at hBegin
  next hStart =>
    cases hBegin
    obtain ⟨units, rest, others, rfl, hUnits, hEnd, hRest, rfl⟩ := hGives
    exact .token (.name hStart hUnits) hEnd hRest
  next => cases hBegin

/-- Every sequence of tokens begins with a unit that the scan knows. -/
theorem exists_begin_of_sequence (hSequence : Sequence (c :: cs) tokens) :
    ∃ found state others, begin c = .ok (found, state) ∧ state.Gives cs others ∧
      tokens = found ++ others := by
  generalize hText : c :: cs = text at hSequence
  cases hSequence with
  | nil => cases hText
  | blank hBlank hRest =>
      cases hText
      exact ⟨[], .between, _, if_pos hBlank, hRest, rfl⟩
  | token hSpelled hEnd hRest =>
      cases hSpelled with
      | @string quote body value hQuote hBody =>
          have hBegin : begin quote = .ok ([], .inString quote []) := by
            rcases hQuote with rfl | rfl
            · rfl
            · rfl
          cases hText
          exact ⟨[], _, _, hBegin, ⟨body, value, _, _, by simp, hBody, hRest, rfl⟩, rfl⟩
      | number hFirst hUnits =>
          cases hText
          exact ⟨[], _, _, begin_of_isDigit hFirst, ⟨_, _, _, rfl, hUnits, hEnd, hRest, rfl⟩, rfl⟩
      | name hFirst hUnits =>
          cases hText
          exact ⟨[], _, _, begin_of_startsName hFirst, ⟨_, _, _, rfl, hUnits, hEnd, hRest, rfl⟩,
            rfl⟩
      | opening =>
          cases hText
          exact ⟨[.opening], .between, _, rfl, hRest, rfl⟩
      | closing =>
          cases hText
          exact ⟨[.closing], .between, _, rfl, hRest, rfl⟩
      | comma =>
          cases hText
          exact ⟨[.comma], .between, _, rfl, hRest, rfl⟩
      | equal =>
          cases hText
          exact ⟨[], .afterSign '=', _, rfl, ⟨_, _, rfl, hRest, rfl⟩, rfl⟩
      | unequal =>
          cases hText
          exact ⟨[], .afterSign '!', _, rfl, ⟨_, _, rfl, hRest, rfl⟩, rfl⟩

theorem Spelled.ne_nil {token : Token} {units : List Char} (hSpelled : Spelled token units) :
    units ≠ [] := by
  rintro rfl
  cases hSpelled

theorem Spelled.sequence {token : Token} {units : List Char} (hSpelled : Spelled token units) :
    Sequence units [token] := by
  have hSequence : Sequence (units ++ []) [token] := .token hSpelled nofun .nil
  rwa [List.append_nil] at hSequence

/-- Every token of a sequence is spelled somewhere in the text. -/
theorem Sequence.exists_spelled (hSequence : Sequence cs tokens) :
    ∀ token ∈ tokens, ∃ units, Spelled token units := by
  induction hSequence with
  | nil => exact nofun
  | blank _ _ ih => exact ih
  | token hSpelled _ _ ih => exact List.forall_mem_cons.mpr ⟨⟨_, hSpelled⟩, ih⟩

/-- Sequences stand behind each other where the second does not begin with a unit of names. -/
theorem Sequence.append {d : Char} {ds : List Char} {others : List Token}
    (hFirst : Sequence cs tokens) (hSecond : Sequence (d :: ds) others)
    (hApart : inName d = false) : Sequence (cs ++ d :: ds) (tokens ++ others) := by
  induction hFirst with
  | nil => exact hSecond
  | blank hBlank _ ih => exact .blank hBlank ih
  | @token token units cs tokens hSpelled hEnd _ ih =>
      rw [List.append_assoc]
      refine .token hSpelled ?_ ih
      cases cs with
      | nil =>
          rintro _ ⟨⟩
          exact goesOnWith_of_inName hApart
      | cons c cs => exact hEnd

theorem sequence_nil_iff : Sequence [] tokens ↔ tokens = [] := by
  constructor
  · intro hSequence
    generalize hText : [] = text at hSequence
    cases hSequence with
    | nil => rfl
    | blank => cases hText
    | token hSpelled =>
        exact absurd (List.append_eq_nil_iff.mp hText.symm).1 hSpelled.ne_nil
  · rintro rfl
    exact .nil

section Runs

variable {make : String → Token} {inside : Char → Bool} {held : List Char}

theorem runGives_nil_iff :
    RunGives make inside held [] tokens ↔ tokens = [make (String.ofList held.reverse)] := by
  constructor
  · rintro ⟨units, rest, others, hText, -, -, hRest, rfl⟩
    obtain ⟨rfl, rfl⟩ := List.append_eq_nil_iff.mp hText.symm
    rw [sequence_nil_iff.mp hRest, List.append_nil]
  · rintro rfl
    exact ⟨[], [], [], rfl, nofun, nofun, .nil, by rw [List.append_nil]⟩

theorem runGives_cons_of_inside (hInside : inside c = true) :
    RunGives make inside held (c :: cs) tokens ↔ RunGives make inside (c :: held) cs tokens := by
  constructor
  · rintro ⟨units, rest, others, hText, hUnits, hEnd, hRest, rfl⟩
    cases units with
    | nil =>
        -- The run would have ended before a unit that goes on with it.
        cases hText
        rw [hEnd c rfl] at hInside
        cases hInside
    | cons first units =>
        cases hText
        refine ⟨units, rest, others, rfl, (List.forall_mem_cons.mp hUnits).2, hEnd, hRest, ?_⟩
        rw [Text.reverse_cons_append]
  · rintro ⟨units, rest, others, rfl, hUnits, hEnd, hRest, rfl⟩
    refine ⟨c :: units, rest, others, rfl, List.forall_mem_cons.mpr ⟨hInside, hUnits⟩, hEnd, hRest,
      ?_⟩
    rw [Text.reverse_cons_append]

theorem runGives_cons_of_outside (hOutside : inside c = false) :
    RunGives make inside held (c :: cs) tokens ↔
      ∃ others, Sequence (c :: cs) others ∧
        tokens = make (String.ofList held.reverse) :: others := by
  constructor
  · rintro ⟨units, rest, others, hText, hUnits, -, hRest, rfl⟩
    cases units with
    | nil =>
        cases hText
        exact ⟨others, hRest, by rw [List.append_nil]⟩
    | cons first units =>
        cases hText
        rw [(List.forall_mem_cons.mp hUnits).1] at hOutside
        cases hOutside
  · rintro ⟨others, hRest, rfl⟩
    refine ⟨[], c :: cs, others, rfl, nofun, ?_, hRest, by rw [List.append_nil]⟩
    rintro _ ⟨⟩
    exact hOutside

end Runs

section Strings

variable {quote : Char} {held : List Char}

theorem gives_inString_nil : ¬(Scan.inString quote held).Gives [] tokens := by
  rintro ⟨body, value, rest, others, hText, -⟩
  exact List.append_ne_nil_of_right_ne_nil body (List.cons_ne_nil quote rest) hText.symm

theorem gives_inString_quote : (Scan.inString quote held).Gives (quote :: cs) tokens ↔
    ∃ others, Sequence cs others ∧ tokens = .string (String.ofList held.reverse) :: others := by
  constructor
  · rintro ⟨body, value, rest, others, hText, hBody, hRest, rfl⟩
    cases hBody with
    | nil =>
        cases hText
        exact ⟨others, hRest, by rw [List.append_nil]⟩
    | plain hQuote => exact absurd (List.cons.inj hText).1.symm hQuote
    | escaped hQuote => exact absurd (List.cons.inj hText).1 hQuote
  · rintro ⟨others, hRest, rfl⟩
    exact ⟨[], [], cs, others, rfl, .nil, hRest, by rw [List.append_nil]⟩

theorem gives_inString_plain (hQuote : c ≠ quote) (hBackslash : c ≠ '\\') :
    (Scan.inString quote held).Gives (c :: cs) tokens ↔
      (Scan.inString quote (c :: held)).Gives cs tokens := by
  constructor
  · rintro ⟨body, value, rest, others, hText, hBody, hRest, rfl⟩
    cases hBody with
    | nil => exact absurd (List.cons.inj hText).1 hQuote
    | plain _ _ hBody =>
        cases hText
        refine ⟨_, _, rest, others, rfl, hBody, hRest, ?_⟩
        rw [Text.reverse_cons_append]
    | escaped => exact absurd (List.cons.inj hText).1 hBackslash
  · rintro ⟨body, value, rest, others, rfl, hBody, hRest, rfl⟩
    refine ⟨_, _, rest, others, rfl, .plain hQuote hBackslash hBody, hRest, ?_⟩
    rw [Text.reverse_cons_append]

theorem gives_inString_escaped (hQuote : quote ≠ '\\') :
    (Scan.inString quote held).Gives ('\\' :: c :: cs) tokens ↔
      (Scan.inString quote (c :: held)).Gives cs tokens := by
  constructor
  · rintro ⟨body, value, rest, others, hText, hBody, hRest, rfl⟩
    cases hBody with
    | nil => exact absurd (List.cons.inj hText).1.symm hQuote
    | plain _ hBackslash => exact absurd (List.cons.inj hText).1.symm hBackslash
    | escaped _ hBody =>
        cases hText
        refine ⟨_, _, rest, others, rfl, hBody, hRest, ?_⟩
        rw [Text.reverse_cons_append]
  · rintro ⟨body, value, rest, others, rfl, hBody, hRest, rfl⟩
    refine ⟨_, _, rest, others, rfl, .escaped hQuote hBody, hRest, ?_⟩
    rw [Text.reverse_cons_append]

/-- A backslash at the end leaves nothing to take. -/
theorem gives_inString_backslash (hQuote : quote ≠ '\\') :
    ¬(Scan.inString quote held).Gives ['\\'] tokens := by
  rintro ⟨body, value, rest, others, hText, hBody, -⟩
  cases hBody with
  | nil => exact hQuote (List.cons.inj hText).1.symm
  | plain _ hBackslash => exact hBackslash (List.cons.inj hText).1.symm
  | escaped => cases (List.cons.inj hText).2

end Strings

/-- The scan of a unit between tokens, with `finish` still to be done to the tokens found. -/
theorem begun_eq_ok_iff (finish : List Token → List Token)
    (ih : ∀ state tokens, scan state cs = .ok tokens ↔ Scan.Gives state cs tokens) :
    (do
      let (found, state) ← begin c
      let rest ← scan state cs
      pure (finish (found ++ rest))) = Except.ok tokens ↔
      ∃ others, Sequence (c :: cs) others ∧ tokens = finish others := by
  rw [bind_eq_ok_iff]
  constructor
  · rintro ⟨⟨found, state⟩, hBegin, hScan⟩
    obtain ⟨rest, hRest, hTokens⟩ := bind_eq_ok_iff.mp hScan
    cases hTokens
    exact ⟨found ++ rest, sequence_of_begin hBegin ((ih state rest).mp hRest), rfl⟩
  · rintro ⟨others, hSequence, rfl⟩
    obtain ⟨found, state, rest, hBegin, hGives, rfl⟩ := exists_begin_of_sequence hSequence
    refine ⟨(found, state), hBegin, bind_eq_ok_iff.mpr ⟨rest, (ih state rest).mpr hGives, rfl⟩⟩

/-- The scan behind a token that has ended. -/
theorem ended_eq_ok_iff (token : Token)
    (ih : ∀ tokens, scan .between cs = .ok tokens ↔ Scan.between.Gives cs tokens) :
    (do
      let rest ← scan .between cs
      pure (token :: rest)) = Except.ok tokens ↔
      ∃ others, Sequence cs others ∧ tokens = token :: others := by
  rw [bind_eq_ok_iff]
  constructor
  · rintro ⟨rest, hRest, hTokens⟩
    cases hTokens
    exact ⟨rest, (ih rest).mp hRest, rfl⟩
  · rintro ⟨others, hSequence, rfl⟩
    exact ⟨others, (ih others).mpr hSequence, rfl⟩

theorem scan_eq_ok_iff (state : Scan) (cs : List Char) :
    ∀ tokens, scan state cs = .ok tokens ↔ state.Gives cs tokens := by
  fun_induction scan state cs with
  | case1 =>
      intro tokens
      rw [Except.ok.injEq, eq_comm]
      exact sequence_nil_iff.symm
  | case2 quote held =>
      intro tokens
      exact iff_of_false nofun gives_inString_nil
  | case3 held =>
      intro tokens
      rw [Except.ok.injEq, eq_comm]
      exact runGives_nil_iff.symm
  | case4 held =>
      intro tokens
      rw [Except.ok.injEq, eq_comm]
      exact runGives_nil_iff.symm
  | case5 sign =>
      intro tokens
      exact iff_of_false nofun nofun
  | case6 c cs ih =>
      intro tokens
      refine (begun_eq_ok_iff id ih).trans ?_
      constructor
      · rintro ⟨others, hSequence, rfl⟩
        exact hSequence
      · intro hSequence
        exact ⟨tokens, hSequence, rfl⟩
  | case7 held c cs ih =>
      intro tokens
      exact (ended_eq_ok_iff _ ih).trans gives_inString_quote.symm
  | case8 quote held c cs hQuote ih =>
      intro tokens
      rw [ih, gives_inString_escaped (Ne.symm hQuote)]
  | case9 quote held hQuote =>
      intro tokens
      exact iff_of_false nofun (gives_inString_backslash (Ne.symm hQuote))
  | case10 quote held c cs hQuote hBackslash ih =>
      intro tokens
      rw [ih, gives_inString_plain hQuote hBackslash]
  | case11 held c cs hInside ih =>
      intro tokens
      exact (ih tokens).trans (runGives_cons_of_inside hInside).symm
  | case12 held c cs hOutside ih =>
      intro tokens
      refine (begun_eq_ok_iff (number _ :: ·) ih).trans ?_
      exact (runGives_cons_of_outside (Bool.eq_false_iff.mpr hOutside)).symm
  | case13 held c cs hInside ih =>
      intro tokens
      exact (ih tokens).trans (runGives_cons_of_inside hInside).symm
  | case14 held c cs hOutside ih =>
      intro tokens
      refine (begun_eq_ok_iff (name _ :: ·) ih).trans ?_
      exact (runGives_cons_of_outside (Bool.eq_false_iff.mpr hOutside)).symm
  | case15 sign cs ih =>
      intro tokens
      refine (ended_eq_ok_iff _ ih).trans ?_
      constructor
      · rintro ⟨others, hRest, rfl⟩
        exact ⟨cs, others, rfl, hRest, rfl⟩
      · rintro ⟨rest, others, hText, hRest, rfl⟩
        cases hText
        exact ⟨others, hRest, rfl⟩
  | case16 sign c cs hEqual =>
      intro tokens
      refine iff_of_false nofun ?_
      rintro ⟨rest, others, hText, -⟩
      exact hEqual (List.cons.inj hText).1

/-- Reading gives exactly the tokens of which the text is a sequence. -/
theorem read_eq_ok_iff : read cs = .ok tokens ↔ Sequence cs tokens :=
  scan_eq_ok_iff .between cs tokens

end Scanning

end Token
end WorkflowDag
