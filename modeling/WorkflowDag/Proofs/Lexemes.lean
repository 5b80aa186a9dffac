import WorkflowDag.Dag.Literal
import WorkflowDag.Number.Shortest
import WorkflowDag.Proofs.KeyTexts
import WorkflowDag.Proofs.TextLines

/-!
# The words of a module

Identifiers, numerals and string literals, each with the proof that it is one.  What a text is
written as between quotes is a literal, whatever the text (`StringLiteral.ofText`), and the text of
any number is a numeral (`Numeral.ofNumber`).  No word goes on to another line, and where one ends
is seen from the units behind it (`Identifier.append_inj`, `StringLiteral.append_inj`).
-/

namespace WorkflowDag

/-- The text is an identifier: a letter or an underscore, then letters, digits and underscores. -/
def isIdentifier (s : String) : Bool :=
  match s.toList with
  | [] => false
  | first :: rest => (first.isAlpha || first == '_') && rest.all Task.isIdUnit

/-- An identifier. -/
structure Identifier where
  text : String
  wellFormed : isIdentifier text = true
deriving DecidableEq

/-- A unit that may stand in the text of a number. -/
def isNumeralUnit (c : Char) : Bool :=
  c.isAlphanum || c == '.' || c == '-' || c == '+'

/-- A number as it is written. -/
structure Numeral where
  text : String
  nonempty : text ≠ ""
  wellFormed : ∀ c ∈ text.toList, isNumeralUnit c = true
deriving DecidableEq

/-- What stands between the quotes of a literal.  A backslash takes the next unit with it, no quote
stands by itself, and no unit is a control character. -/
inductive Escaped : List Char → Prop
  | nil : Escaped []
  | plain {c : Char} {rest : List Char} (hPrintable : 0x20 ≤ c.toNat) (hQuote : c ≠ '\x22')
      (hBackslash : c ≠ '\\') (hRest : Escaped rest) : Escaped (c :: rest)
  | escape {c : Char} {rest : List Char} (hPrintable : 0x20 ≤ c.toNat) (hRest : Escaped rest) :
      Escaped ('\\' :: c :: rest)

/-- A string literal, given by what stands between its quotes. -/
structure StringLiteral where
  body : String
  escaped : Escaped body.toList
deriving DecidableEq

/-- The literal with its quotes. -/
def StringLiteral.text (s : StringLiteral) : String :=
  "\"" ++ s.body ++ "\""

namespace Escaped

variable {cs ds : List Char}

theorem append (hFirst : Escaped cs) (hSecond : Escaped ds) : Escaped (cs ++ ds) := by
  induction hFirst with
  | nil => exact hSecond
  | plain hPrintable hQuote hBackslash _ ih => exact .plain hPrintable hQuote hBackslash ih
  | escape hPrintable _ ih => exact .escape hPrintable ih

theorem of_plain (hPlain : ∀ c ∈ cs, 0x20 ≤ c.toNat ∧ c ≠ '\x22' ∧ c ≠ '\\') : Escaped cs := by
  induction cs with
  | nil => exact .nil
  | cons c rest ih =>
      obtain ⟨⟨hPrintable, hQuote, hBackslash⟩, hRest⟩ := List.forall_mem_cons.mp hPlain
      exact .plain hPrintable hQuote hBackslash (ih hRest)

theorem printable (hEscaped : Escaped cs) : ∀ c ∈ cs, 0x20 ≤ c.toNat := by
  induction hEscaped with
  | nil => exact fun _ hMem => absurd hMem List.not_mem_nil
  | plain hPrintable _ _ _ ih => exact List.forall_mem_cons.mpr ⟨hPrintable, ih⟩
  | escape hPrintable _ ih =>
      exact List.forall_mem_cons.mpr ⟨by decide, List.forall_mem_cons.mpr ⟨hPrintable, ih⟩⟩

/-- The quote that closes a literal is the first one that no backslash takes with it. -/
theorem append_inj (hFirst : Escaped cs) :
    ∀ {ds behind behind' : List Char}, Escaped ds →
      cs ++ '\x22' :: behind = ds ++ '\x22' :: behind' → cs = ds ∧ behind = behind' := by
  -- Both bodies are read unit by unit.  What stands first in one of them, a backslash, the closing
  -- quote or neither, has to stand first in the other.
  induction hFirst with
  | nil =>
      intro ds behind behind' hSecond hSame
      cases hSecond with
      | nil => exact ⟨rfl, (List.cons.inj hSame).2⟩
      | plain _ hQuote _ _ => exact absurd (List.cons.inj hSame).1.symm hQuote
      | escape _ _ => exact absurd (List.cons.inj hSame).1 (by decide)
  | @plain c rest _ hQuote hBackslash _ ih =>
      intro ds behind behind' hSecond hSame
      cases hSecond with
      | nil => exact absurd (List.cons.inj hSame).1 hQuote
      | plain _ _ _ hOthers =>
          obtain ⟨rfl, hRest⟩ := List.cons.inj hSame
          obtain ⟨rfl, hBehind⟩ := ih hOthers hRest
          exact ⟨rfl, hBehind⟩
      | escape _ _ => exact absurd (List.cons.inj hSame).1 hBackslash
  | @escape c rest _ _ ih =>
      intro ds behind behind' hSecond hSame
      cases hSecond with
      | nil => exact absurd (List.cons.inj hSame).1 (by decide)
      | plain _ _ hBackslash _ => exact absurd (List.cons.inj hSame).1.symm hBackslash
      | escape _ hOthers =>
          obtain ⟨-, hSame⟩ := List.cons.inj hSame
          obtain ⟨rfl, hRest⟩ := List.cons.inj hSame
          obtain ⟨rfl, hBehind⟩ := ih hOthers hRest
          exact ⟨rfl, hBehind⟩

end Escaped

section Quoting

theorem mem_toDigits_sixteen (n : Nat) : ∀ c ∈ Nat.toDigits 16 n, ∃ k < 16, c = k.digitChar := by
  induction n using Nat.strongRecOn with
  | ind n ih =>
      rcases Nat.lt_or_ge n 16 with hLess | hGe
      · rw [Nat.toDigits_of_lt_base hLess]
        exact fun c hMem => ⟨n, hLess, List.mem_singleton.mp hMem⟩
      · rw [Nat.toDigits_of_base_le (by decide) hGe]
        intro c hMem
        rcases List.mem_append.mp hMem with hFront | hLast
        · exact ih (n / 16) (by omega) c hFront
        · exact ⟨n % 16, by omega, List.mem_singleton.mp hLast⟩

theorem mem_fourDigits (n : Nat) : ∀ c ∈ Literal.fourDigits n, ∃ k < 16, c = k.digitChar := by
  intro c hMem
  rcases List.mem_append.mp hMem with hZero | hHex
  · exact ⟨0, by decide, List.eq_of_mem_replicate hZero⟩
  · exact mem_toDigits_sixteen n c hHex

theorem escaped_numbered (c : Char) : Escaped (Literal.numbered c) := by
  have hDigits : ∀ d ∈ Literal.fourDigits (Text.unit c),
      0x20 ≤ d.toNat ∧ d ≠ '\x22' ∧ d ≠ '\\' := by
    have hDigit : ∀ k < 16, 0x20 ≤ k.digitChar.toNat ∧ k.digitChar ≠ '\x22' ∧
        k.digitChar ≠ '\\' := by decide
    intro d hMem
    obtain ⟨k, hk, rfl⟩ := mem_fourDigits _ d hMem
    exact hDigit k hk
  exact .escape (by decide) (.of_plain hDigits)

theorem escaped_escapeUnit (c : Char) : Escaped (Literal.escapeUnit c) := by
  have hPair : ∀ d : Char, 0x20 ≤ d.toNat → Escaped ['\\', d] := fun _ hPrintable =>
    .escape hPrintable .nil
  unfold Literal.escapeUnit
  split_ifs with hQuote hBackslash
  · exact hPair _ (by decide)
  · exact hPair _ (by decide)
  · exact hPair _ (by decide)
  · exact hPair _ (by decide)
  · exact hPair _ (by decide)
  · exact hPair _ (by decide)
  · exact hPair _ (by decide)
  · exact escaped_numbered c
  · exact escaped_numbered c
  next hControl _ => exact .plain (Nat.le_of_not_lt hControl) hQuote hBackslash .nil

/-- A half is no unit that a literal has to escape. -/
theorem plain_of_half {c : Char} (hHalf : 0xD800 ≤ Text.unit c) :
    0x20 ≤ c.toNat ∧ c ≠ '\x22' ∧ c ≠ '\\' := by
  refine ⟨?_, ?_, ?_⟩
  · unfold Text.unit at hHalf
    split at hHalf
    · omega
    · omega
  · rintro rfl
    revert hHalf
    decide
  · rintro rfl
    revert hHalf
    decide

theorem escaped_escapeUnits (cs : List Char) : Escaped (Literal.escapeUnits cs) := by
  fun_induction Literal.escapeUnits cs with
  | case1 => exact .nil
  | case2 c => exact escaped_escapeUnit c
  | case3 c d rest hHalves ih =>
      obtain ⟨hHigh, hLow⟩ := Bool.and_eq_true_iff.mp hHalves
      simp only [Text.isHighHalf, Text.isLowHalf, Bool.and_eq_true, decide_eq_true_eq] at hHigh hLow
      obtain ⟨hPrintable, hQuote, hBackslash⟩ := plain_of_half hHigh.1
      have hSecond := plain_of_half (Nat.le_trans (by decide) hLow.1)
      exact .plain hPrintable hQuote hBackslash (.plain hSecond.1 hSecond.2.1 hSecond.2.2 ih)
  | case4 c d rest _ ih => exact (escaped_escapeUnit c).append ih

end Quoting

namespace StringLiteral

/-- The literal of a text. -/
def ofText (s : String) : StringLiteral where
  body := String.ofList (Literal.escapeUnits s.toList)
  escaped := by
    rw [String.toList_ofList]
    exact escaped_escapeUnits s.toList

theorem text_ofText (s : String) : (ofText s).text = Literal.quote s := rfl

theorem unbroken (s : StringLiteral) : Text.Unbroken s.text := by
  have hBody : Text.Unbroken s.body := .of_notMem
    (fun hMem => absurd (s.escaped.printable _ hMem) (by decide))
    (fun hMem => absurd (s.escaped.printable _ hMem) (by decide))
  exact Text.Unbroken.append (.append (.ofList rfl) hBody) (.ofList rfl)

/-- Where a literal ends is seen from its text. -/
theorem append_inj {s t : StringLiteral} {behind behind' : String}
    (hSame : s.text ++ behind = t.text ++ behind') : s = t ∧ behind = behind' := by
  have hUnits : s.body.toList ++ '\x22' :: behind.toList =
      t.body.toList ++ '\x22' :: behind'.toList := by
    simpa [text] using congrArg String.toList hSame
  obtain ⟨hBody, hBehind⟩ := s.escaped.append_inj t.escaped hUnits
  refine ⟨?_, String.toList_injective hBehind⟩
  cases s
  cases t
  congr
  exact String.toList_injective hBody

theorem text_injective : Function.Injective text := by
  intro s t hSame
  have hWhole : s.text ++ "" = t.text ++ "" := by rw [hSame]
  exact (append_inj hWhole).1

end StringLiteral

section Identifiers

variable {s t : String}

theorem isIdUnit_of_isAlpha {c : Char} (hAlpha : (c.isAlpha || c == '_') = true) :
    Task.isIdUnit c = true := by
  rw [Bool.or_eq_true] at hAlpha
  rcases hAlpha with hAlpha | hUnderscore
  · simp [Task.isIdUnit, Char.isAlphanum, hAlpha]
  · simp [Task.isIdUnit, hUnderscore]

theorem isIdentifier_iff : isIdentifier s = true ↔ ∃ first rest, s.toList = first :: rest ∧
    (first.isAlpha || first == '_') = true ∧ ∀ c ∈ rest, Task.isIdUnit c = true := by
  unfold isIdentifier
  cases hUnits : s.toList with
  | nil => simp
  | cons first rest => simp

theorem isIdUnit_of_mem (hIdentifier : isIdentifier s = true) :
    ∀ c ∈ s.toList, Task.isIdUnit c = true := by
  obtain ⟨first, rest, hUnits, hFirst, hRest⟩ := isIdentifier_iff.mp hIdentifier
  rw [hUnits]
  exact List.forall_mem_cons.mpr ⟨isIdUnit_of_isAlpha hFirst, hRest⟩

/-- An identifier goes on with any units of identifiers. -/
theorem isIdentifier_append (hIdentifier : isIdentifier s = true)
    (hUnits : ∀ c ∈ t.toList, Task.isIdUnit c = true) : isIdentifier (s ++ t) = true := by
  obtain ⟨first, rest, hFront, hFirst, hRest⟩ := isIdentifier_iff.mp hIdentifier
  refine isIdentifier_iff.mpr ⟨first, rest ++ t.toList, by simp [hFront], hFirst, ?_⟩
  exact List.forall_mem_append.mpr ⟨hRest, hUnits⟩

theorem isIdUnit_of_mem_decimal {n : Nat} :
    ∀ c ∈ (Text.decimal n).toList, Task.isIdUnit c = true := by
  intro c hMem
  simp [Task.isIdUnit, Char.isAlphanum, Text.isDigit_of_mem_decimal hMem]

/-- The task id of a name does not begin with a digit. -/
theorem Task.isDigit_of_head_idOf {name : String} {first : Char} {rest : List Char}
    (hUnits : (idOf name).toList = first :: rest) : first.isDigit = false := by
  dsimp only [idOf] at hUnits
  split at hUnits
  next unit others hMapped =>
    split at hUnits
    · rw [String.toList_ofList] at hUnits
      rw [← (List.cons.inj hUnits).1]
      decide
    next hDigit =>
      rw [String.toList_ofList, hMapped] at hUnits
      rw [← (List.cons.inj hUnits).1]
      exact Bool.eq_false_iff.mpr hDigit
  · simp at hUnits

/-- The task id of a name that is not empty is an identifier. -/
theorem isIdentifier_idOf {name : String} (hName : name ≠ "") :
    isIdentifier (Task.idOf name) = true := by
  cases hUnits : (Task.idOf name).toList with
  | nil => exact absurd (String.toList_injective hUnits) (Task.idOf_ne_empty hName)
  | cons first rest =>
      have hAll : ∀ c ∈ (Task.idOf name).toList, Task.isIdUnit c = true := Task.isIdUnit_of_mem_idOf
      rw [hUnits] at hAll
      obtain ⟨hFirst, hRest⟩ := List.forall_mem_cons.mp hAll
      have hDigit := Task.isDigit_of_head_idOf hUnits
      refine isIdentifier_iff.mpr ⟨first, rest, hUnits, ?_, hRest⟩
      simpa [Task.isIdUnit, Char.isAlphanum, hDigit] using hFirst

/-- So is the free name found for an identifier. -/
theorem isIdentifier_freeName (taken : List String) (hBase : isIdentifier s = true) :
    isIdentifier (freeName taken s) = true := by
  have hNumbered : ∀ steps n, isIdentifier (numberedName taken s steps n) = true := by
    have hOne : ∀ n, isIdentifier (s ++ "_" ++ Text.decimal n) = true := fun n =>
      isIdentifier_append (isIdentifier_append hBase (Text.forall_units rfl))
        isIdUnit_of_mem_decimal
    intro steps
    induction steps with
    | zero => exact hOne
    | succ steps ih =>
        intro n
        rw [numberedName]
        split
        · exact ih (n + 1)
        · exact hOne n
  unfold freeName
  split
  · exact hNumbered _ 2
  · exact hBase

end Identifiers

namespace Identifier

/-- The identifier that a text is, and an underscore for a text that is none. -/
def ofText (s : String) : Identifier :=
  if h : isIdentifier s = true then ⟨s, h⟩ else ⟨"_", by decide⟩

theorem text_ofText {s : String} (hIdentifier : isIdentifier s = true) : (ofText s).text = s := by
  rw [ofText, dif_pos hIdentifier]

theorem text_injective : Function.Injective text := by
  intro i j hSame
  cases i
  cases j
  congr

theorem notMem_text (i : Identifier) {mark : Char} (hMark : Task.isIdUnit mark = false) :
    mark ∉ i.text.toList := by
  intro hMem
  rw [isIdUnit_of_mem i.wellFormed mark hMem] at hMark
  cases hMark

/-- Where an identifier ends is seen from a unit that stands in none. -/
theorem append_inj {i j : Identifier} {mark : Char} {behind behind' : List Char}
    (hMark : Task.isIdUnit mark = false)
    (hSame : i.text.toList ++ mark :: behind = j.text.toList ++ mark :: behind') :
    i = j ∧ behind = behind' := by
  obtain ⟨hText, hBehind⟩ :=
    Text.eq_of_append_mark (i.notMem_text hMark) (j.notMem_text hMark) hSame
  exact ⟨text_injective (String.toList_injective hText), hBehind⟩

theorem unbroken (i : Identifier) : Text.Unbroken i.text :=
  .of_notMem (i.notMem_text (by decide)) (i.notMem_text (by decide))

end Identifier

section Numerals

theorem isNumeralUnit_of_isDigit {c : Char} (hDigit : c.isDigit = true) :
    isNumeralUnit c = true := by
  simp [isNumeralUnit, Char.isAlphanum, hDigit]

theorem isNumeralUnit_of_mem_zeros {n : Nat} :
    ∀ c ∈ List.replicate n '0', isNumeralUnit c = true := by
  intro c hMem
  rw [List.eq_of_mem_replicate hMem]
  decide

theorem isNumeralUnit_of_mem_exponentText (e : Int) :
    ∀ c ∈ (Number.exponentText e).toList, isNumeralUnit c = true := by
  have hSign : ∀ c ∈ (if e < 0 then "-" else "+").toList, isNumeralUnit c = true := by
    split
    · exact Text.forall_units rfl
    · exact Text.forall_units rfl
  rw [Number.exponentText, String.toList_append, String.toList_append]
  refine List.forall_mem_append.mpr ⟨List.forall_mem_append.mpr ⟨Text.forall_units rfl, hSign⟩, ?_⟩
  exact fun c hMem => isNumeralUnit_of_isDigit (Text.isDigit_of_mem_decimal hMem)

theorem isNumeralUnit_of_mem_layout (count : Nat) (power : Int) :
    ∀ c ∈ (Number.layout count power).toList, isNumeralUnit c = true := by
  have hDigits : ∀ c ∈ Nat.toDigits 10 count, isNumeralUnit c = true := fun c hMem =>
    isNumeralUnit_of_isDigit (Nat.isDigit_of_mem_toDigits (by decide) (by decide) hMem)
  have hTake : ∀ n, ∀ c ∈ (Nat.toDigits 10 count).take n, isNumeralUnit c = true :=
    fun n c hMem => hDigits c (List.mem_of_mem_take hMem)
  have hPoint : ∀ n, ∀ c ∈ '.' :: (Nat.toDigits 10 count).drop n, isNumeralUnit c = true :=
    fun n => List.forall_mem_cons.mpr
      ⟨by decide, fun c hMem => hDigits c (List.mem_of_mem_drop hMem)⟩
  unfold Number.layout
  dsimp only
  split
  · rw [String.toList_ofList]
    exact List.forall_mem_append.mpr ⟨hDigits, isNumeralUnit_of_mem_zeros⟩
  · split
    · rw [String.toList_ofList]
      exact List.forall_mem_append.mpr ⟨hTake _, hPoint _⟩
    · split
      · rw [String.toList_ofList]
        refine List.forall_mem_cons.mpr ⟨by decide, List.forall_mem_cons.mpr ⟨by decide, ?_⟩⟩
        exact List.forall_mem_append.mpr ⟨isNumeralUnit_of_mem_zeros, hDigits⟩
      · rw [String.toList_append, String.toList_ofList]
        refine List.forall_mem_append.mpr ⟨List.forall_mem_append.mpr ⟨hTake 1, ?_⟩,
          isNumeralUnit_of_mem_exponentText _⟩
        split
        · exact fun _ hMem => absurd hMem List.not_mem_nil
        · exact hPoint 1

theorem layout_ne_empty (count : Nat) (power : Int) : Number.layout count power ≠ "" := by
  intro hEmpty
  have hUnits := congrArg String.toList hEmpty
  unfold Number.layout at hUnits
  dsimp only at hUnits
  split at hUnits
  · simp at hUnits
  · split at hUnits
    · simp at hUnits
    · split at hUnits
      · simp at hUnits
      · simp [Number.exponentText] at hUnits

/-- What the text of a number is made of. -/
theorem Number.text_cases (n : Number) :
    n.text = "0" ∨ ∃ sign rest, n.text = sign ++ rest ∧ (sign = "-" ∨ sign = "") ∧
      (rest = "Infinity" ∨ ∃ count power, rest = layout count power) := by
  have hSign : ∀ negative : Bool, (if negative then "-" else "") = "-" ∨
      (if negative then "-" else "") = "" := by decide
  cases n with
  | finite negative mantissa exponent =>
      rw [text]
      split
      · exact Or.inl rfl
      · exact Or.inr ⟨_, _, rfl, hSign negative, Or.inr ⟨_, _, rfl⟩⟩
  | infinite negative => exact Or.inr ⟨_, _, rfl, hSign negative, Or.inl rfl⟩

end Numerals

namespace Numeral

/-- A number as it is written. -/
def ofNumber (n : Number) : Numeral where
  text := n.text
  nonempty := by
    rcases n.text_cases with hZero | ⟨sign, rest, hText, -, rfl | ⟨count, power, rfl⟩⟩
    · rw [hZero]
      decide
    · rw [hText]
      intro hEmpty
      exact absurd (String.append_eq_empty_iff.mp hEmpty).2 (by decide)
    · rw [hText]
      intro hEmpty
      exact layout_ne_empty count power (String.append_eq_empty_iff.mp hEmpty).2
  wellFormed := by
    rcases n.text_cases with hZero | ⟨sign, rest, hText, hSign, hRest⟩
    · rw [hZero]
      exact Text.forall_units rfl
    · rw [hText, String.toList_append]
      refine List.forall_mem_append.mpr ⟨?_, ?_⟩
      · rcases hSign with rfl | rfl
        · exact Text.forall_units rfl
        · exact Text.forall_units rfl
      · rcases hRest with rfl | ⟨count, power, rfl⟩
        · exact Text.forall_units rfl
        · exact isNumeralUnit_of_mem_layout count power

theorem text_injective : Function.Injective text := by
  intro m n hSame
  cases m
  cases n
  congr

theorem notMem_text (n : Numeral) {mark : Char} (hMark : isNumeralUnit mark = false) :
    mark ∉ n.text.toList := by
  intro hMem
  rw [n.wellFormed mark hMem] at hMark
  cases hMark

theorem unbroken (n : Numeral) : Text.Unbroken n.text :=
  .of_notMem (n.notMem_text (by decide)) (n.notMem_text (by decide))

end Numeral

end WorkflowDag
