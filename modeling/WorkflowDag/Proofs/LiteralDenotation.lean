import WorkflowDag.Proofs.LiteralReading

/-!
# What literals denote

Literals are read by the rules of the language that modules are written in, on ordinary text.
`Python.tokens?` takes a text apart into literals and marks.

What is written for a text is the escape of each of its code points (`joinUnits_escapeUnits`), and
each of these is read as the code point (`points?_escapePoint`).  Hence what is written for a text
is read as one literal, of the code points of the text (`tokens?_writePoints`).
-/

namespace WorkflowDag

namespace Python

/-- How far away the quote is that ends a literal: a backslash takes the next character with it. -/
def close? : List Char → Option Nat
  | [] => none
  | '\\' :: _ :: rest => (close? rest).map (· + 2)
  | c :: rest => if c = '\x22' then some 0 else (close? rest).map (· + 1)

/-- What a literal denotes, given what is behind its first quote, and how many characters there
belong to it.  Three quotes begin a literal of another kind. -/
def literal? (names : Names) (cs : List Char) : Option (List Nat × Nat) :=
  if cs.take 2 = ['\x22', '\x22'] then none
  else (close? cs).bind fun length =>
    (points? names 0 (cs.take length)).map fun points => (points, length + 1)

inductive Token where
  | mark (c : Char)
  | literal (points : List Nat)
deriving DecidableEq, Repr

/-- Between braces lines may end anywhere. -/
def isBlank (c : Char) : Bool :=
  c == ' ' || c == '\t' || c == '\x0c' || c == '\n' || c == '\r'

def isMark (c : Char) : Bool :=
  c == '\x7b' || c == '\x7d' || c == ':' || c == ','

/-- The tokens of a text, behind characters that have been taken already. -/
def tokens? (names : Names) : Nat → List Char → Option (List Token)
  | _, [] => some []
  | taken + 1, _ :: rest => tokens? names taken rest
  | 0, c :: rest =>
    if isBlank c then tokens? names 0 rest
    else if c = '\x22' then
      (literal? names rest).bind fun piece =>
        (tokens? names piece.2 rest).map (Token.literal piece.1 :: ·)
    else if isMark c then (tokens? names 0 rest).map (Token.mark c :: ·)
    else none

end Python

namespace Text

section Joining

theorem toNat_ofNat_beyond {n : Nat} (hBeyond : ¬n < 0x10000) (hPoint : n < 0x110000) :
    (Char.ofNat n).toNat = n :=
  toNat_ofNat (by unfold Nat.isValidChar; omega)

theorem ofNat_ne {n : Nat} (hBeyond : ¬n < 0x10000) (hPoint : n < 0x110000) {c : Char}
    (hPlane : c.toNat < 0x10000) : Char.ofNat n ≠ c := by
  rintro rfl
  exact hBeyond (toNat_ofNat_beyond hBeyond hPoint ▸ hPlane)

theorem joinUnits_cons {c : Char} (hWhole : isWhole c = true) (rest : List Char) :
    joinUnits (c :: rest) = c :: joinUnits rest := by
  obtain ⟨hHigh, hLow⟩ := isWhole_iff.mp hWhole
  have hAlone : joinAlone c = c := by simp [joinAlone, hHigh, hLow]
  cases rest with
  | nil => exact congrArg (fun d => [d]) hAlone
  | cons d rest => rw [joinUnits, hHigh, if_neg (by simp), hAlone]

theorem joinUnits_append {front : List Char} (hWhole : ∀ c ∈ front, isWhole c = true)
    (rest : List Char) : joinUnits (front ++ rest) = front ++ joinUnits rest := by
  induction front with
  | nil => rfl
  | cons c front ih =>
      obtain ⟨hFirst, hFront⟩ := List.forall_mem_cons.mp hWhole
      rw [List.cons_append, joinUnits_cons hFirst, ih hFront, List.cons_append]

theorem joinUnits_of_whole {cs : List Char} (hWhole : ∀ c ∈ cs, isWhole c = true) :
    joinUnits cs = cs := by
  have hJoined := joinUnits_append hWhole []
  rwa [List.append_nil, joinUnits, List.append_nil] at hJoined

theorem join_of_whole {s : String} (hWhole : ∀ c ∈ s.toList, isWhole c = true) : join s = s := by
  rw [join, joinUnits_of_whole hWhole, String.ofList_toList]

/-- No pair goes across a unit that is no half. -/
theorem joinUnits_append_cons {c : Char} (hWhole : isWhole c = true) (front rest : List Char) :
    joinUnits (front ++ c :: rest) = joinUnits front ++ c :: joinUnits rest := by
  obtain ⟨-, hLow⟩ := isWhole_iff.mp hWhole
  fun_induction joinUnits front with
  | case1 => exact joinUnits_cons hWhole rest
  | case2 d =>
      rw [List.singleton_append, joinUnits, hLow, if_neg (by simp), joinUnits_cons hWhole,
        List.singleton_append]
  | case3 d e front hPair ih => simp only [List.cons_append, joinUnits, if_pos hPair, ih]
  | case4 d e front hPair ih =>
      rw [List.cons_append, List.cons_append, joinUnits, if_neg hPair, ← List.cons_append, ih,
        List.cons_append]

theorem toList_joinWith (first : String) {rest : List String} (hRest : rest ≠ []) :
    (joinWith "\n" (first :: rest)).toList =
      first.toList ++ '\n' :: (joinWith "\n" rest).toList := by
  cases rest with
  | nil => exact absurd rfl hRest
  | cons second rest =>
      rw [joinWith_cons_cons]
      simp

theorem join_joinWith (first : String) (rest : List String) :
    join (joinWith "\n" (first :: rest)) = joinWith "\n" ((first :: rest).map join) := by
  induction rest generalizing first with
  | nil => rfl
  | cons second rest ih =>
      have hUnits := toList_joinWith first (List.cons_ne_nil second rest)
      rw [join, hUnits, joinUnits_append_cons (by decide), List.map_cons, List.map_cons,
        joinWith_cons_cons, ← List.map_cons, ← ih]
      apply String.toList_injective
      simp [join]

end Joining

end Text

namespace Literal

/-- How a code point is written inside a literal. -/
def escapePoint (n : Nat) : List Char :=
  if n < 0x10000 then escapeUnit (Text.ofUnit n) else [Char.ofNat n]

/-- How code points are written as a literal. -/
def writePoints (points : List Nat) : List Char :=
  '\x22' :: (points.flatMap escapePoint ++ ['\x22'])

section Writing

theorem isWhole_of_mem_escapeUnit {c : Char} : ∀ d ∈ escapeUnit c, Text.isWhole d = true := by
  have hNumbered : ∀ d ∈ numbered c, Text.isWhole d = true := by
    have hDigit : ∀ k < 16, k.digitChar.toNat < 0xD800 := by decide
    refine List.forall_mem_cons.mpr ⟨by decide, List.forall_mem_cons.mpr ⟨by decide, ?_⟩⟩
    intro d hMem
    obtain ⟨k, hk, rfl⟩ := mem_fourDigits _ d hMem
    exact Text.isWhole_of_lt (hDigit k hk)
  unfold escapeUnit
  split_ifs with _ _ _ _ _ _ _ _ hHalf
  · exact List.all_eq_true.mp rfl
  · exact List.all_eq_true.mp rfl
  · exact List.all_eq_true.mp rfl
  · exact List.all_eq_true.mp rfl
  · exact List.all_eq_true.mp rfl
  · exact List.all_eq_true.mp rfl
  · exact List.all_eq_true.mp rfl
  · exact hNumbered
  · exact hNumbered
  · intro d hMem
    rw [List.mem_singleton.mp hMem, Text.isWhole]
    simpa using hHalf

theorem escapePoint_unit {c : Char} (hUnit : Text.unit c < 0x10000) :
    escapePoint (Text.unit c) = escapeUnit c := by
  rw [escapePoint, if_pos hUnit, Text.ofUnit_unit]

/-- What is written for units is the escape of each code point. -/
theorem joinUnits_escapeUnits (cs : List Char) : (∀ c ∈ cs, Text.unit c < 0x10000) →
    Text.joinUnits (escapeUnits cs) = (Text.pointsOf cs).flatMap escapePoint := by
  fun_induction escapeUnits cs with
  | case1 => exact fun _ => rfl
  | case2 c =>
      intro hUnits
      rw [Text.joinUnits_of_whole isWhole_of_mem_escapeUnit, Text.pointsOf, List.flatMap_singleton,
        escapePoint_unit (hUnits c List.mem_cons_self)]
  | case3 c d rest hPair ih =>
      intro hUnits
      have hRest := (List.forall_mem_cons.mp (List.forall_mem_cons.mp hUnits).2).2
      -- Two halves that stay as they are become the character of their code point.
      have hBeyond := Nat.not_lt.mpr (Text.pairCode_bounds hPair).1
      rw [Text.joinUnits, if_pos hPair, ih hRest, Text.pointsOf_pair rest hPair, List.flatMap_cons,
        escapePoint, if_neg hBeyond, List.singleton_append]
  | case4 c d rest hPair ih =>
      intro hUnits
      obtain ⟨hFirst, hRest⟩ := List.forall_mem_cons.mp hUnits
      rw [Text.joinUnits_append isWhole_of_mem_escapeUnit, ih hRest, Text.pointsOf, if_neg hPair,
        List.flatMap_cons, escapePoint_unit hFirst]

theorem joinUnits_quote {s : String} (hForm : Text.UnitForm s) (rest : List Char) :
    Text.joinUnits ((quote s).toList ++ rest) =
      writePoints (Text.points s) ++ Text.joinUnits rest := by
  have hUnits : (quote s).toList ++ rest =
      '\x22' :: (escapeUnits s.toList ++ '\x22' :: rest) := by
    simp [quote]
  rw [hUnits, Text.joinUnits_cons (by decide), Text.joinUnits_append_cons (by decide),
    joinUnits_escapeUnits _ hForm]
  simp [writePoints, Text.points]

/-- A code point is written without quotes and control characters of its own. -/
theorem escaped_escapePoint {n : Nat} (hPoint : n < 0x110000) : Escaped (escapePoint n) := by
  unfold escapePoint
  split
  next => exact escaped_escapeUnit _
  next hBeyond =>
    have hNumber := Text.toNat_ofNat_beyond hBeyond hPoint
    exact .plain (by omega) (Text.ofNat_ne hBeyond hPoint (by decide))
      (Text.ofNat_ne hBeyond hPoint (by decide)) .nil

theorem escaped_flatMap {points : List Nat} (hPoints : ∀ n ∈ points, n < 0x110000) :
    Escaped (points.flatMap escapePoint) := by
  induction points with
  | nil => exact .nil
  | cons n rest ih =>
      obtain ⟨hFirst, hRest⟩ := List.forall_mem_cons.mp hPoints
      rw [List.flatMap_cons]
      exact (escaped_escapePoint hFirst).append (ih hRest)

end Writing
end Literal

namespace Python

open Literal (escapePoint writePoints)

variable (names : Names)

/-- What is written for a code point is read as the code point. -/
theorem points?_escapePoint (rest : List Char) {n : Nat} (hPoint : n < 0x110000) :
    points? names 0 (escapePoint n ++ rest) = (points? names 0 rest).map (n :: ·) := by
  unfold escapePoint
  split
  next hPlane =>
    rw [points?_escapeUnit, Text.unit_ofUnit hPlane]
  next hBeyond =>
    have hNumber := Text.toNat_ofNat_beyond hBeyond hPoint
    rw [List.singleton_append, points?_plain names rest (by omega)
      (Text.ofNat_ne hBeyond hPoint (by decide)) (Text.ofNat_ne hBeyond hPoint (by decide)),
      hNumber]

theorem points?_flatMap {points : List Nat} (hPoints : ∀ n ∈ points, n < 0x110000) :
    points? names 0 (points.flatMap escapePoint) = some points := by
  induction points with
  | nil => rfl
  | cons n rest ih =>
      obtain ⟨hFirst, hRest⟩ := List.forall_mem_cons.mp hPoints
      rw [List.flatMap_cons, points?_escapePoint names _ hFirst, ih hRest, Option.map_some]

section Tokens

variable (rest : List Char)

/-- A literal ends at the first quote that no backslash takes with it. -/
theorem close?_escaped {body : List Char} (hBody : Escaped body) :
    close? (body ++ '\x22' :: rest) = some body.length := by
  induction hBody with
  | nil => rfl
  | @plain c body _ hQuote hBackslash _ ih =>
      rw [List.cons_append, close?, if_neg hQuote, ih, Option.map_some, List.length_cons]
      exact fun _ _ hFront => absurd hFront hBackslash
  | @escape c body _ _ ih =>
      rw [List.cons_append, List.cons_append, close?, ih, Option.map_some]
      rfl

theorem tokens?_taken (front : List Char) :
    tokens? names front.length (front ++ rest) = tokens? names 0 rest := by
  induction front with
  | nil => rfl
  | cons c front ih => exact ih

theorem tokens?_blanks {front : List Char} (hBlank : ∀ c ∈ front, isBlank c = true) :
    tokens? names 0 (front ++ rest) = tokens? names 0 rest := by
  induction front with
  | nil => rfl
  | cons c front ih =>
      obtain ⟨hFirst, hFront⟩ := List.forall_mem_cons.mp hBlank
      rw [List.cons_append, tokens?, if_pos hFirst, ih hFront]

theorem tokens?_mark {c : Char} (hMark : isMark c = true) :
    tokens? names 0 (c :: rest) = (tokens? names 0 rest).map (Token.mark c :: ·) := by
  have hCases : c = '\x7b' ∨ c = '\x7d' ∨ c = ':' ∨ c = ',' := by
    simpa [isMark, or_assoc] using hMark
  rcases hCases with rfl | rfl | rfl | rfl <;> rfl

/-- What is written for code points is read as a literal of these, unless a quote follows. -/
theorem tokens?_writePoints {points : List Nat} (hPoints : ∀ n ∈ points, n < 0x110000)
    (hNext : rest.head? ≠ some '\x22') :
    tokens? names 0 (writePoints points ++ rest) =
      (tokens? names 0 rest).map (Token.literal points :: ·) := by
  have hEscaped := Literal.escaped_flatMap hPoints
  have hRead := points?_flatMap names hPoints
  rw [writePoints]
  generalize points.flatMap escapePoint = body at hEscaped hRead
  -- Only an empty literal in front of a quote looks like the three quotes of another kind.
  have hOne : (body ++ '\x22' :: rest).take 2 ≠ ['\x22', '\x22'] := by
    cases hEscaped with
    | nil =>
        intro hQuotes
        cases rest with
        | nil => cases hQuotes
        | cons c rest => exact hNext (congrArg some (List.cons.inj (List.cons.inj hQuotes).2).1)
    | plain _ hQuote _ _ => exact fun hQuotes => hQuote (List.cons.inj hQuotes).1
    | escape _ _ => exact fun hQuotes => absurd (List.cons.inj hQuotes).1 (by decide)
  have hLiteral : literal? names (body ++ '\x22' :: rest) = some (points, body.length + 1) := by
    rw [literal?, if_neg hOne, close?_escaped rest hEscaped, Option.bind_some, List.take_left,
      hRead]
    rfl
  have hTaken := tokens?_taken names rest (body ++ ['\x22'])
  rw [List.length_append, List.append_assoc, List.singleton_append] at hTaken
  rw [List.cons_append, List.append_assoc, List.singleton_append, tokens?, if_neg (by decide),
    if_pos rfl, hLiteral, Option.bind_some]
  exact congrArg (Option.map _) hTaken

end Tokens
end Python
end WorkflowDag
