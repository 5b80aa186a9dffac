import WorkflowDag.Proofs.CodePoints
import WorkflowDag.Proofs.Lexemes

/-!
# Reading literals

A reader of double-quoted string literals by the rules of the language that modules are written in:
`Python.escape?` knows all escapes, and `Python.points?` reads what stands between the quotes.

What is written for a unit is read as its number (`points?_escapeUnit`).  The units of a text are
found again from what is read, also where halves stand alone (`exists_points?_escapeUnits`), so
different texts have different literals (`quote_injective`).
-/

namespace WorkflowDag
namespace Literal

/-- The number of a hexadecimal digit. -/
def hexDigit? (c : Char) : Option Nat :=
  if c.isDigit then some (c.toNat - 48)
  else if 97 ≤ c.toNat ∧ c.toNat ≤ 102 then some (c.toNat - 87)
  else if 65 ≤ c.toNat ∧ c.toNat ≤ 70 then some (c.toNat - 55)
  else none

/-- The number that hexadecimal digits make behind those of `n`. -/
def hexNumber? : Nat → List Char → Option Nat
  | n, [] => some n
  | n, c :: rest => (hexDigit? c).bind fun digit => hexNumber? (n * 16 + digit) rest

/-- The units that one unit behind a backslash stands for. -/
def escapes : List (Char × Char) :=
  [('\\', '\\'), ('\x22', '\x22'), ('\x27', '\x27'), ('a', '\x07'), ('b', '\x08'), ('f', '\x0c'),
    ('n', '\n'), ('r', '\r'), ('t', '\t'), ('v', '\x0b')]

/-- The unit that a unit behind a backslash stands for. -/
def escape? (c : Char) : Option Char :=
  (escapes.find? fun entry => entry.1 == c).map Prod.snd

section Numbers

theorem hexDigit?_digitChar {k : Nat} (hk : k < 16) : hexDigit? k.digitChar = some k := by
  have hAll : ∀ k < 16, hexDigit? k.digitChar = some k := by decide
  exact hAll k hk

theorem hexNumber?_append (front rest : List Char) :
    ∀ n, hexNumber? n (front ++ rest) = (hexNumber? n front).bind fun m => hexNumber? m rest := by
  induction front with
  | nil => exact fun n => rfl
  | cons c others ih =>
      intro n
      rw [List.cons_append, hexNumber?, hexNumber?, Option.bind_assoc]
      exact Option.bind_congr fun digit _ => ih _

theorem hexNumber?_toDigits (n : Nat) : hexNumber? 0 (Nat.toDigits 16 n) = some n := by
  induction n using Nat.strongRecOn with
  | ind n ih =>
      rcases Nat.lt_or_ge n 16 with hLess | hGe
      · rw [Nat.toDigits_of_lt_base hLess, hexNumber?, hexDigit?_digitChar hLess]
        simp [hexNumber?]
      · have hDigit : n % 16 < 16 := Nat.mod_lt n (by decide)
        rw [Nat.toDigits_of_base_le (by decide) hGe, hexNumber?_append, ih (n / 16) (by omega),
          Option.bind_some, hexNumber?, hexDigit?_digitChar hDigit]
        simp only [Option.bind_some, hexNumber?]
        congr 1
        omega

theorem hexNumber?_fourDigits (n : Nat) : hexNumber? 0 (fourDigits n) = some n := by
  have hZeros : ∀ k, hexNumber? 0 (List.replicate k '0') = some 0 := by
    intro k
    induction k with
    | zero => rfl
    | succ k ih => exact ih
  rw [fourDigits, hexNumber?_append, hZeros, Option.bind_some, hexNumber?_toDigits]

theorem exists_fourDigits {n : Nat} (hn : n < 0x10000) :
    ∃ a b c d, fourDigits n = [a, b, c, d] := by
  have hDigits : (Nat.toDigits 16 n).length ≤ 4 :=
    (Nat.length_toDigits_le_iff (by decide) (by decide)).mpr hn
  have hLength : (fourDigits n).length = 4 := by
    rw [fourDigits, List.length_append, List.length_replicate]
    omega
  cases hList : fourDigits n with
  | nil =>
      rw [hList] at hLength
      cases hLength
  | cons a others =>
      rw [hList] at hLength
      obtain ⟨b, c, d, rfl⟩ := List.length_eq_three.mp (Nat.succ.inj hLength)
      exact ⟨a, b, c, d, rfl⟩

end Numbers
end Literal

namespace Python

/-- The names of characters, for escapes that give a name. -/
abbrev Names := List Char → Option Nat

def isOctalDigit (c : Char) : Bool :=
  decide (48 ≤ c.toNat) && decide (c.toNat ≤ 55)

def octalNumber (digits : List Char) : Nat :=
  digits.foldl (fun n c => n * 8 + (c.toNat - 48)) 0

/-- The code point that so many hexadecimal digits give. -/
def hexPoint? (count : Nat) (cs : List Char) : Option Nat :=
  if (cs.take count).length = count then
    (Literal.hexNumber? 0 (cs.take count)).filter fun n => n < 0x110000
  else none

/-- What an escape stands for, given what is behind the backslash, and how many characters there
belong to it.  A backslash that escapes nothing stands for itself. -/
def escape? (names : Names) : List Char → Option (List Nat × Nat)
  | [] => none
  | c :: rest =>
    if c = '\n' then some ([], 1)
    else if c = '\r' then some ([], if rest.head? = some '\n' then 2 else 1)
    else if isOctalDigit c then
      let digits := c :: (rest.take 2).takeWhile isOctalDigit
      some ([octalNumber digits], digits.length)
    else if c = 'x' then (hexPoint? 2 rest).map fun n => ([n], 3)
    else if c = 'u' then (hexPoint? 4 rest).map fun n => ([n], 5)
    else if c = 'U' then (hexPoint? 8 rest).map fun n => ([n], 9)
    else if c = 'N' then
      let name := (rest.drop 1).takeWhile fun d => d != '\x7d'
      if rest.head? = some '\x7b' ∧ name.length + 1 < rest.length then
        (names name).map fun n => ([n], name.length + 3)
      else none
    else
      match Literal.escape? c with
      | some meant => some ([meant.toNat], 1)
      | none => some (['\\'.toNat, c.toNat], 1)

/-- The code points that stand between quotes, behind characters that have been taken already. -/
def points? (names : Names) : Nat → List Char → Option (List Nat)
  | _, [] => some []
  | taken + 1, _ :: rest => points? names taken rest
  | 0, c :: rest =>
    if c = '\\' then
      (escape? names rest).bind fun piece => (points? names piece.2 rest).map (piece.1 ++ ·)
    else if c = '\x22' ∨ c = '\n' ∨ c = '\r' then none
    else (points? names 0 rest).map (c.toNat :: ·)

open Literal (escapeUnit escapeUnits numbered)

section Points

variable (names : Names) (rest : List Char)

theorem points?_taken (front : List Char) :
    points? names front.length (front ++ rest) = points? names 0 rest := by
  induction front with
  | nil => rfl
  | cons c front ih => exact ih

/-- A character that needs no escape stands for itself. -/
theorem points?_plain {c : Char} (hPrintable : 0x20 ≤ c.toNat) (hQuote : c ≠ '\x22')
    (hBackslash : c ≠ '\\') :
    points? names 0 (c :: rest) = (points? names 0 rest).map (c.toNat :: ·) := by
  have hFeed : c ≠ '\n' := by
    rintro rfl
    exact absurd hPrintable (by decide)
  have hReturn : c ≠ '\r' := by
    rintro rfl
    exact absurd hPrintable (by decide)
  rw [points?, if_neg hBackslash, if_neg (by simp [hQuote, hFeed, hReturn])]

/-- An escape is read as what it stands for. -/
theorem points?_escape (front : List Char) {n : Nat}
    (hEscape : escape? names (front ++ rest) = some ([n], front.length)) :
    points? names 0 ('\\' :: (front ++ rest)) = (points? names 0 rest).map (n :: ·) := by
  rw [points?, if_pos rfl, hEscape, Option.bind_some, points?_taken]
  rfl

theorem escape?_numbered {n : Nat} (hUnit : n < 0x10000) :
    escape? names ('u' :: Literal.fourDigits n ++ rest) = some ([n], 5) := by
  obtain ⟨a, b, c, d, hDigits⟩ := Literal.exists_fourDigits hUnit
  have hNumber := Literal.hexNumber?_fourDigits n
  rw [hDigits] at hNumber
  have hPoint : hexPoint? 4 (Literal.fourDigits n ++ rest) = some n := by
    have hLess : n < 0x110000 := by omega
    rw [hDigits, hexPoint?, show ([a, b, c, d] ++ rest).take 4 = [a, b, c, d] from rfl,
      hNumber]
    simp [hLess]
  rw [List.cons_append, escape?, if_neg (by decide), if_neg (by decide), if_neg (by decide),
    if_neg (by decide), if_pos rfl, hPoint, Option.map_some]

theorem points?_numbered {c : Char} (hUnit : Text.unit c < 0x10000) :
    points? names 0 (numbered c ++ rest) = (points? names 0 rest).map (Text.unit c :: ·) := by
  obtain ⟨a, b, d, e, hDigits⟩ := Literal.exists_fourDigits hUnit
  refine points?_escape names rest _ ?_
  rw [escape?_numbered names rest hUnit, hDigits]
  rfl

/-- What is written for a unit is read as its number. -/
theorem points?_escapeUnit (c : Char) :
    points? names 0 (escapeUnit c ++ rest) = (points? names 0 rest).map (Text.unit c :: ·) := by
  -- For the short escapes the reader is evaluated on the one character behind the backslash.
  have hSimple : ∀ d e : Char, escape? names (d :: rest) = some ([Text.unit e], 1) →
      points? names 0 (['\\', d] ++ rest) = (points? names 0 rest).map (Text.unit e :: ·) :=
    fun d e hEscape => points?_escape names rest [d] hEscape
  unfold escapeUnit
  split_ifs with hQuote hBackslash hBack hForm hFeed hReturn hTab hControl hHalf
  · subst hQuote
    exact hSimple _ _ rfl
  · subst hBackslash
    exact hSimple _ _ rfl
  · subst hBack
    exact hSimple _ _ rfl
  · subst hForm
    exact hSimple _ _ rfl
  · subst hFeed
    exact hSimple _ _ rfl
  · subst hReturn
    exact hSimple _ _ rfl
  · subst hTab
    exact hSimple _ _ rfl
  · refine points?_numbered names rest ?_
    rw [Text.unit_eq_toNat (Text.isWhole_of_lt (by omega))]
    omega
  · refine points?_numbered names rest ?_
    rw [Bool.or_eq_true_iff, Text.isHighHalf_iff, Text.isLowHalf_iff] at hHalf
    omega
  · have hWhole : Text.isWhole c = true := by
      rw [Text.isWhole]
      simpa using hHalf
    rw [Text.unit_eq_toNat hWhole]
    exact points?_plain names rest (Nat.le_of_not_lt hControl) hQuote hBackslash

end Points

/-- What is written for units is read as numbers from which the units are found again. -/
theorem exists_points?_escapeUnits (names : Names) (cs : List Char) :
    ∃ points, points? names 0 (escapeUnits cs) = some points ∧ points.map Text.ofUnit = cs := by
  fun_induction escapeUnits cs with
  | case1 => exact ⟨[], rfl, rfl⟩
  | case2 c =>
      have hRead := points?_escapeUnit names [] c
      rw [List.append_nil] at hRead
      exact ⟨[Text.unit c], hRead, congrArg (fun d => [d]) (Text.ofUnit_unit c)⟩
  | case3 c d rest hPair ih =>
      -- Two halves that make a pair stand for themselves.
      obtain ⟨points, hRest, hUnits⟩ := ih
      obtain ⟨hHigh, hLow⟩ := Bool.and_eq_true_iff.mp hPair
      obtain ⟨hFirst, hQuote, hBackslash⟩ := plain_of_half (Text.isHighHalf_iff.mp hHigh).1
      obtain ⟨hSecond, hQuote', hBackslash'⟩ :=
        plain_of_half (Nat.le_trans (by decide) (Text.isLowHalf_iff.mp hLow).1)
      refine ⟨c.toNat :: d.toNat :: points, ?_, ?_⟩
      · rw [points?_plain _ _ hFirst hQuote hBackslash,
          points?_plain _ _ hSecond hQuote' hBackslash', hRest]
        rfl
      · rw [List.map_cons, List.map_cons, Text.ofUnit_toNat, Text.ofUnit_toNat, hUnits]
  | case4 c d rest _ ih =>
      obtain ⟨points, hRest, hUnits⟩ := ih
      refine ⟨Text.unit c :: points, ?_, ?_⟩
      · rw [points?_escapeUnit, hRest, Option.map_some]
      · rw [List.map_cons, Text.ofUnit_unit, hUnits]

end Python

namespace Literal

theorem quote_injective : Function.Injective quote := by
  intro s t hSame
  have hUnits : escapeUnits s.toList = escapeUnits t.toList := by
    have hLists := congrArg String.toList hSame
    simpa [quote] using hLists
  -- Whatever names escapes may give, both texts are found again from the same numbers.
  obtain ⟨points, hRead, hFirst⟩ := Python.exists_points?_escapeUnits (fun _ => none) s.toList
  obtain ⟨points', hRead', hSecond⟩ := Python.exists_points?_escapeUnits (fun _ => none) t.toList
  rw [hUnits, hRead'] at hRead
  cases hRead
  exact String.toList_injective (hFirst.symm.trans hSecond)

end Literal
end WorkflowDag
