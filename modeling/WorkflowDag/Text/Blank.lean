/-!
# White space

The one set of blank characters used wherever text is trimmed or divided at white space: the ASCII
blanks, the no-break space, the space separators, the line and paragraph separators and the byte
order mark.
-/

namespace WorkflowDag
namespace Text

/-- A white-space unit. -/
def isBlank (c : Char) : Bool :=
  let n := c.toNat
  (0x09 ≤ n && n ≤ 0x0D) || n == 0x20 || n == 0xA0 || n == 0x1680 || (0x2000 ≤ n && n ≤ 0x200A) ||
    n == 0x2028 || n == 0x2029 || n == 0x202F || n == 0x205F || n == 0x3000 || n == 0xFEFF

/-- A unit that ends a line: line feed, carriage return, line or paragraph separator. -/
def isLineEnd (c : Char) : Bool :=
  c.toNat == 0x0A || c.toNat == 0x0D || c.toNat == 0x2028 || c.toNat == 0x2029

/-- Drops the blanks at the front. -/
def trimStartUnits (cs : List Char) : List Char :=
  cs.dropWhile isBlank

/-- Drops the blanks at the back. -/
def trimEndUnits : List Char → List Char
  | [] => []
  | c :: cs =>
    match trimEndUnits cs with
    | [] => if isBlank c then [] else [c]
    | rest => c :: rest

/-- Drops the blanks at both ends. -/
def trimUnits (cs : List Char) : List Char :=
  trimEndUnits (trimStartUnits cs)

/-- Drops the blanks at both ends of a text. -/
def trim (s : String) : String :=
  String.ofList (trimUnits s.toList)

/-- Puts one space for every run of blanks. -/
def squeezeUnits : List Char → List Char
  | [] => []
  | c :: cs =>
    if isBlank c then
      match cs with
      | d :: _ => if isBlank d then squeezeUnits cs else ' ' :: squeezeUnits cs
      | [] => [' ']
    else c :: squeezeUnits cs

/-- The text on one line: runs of blanks become one space and the ends are trimmed. -/
def singleLine (s : String) : String :=
  String.ofList (trimUnits (squeezeUnits s.toList))

end Text
end WorkflowDag
