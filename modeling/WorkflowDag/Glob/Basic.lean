import WorkflowDag.Glob.Braces
import WorkflowDag.Glob.Segment

/-!
# Globs

A glob describes paths: `*` and `?` match within a name, `**` any number of names, brackets one unit
of a class, braces several globs at once.  A `!` in front negates it, and `#` makes it a comment.
-/

namespace WorkflowDag
namespace Glob

/-- The names of a path, divided at runs of slashes. -/
def names (path : List Char) : List (List Char) :=
  match Text.pieces (fun c => c == '/') path with
  | [] => []
  | first :: rest =>
    match rest.reverse with
    | [] => [first]
    | last :: inner => first :: (inner.reverse.filter fun piece => !piece.isEmpty) ++ [last]

/-- Adds a segment behind segments held in reverse: `**` is not repeated, and `..` takes back a
name. -/
def addSegment (done : List (List Char)) (segment : List Char) : List (List Char) :=
  match done with
  | [] => [segment]
  | last :: before =>
    if segment = ['*', '*'] ∧ last = ['*', '*'] then done
    else if segment = ['.', '.'] ∧ last ≠ [] ∧ !isDots last ∧ last ≠ ['*', '*'] then before
    else segment :: done

/-- The segments of a glob without braces. -/
def segments (cs : List Char) : List Segment :=
  match ((names cs).foldl addSegment []).reverse with
  | [] => [segmentOf []]
  | found => found.map segmentOf

/-- Tries a match at every place to which names can be skipped. -/
def trySkipping (rest : List (List Char) → Bool) : List (List Char) → Bool
  | [] => false
  | name :: names => rest (name :: names) || (!isDots name && trySkipping rest names)

/-- The segments match the names of a path; a slash may end the path. -/
def matchSegments : List Segment → List (List Char) → Bool
  | [], names => names == [] || names == [[]]
  | [.deep], names => !names.isEmpty && names.all fun name => !isDots name
  | .deep :: rest, names => trySkipping (matchSegments rest) names
  | _ :: _, [] => false
  | segment :: rest, name :: names => segment.holds name && matchSegments rest names

/-- One of the globs that a glob stands for matches a path. -/
def matchesPath (glob path : List Char) : Bool :=
  (expand glob).any fun one => matchSegments (segments one) (names path)

/-- The glob without the signs of negation, and whether their number is odd. -/
def negation : List Char → Bool × List Char
  | '!' :: cs => (!(negation cs).1, (negation cs).2)
  | cs => (false, cs)

end Glob

/-- A glob describes a path. -/
def Glob.describes (glob path : String) : Bool :=
  match glob.toList with
  | [] => path = ""
  | '#' :: _ => false
  | cs => (Glob.negation cs).1 != Glob.matchesPath (Glob.negation cs).2 path.toList

end WorkflowDag
