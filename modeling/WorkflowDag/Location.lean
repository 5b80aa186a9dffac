import WorkflowDag.Text.Cut

/-!
# Locations of files

Paths are texts with `/` between their parts.  Normalising a path drops empty parts and `.`, and
lets `..` take back the part before it; a slash at the end is kept.
-/

namespace WorkflowDag
namespace Location

/-- The parts between slashes, which may be empty. -/
def parts (path : String) : List String :=
  (Text.pieces (fun c => c == '/') path.toList).map String.ofList

/-- The path starts at the root. -/
def isAbsolute (path : String) : Bool :=
  match path.toList with
  | '/' :: _ => true
  | _ => false

/-- A slash ends the path. -/
def hasTrailingSlash (path : String) : Bool :=
  path.toList.getLast? == some '/'

/-- Adds a part behind parts held in reverse.  Above the root there is nothing. -/
def addPart (absolute : Bool) (done : List String) (part : String) : List String :=
  if part = "" ∨ part = "." then done
  else if part = ".." then
    match done with
    | [] => if absolute then [] else [".."]
    | last :: before => if last = ".." then ".." :: done else before
  else part :: done

/-- The parts of a path after `.` and `..` have been worked out. -/
def cleanParts (absolute : Bool) (given : List String) : List String :=
  (given.foldl (addPart absolute) []).reverse

/-- The shortest way to write a path. -/
def normalize (path : String) : String :=
  let absolute := isAbsolute path
  let clean := Text.joinWith "/" (cleanParts absolute (parts path))
  let ending := if hasTrailingSlash path then "/" else ""
  if path = "" then "."
  else if absolute then (if clean = "" then "/" else "/" ++ clean ++ ending)
  else if clean = "" then "." ++ ending
  else clean ++ ending

/-- Paths put behind each other and normalised; empty ones are left out. -/
def join (paths : List String) : String :=
  normalize (Text.joinWith "/" (paths.filter fun path => path ≠ ""))

/-- The directory that holds what a normalised path names. -/
def parent (path : String) : String :=
  let absolute := isAbsolute path
  match (cleanParts absolute (parts path)).dropLast with
  | [] => if absolute then "/" else "."
  | held => (if absolute then "/" else "") ++ Text.joinWith "/" held

/-- The last part of a path seen from a directory. -/
def nameFrom (directory path : String) : String :=
  let whole := if isAbsolute path then path else directory ++ "/" ++ path
  (cleanParts true (parts whole)).getLast?.getD ""

end Location
end WorkflowDag
