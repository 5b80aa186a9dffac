import WorkflowDag.Text.Units

/-!
# Units of XML documents

Which units may stand in a document and in a name.  A unit that is half of a character beyond the
basic plane is judged by the half alone, since documents hold halves in pairs only.
-/

namespace WorkflowDag
namespace Markup

/-- White space between the parts of a tag. -/
def isSpace (c : Char) : Bool :=
  c == ' ' || c == '\t' || c == '\n' || c == '\r'

/-- The number lies in one of the ranges. -/
def inRanges (ranges : List (Nat × Nat)) (n : Nat) : Bool :=
  ranges.any fun range => decide (range.1 ≤ n) && decide (n ≤ range.2)

/-- Code points that a document may hold. -/
def isDocumentCode (n : Nat) : Bool :=
  inRanges [(0x9, 0xA), (0xD, 0xD), (0x20, 0xD7FF), (0xE000, 0xFFFD), (0x10000, 0x10FFFF)] n

/-- Units that a document may hold. -/
def isDocumentUnit (c : Char) : Bool :=
  isDocumentCode (Text.unit c) || Text.isHighHalf c || Text.isLowHalf c

/-- Units that begin a name; the colon is left out. -/
def nameStartRanges : List (Nat × Nat) :=
  [(0x41, 0x5A), (0x5F, 0x5F), (0x61, 0x7A), (0xC0, 0xD6), (0xD8, 0xF6), (0xF8, 0x2FF),
    (0x370, 0x37D), (0x37F, 0x1FFF), (0x200C, 0x200D), (0x2070, 0x218F), (0x2C00, 0x2FEF),
    (0x3001, 0xDB7F), (0xF900, 0xFDCF), (0xFDF0, 0xFFFD)]

/-- Further units that may stand inside a name. -/
def nameMoreRanges : List (Nat × Nat) :=
  [(0x2D, 0x2E), (0x30, 0x39), (0xB7, 0xB7), (0x300, 0x36F), (0x203F, 0x2040), (0xDC00, 0xDFFF)]

/-- A unit that begins a name. -/
def isNameStart (c : Char) : Bool :=
  inRanges nameStartRanges (Text.unit c)

/-- A unit that may stand in a name. -/
def isNamePart (c : Char) : Bool :=
  inRanges nameStartRanges (Text.unit c) || inRanges nameMoreRanges (Text.unit c)

end Markup
end WorkflowDag
