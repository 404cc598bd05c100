import Stencil.Literal.Segment
import Stencil.Reference

namespace Stencil

/-- The literals of a source. Extraction puts a reference in the place of each, so that nothing
inside a literal is ever taken for a tag or a hole. -/
abbrev LiteralTable := List Quoted

namespace LiteralTable

/-- Writes segments with a reference for each literal, the first of which has the given number. -/
def writeReferences : Nat → List Segment → Text
  | _, [] => []
  | n, .plain text :: segs => text ++ writeReferences n segs
  | n, .comment _ :: segs => writeReferences n segs
  | n, .quoted _ :: segs => Reference.write Reference.literal n ++ writeReferences (n + 1) segs

/-- Takes the comments and literals out of a source: what is left, and the table of its literals. -/
def extract (source : Text) : Text × LiteralTable :=
  let segs := Segment.segments [] source
  (writeReferences 0 segs, segs.filterMap Segment.literal?)

def find? (table : LiteralTable) (digits : Text) : Option Quoted :=
  (Text.toIndex? digits).bind fun n => table[n]?

/-- Is a text a whole or decimal number of ASCII digits, with a minus sign or none? -/
def isNumeral (s : Text) : Bool :=
  let unsigned := match s with
    | '-' :: s => s
    | _ => s
  let fraction := unsigned.dropWhile Char.isDigit
  unsigned.head?.any Char.isDigit &&
    match fraction with
    | [] => true
    | '.' :: digits => !digits.isEmpty && digits.all Char.isDigit
    | _ => false

def requote (table : LiteralTable) : Text → Text :=
  Reference.substitute Reference.literal fun ds => (table.find? ds).map Quoted.written

/-- Puts the literals back, without their quotes those that are numbers. -/
def requoteButNumbers (table : LiteralTable) : Text → Text :=
  Reference.substitute Reference.literal fun ds =>
    (table.find? ds).map fun q => if isNumeral q.body then q.body else q.written

/-- Puts the literals back without their quotes. -/
def unquote (table : LiteralTable) : Text → Text :=
  Reference.substitute Reference.literal fun ds => (table.find? ds).map Quoted.body

def keep (table : LiteralTable) : Text → Text :=
  Reference.substitute Reference.literal fun ds =>
    (table.find? ds).map fun _ => Reference.kept ++ ds ++ Marker.closing

/-- Puts back the literals whose references were kept for later. -/
def requoteKept (table : LiteralTable) : Text → Text :=
  Reference.substitute Reference.kept fun ds => (table.find? ds).map Quoted.written

end LiteralTable

end Stencil
