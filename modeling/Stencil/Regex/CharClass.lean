import Stencil.Text.CaseFold
import Stencil.Text.Class

namespace Stencil.Regex

abbrev CharClass := CharRange.Table

namespace CharClass

/-- The ASCII characters. -/
def ascii : CharClass := CharRange.ofHex "0-7F"

/-- A class of ASCII characters by its name. -/
def ofAsciiName? (name : Text) : Option CharClass :=
  match String.ofList name with
  | "alnum" => some (CharRange.ofHex "30-39 41-5A 61-7A")
  | "alpha" => some (CharRange.ofHex "41-5A 61-7A")
  | "ascii" => some ascii
  | "blank" => some (CharRange.ofHex "9 20")
  | "cntrl" => some (CharRange.ofHex "0-1F 7F")
  | "digit" => some (CharRange.ofHex "30-39")
  | "graph" => some (CharRange.ofHex "21-7E")
  | "lower" => some (CharRange.ofHex "61-7A")
  | "print" => some (CharRange.ofHex "20-7E")
  | "punct" => some (CharRange.ofHex "21-2F 3A-40 5B-60 7B-7E")
  | "space" => some (CharRange.ofHex "9-D 20")
  | "upper" => some (CharRange.ofHex "41-5A")
  | "word" => some (CharRange.ofHex "30-39 41-5A 5F 61-7A")
  | "xdigit" => some (CharRange.ofHex "30-39 41-46 61-66")
  | _ => none

/-- The class that a small letter after a backslash stands for: digits, white space, or the
characters of words. -/
def ofLetter (unicode : Bool) (c : Char) : CharClass :=
  let (name, table) := match c with
    | 'd' => ("digit", Category.decimalNumber)
    | 's' => ("space", CharProperty.whiteSpace)
    | _ => ("word", wordCharacters)
  if unicode then table else (ofAsciiName? name.toList).getD []

/-- The class with all characters that differ from one of it only in case. -/
def anyCase (k : CharClass) : CharClass :=
  k.union (CharRange.ofList (CaseFold.classes.filter fun ns => ns.any k.has).flatten)

/-- The class with the ASCII letters that differ from one of it only in case. -/
def anyAsciiCase (k : CharClass) : CharClass :=
  let small := k.both (CharRange.ofHex "61-7A")
  let capital := k.both (CharRange.ofHex "41-5A")
  CharRange.unionAll [k, small.map fun (lo, hi) => (lo - 32, hi - 32),
    capital.map fun (lo, hi) => (lo + 32, hi + 32)]

end CharClass

end Stencil.Regex
