import Stencil.Text.Age
import Stencil.Text.Break
import Stencil.Text.Category
import Stencil.Text.CharProperty
import Stencil.Text.Script.Extension

namespace Stencil.Regex.Property

/-- A name as names are compared: in lower case, without blanks, hyphens and low lines, without what
is not ASCII, and without the word `is` at its start, unless that word is part of `isc`. -/
def normalized (name : Text) : Text :=
  let plain (s : Text) : Text :=
    Text.lowerAscii (s.filter fun c =>
      c.toNat < 128 && !(c == ' ' || c == '_' || c == '-'))
  match name with
  | a :: b :: rest =>
    if (a == 'i' || a == 'I') && (b == 's' || b == 'S') then
      if plain rest = ['c'] then ['i', 's', 'c'] else plain rest
    else plain name
  | _ => plain name

def named? (name : Text) : Option CharRange.Table :=
  let n := normalized name
  match (CharRange.row? n CharProperty.named).or (CharRange.row? n Category.named) with
  | some row => some row.2
  | none => Script.ranges? n

def valued? (name value : Text) : Option CharRange.Table :=
  let v := normalized value
  let among (rows : List (String × CharRange.Table)) : Option CharRange.Table :=
    (CharRange.row? v rows).map Prod.snd
  match String.ofList (normalized name) with
  | "gc" | "generalcategory" => among Category.named
  | "sc" | "script" => Script.ranges? v
  | "scx" | "scriptextensions" => Script.users? v
  | "age" => Age.ranges? v
  | "gcb" | "graphemeclusterbreak" => among GraphemeBreak.kinds
  | "wb" | "wordbreak" => among WordBreak.kinds
  | "sb" | "sentencebreak" => among SentenceBreak.kinds
  | _ => none

/-- The characters that a property given in braces stands for, and whether it asks for all other
characters. The first `!=` divides it, else the first colon, else the first `=`. -/
def ofText? (s : Text) : Option (CharRange.Table × Bool) :=
  match Text.cut? ['!', '='] s with
  | some (name, value) => (valued? name value).map fun t => (t, true)
  | none =>
    match (Text.cut? [':'] s).or (Text.cut? ['='] s) with
    | some (name, value) => (valued? name value).map fun t => (t, false)
    | none => (named? s).map fun t => (t, false)

end Stencil.Regex.Property
