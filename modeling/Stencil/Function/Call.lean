import Stencil.Attributes
import Stencil.Expression.Lookup
import Stencil.Hole

namespace Stencil

/-- What a provider knows of a video: its title, a picture, and its size. -/
structure VideoInfo where
  title : Option Text
  picture : Option Text
  width : Option Nat
  height : Option Nat
deriving Repr, DecidableEq

/-- A source of information on videos, by the address of their page. -/
abbrev VideoProvider := Text → Option VideoInfo

/-- The call of a function: its name, the attributes and the content of its tag, what expressions
resolve to, where the files of the site's assets are, and who knows about videos. -/
structure Call where
  name : Text
  attrs : Attributes
  content : Option Text
  resolver : Resolver
  assets : Text
  videos : Option VideoProvider

namespace Call

/-- The value of an attribute as an expression, or of the expression in it if it is a hole. -/
def resolve (c : Call) (raw : Text) : Lookup :=
  match Hole.ofText? raw with
  | some h => c.resolver.value (Expression.binding h.expr).2
  | none => c.resolver.value raw

/-- The value of an attribute; null if the tag does not have it. -/
def value (c : Call) (key : Text) : Lookup :=
  match c.attrs.get? key with
  | some raw => c.resolve raw
  | none => .found .null

/-- Is this a literal that is quoted, here or in the table of literals? -/
def isQuoted (raw : Text) : Bool :=
  (Reference.index? Reference.kept raw).isSome ||
    raw.head?.any fun c => c == '\'' || c == '"' || c == '\x60'

/-- What an attribute is as a word: unknown as yet, absent, or a text. -/
inductive Word where
  | unknown
  | absent
  | word (text : Text)
deriving Repr, DecidableEq

/-- An attribute as a word. Only holes are looked up, and quoted literals are read. -/
def word (c : Call) (key : Text) : Word :=
  match c.attrs.get? key with
  | none => .absent
  | some raw =>
    if (Hole.ofText? raw).isSome then
      match c.resolve raw with
      | .found v => .word v.text
      | .unknown => .unknown
    else
      match Expression.literal? c.resolver.literals raw with
      | some v => if isQuoted raw then .word v.text else .word raw
      | none => .word raw

/-- Is no attribute a hole? -/
def isStatic (c : Call) : Bool := c.attrs.entries.all fun e => (Hole.ofText? e.2).isNone

end Call

def Lookup.value : Lookup → Value
  | .found v => v
  | .unknown => .null

end Stencil
