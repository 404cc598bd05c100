import Stencil.Function.JsonText
import Stencil.Function.Lorem
import Stencil.Function.Video

namespace Stencil

/-- A function of tags. Its answer takes the place of the tag; without one the tag is kept for the
rendering. Only functions that are ready for it are called while a template is precompiled. -/
structure TagFunction where
  call : Call → Random (Option Text)
  early : Bool

namespace TagFunction

def name (tag : Text) : Text := Text.lowerAscii (tag.dropWhile (· == '_'))

/-- Names that no host function can have: their tags are part of the language. -/
def reserved : List Text := ["if".toList, "elif".toList, "else".toList, "each".toList]

def json : TagFunction := ⟨fun c => return some (JsonText.call c), false⟩

def lorem : TagFunction where
  call c :=
    match Lorem.spec? c with
    | none => return none
    | some spec => return some (← spec.generate .lowFirst)
  early := true

def video : TagFunction := ⟨fun c => return Video.call? c, true⟩

def builtin? (name : Text) : Option TagFunction :=
  if name = "json".toList then some json
  else if name = "lorem".toList then some lorem
  else if name = "youtube".toList ∨ name = "yt".toList then some video
  else none

end TagFunction

abbrev Registry := Dictionary TagFunction

namespace Registry

/-- Adds a function. A reserved name is refused, and given back as it is compared. -/
def register (r : Registry) (tag : Text) (f : TagFunction) : Except Text Registry :=
  let name := TagFunction.name tag
  if name ∈ TagFunction.reserved then .error name else .ok (r.insert name f)

/-- The function that a tag calls. One that is always there comes before one of the host. -/
def find? (r : Registry) (tag : Text) : Option TagFunction :=
  let name := TagFunction.name tag
  (TagFunction.builtin? name).or (r.get? name)

end Registry

end Stencil
