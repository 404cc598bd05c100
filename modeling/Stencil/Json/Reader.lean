import Stencil.Json.Token

namespace Stencil.Json

def maxDepth : Nat := 127

/-- An array or a map that is open, with what it has so far, the last first. -/
inductive Frame where
  | array (items : List Value)
  | map (entries : List (Text × Value))
  | member (entries : List (Text × Value)) (key : Text)

/-- What comes next: a value, a value or the end of an array, a key or the end of a map, a key, the
colon after a key, or what follows a finished value. -/
inductive Expected where
  | value
  | firstItem
  | firstKey
  | key
  | colon (key : Text)
  | after (v : Value)

/-- Takes one token: what is open and what comes next after it. -/
def advance? (opened : List Frame) (expected : Expected) (t : Token) :
    Option (List Frame × Expected) :=
  match expected, t, opened with
  | .firstItem, .closeArray, .array items :: out => some (out, .after (.array items.reverse))
  | .value, .openArray, fs | .firstItem, .openArray, fs =>
    if fs.length < maxDepth then some (.array [] :: fs, .firstItem) else none
  | .value, .openMap, fs | .firstItem, .openMap, fs =>
    if fs.length < maxDepth then some (.map [] :: fs, .firstKey) else none
  | .value, .string s, fs | .firstItem, .string s, fs => some (fs, .after (.str s))
  | .value, .atom v, fs | .firstItem, .atom v, fs => some (fs, .after v)
  | .firstKey, .closeMap, .map entries :: out =>
    some (out, .after (.map (Dictionary.ofList entries.reverse)))
  | .firstKey, .string k, fs | .key, .string k, fs => some (fs, .colon k)
  | .colon k, .colon, .map entries :: out => some (.member entries k :: out, .value)
  | .after v, .comma, .array items :: out => some (.array (v :: items) :: out, .value)
  | .after v, .closeArray, .array items :: out =>
    some (out, .after (.array (v :: items).reverse))
  | .after v, .comma, .member entries k :: out => some (.map ((k, v) :: entries) :: out, .key)
  | .after v, .closeMap, .member entries k :: out =>
    some (out, .after (.map (Dictionary.ofList ((k, v) :: entries).reverse)))
  | _, _, _ => none

def run? : List Frame → Expected → List Token → Option Value
  | [], .after v, [] => some v
  | _, _, [] => none
  | fs, e, t :: ts => (advance? fs e t).bind fun (fs, e) => run? fs e ts

def read? (s : Text) : Option Value := (tokens? (s.length + 1) s).bind (run? [] .value)

/-- The scope that a JSON text gives: that of an object, or an empty one. -/
def scopeOf : Value → Scope
  | .map entries => entries
  | _ => []

end Stencil.Json
