import Stencil.Json.Printer
import Stencil.Text.Class
import Stencil.Value.Text

namespace Stencil.Layout

def bodyMarker : Text := "<BODY/>".toList

/-- What follows a lead at the start of a text, in any case of ASCII letters. -/
def stripAnyCase? (lead s : Text) : Option Text :=
  if Text.lowerAscii (s.take lead.length) = lead then some (s.drop lead.length) else none

/-- Cuts a text at the first place where a reader of its start succeeds: what is before, what was
read, and what follows. -/
def cutAt? (read? : Text → Option (Text × Text)) : Text → Option (Text × Text × Text)
  | [] => none
  | c :: s =>
    match read? (c :: s) with
    | some (found, rest) => some ([], found, rest)
    | none => (cutAt? read? s).map fun (before, found, rest) => (c :: before, found, rest)

def upTo (s rest : Text) : Text := s.take (s.length - rest.length)

def marker? (s : Text) : Option (Text × Text) := do
  let inner ← stripAnyCase? "<body".toList s
  let rest ← Text.strip? ['/', '>'] (Text.trimStart inner)
  return (upTo s rest, rest)

def meta? (s : Text) : Option (Text × Text) := do
  let inner ← stripAnyCase? "<meta".toList s
  if inner.head?.any isWordCharacter then none
  else
    let (_, rest) ← Text.cut? ['>'] inner
    return (upTo s rest, rest)

def headTag? (s : Text) : Option (Text × Text) := do
  let inner ← stripAnyCase? "<head".toList s
  match inner with
  | '>' :: rest => return (upTo s rest, rest)
  | c :: more =>
    if isWhiteSpace c then
      let (_, rest) ← Text.cut? ['>'] more
      return (upTo s rest, rest)
    else none
  | [] => none

/-- A text without the places where a reader succeeds. The counter tells how many characters of the
last place are still to be left out. -/
def without (read? : Text → Option (Text × Text)) (s : Text) : Text :=
  go 0 s
where
  go : Nat → Text → Text
    | _, [] => []
    | k + 1, _ :: s => go k s
    | 0, c :: s =>
      match read? (c :: s) with
      | some (found, _) => go (found.length - 1) s
      | none => c :: go 0 s

def found (read? : Text → Option (Text × Text)) (s : Text) : List Text :=
  go 0 s
where
  go : Nat → Text → List Text
    | _, [] => []
    | k + 1, _ :: s => go k s
    | 0, c :: s =>
      match read? (c :: s) with
      | some (found, _) => found :: go (found.length - 1) s
      | none => go 0 s

/-- Cuts a text at the first place where a sign stands, in any case: before the sign. -/
def before? (sign : Text) (s : Text) : Option (Text × Text) :=
  (cutAt? (fun s => (stripAnyCase? sign s).map fun rest => (upTo s rest, rest)) s).map
    fun (before, found, rest) => (before, found ++ rest)

/-- Cuts a text at the first place where a sign stands, in any case: after the sign. -/
def after? (sign : Text) (s : Text) : Option (Text × Text) :=
  (cutAt? (fun s => (stripAnyCase? sign s).map fun rest => (upTo s rest, rest)) s).map
    fun (before, found, rest) => (before ++ found, rest)

/-- The two parts of a layout between which its page goes if it has no marker. -/
def defaultPlace (layout : Text) : Text × Text :=
  (before? "</main>".toList layout <|> after? "</header>".toList layout <|>
    before? "<footer".toList layout <|> before? "</body>".toList layout <|>
    before? "</head>".toList layout).getD (layout, [])

/-- A layout with a marker for its page: before the end of its main part, if it has none. -/
def ensureMarker (layout : Text) : Text :=
  match cutAt? marker? layout with
  | some _ => layout
  | none =>
    let (before, after) := defaultPlace layout
    before ++ bodyMarker ++ after

/-- A text without markers. -/
def stripMarkers (s : Text) : Text := without marker? s

/-- Moves the metadata of a page to the start of its layout's head. In a layout without a head,
nothing moves. -/
def moveMeta (layout page : Text) : Text × Text :=
  match cutAt? headTag? layout with
  | none => (layout, page)
  | some (before, head, after) =>
    let metas := found meta? page
    if metas.isEmpty then (layout, page)
    else (before ++ head ++ metas.flatten ++ after, without meta? page)

def merge (layout page : Text) : Text :=
  let (layout, page) := moveMeta (ensureMarker layout) (stripMarkers page)
  match cutAt? marker? layout with
  | some (before, _, after) => before ++ page ++ stripMarkers after
  | none => page

/-- Puts a snippet at the end of a page's head, or before a page without one. -/
def injectHead (html snippet : Text) : Text :=
  match before? "</head>".toList html with
  | some (before, after) => before ++ snippet ++ after
  | none => snippet ++ html

def publicOption? (scope : Scope) (key : Text) : Option (Dictionary Value) :=
  match (Dictionary.get? scope "public".toList).bind fun v => v.index? (.str key) with
  | some (.map entries) => some entries
  | _ => none

def optionScript (options : Dictionary Value) : Text :=
  "<script>OPTS=".toList ++
    Text.replace ['<', '/'] ['<', '\\', '/'] (Json.compact (.map options)) ++ "</script>".toList

def isVariableChar (c : Char) : Bool := isAlphanumeric c || c == '_' || c == '-'

/-- Would this character end the value of a style variable, or the style sheet? -/
def endsVariable (c : Char) : Bool := c == ';' || c == '{' || c == '}' || c == '<' || c == '>'

/-- The declaration of one style variable. A name without usable characters gives none. -/
def styleVariable (e : Text × Value) : Text :=
  let name := e.1.filter isVariableChar
  if name.isEmpty then []
  else ['-', '-'] ++ name ++ [':'] ++ e.2.text.filter (fun c => !endsVariable c) ++ [';']

def variableStyle (entries : Dictionary Value) : Text :=
  "<style>:root".toList ++ ['{'] ++ entries.flatMap styleVariable ++ ['}'] ++ "</style>".toList

def publicSnippet (scope : Scope) : Text :=
  ((publicOption? scope "js".toList).map optionScript).getD [] ++
    ((publicOption? scope "css".toList).map variableStyle).getD []

def injectPublic (html : Text) (scope : Scope) : Text :=
  let snippet := publicSnippet scope
  if snippet.isEmpty then html else injectHead html snippet

end Stencil.Layout
