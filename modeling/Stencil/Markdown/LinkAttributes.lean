import Stencil.Escape

namespace Stencil.Markdown

/-- Attributes of an element, and declarations for its style. -/
structure LinkAttributes where
  attrs : List (Text × Option Text)
  style : List Text
deriving Repr, DecidableEq

namespace LinkAttributes

def empty : LinkAttributes := ⟨[], []⟩

def isGap (c : Char) : Bool := c == ' ' || c == ';' || c == '\t'

def endsKey (c : Char) : Bool := c == '=' || c == ':' || isGap c

/-- Reads a value, which may be quoted, and gives the rest. A quoted value without a closing quote
goes to the end. -/
def value (s : Text) : Text × Text :=
  match s with
  | [] => ([], [])
  | q :: inner =>
    if q == '"' || q == '\'' then
      let (v, rest) := Text.spanUntil (· == q) inner
      (v, rest.tail)
    else Text.spanUntil isGap s

theorem length_value_le (s : Text) : (value s).2.length ≤ s.length := by
  unfold value
  split
  next => simp
  next q inner =>
    split
    · have := Text.length_dropWhile_le (fun c => !(c == q)) inner
      simp only [Text.spanUntil, List.length_tail, List.length_cons]
      omega
    · exact Text.length_dropWhile_le _ _

def read (s : Text) : LinkAttributes :=
  match s with
  | [] => empty
  | c :: s =>
    if isGap c then read s
    else if c = '=' then
      let v := value s
      let more := read v.2
      { more with attrs := ([], some v.1) :: more.attrs }
    else if c = ':' then
      let more := read (s.dropWhile (· != ';'))
      { more with style := (':' :: Text.trim (s.takeWhile (· != ';'))) :: more.style }
    else
      let key := c :: s.takeWhile fun c => !endsKey c
      match _h : s.dropWhile fun c => !endsKey c with
      | '=' :: rest =>
        let v := value rest
        let more := read v.2
        { more with attrs := (key, some v.1) :: more.attrs }
      | ':' :: rest =>
        let more := read (rest.dropWhile (· != ';'))
        let declaration := Text.trim key ++ ':' :: Text.trim (rest.takeWhile (· != ';'))
        { more with style := declaration :: more.style }
      | rest =>
        let more := read rest
        { more with attrs := (key, none) :: more.attrs }
termination_by s.length
decreasing_by
  · simp
  · have := length_value_le s
    simp only [List.length_cons]
    omega
  · have := Text.length_dropWhile_le (· != ';') s
    simp only [List.length_cons]
    omega
  all_goals
    have hl := Text.length_dropWhile_le (fun c => !endsKey c) s
    rw [_h] at hl
  · have := length_value_le rest
    simp only [List.length_cons] at hl ⊢
    omega
  · have := Text.length_dropWhile_le (· != ';') rest
    simp only [List.length_cons] at hl ⊢
    omega
  · simp only [List.length_cons]
    omega

def has (a : LinkAttributes) (key : Text) : Bool := a.attrs.any (·.1 = key)

def erase (a : LinkAttributes) (key : Text) : LinkAttributes :=
  { a with attrs := a.attrs.filter (·.1 ≠ key) }

def writeOne (e : Text × Option Text) : Text :=
  ' ' :: Escape.attributeValue e.1 ++
    match e.2 with
    | some v => ['=', '"'] ++ Escape.attributeValue v ++ ['"']
    | none => []

def html (a : LinkAttributes) : Text :=
  a.attrs.flatMap writeOne ++
    if a.style.isEmpty then []
    else " style=\"".toList ++ Escape.attributeValue (Text.join [';'] a.style) ++ ['"']

end LinkAttributes

end Stencil.Markdown
