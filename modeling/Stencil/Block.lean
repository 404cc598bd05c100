import Stencil.Escape
import Stencil.Literal.Table
import Stencil.Markdown.Block

namespace Stencil

/-- The kinds of blocks. -/
inductive Block.Kind where
  | script
  | style
  | markdown
  | text
  | raw
deriving Repr, DecidableEq

/-- A block: its kind, the attributes of its opening tag as they are written, its body, and whether
its body is a style sheet that has to be compiled. The template language does not look inside it: it
is taken out of a source, with a marker in its place, and a page gets it back rendered. -/
structure Block where
  kind : Block.Kind
  attrs : Text
  body : Text
  less : Bool
deriving Repr, DecidableEq

/-- What a host does with scripts and style sheets before they reach a page. -/
structure Hooks where
  minify : Text → Text
  compileLess : Text → Text

def Hooks.none : Hooks := ⟨id, id⟩

namespace Block

/-- The kind of block that a tag name in lower case opens. -/
def Kind.ofName? (name : Text) : Option Kind :=
  if name = "script".toList ∨ name = "js".toList then some script
  else if name = "style".toList ∨ name = "css".toList ∨ name = "less".toList then some style
  else if name = "markdown".toList ∨ name = "md".toList then some markdown
  else if name = "text".toList ∨ name = "txt".toList then some text
  else if name = "raw".toList then some raw
  else none

def element (tag attrs content close : Text) : Text :=
  ['<'] ++ tag ++ attrs ++ ['>'] ++ content ++ ['<', '/'] ++ close ++ ['>']

/-- A block as a page has it. Its literal signs are written as markers. -/
def html (hooks : Hooks) (b : Block) : Text :=
  Marker.encode <|
    match b.kind with
    | .script => element "script".toList b.attrs (hooks.minify b.body) "script".toList
    | .style =>
      let css := if b.less then hooks.compileLess b.body else b.body
      element "style".toList b.attrs css "style".toList
    | .markdown =>
      element "div class=\"markdown\"".toList b.attrs (Markdown.render b.body) "div".toList
    | .text =>
      element "div class=\"text\"".toList b.attrs (Escape.runningText b.body) "div".toList
    | .raw => element "div class=\"raw\"".toList b.attrs b.body "div".toList

/-- Cuts a text at the first closing tag of a name, in any case, with blanks or none before its
end. -/
def closing? (name : Text) : Text → Option (Text × Text)
  | [] => none
  | c :: s =>
    let lead := ['<', '/'] ++ name
    if Text.lowerAscii ((c :: s).take lead.length) = lead then
      match Text.strip? ['>'] (Text.trimStart ((c :: s).drop lead.length)) with
      | some rest => some ([], rest)
      | none => (closing? name s).map fun r => (c :: r.1, r.2)
    else (closing? name s).map fun r => (c :: r.1, r.2)

/-- Parts what stands in a tag after its name into the attributes and whether a slash closes the
tag. -/
def attrsAndSlash (inside : Text) : Text × Bool :=
  match Text.dropEnding? ['/'] inside with
  | some attrs => (Text.trimEnd attrs, true)
  | none => (Text.trimEnd inside, false)

/-- The text that a part of a source had before literals and signs were taken out of it. -/
def restored (literals : LiteralTable) (s : Text) : Text := Marker.decode (literals.requote s)

/-- Reads the block at the start of a text, after its `<`, and gives the rest. -/
def read? (literals : LiteralTable) (s : Text) : Option (Block × Text) := do
  let name := Text.lowerAscii (s.takeWhile Char.isAlpha)
  let s := s.dropWhile Char.isAlpha
  let kind ← Kind.ofName? name
  if !(s.head?.any fun c => c == '>' || c == '/' || isAsciiBlank c && c.toNat != 12) then none
  else
    let (inside, s) ← Text.cut? ['>'] s
    let (attrs, alone) := attrsAndSlash inside
    let attrs := restored literals attrs
    let less := name = "less".toList
    if alone then return (⟨kind, attrs, [], less⟩, s)
    else
      let (body, rest) ← closing? name s
      return (⟨kind, attrs, restored literals body, less⟩, rest)

theorem length_of_closing? {name s body rest : Text} (h : closing? name s = some (body, rest)) :
    rest.length ≤ s.length := by
  induction s generalizing body with
  | nil => simp [closing?] at h
  | cons c s ih =>
    have next : ∀ r : Text × Text, closing? name s = some r → (c :: r.1, r.2) = (body, rest) →
        rest.length ≤ (c :: s).length := by
      rintro ⟨b, r⟩ hr he
      cases he
      have := ih hr
      exact Nat.le_succ_of_le this
    unfold closing? at h
    dsimp only at h
    split at h
    · split at h
      next r hs =>
        cases Option.some.inj h
        have hl := congrArg List.length (Text.strip?_eq_some_iff.mp hs)
        have := Text.length_dropWhile_le isWhiteSpace
          ((c :: s).drop (['<', '/'] ++ name).length)
        simp only [Text.trimStart, List.length_append, List.length_drop, List.length_cons,
          List.length_nil] at hl this ⊢
        omega
      next =>
        obtain ⟨r, hr, he⟩ := Option.map_eq_some_iff.mp h
        exact next r hr he
    · obtain ⟨r, hr, he⟩ := Option.map_eq_some_iff.mp h
      exact next r hr he

theorem length_of_read? {literals : LiteralTable} {s rest : Text} {b : Block}
    (h : read? literals s = some (b, rest)) : rest.length ≤ s.length := by
  have hd := Text.length_dropWhile_le Char.isAlpha s
  simp only [read?, Option.bind_eq_bind, Option.bind_eq_some_iff] at h
  obtain ⟨kind, _, h⟩ := h
  split at h
  next => simp at h
  next =>
    simp only [Option.bind_eq_some_iff] at h
    obtain ⟨⟨inside, s1⟩, h1, h⟩ := h
    have l1 := Text.length_of_cut? h1
    dsimp only at h
    split at h
    next =>
      cases h
      omega
    next =>
      simp only [Option.bind_eq_some_iff] at h
      obtain ⟨⟨body, r⟩, h2, he⟩ := h
      have l2 := length_of_closing? h2
      cases he
      dsimp only
      omega

def marker (n : Nat) : Text := "<!_script ".toList ++ Text.ofNat n ++ ['/', '>']

/-- Takes the blocks out of a text, when so many have been taken out of what is before it. -/
def sinkFrom (literals : LiteralTable) (n : Nat) : Text → Text × List Block
  | [] => ([], [])
  | c :: s =>
    if c = '<' then
      match _h : read? literals s with
      | some (b, rest) =>
        let (text, blocks) := sinkFrom literals (n + 1) rest
        (marker n ++ text, b :: blocks)
      | none =>
        let (text, blocks) := sinkFrom literals n s
        (c :: text, blocks)
    else
      let (text, blocks) := sinkFrom literals n s
      (c :: text, blocks)
termination_by s => s.length
decreasing_by
  · have := length_of_read? _h
    simp only [List.length_cons]
    omega
  · simp
  · simp

/-- Takes the blocks out of a text: what is left, with a marker for each, and the blocks. -/
def sink (literals : LiteralTable) (s : Text) : Text × List Block := sinkFrom literals 0 s

/-- Reads the marker at the start of a text: its digits, and the rest. -/
def marker? (s : Text) : Option (Text × Text) :=
  (Text.strip? "<!_script ".toList s).bind fun s =>
    if (s.takeWhile isDecimalDigit).isEmpty then none
    else (Text.strip? ['/', '>'] (s.dropWhile isDecimalDigit)).map fun rest =>
      (s.takeWhile isDecimalDigit, rest)

theorem length_of_marker? {s digits rest : Text} (h : marker? s = some (digits, rest)) :
    rest.length < s.length := by
  obtain ⟨s', hs, h⟩ := Option.bind_eq_some_iff.mp h
  split at h
  next => simp at h
  next =>
    obtain ⟨r, hr, he⟩ := Option.map_eq_some_iff.mp h
    cases he
    have h1 := congrArg List.length (Text.strip?_eq_some_iff.mp hs)
    have h2 := congrArg List.length (Text.strip?_eq_some_iff.mp hr)
    have := Text.length_dropWhile_le isDecimalDigit s'
    simp only [List.length_append, List.length_cons, List.length_nil] at h1 h2
    omega

/-- A text as characters outside markers, and what the markers stand for; a marker without a block
stands for nothing. -/
def pieces (blocks : List Block) : Text → List (Char ⊕ Option Block)
  | [] => []
  | c :: s =>
    match _h : marker? (c :: s) with
    | some (digits, rest) =>
      .inr ((Text.toIndex? digits).bind fun n => blocks[n]?) :: pieces blocks rest
    | none => .inl c :: pieces blocks s
termination_by s => s.length
decreasing_by
  · exact length_of_marker? _h
  · simp

/-- Puts blocks back where their markers stand, each as the text that the given function makes of
the rendered block. -/
def reinjectM {m : Type → Type} [Monad m] (hooks : Hooks) (blocks : List Block)
    (emit : Text → m Text) (s : Text) : m Text :=
  return (← (pieces blocks s).mapM fun
    | .inl c => pure [c]
    | .inr none => pure []
    | .inr (some b) => emit (b.html hooks)).flatten

end Block

end Stencil
