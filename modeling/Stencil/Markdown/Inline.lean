import Stencil.Markdown.Token

namespace Stencil.Markdown

/-- A piece of running markup. -/
inductive Inline where
  | text (t : Text)
  | code (body : Text)
  | fence (lang body : Text)
  | autolink (url : Text)
  | styled (style : Style) (content : List Inline)
  | link (url : Text) (attrs : LinkAttributes) (content : List Inline)
  | player (media : Media) (controls : Bool) (attrs : LinkAttributes) (sources : List Text)
      (content : List Inline)
  | image (url alt : Text) (attrs : LinkAttributes)
  | frame (url title : Text) (attrs : LinkAttributes)
deriving Repr

namespace Inline

/-- The attribute that leaves a player without controls. -/
def noControls : Text := "no-controls".toList

def sources (url : Text) : List Text :=
  ((Text.splitOn ['|'] url).map Text.trim).filter fun s => !s.isEmpty

/-- An embed, by the extension of its first address: a player, an image, or a frame. -/
def embed (name url : Text) (attrs : LinkAttributes) (content : List Inline) : Inline :=
  let first := (sources url).head?.getD []
  let ext := extension first
  match Media.ofExtension? ext with
  | some media =>
    .player media (!attrs.has noControls) (attrs.erase noControls) (sources url) content
  | none =>
    if imageExtensions.contains ext then .image first name attrs else .frame first name attrs

def ofToken (content : List Inline) : Token → Inline
  | .text t => .text t
  | .code body => .code body
  | .fence lang body => .fence lang body
  | .autolink url => .autolink url
  | .styled style _ => .styled style content
  | .link _ url attrs => .link url attrs content
  | .embed name url attrs => embed name url attrs content

/-- Reads running markup: one line, or all lines of a text. Gives what is left of the text. -/
def read (oneLine : Bool) (before : Context) (s : Text) : List Inline × Text :=
  match s with
  | [] => ([], [])
  | c :: s =>
    if c = '\n' then
      if oneLine then ([], c :: s)
      else
        let more := read oneLine .other s
        (.text [c] :: more.1, more.2)
    else
      match _h : step before c s with
      | ⟨token, after, rest⟩ =>
        let content := match _ht : token.inner? with
          | some inner => (read false .other inner).1
          | none => []
        let more := read oneLine after rest
        (ofToken content token :: more.1, more.2)
termination_by s.length
decreasing_by
  · simp
  · have := (length_of_step before c s).2 inner (by rw [_h]; exact _ht)
    simp only [List.length_cons]
    omega
  · have := (length_of_step before c s).1
    rw [_h] at this
    simp only [List.length_cons]
    omega

theorem length_read_le (oneLine : Bool) (before : Context) (s : Text) :
    (read oneLine before s).2.length ≤ s.length := by
  fun_induction read oneLine before s with
  | case1 => simp
  | case2 => simp
  | case3 oneLine before s _ more ih => simp only [List.length_cons, more]; omega
  | case4 oneLine before c s _ token after rest h content more ih1 ih2 =>
    have := (length_of_step before c s).1
    rw [h] at this
    simp only [List.length_cons, more] at this ⊢
    omega

theorem length_read_lt {oneLine : Bool} {before : Context} {c : Char} {s : Text} (hc : c ≠ '\n') :
    (read oneLine before (c :: s)).2.length < (c :: s).length := by
  have h1 := (length_of_step before c s).1
  have h2 := length_read_le oneLine (step before c s).after (step before c s).rest
  rw [read]
  simp only [hc, ↓reduceIte, List.length_cons]
  omega

def styleTags : Style → String × String
  | .emphasis => ("<em>", "</em>")
  | .strong => ("<strong>", "</strong>")
  | .both => ("<em><strong>", "</strong></em>")
  | .underline => ("<u>", "</u>")
  | .struck => ("<s>", "</s>")
  | .deleted => ("<del>", "</del>")
  | .inserted => ("<ins>", "</ins>")

def attr (name : String) (value : Text) : Text :=
  name.toList ++ ['=', '"'] ++ Escape.attributeValue value ++ ['"']

def sourceTag (media : Media) (url : Text) : Text :=
  "<source ".toList ++ attr "src" url ++ " type=\"".toList ++ media.type (extension url) ++
    "\"/>".toList

mutual

def html : Inline → Text
  | .text t => t
  | .code body => "<pre>".toList ++ body ++ "</pre>".toList
  | .fence lang body =>
    if lang.isEmpty then "<pre>".toList ++ body ++ "</pre>".toList
    else "<code ".toList ++ attr "lang" lang ++ ['>'] ++ body ++ "</code>".toList
  | .autolink url => "<a ".toList ++ attr "href" url ++ ['>'] ++ url ++ "</a>".toList
  | .styled style content =>
    (styleTags style).1.toList ++ htmlAll content ++ (styleTags style).2.toList
  | .link url attrs content =>
    "<a ".toList ++ attr "href" url ++ attrs.html ++ ['>'] ++ htmlAll content ++ "</a>".toList
  | .player media controls attrs sources content =>
    ['<'] ++ media.name ++ (if controls then " controls".toList else []) ++ attrs.html ++ ['>'] ++
      sources.flatMap (sourceTag media) ++ htmlAll content ++ ['<', '/'] ++ media.name ++ ['>']
  | .image url alt attrs =>
    "<img ".toList ++ attr "src" url ++ [' '] ++ attr "alt" alt ++ attrs.html ++ ['/', '>']
  | .frame url title attrs =>
    "<iframe ".toList ++ attr "src" url ++ [' '] ++ attr "title" title ++ attrs.html ++
      "></iframe>".toList

def htmlAll : List Inline → Text
  | [] => []
  | i :: is => html i ++ htmlAll is

end

end Inline

def renderInline (s : Text) : Text := Inline.htmlAll (Inline.read false .other s).1

end Stencil.Markdown
