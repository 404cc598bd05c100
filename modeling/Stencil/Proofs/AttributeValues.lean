import Stencil.Proofs.StartTag
import Stencil.Proofs.WellNested

namespace Stencil

namespace Markdown

open Elements Escape Inline

/-- Can a text stand between the quotes of an attribute as it is? -/
def Quotable (t : Text) : Prop := '"' ∉ t ∧ '<' ∉ t ∧ '>' ∉ t

instance : DecidablePred Quotable := fun _ => inferInstanceAs (Decidable (_ ∧ _ ∧ _))

theorem quotable_append (s t : Text) : Quotable (s ++ t) ↔ Quotable s ∧ Quotable t := by
  simp only [Quotable, List.mem_append, not_or]
  tauto

theorem quotable_attributeValue (s : Text) : Quotable (attributeValue s) := by
  have hfree : ∀ d, d = '"' ∨ d = '<' ∨ d = '>' → d ∉ attributeValue s := by
    intro d hd hm
    obtain ⟨c, -, hc⟩ := List.mem_flatMap.mp hm
    obtain ⟨hquote, -, hstart, hend⟩ := attributeChar_plain c d hc
    rcases hd with rfl | rfl | rfl
    · exact hquote rfl
    · exact hstart rfl
    · exact hend rfl
  exact ⟨hfree _ (.inl rfl), hfree _ (.inr (.inl rfl)), hfree _ (.inr (.inr rfl))⟩

/-- A start tag: its name, its attributes, with what stands between the quotes if there is a value,
and whether a slash ends it. -/
structure StartTag where
  name : Text
  attrs : List (Text × Option Text)
  slash : Bool
deriving Repr, DecidableEq

def writeAttribute (a : Text × Option Text) : Text :=
  ' ' :: a.1 ++
    match a.2 with
    | some v => ['=', '"'] ++ v ++ ['"']
    | none => []

/-- An attribute with a value that is escaped for it. -/
def entry (name : String) (value : Text) : Text × Option Text :=
  (name.toList, some (attributeValue value))

/-- Attributes of which each ends where it is to end. -/
def Tight (attrs : List (Text × Option Text)) : Prop :=
  ∀ a ∈ attrs, Quotable a.1 ∧ ∀ v ∈ a.2, Quotable v

theorem tight_nil : Tight [] := fun _ h => absurd h List.not_mem_nil

theorem Tight.cons {a : Text × Option Text} {attrs : List (Text × Option Text)} (h : Tight attrs)
    (hname : Quotable a.1) (hvalue : ∀ v ∈ a.2, Quotable v) : Tight (a :: attrs) := by
  intro b hb
  rcases List.mem_cons.mp hb with rfl | hb
  · exact ⟨hname, hvalue⟩
  · exact h b hb

theorem Tight.append {attrs more : List (Text × Option Text)} (h : Tight attrs)
    (hmore : Tight more) : Tight (attrs ++ more) := fun a ha =>
  (List.mem_append.mp ha).elim (h a) (hmore a)

theorem Tight.entry {attrs : List (Text × Option Text)} (h : Tight attrs) {name : String}
    (hname : Quotable name.toList) (value : Text) : Tight (entry name value :: attrs) :=
  h.cons hname fun v hv => by
    rw [← Option.some.inj hv]
    exact quotable_attributeValue value

namespace StartTag

def written (t : StartTag) : Text :=
  openTag t.name (t.attrs.flatMap writeAttribute ++ if t.slash then ['/'] else [])

def source (media : Media) (url : Text) : StartTag :=
  ⟨"source".toList, [entry "src" url, ("type".toList, some (media.type (extension url)))], true⟩

end StartTag

/-- A piece of a page of markup: a text, or a start tag that is written for a link, an embed, an
address or a block of code. -/
inductive Piece where
  | text (t : Text)
  | tag (t : StartTag)
deriving Repr, DecidableEq

namespace Piece

def written : Piece → Text
  | text t => t
  | tag t => t.written

def write (ps : List Piece) : Text := ps.flatMap written

@[simp] theorem write_nil : write [] = [] := rfl

@[simp] theorem write_cons (p : Piece) (ps : List Piece) :
    write (p :: ps) = p.written ++ write ps :=
  rfl

@[simp] theorem write_append (ps qs : List Piece) : write (ps ++ qs) = write ps ++ write qs :=
  List.flatMap_append

end Piece

theorem written_entry (name : String) (value : Text) :
    writeAttribute (entry name value) = ' ' :: attr name value := by
  simp only [writeAttribute, entry, attr, List.cons_append, List.append_assoc]

namespace LinkAttributes

/-- The attributes as they are written in a tag. -/
def entries (a : LinkAttributes) : List (Text × Option Text) :=
  a.attrs.map (fun e => (attributeValue e.1, e.2.map attributeValue)) ++
    if a.style.isEmpty then [] else [entry "style" (Text.join [';'] a.style)]

theorem html_eq (a : LinkAttributes) : a.html = a.entries.flatMap writeAttribute := by
  have hone : ∀ e : Text × Option Text,
      writeOne e = writeAttribute (attributeValue e.1, e.2.map attributeValue) := by
    rintro ⟨key, value⟩
    cases value <;> rfl
  have hattrs : a.attrs.flatMap writeOne =
      (a.attrs.map fun e => (attributeValue e.1, e.2.map attributeValue)).flatMap
        writeAttribute := by
    rw [List.flatMap_map]
    exact congrArg (List.flatMap · a.attrs) (funext hone)
  rw [html, entries, List.flatMap_append, hattrs]
  split
  · rfl
  · simp [writeAttribute, entry]

theorem tight_entries (a : LinkAttributes) : Tight a.entries := by
  have hattrs : Tight (a.attrs.map fun e => (attributeValue e.1, e.2.map attributeValue)) := by
    intro e he
    obtain ⟨⟨key, value⟩, -, rfl⟩ := List.mem_map.mp he
    refine ⟨quotable_attributeValue key, fun v hv => ?_⟩
    obtain ⟨given, -, rfl⟩ := Option.mem_map.mp hv
    exact quotable_attributeValue given
  refine hattrs.append ?_
  split
  · exact tight_nil
  · exact tight_nil.entry (by decide) _

end LinkAttributes

/-- An element with a content of pieces. -/
def elementPieces (name : Text) (attrs : List (Text × Option Text)) (content : List Piece) :
    List Piece :=
  .tag ⟨name, attrs, false⟩ :: (content ++ [.text (closeTag name)])

theorem write_elementPieces (name : Text) (attrs : List (Text × Option Text))
    (content : List Piece) : Piece.write (elementPieces name attrs content) =
      element name (attrs.flatMap writeAttribute) (Piece.write content) := by
  simp only [elementPieces, Piece.write_cons, Piece.write_append, Piece.write_nil, Piece.written,
    StartTag.written, element, Bool.false_eq_true, if_false, List.append_nil, List.append_assoc]

theorem write_enclosed (before after : Text) (content : List Piece) :
    Piece.write (.text before :: (content ++ [.text after])) =
      before ++ Piece.write content ++ after := by
  simp only [Piece.write_cons, Piece.write_append, Piece.write_nil, Piece.written, List.append_nil,
    List.append_assoc]

namespace Inline

mutual

/-- The pieces of running markup. -/
def pieces : Inline → List Piece
  | .text t => [.text t]
  | .code body => elementPieces "pre".toList [] [.text body]
  | .fence lang body =>
    if lang.isEmpty then elementPieces "pre".toList [] [.text body]
    else elementPieces "code".toList [entry "lang" lang] [.text body]
  | .autolink url => elementPieces "a".toList [entry "href" url] [.text url]
  | .styled style content =>
    .text (styleTags style).1.toList :: (piecesAll content ++ [.text (styleTags style).2.toList])
  | .link url attrs content =>
    elementPieces "a".toList (entry "href" url :: attrs.entries) (piecesAll content)
  | .player media controls attrs sources content =>
    elementPieces media.name
      ((if controls then [("controls".toList, none)] else []) ++ attrs.entries)
      (sources.map (fun url => .tag (.source media url)) ++ piecesAll content)
  | .image url alt attrs =>
    [.tag ⟨"img".toList, entry "src" url :: entry "alt" alt :: attrs.entries, true⟩]
  | .frame url title attrs =>
    elementPieces "iframe".toList (entry "src" url :: entry "title" title :: attrs.entries) []

def piecesAll : List Inline → List Piece
  | [] => []
  | i :: is => pieces i ++ piecesAll is

end

theorem written_source (media : Media) (url : Text) :
    (StartTag.source media url).written = sourceTag media url := by
  have hparts : ∀ n a t d : Text,
      openTag n (' ' :: a ++ (' ' :: t ++ (['=', '"'] ++ d ++ ['"']) ++ []) ++ ['/']) =
        ('<' :: n ++ [' ']) ++ a ++ (' ' :: t ++ ['=', '"']) ++ d ++ ['"', '/', '>'] := by
    intro n a t d
    simp only [openTag, List.cons_append, List.append_assoc, List.nil_append, List.append_nil]
  have hattrs : (StartTag.source media url).attrs.flatMap writeAttribute =
      ' ' :: attr "src" url ++
        (' ' :: "type".toList ++ (['=', '"'] ++ media.type (extension url) ++ ['"']) ++ []) := by
    rw [← written_entry]
    rfl
  rw [StartTag.written, hattrs]
  exact hparts "source".toList (attr "src" url) "type".toList (media.type (extension url))

theorem write_sources (media : Media) (sources : List Text) :
    Piece.write (sources.map fun url => .tag (.source media url)) =
      sources.flatMap (sourceTag media) := by
  induction sources with
  | nil => rfl
  | cons url sources ih =>
    rw [List.map_cons, Piece.write_cons, List.flatMap_cons, ih, Piece.written, written_source]

theorem written_single (n : String) (value : Text) :
    [entry n value].flatMap writeAttribute = ' ' :: attr n value := by
  rw [List.flatMap_cons, written_entry, List.flatMap_nil, List.append_nil]

/-- Two attributes of an embed, and the ones that were given. -/
theorem written_pair (n m : String) (a b : Text) (attrs : LinkAttributes) :
    (entry n a :: entry m b :: attrs.entries).flatMap writeAttribute =
      ' ' :: attr n a ++ [' '] ++ attr m b ++ attrs.html := by
  simp only [List.flatMap_cons, written_entry, attrs.html_eq, List.append_assoc, List.cons_append,
    List.nil_append]

mutual

/-- Running markup is written as its pieces are. -/
theorem write_pieces : ∀ i : Inline, Piece.write i.pieces = i.html
  | .text t => List.append_nil t
  | .code body => by
    have hbody : Piece.write [.text body] = body := List.append_nil body
    exact (write_elementPieces _ _ _).trans (congrArg (element "pre".toList []) hbody)
  | .fence lang body => by
    have hbody : Piece.write [.text body] = body := List.append_nil body
    unfold pieces html
    split
    · exact (write_elementPieces _ _ _).trans (congrArg (element "pre".toList []) hbody)
    · rw [write_elementPieces, hbody, written_single]
      rfl
  | .autolink url => by
    have hurl : Piece.write [.text url] = url := List.append_nil url
    rw [pieces, write_elementPieces, hurl, written_single]
    rfl
  | .styled style content => by
    have henclosed := write_enclosed (styleTags style).1.toList (styleTags style).2.toList
      (piecesAll content)
    rw [write_piecesAll content] at henclosed
    exact henclosed
  | .link url attrs content => by
    rw [pieces, write_elementPieces, write_piecesAll content, List.flatMap_cons, written_entry,
      ← attrs.html_eq]
    rfl
  | .player media controls attrs sources content => by
    rw [pieces, write_elementPieces, List.flatMap_append, ← attrs.html_eq, Piece.write_append,
      write_sources, write_piecesAll content]
    cases controls with
    | true => exact (element_written _ _ _ _ _).symm
    | false => exact (element_written _ _ _ _ _).symm
  | .image url alt attrs => by
    rw [pieces, Piece.write_cons, Piece.write_nil, List.append_nil, Piece.written,
      StartTag.written, written_pair]
    exact (List.append_assoc ("<img ".toList ++ attr "src" url ++ [' '] ++ attr "alt" alt ++
      attrs.html) ['/'] ['>'])
  | .frame url title attrs => by
    rw [pieces, write_elementPieces, written_pair, Piece.write_nil, element, List.append_nil]
    exact (List.append_assoc ("<iframe ".toList ++ attr "src" url ++ [' '] ++ attr "title" title ++
      attrs.html) ['>'] (closeTag "iframe".toList))

theorem write_piecesAll : ∀ is : List Inline, Piece.write (piecesAll is) = htmlAll is
  | [] => rfl
  | i :: is => by rw [piecesAll, Piece.write_append, write_pieces i, write_piecesAll is, htmlAll]

end

/-- The name of a media type is that of the extension, or it is one that is known. -/
theorem quotable_type (media : Media) (ext : Text) :
    Quotable (media.type ext) ↔ Quotable ext := by
  have hrenamed : ∀ e ∈ media.renamed, Quotable e.1.toList ∧
      Quotable (media.name ++ ['/'] ++ e.2.toList) := by
    cases media with
    | video => decide
    | audio => decide
  have hname : Quotable (media.name ++ ['/']) := by
    cases media with
    | video => decide
    | audio => decide
  unfold Media.type
  dsimp only
  split
  next first sub hfind =>
    have hfirst := List.find?_some hfind
    rw [decide_eq_true_eq] at hfirst
    obtain ⟨hkey, hsub⟩ := hrenamed _ (List.mem_of_find?_eq_some hfind)
    rw [← hfirst]
    exact iff_of_true hsub hkey
  next => exact (quotable_append _ _).trans (and_iff_right hname)

/-- Do the attributes of a tag end where they are to end, unless it is the tag of a source of which
the extension does not? -/
def Fits (t : StartTag) : Prop :=
  Tight t.attrs ↔ ∀ media url, t = .source media url → Quotable (extension url)

theorem fits_of_tight {t : StartTag} (h : Tight t.attrs) (hname : t.name ≠ "source".toList) :
    Fits t :=
  iff_of_true h fun _ _ he => absurd (congrArg StartTag.name he) hname

theorem fits_source (media : Media) (url : Text) : Fits (.source media url) := by
  refine ⟨fun h other address he => ?_, fun h => ?_⟩
  · have htype : ("type".toList, some (other.type (extension address))) ∈
        (StartTag.source media url).attrs := by
      rw [he]
      exact List.mem_cons_of_mem _ List.mem_cons_self
    exact (quotable_type _ _).mp ((h _ htype).2 _ rfl)
  · have hname : Quotable "type".toList := by decide
    have htype : ∀ v ∈ some (media.type (extension url)), Quotable v := fun v hv =>
      Option.some.inj hv ▸ (quotable_type _ _).mpr (h media url rfl)
    exact (tight_nil.cons hname htype).entry (by decide) url

theorem mem_elementPieces {name : Text} {attrs : List (Text × Option Text)} {content : List Piece}
    {p : Piece} : p ∈ elementPieces name attrs content ↔
      p = .tag ⟨name, attrs, false⟩ ∨ p ∈ content ∨ p = .text (closeTag name) := by
  simp only [elementPieces, List.mem_cons, List.mem_append, List.not_mem_nil, or_false]

theorem fits_elementPieces {name : Text} {attrs : List (Text × Option Text)}
    {content : List Piece} (hname : name ≠ "source".toList) (hattrs : Tight attrs)
    (hcontent : ∀ t, .tag t ∈ content → Fits t) :
    ∀ t, .tag t ∈ elementPieces name attrs content → Fits t := by
  intro t h
  rcases mem_elementPieces.mp h with h | h | h
  · cases h
    exact fits_of_tight hattrs hname
  · exact hcontent t h
  · cases h

theorem fits_text (u : Text) : ∀ t, .tag t ∈ [Piece.text u] → Fits t := fun t h => by
  cases List.mem_singleton.mp h

mutual

theorem fits_pieces : ∀ (i : Inline) (t : StartTag), .tag t ∈ i.pieces → Fits t
  | .text u => fits_text u
  | .code body => fits_elementPieces (by decide) tight_nil (fits_text body)
  | .fence lang body => by
    unfold pieces
    split
    · exact fits_elementPieces (by decide) tight_nil (fits_text body)
    · exact fits_elementPieces (by decide) (tight_nil.entry (by decide) lang) (fits_text body)
  | .autolink url =>
    fits_elementPieces (by decide) (tight_nil.entry (by decide) url) (fits_text url)
  | .styled style content => by
    intro t h
    rcases List.mem_cons.mp h with h | h
    · cases h
    · exact (List.mem_append.mp h).elim (fits_piecesAll content t) (fits_text _ t)
  | .link url attrs content =>
    fits_elementPieces (by decide) (attrs.tight_entries.entry (by decide) url)
      (fits_piecesAll content)
  | .player media controls attrs sources content => by
    have hname : media.name ≠ "source".toList := by
      cases media with
      | video => decide
      | audio => decide
    have hcontrols : Tight (if controls then [("controls".toList, none)] else []) := by
      cases controls with
      | true => exact tight_nil.cons (by decide) fun _ h => absurd h (Option.not_mem_none _)
      | false => exact tight_nil
    refine fits_elementPieces hname (hcontrols.append attrs.tight_entries) fun t h => ?_
    rcases List.mem_append.mp h with h | h
    · obtain ⟨url, -, he⟩ := List.mem_map.mp h
      cases he
      exact fits_source media url
    · exact fits_piecesAll content t h
  | .image url alt attrs => by
    intro t h
    have hname : "img".toList ≠ "source".toList := by decide
    cases List.mem_singleton.mp h
    exact fits_of_tight ((attrs.tight_entries.entry (by decide) alt).entry (by decide) url) hname
  | .frame url title attrs =>
    fits_elementPieces (by decide)
      ((attrs.tight_entries.entry (by decide) title).entry (by decide) url)
      (fun _ h => absurd h List.not_mem_nil)

theorem fits_piecesAll : ∀ (is : List Inline) (t : StartTag), .tag t ∈ piecesAll is → Fits t
  | [] => fun _ h => absurd h List.not_mem_nil
  | i :: is => fun t h => (List.mem_append.mp h).elim (fits_pieces i t) (fits_piecesAll is t)

end

/-- Is a text without a quote, or made of the source that a page is rendered from? -/
def Copied (s u : Text) : Prop := '"' ∉ u ∨ u.MadeOf s

theorem Copied.mono {s t u : Text} (h : Copied s u) (hs : s.MadeOf t) : Copied t u :=
  h.imp id fun hu => hu.trans hs

variable {s : Text} {content : List Inline}

theorem copied_elementPieces {name : Text} {attrs : List (Text × Option Text)}
    {content : List Piece} (hname : '"' ∉ name) (hcontent : ∀ u, .text u ∈ content → Copied s u) :
    ∀ u, .text u ∈ elementPieces name attrs content → Copied s u := by
  intro u h
  rcases mem_elementPieces.mp h with h | h | h
  · cases h
  · exact hcontent u h
  · cases h
    exact .inl (by simp [closeTag, hname])

theorem copied_text {t : Text} (h : Copied s t) : ∀ u, .text u ∈ [Piece.text t] → Copied s u :=
  fun u hu => by
    cases List.mem_singleton.mp hu
    exact h

theorem copied_embed (h : ∀ u, .text u ∈ piecesAll content → Copied s u) (name url : Text)
    (attrs : LinkAttributes) :
    ∀ u, .text u ∈ (embed name url attrs content).pieces → Copied s u := by
  unfold embed
  dsimp only
  split
  next media hmedia =>
    have hname : '"' ∉ media.name := by
      cases media with
      | video => decide
      | audio => decide
    refine copied_elementPieces hname fun u hu => ?_
    rcases List.mem_append.mp hu with hu | hu
    · obtain ⟨source, -, he⟩ := List.mem_map.mp hu
      cases he
    · exact h u hu
  next =>
    split
    · intro u hu
      cases List.mem_singleton.mp hu
    · exact copied_elementPieces (by decide) fun _ hu => absurd hu List.not_mem_nil

theorem copied_ofToken {token : Token} (htoken : token.Within s)
    (h : ∀ u, .text u ∈ piecesAll content → Copied s u) :
    ∀ u, .text u ∈ (ofToken content token).pieces → Copied s u := by
  cases token with
  | text t => exact copied_text (.inr htoken)
  | code body => exact copied_elementPieces (by decide) (copied_text (.inr htoken))
  | fence lang body =>
    change ∀ u, .text u ∈ pieces (.fence lang body) → Copied s u
    unfold pieces
    split
    · exact copied_elementPieces (by decide) (copied_text (.inr htoken))
    · exact copied_elementPieces (by decide) (copied_text (.inr htoken))
  | autolink url => exact copied_elementPieces (by decide) (copied_text (.inr htoken))
  | styled style inner =>
    have hstyle : '"' ∉ (styleTags style).1.toList ∧ '"' ∉ (styleTags style).2.toList := by
      cases style <;> decide
    intro u hu
    rcases List.mem_cons.mp hu with hu | hu
    · cases hu
      exact .inl hstyle.1
    · exact (List.mem_append.mp hu).elim (h u) (copied_text (.inl hstyle.2) u)
  | link name url attrs => exact copied_elementPieces (by decide) h
  | embed name url attrs => exact copied_embed h name url attrs

/-- The quotes in the texts of running markup are those of its source. -/
theorem copied_read (oneLine : Bool) (before : Context) (s : Text) :
    (∀ u, .text u ∈ piecesAll (read oneLine before s).1 → Copied s u) ∧
      Text.MadeOf (read oneLine before s).2 s := by
  fun_induction read oneLine before s with
  | case1 => exact ⟨fun _ h => absurd h List.not_mem_nil, .refl _⟩
  | case2 => exact ⟨fun _ h => absurd h List.not_mem_nil, .refl _⟩
  | case3 oneLine before s _ more ih =>
    obtain ⟨hmore, hrest⟩ := ih
    have hlater : Text.MadeOf s ('\n' :: s) := (Text.MadeOf.refl s).later _
    refine ⟨fun u hu => ?_, hrest.trans hlater⟩
    rcases List.mem_append.mp hu with hu | hu
    · exact copied_text (.inl (by decide)) u hu
    · exact (hmore u hu).mono hlater
  | case4 oneLine before c s _ token after rest h content more ih1 ih2 =>
    have hstep := within_step before c s
    rw [h] at hstep
    have hcontent : ∀ u, .text u ∈ piecesAll content → Copied (c :: s) u := by
      simp only [content]
      split
      next inner hinner =>
        exact fun u hu => ((ih1 inner hinner).1 u hu).mono (hstep.token.inner hinner)
      next => exact fun _ h => absurd h List.not_mem_nil
    obtain ⟨hmore, hrest⟩ := ih2
    refine ⟨fun u hu => ?_, hrest.trans hstep.rest⟩
    rcases List.mem_append.mp hu with hu | hu
    · exact copied_ofToken hstep.token hcontent u hu
    · exact (hmore u hu).mono hstep.rest

end Inline

/-- A line as it is rendered: what stands before its running markup, the markup, and what stands
after it. -/
structure Framed where
  before : Text
  content : List Inline
  after : Text

def Framed.pieces (f : Framed) : List Piece :=
  .text f.before :: (piecesAll f.content ++ [.text f.after])

def contentFrame (blanks : Text) (indent : Nat) (o : Open) (s : Text) : Framed :=
  let line := firstLine s
  let level := (line.takeWhile (· == '#')).length
  if 1 ≤ level ∧ level ≤ 6 then
    let tag := ['h'] ++ Text.ofNat level ++ ['>']
    let (content, rest) := read true .other (afterSpace (s.drop level))
    ⟨o.closeLists.1 ++ (['<'] ++ tag), content, ['<', '/'] ++ tag ++ lineEnd rest⟩
  else
    match itemMark? line with
    | some (mark, content) =>
      ⟨(openItem indent mark (Text.splitOn ['\n'] s).tail o).1 ++ "<li>".toList,
        (read true .other (s.drop (line.length - content.length))).1, "</li>".toList⟩
    | none =>
      let (content, rest) := read true .other s
      ⟨o.closeLists.1 ++ blanks, content, lineEnd rest⟩

/-- The line at the start of a text. -/
def lineFrame (o : Open) (s : Text) : Framed :=
  let blanks := s.takeWhile isIndent
  let s := s.dropWhile isIndent
  if (Text.trim (firstLine s)).isEmpty then
    ⟨o.closeLists.1 ++ o.closeLists.2.closeQuote.1, [], lineEnd (s.dropWhile (· != '\n'))⟩
  else
    let quoted := s.head? = some '>'
    let (start, o) :=
      if quoted then (if o.quote then [] else "<blockquote>".toList, { o with quote := true })
      else o.closeQuote
    let indent := if quoted then 0 else indentWidth blanks
    let s := if quoted then afterSpace s.tail else s
    if isRule (firstLine s) then
      ⟨start ++ o.closeLists.1 ++ "<hr/>".toList, [], lineEnd (s.dropWhile (· != '\n'))⟩
    else
      let f := contentFrame blanks indent o s
      { f with before := start ++ f.before }

/-- The pieces of the lines of a text. -/
def linesPieces (o : Open) (s : Text) : List Piece :=
  if _hs : s = [] then [.text o.closeLists.1, .text o.closeQuote.1]
  else (lineFrame o s).pieces ++ linesPieces (line o s).2.1 (line o s).2.2
termination_by s.length
decreasing_by exact length_line_lt _hs

def pagePieces (s : Text) : List Piece := linesPieces .nothing s

theorem Framed.write_pieces (f : Framed) :
    Piece.write f.pieces = f.before ++ htmlAll f.content ++ f.after := by
  rw [Framed.pieces, write_enclosed, write_piecesAll]

theorem write_contentFrame (blanks : Text) (indent : Nat) (o : Open) (s : Text) :
    Piece.write (contentFrame blanks indent o s).pieces = (contentLine blanks indent o s).1 := by
  rw [Framed.write_pieces]
  unfold contentFrame contentLine runningLine
  dsimp only
  split
  · simp only [List.append_assoc]
  · cases itemMark? (firstLine s) with
    | some r => simp only [List.append_assoc]
    | none => simp only [List.append_assoc, List.nil_append]

theorem write_lineFrame (o : Open) (s : Text) :
    Piece.write (lineFrame o s).pieces = (line o s).1 := by
  have hframe : ∀ f : Framed, ∀ start : Text,
      Piece.write { f with before := start ++ f.before }.pieces =
        start ++ Piece.write f.pieces := by
    intro f start
    simp only [Framed.write_pieces, List.append_assoc]
  unfold lineFrame line
  dsimp only
  split
  · simp only [Framed.write_pieces, htmlAll, List.append_nil]
  · generalize s.dropWhile isIndent = t
    generalize (if t.head? = some '>' then _ else o.closeQuote : Text × Open) = start
    generalize (if t.head? = some '>' then afterSpace t.tail else t : Text) = u
    generalize (if t.head? = some '>' then 0 else indentWidth (s.takeWhile isIndent) : Nat) = indent
    split
    · simp only [Framed.write_pieces, htmlAll, List.append_nil]
    · rw [hframe, write_contentFrame]

theorem write_linesPieces (o : Open) (s : Text) : Piece.write (linesPieces o s) = lines o s := by
  fun_induction lines o s with
  | case1 o =>
    rw [linesPieces, dif_pos rfl]
    simp only [Piece.write_cons, Piece.write_nil, Piece.written, List.append_nil]
  | case2 o s hne ih => rw [linesPieces, dif_neg hne, Piece.write_append, write_lineFrame, ih]

theorem tag_mem_pieces {f : Framed} {t : StartTag} (h : .tag t ∈ f.pieces) :
    .tag t ∈ piecesAll f.content := by
  simpa [Framed.pieces] using h

theorem fits_linesPieces (o : Open) (s : Text) : ∀ t, .tag t ∈ linesPieces o s → Fits t := by
  fun_induction linesPieces o s with
  | case1 o => exact fun t h => by simp at h
  | case2 o s hne ih =>
    intro t h
    rcases List.mem_append.mp h with h | h
    · exact fits_piecesAll _ t (tag_mem_pieces h)
    · exact ih t h

theorem quote_not_mem_closeTags (lists : List (Nat × ListKind)) :
    '"' ∉ Open.closeTags lists := by
  have hkind : ∀ k : ListKind, '"' ∉ k.closeTag := by
    intro k
    cases k <;> decide
  intro h
  obtain ⟨l, -, hl⟩ := List.mem_flatMap.mp h
  exact hkind l.2 hl

theorem quote_not_mem_closeQuote (o : Open) : '"' ∉ o.closeQuote.1 := by
  unfold Open.closeQuote
  dsimp only
  split
  · decide
  · exact List.not_mem_nil

theorem quote_not_mem_lineEnd (s : Text) : '"' ∉ lineEnd s := by
  unfold lineEnd
  split
  · decide
  · exact List.not_mem_nil

theorem quote_not_mem_openItem (indent : Nat) (mark : ItemMark) (lines : List Text) (o : Open) :
    '"' ∉ (openItem indent mark lines o).1 := by
  have hkind : ∀ k : ListKind, '"' ∉ k.openTag := by
    intro k
    cases k <;> decide
  have hopened : ∀ closed, '"' ∉ Open.closeTags closed ++ (listKind indent mark lines).openTag :=
    fun closed => List.not_mem_append (quote_not_mem_closeTags closed) (hkind _)
  unfold openItem
  dsimp only
  split
  · exact hopened _
  · split
    · exact hopened _
    · split
      · exact quote_not_mem_closeTags _
      · exact hopened _

/-- What a line has around its running markup is without quotes, and the markup is of the source. -/
structure Framed.Within (s : Text) (f : Framed) : Prop where
  before : '"' ∉ f.before
  content : ∀ u, .text u ∈ piecesAll f.content → Copied s u
  after : '"' ∉ f.after

theorem Framed.Within.copied {s : Text} {f : Framed} (h : f.Within s) :
    ∀ u, .text u ∈ f.pieces → Copied s u := by
  intro u hu
  rcases List.mem_cons.mp hu with hu | hu
  · cases hu
    exact .inl h.before
  · exact (List.mem_append.mp hu).elim (h.content u) (copied_text (.inl h.after) u)

theorem within_contentFrame {blanks s : Text} (hblanks : '"' ∉ blanks) (indent : Nat) (o : Open) :
    (contentFrame blanks indent o s).Within s ∧
      Text.MadeOf (contentLine blanks indent o s).2.2 s := by
  have hafter : ∀ {rest t : Text}, Text.MadeOf rest t → Text.MadeOf t s →
      Text.MadeOf (afterLine rest) s := fun hrest ht =>
    (Text.MadeOf.getD_strip? _ _).trans (hrest.trans ht)
  unfold contentFrame contentLine runningLine
  dsimp only
  split
  next hlevel =>
    generalize (firstLine s).takeWhile (· == '#') = marks
    have hinner : Text.MadeOf (afterSpace (s.drop marks.length)) s :=
      (Text.MadeOf.getD_strip? _ _).trans (.of_sublist (List.drop_sublist _ s))
    obtain ⟨hcontent, hrest⟩ := copied_read true .other (afterSpace (s.drop marks.length))
    have hlevel : '"' ∉ Text.ofNat marks.length := Text.not_mem_ofNat (by decide) _
    refine ⟨⟨?_, fun u hu => (hcontent u hu).mono hinner, ?_⟩, hafter hrest hinner⟩
    · exact List.not_mem_append (quote_not_mem_closeTags o.lists) (by simp [hlevel])
    · exact List.not_mem_append (by simp [hlevel]) (quote_not_mem_lineEnd _)
  next =>
    cases itemMark? (firstLine s) with
    | some r =>
      obtain ⟨mark, content⟩ := r
      have hinner : Text.MadeOf (s.drop ((firstLine s).length - content.length)) s :=
        .of_sublist (List.drop_sublist _ s)
      obtain ⟨hcontent, hrest⟩ := copied_read true .other
        (s.drop ((firstLine s).length - content.length))
      have hitem : '"' ∉ "<li>".toList ∧ '"' ∉ "</li>".toList := by decide
      refine ⟨⟨?_, fun u hu => (hcontent u hu).mono hinner, hitem.2⟩, hafter hrest hinner⟩
      exact List.not_mem_append (quote_not_mem_openItem indent mark _ o) hitem.1
    | none =>
      obtain ⟨hcontent, hrest⟩ := copied_read true .other s
      refine ⟨⟨?_, hcontent, quote_not_mem_lineEnd _⟩, hafter hrest (.refl s)⟩
      exact List.not_mem_append (quote_not_mem_closeTags o.lists) hblanks

theorem within_lineFrame (o : Open) (s : Text) :
    (lineFrame o s).Within s ∧ Text.MadeOf (line o s).2.2 s := by
  have hinner : Text.MadeOf (s.dropWhile isIndent) s := (Text.MadeOf.refl s).dropWhile _
  have hblanks : '"' ∉ s.takeWhile isIndent := fun hm => by
    have := List.mem_takeWhile_imp hm
    revert this
    decide
  have hlater : ∀ u : Text, Text.MadeOf u s →
      Text.MadeOf (afterLine (u.dropWhile (· != '\n'))) s := fun u hu =>
    (Text.MadeOf.getD_strip? _ _).trans (hu.dropWhile _)
  have hempty : ∀ u, .text u ∈ piecesAll [] → Copied s u := fun _ h => absurd h List.not_mem_nil
  unfold lineFrame line
  dsimp only
  generalize s.takeWhile isIndent = blanks at hblanks
  generalize s.dropWhile isIndent = t at hinner
  split
  · refine ⟨⟨?_, hempty, quote_not_mem_lineEnd _⟩, hlater t hinner⟩
    exact List.not_mem_append (quote_not_mem_closeTags o.lists) (quote_not_mem_closeQuote _)
  · have hstart : '"' ∉ (if t.head? = some '>' then
        (if o.quote then [] else "<blockquote>".toList, { o with quote := true })
        else o.closeQuote).1 := by
      split
      · dsimp only
        split <;> decide
      · exact quote_not_mem_closeQuote o
    generalize (if t.head? = some '>' then _ else o.closeQuote : Text × Open) = start at hstart
    have hrest : Text.MadeOf (if t.head? = some '>' then afterSpace t.tail else t) s := by
      split
      · exact (Text.MadeOf.getD_strip? _ _).trans
          ((Text.MadeOf.of_sublist (List.tail_sublist t)).trans hinner)
      · exact hinner
    generalize (if t.head? = some '>' then afterSpace t.tail else t : Text) = u at hrest
    generalize (if t.head? = some '>' then 0 else indentWidth blanks : Nat) = indent
    split
    · refine ⟨⟨?_, hempty, quote_not_mem_lineEnd _⟩, hlater u hrest⟩
      exact List.not_mem_append
        (List.not_mem_append hstart (quote_not_mem_closeTags start.2.lists)) (by decide)
    · obtain ⟨hframe, hafter⟩ := within_contentFrame (s := u) hblanks indent start.2
      exact ⟨⟨List.not_mem_append hstart hframe.before,
        fun v hv => (hframe.content v hv).mono hrest, hframe.after⟩, hafter.trans hrest⟩

theorem copied_linesPieces (o : Open) (s : Text) :
    ∀ u, .text u ∈ linesPieces o s → Copied s u := by
  fun_induction linesPieces o s with
  | case1 o =>
    intro u hu
    rcases List.mem_cons.mp hu with hu | hu
    · cases hu
      exact .inl (quote_not_mem_closeTags o.lists)
    · exact copied_text (.inl (quote_not_mem_closeQuote o)) u hu
  | case2 o s hne ih =>
    obtain ⟨hframe, hrest⟩ := within_lineFrame o s
    intro u hu
    exact (List.mem_append.mp hu).elim (hframe.copied u) fun hu => (ih u hu).mono hrest

/-- Rendered markup is text and start tags. The texts have no quotes but those of the source, and
the attributes of a tag end where they are to end, unless the tag is that of a source of which the
extension has a quote or an angle bracket. -/
theorem tight_render (s : Text) :
    render s = Piece.write (pagePieces s) ∧
      (∀ u, .text u ∈ pagePieces s → '"' ∉ u ∨ u.MadeOf s) ∧
      ∀ t, .tag t ∈ pagePieces s →
        (Tight t.attrs ↔ ∀ media url, t = .source media url → Quotable (extension url)) :=
  ⟨(write_linesPieces _ s).symm, copied_linesPieces _ s, fits_linesPieces _ s⟩

theorem tight_render_link :
    .tag ⟨"a".toList, [entry "href" "b".toList, entry "title" "<\"".toList], false⟩ ∈
        pagePieces "[a](b)\x7btitle='<\"'\x7d".toList ∧
      Tight [entry "href" "b".toList, entry "title" "<\"".toList] := by
  have hmem : .tag ⟨"a".toList, [entry "href" "b".toList, entry "title" "<\"".toList], false⟩ ∈
      pagePieces "[a](b)\x7btitle='<\"'\x7d".toList := by decide +kernel
  have hname : "a".toList ≠ "source".toList := by decide
  exact ⟨hmem, ((tight_render _).2.2 _ hmem).mpr fun _ _ h =>
    absurd (congrArg StartTag.name h) hname⟩

/-- The extension of an address may end the attribute that it stands in. -/
theorem not_tight_render :
    let s := "![a](b.mp4|c.d\"e)".toList
    render s = "<video controls><source src=\"b.mp4\" type=\"video/mp4\"/>".toList ++
        "<source src=\"c.d&quot;e\" type=\"video/d\"e\"/>a</video>".toList ∧
      .tag (.source .video "c.d\"e".toList) ∈ pagePieces s ∧
      ¬Quotable (extension "c.d\"e".toList) := by
  decide +kernel

end Markdown

end Stencil
