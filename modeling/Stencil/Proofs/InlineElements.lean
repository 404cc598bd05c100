import Stencil.Markdown.Inline
import Stencil.Proofs.Elements
import Stencil.Proofs.Material

namespace Stencil

open Elements

namespace Escape

theorem not_mem_attributeChar (c d : Char) (h : d = '"' ∨ d = '>') : d ∉ attributeChar c := by
  unfold attributeChar
  split
  case h_6 _ _ hend _ hquote _ =>
    intro hd
    rw [List.mem_singleton.mp hd] at h
    rcases h with rfl | rfl
    · exact hquote rfl
    · exact hend rfl
  all_goals rcases h with rfl | rfl <;> decide

theorem inTag_attributeValue (s : Text) : InTag (attributeValue s) := by
  have hfree : ∀ d, d = '"' ∨ d = '>' → d ∉ attributeValue s := by
    intro d hd hm
    obtain ⟨c, -, hc⟩ := List.mem_flatMap.mp hm
    exact not_mem_attributeChar c d hd hc
  exact inTag_of_not_mem (hfree _ (.inl rfl)) (hfree _ (.inr rfl))

/-- A quoted value of an attribute. -/
theorem inTag_quotedValue (s : Text) : InTag (['"'] ++ attributeValue s ++ ['"']) := by
  refine inTag_quoted fun hm => ?_
  obtain ⟨c, -, hc⟩ := List.mem_flatMap.mp hm
  exact not_mem_attributeChar c '"' (.inl rfl) hc

end Escape

namespace Markdown

open Escape

theorem afterName_cons {c : Char} {t : Text} (hc : c.isAlphanum = false) (hquote : c ≠ '"')
    (hend : c ≠ '>') (ht : InTag t) : AfterName (c :: t) where
  stop d hd := by
    cases hd
    exact hc
  inTag := by
    have hone : InTag [c] :=
      inTag_of_not_mem (by simpa using hquote.symm) (by simpa using hend.symm)
    exact hone.append ht

/-- A blank, and what may follow it in a tag. -/
theorem afterName_blank {t : Text} (ht : InTag t) : AfterName (' ' :: t) :=
  afterName_cons (by decide) (by decide) (by decide) ht

namespace LinkAttributes

theorem afterName_writeOne (e : Text × Option Text) : AfterName (writeOne e) := by
  refine afterName_blank ((inTag_attributeValue e.1).append ?_)
  cases e.2 with
  | none => exact .nil
  | some v =>
    have hequals : InTag ['='] := inTag_of_not_mem (by decide) (by decide)
    exact hequals.append (inTag_quotedValue v)

theorem afterName_html (a : LinkAttributes) : AfterName a.html := by
  have hattrs : AfterName (a.attrs.flatMap writeOne) := by
    induction a.attrs with
    | nil => exact .nil
    | cons e attrs ih =>
      rw [List.flatMap_cons]
      exact (afterName_writeOne e).append ih
  refine hattrs.append ?_
  split
  · exact .nil
  · have hstyle : InTag "style=".toList := inTag_of_not_mem (by decide) (by decide)
    exact afterName_blank (hstyle.append (inTag_quotedValue _))

end LinkAttributes

theorem eq_of_toLower {c d : Char} (hd : d.isAlpha = false) (h : c.toLower = d) : c = d := by
  by_cases hc : c.isUpper
  · have halpha : d.isAlpha = c.isAlpha := by rw [← h, Char.isAlpha_toLower_eq_isAlpha]
    rw [hd, Char.isAlpha, hc] at halpha
    cases halpha
  · rwa [Char.toLower_eq_of_not_isUpper hc] at h

/-- The signs in the extension of an address are signs of the address. -/
theorem not_mem_extension {d : Char} (hd : d.isAlpha = false) {url : Text} (h : d ∉ url) :
    d ∉ extension url := by
  have hpath : ∀ p, d ∉ url.takeWhile p := fun p hm =>
    h ((Text.MadeOf.refl url).takeWhile p _ hm)
  have hext : ∀ {path before ext : Text}, d ∉ path →
      Text.cutLast? '.' path = some (before, ext) → d ∉ Text.lowerAscii ext := by
    intro path before ext hfree hcut hm
    obtain ⟨c, hc, hlower⟩ := List.mem_map.mp hm
    rw [eq_of_toLower hd hlower] at hc
    exact hfree (Text.MadeOf.cutLast? hcut _ hc)
  unfold extension
  dsimp only
  split
  next before ext hcut =>
    split at hcut
    next directory file hfile =>
      exact hext (fun hm => hpath _ (Text.MadeOf.cutLast? hfile _ hm)) hcut
    next => exact hext (hpath _) hcut
  next => exact List.not_mem_nil

theorem isAlphanum_of_ofExtension? {ext : Text} {media : Media}
    (h : Media.ofExtension? ext = some media) : ext.all Char.isAlphanum := by
  have hall : ∀ e ∈ Media.video.extensions ++ Media.audio.extensions, e.all Char.isAlphanum := by
    decide
  unfold Media.ofExtension? at h
  split at h
  next hv => exact hall ext (List.mem_append_left _ (List.contains_iff_mem.mp hv))
  next =>
    split at h
    next ha => exact hall ext (List.mem_append_right _ (List.contains_iff_mem.mp ha))
    next => cases h

/-- Can this character stand in the media types that are known? -/
def isTypeChar (c : Char) : Bool := c.isAlphanum || c == '-' || c == '/'

/-- All other characters in a media type are characters of the extension. -/
theorem not_mem_type {d : Char} (hd : isTypeChar d = false) {media : Media} {ext : Text}
    (h : d ∉ ext) : d ∉ media.type ext := by
  have hfree : ∀ {t : Text}, t.all isTypeChar → d ∉ t := fun ht hm => by
    rw [List.all_eq_true.mp ht d hm] at hd
    cases hd
  have hrenamed : ∀ e ∈ media.renamed, e.2.toList.all isTypeChar := by
    cases media with
    | video => decide
    | audio => decide
  have hname : (media.name ++ ['/']).all isTypeChar := by
    cases media with
    | video => decide
    | audio => decide
  unfold Media.type
  dsimp only
  split
  next first sub hfind =>
    exact List.not_mem_append (hfree hname) (hfree (hrenamed _ (List.mem_of_find?_eq_some hfind)))
  next => exact List.not_mem_append (hfree hname) h

namespace Inline

theorem inTag_attr {n : String} (hquote : '"' ∉ n.toList) (hend : '>' ∉ n.toList) (value : Text) :
    InTag (attr n value) := by
  have hequals : InTag (n.toList ++ ['=']) := by
    refine inTag_of_not_mem ?_ ?_
    · simp [hquote]
    · simp [hend]
  have hshape : attr n value = n.toList ++ ['='] ++ (['"'] ++ attributeValue value ++ ['"']) := by
    simp [attr]
  rw [hshape]
  exact hequals.append (inTag_quotedValue value)

theorem afterName_attr {n : String} (hquote : '"' ∉ n.toList) (hend : '>' ∉ n.toList)
    (value : Text) : AfterName (' ' :: attr n value) :=
  afterName_blank (inTag_attr hquote hend value)

/-- Text in which no tag can start, and of which no media type can close a quoted value. -/
structure Harmless (s : Text) : Prop where
  angle : '<' ∉ s
  quote : '"' ∉ s ∨ '|' ∉ s

theorem Harmless.mono {s t : Text} (h : Harmless s) (ht : Text.MadeOf t s) : Harmless t where
  angle hm := h.angle (ht _ hm)
  quote := h.quote.imp (fun hs hm => hs (ht _ hm)) fun hs hm => hs (ht _ hm)

/-- If an address has no bar, there is one source. -/
theorem head?_sources {url u : Text} (h : '|' ∉ url) (hu : u ∈ sources url) :
    (sources url).head? = some u := by
  unfold sources at hu ⊢
  rw [Text.splitOn_of_not_mem h] at hu ⊢
  obtain ⟨hu, hne⟩ := List.mem_filter.mp hu
  rw [List.map_singleton, List.mem_singleton] at hu
  subst hu
  simp [hne]

theorem madeOf_of_mem_sources {url u : Text} (h : u ∈ sources url) : Text.MadeOf u url := by
  obtain ⟨part, hpart, rfl⟩ := List.mem_map.mp (List.mem_filter.mp h).1
  exact (Text.MadeOf.of_mem_splitOn hpart).trim

variable {stack : List Text} {content : List Inline} {attrs : LinkAttributes} {url : Text}

theorem leads_sourceTag {media : Media} (h : '"' ∉ extension url) :
    Leads stack (sourceTag media url) stack := by
  have hparts : ∀ x a b c : Text, x ++ a ++ b ++ c ++ ['"', '/', '>'] =
      x ++ (a ++ (b ++ c ++ ['"', '/'])) ++ ['>'] := by simp
  have hshape : sourceTag media url = openTag "source".toList (' ' :: (attr "src" url ++
      (" type=\"".toList ++ media.type (extension url) ++ ['"', '/']))) :=
    hparts "<source ".toList _ _ _
  have htype : InTag " type=".toList := inTag_of_not_mem (by decide) (by decide)
  have hslash : InTag ['/'] := inTag_of_not_mem (by decide) (by decide)
  rw [hshape]
  refine leads_void (by decide) (by decide) (afterName_blank ?_)
  exact (inTag_attr (by decide) (by decide) url).append
    (htype.quoted (not_mem_type (by decide) h) hslash)

theorem leads_fence {body : Text} (hbody : '<' ∉ body) (lang : Text) :
    Leads stack (html (.fence lang body)) stack := by
  change Leads stack (if lang.isEmpty then element "pre".toList [] body
    else element "code".toList (' ' :: attr "lang" lang) body) stack
  split
  · exact leads_element (by decide) (by decide) .nil (leads_text hbody)
  · exact leads_element (by decide) (by decide) (afterName_attr (by decide) (by decide) lang)
      (leads_text hbody)

theorem leads_styled (h : ∀ stack, Leads stack (htmlAll content) stack) (style : Style) :
    Leads stack (html (.styled style content)) stack := by
  have hone : ∀ n, IsName n → voids.contains n = false → ∀ {t}, (∀ stack, Leads stack t stack) →
      ∀ stack, Leads stack (element n [] t) stack := fun n hn hvoid t ht stack =>
    leads_element hn hvoid .nil (ht (n :: stack))
  cases style with
  | emphasis => exact hone "em".toList (by decide) (by decide) h stack
  | strong => exact hone "strong".toList (by decide) (by decide) h stack
  | both =>
    have hopen : "<em><strong>".toList =
        openTag "em".toList [] ++ openTag "strong".toList [] := rfl
    have hclose : "</strong></em>".toList =
        closeTag "strong".toList ++ closeTag "em".toList := rfl
    have hshape : html (.styled .both content) =
        element "em".toList [] (element "strong".toList [] (htmlAll content)) := by
      change "<em><strong>".toList ++ htmlAll content ++ "</strong></em>".toList = _
      rw [hopen, hclose]
      simp only [element, List.append_assoc]
    have hinner := hone "strong".toList (by decide) (by decide) h
    rw [hshape]
    exact hone "em".toList (by decide) (by decide) hinner stack
  | underline => exact hone "u".toList (by decide) (by decide) h stack
  | struck => exact hone "s".toList (by decide) (by decide) h stack
  | deleted => exact hone "del".toList (by decide) (by decide) h stack
  | inserted => exact hone "ins".toList (by decide) (by decide) h stack

theorem leads_link (h : ∀ stack, Leads stack (htmlAll content) stack) :
    Leads stack (html (.link url attrs content)) stack := by
  change Leads stack (element "a".toList (' ' :: attr "href" url ++ attrs.html)
    (htmlAll content)) stack
  refine leads_element (by decide) (by decide) ?_ (h _)
  exact (afterName_attr (by decide) (by decide) url).append attrs.afterName_html

theorem leads_player {media : Media} {sources : List Text} (controls : Bool)
    (h : ∀ stack, Leads stack (htmlAll content) stack)
    (hsources : ∀ url ∈ sources, '"' ∉ extension url) :
    Leads stack (html (.player media controls attrs sources content)) stack := by
  have hshape : html (.player media controls attrs sources content) =
      element media.name ((if controls then " controls".toList else []) ++ attrs.html)
        (sources.flatMap (sourceTag media) ++ htmlAll content) := element_written _ _ _ _ _
  have hname : IsName media.name ∧ voids.contains media.name = false := by
    cases media with
    | video => decide
    | audio => decide
  have hcontrols : AfterName (if controls then " controls".toList else []) := by
    cases controls with
    | true =>
      have hword : InTag "controls".toList := inTag_of_not_mem (by decide) (by decide)
      exact afterName_blank hword
    | false => exact .nil
  rw [hshape]
  refine leads_element hname.1 hname.2 (hcontrols.append attrs.afterName_html) ?_
  have htags : ∀ stack, Leads stack (sources.flatMap (sourceTag media)) stack := by
    intro stack
    clear hshape
    induction sources with
    | nil => exact .nil
    | cons url urls ih =>
      rw [List.flatMap_cons]
      exact (leads_sourceTag (hsources url List.mem_cons_self)).append
        (ih fun u hu => hsources u (List.mem_cons_of_mem _ hu))
  exact (htags _).append (h _)

/-- Two attributes of an embed, and the ones that were given. -/
theorem afterName_pair {n m : String} (hn : '"' ∉ n.toList ∧ '>' ∉ n.toList)
    (hm : '"' ∉ m.toList ∧ '>' ∉ m.toList) (a b : Text) (attrs : LinkAttributes) :
    AfterName (' ' :: attr n a ++ [' '] ++ attr m b ++ attrs.html) := by
  have hblank : InTag [' '] := inTag_of_not_mem (by decide) (by decide)
  have hfirst : AfterName (' ' :: attr n a) := afterName_attr hn.1 hn.2 a
  have hsecond : InTag (attr m b) := inTag_attr hm.1 hm.2 b
  refine ⟨?_, ((hfirst.inTag.append hblank).append hsecond).append attrs.afterName_html.inTag⟩
  exact hfirst.stop

theorem leads_image (alt : Text) : Leads stack (html (.image url alt attrs)) stack := by
  have hshape : html (.image url alt attrs) = openTag "img".toList
      (' ' :: attr "src" url ++ [' '] ++ attr "alt" alt ++ attrs.html ++ ['/']) :=
    (List.append_assoc ("<img ".toList ++ attr "src" url ++ [' '] ++ attr "alt" alt ++ attrs.html)
      ['/'] ['>']).symm
  have hslash : AfterName ['/'] := afterName_cons (by decide) (by decide) (by decide) .nil
  rw [hshape]
  exact leads_void (by decide) (by decide)
    ((afterName_pair (by decide) (by decide) url alt attrs).append hslash)

theorem leads_frame (title : Text) : Leads stack (html (.frame url title attrs)) stack := by
  have hshape : html (.frame url title attrs) = openTag "iframe".toList
      (' ' :: attr "src" url ++ [' '] ++ attr "title" title ++ attrs.html) ++
        closeTag "iframe".toList :=
    (List.append_assoc ("<iframe ".toList ++ attr "src" url ++ [' '] ++ attr "title" title ++
      attrs.html) ['>'] (closeTag "iframe".toList)).symm
  rw [hshape]
  exact (leads_openTag (by decide) (by decide)
    (afterName_pair (by decide) (by decide) url title attrs)).append (leads_closeTag (by decide))

theorem leads_embed (hurl : Harmless url) (h : ∀ stack, Leads stack (htmlAll content) stack)
    (name : Text) : Leads stack (html (embed name url attrs content)) stack := by
  unfold embed
  dsimp only
  split
  next media hmedia =>
    refine leads_player _ h fun u hu => ?_
    rcases hurl.quote with hquote | hbar
    · exact not_mem_extension (by decide) fun hm => hquote (madeOf_of_mem_sources hu _ hm)
    · rw [head?_sources hbar hu] at hmedia
      have hext := List.all_eq_true.mp (isAlphanum_of_ofExtension? hmedia)
      exact fun hm => absurd (hext _ hm) (by decide)
  next =>
    split
    · exact leads_image name
    · exact leads_frame name

theorem leads_ofToken {s : Text} {token : Token} (hs : Harmless s) (htoken : token.Within s)
    (h : ∀ stack, Leads stack (htmlAll content) stack) :
    Leads stack (html (ofToken content token)) stack := by
  have hfree : ∀ {t : Text}, Text.MadeOf t s → '<' ∉ t := fun ht => (hs.mono ht).angle
  cases token with
  | text t => exact leads_text (hfree htoken)
  | code body =>
    change Leads stack (element "pre".toList [] body) stack
    exact leads_element (by decide) (by decide) .nil (leads_text (hfree htoken))
  | fence lang body => exact leads_fence (hfree htoken) lang
  | autolink url =>
    change Leads stack (element "a".toList (' ' :: attr "href" url) url) stack
    exact leads_element (by decide) (by decide) (afterName_attr (by decide) (by decide) url)
      (leads_text (hfree htoken))
  | styled style inner => exact leads_styled h style
  | link name url attrs => exact leads_link h
  | embed name url attrs => exact leads_embed (hs.mono htoken.2) h name

/-- Running markup leaves the open elements as they are. What is left of the text is of the same
characters. -/
theorem leads_htmlAll {oneLine : Bool} {before : Context} {s : Text} (hs : Harmless s) :
    (∀ stack, Leads stack (htmlAll (read oneLine before s).1) stack) ∧
      Text.MadeOf (read oneLine before s).2 s := by
  fun_induction read oneLine before s with
  | case1 => exact ⟨fun _ => .nil, .refl _⟩
  | case2 => exact ⟨fun _ => .nil, .refl _⟩
  | case3 oneLine before s _ more ih =>
    obtain ⟨hmore, hrest⟩ := ih (hs.mono ((Text.MadeOf.refl s).later _))
    have hfeed : ∀ stack, Leads stack ['\n'] stack := fun _ => leads_text (by decide)
    exact ⟨fun stack => (hfeed stack).append (hmore stack), hrest.later _⟩
  | case4 oneLine before c s _ token after rest h content more ih1 ih2 =>
    have hstep := within_step before c s
    rw [h] at hstep
    have hcontent : ∀ stack, Leads stack (htmlAll content) stack := by
      intro stack
      simp only [content]
      split
      next inner hinner => exact (ih1 inner hinner (hs.mono (hstep.token.inner hinner))).1 stack
      next => exact .nil
    obtain ⟨hmore, hrest⟩ := ih2 (hs.mono hstep.rest)
    exact ⟨fun stack => (leads_ofToken hs hstep.token hcontent).append (hmore stack),
      hrest.trans hstep.rest⟩

end Inline

end Markdown

end Stencil
