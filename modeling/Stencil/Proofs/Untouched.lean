import Stencil.Proofs.AttributeValues
import Stencil.Proofs.Calm
import Stencil.Proofs.Sealed

namespace Stencil

theorem Escape.brace_mem_attributeChar {c : Char} (h : '{' ∈ attributeChar c) : c = '{' := by
  unfold attributeChar at h
  split at h
  case h_6 => exact (List.mem_singleton.mp h).symm
  all_goals exact absurd h (by decide)

namespace Markdown

open Elements Escape Inline

variable {s t u o rest name url n attrs : Text} {ws vs : List Text}

/-- Is this the name of an element that cannot be taken for that of a placeholder? -/
def IsElementName (n : Text) : Prop :=
  (n.head?.any fun d => d != '_' && d != '/' && !d.isUpper) ∧ Vacant n

instance : DecidablePred IsElementName := fun _ => inferInstanceAs (Decidable (_ ∧ _))

theorem IsElementName.exists_head (hn : IsElementName n) :
    ∃ d m, n = d :: m ∧ d ≠ '_' ∧ d ≠ '/' ∧ d.isUpper = false := by
  cases n with
  | nil => cases hn.1
  | cons d m =>
    have hd := hn.1
    simp only [List.head?_cons, Option.any_some, Bool.and_eq_true, bne_iff_ne, ne_eq,
      Bool.not_eq_true'] at hd
    exact ⟨d, m, rfl, hd.1.1, hd.1.2, hd.2⟩

theorem stretch_openTag (hn : IsElementName n) (h : Stretch ws attrs ('>' :: u)) :
    Stretch ws (openTag n attrs) u := by
  have hvacant := hn.2
  obtain ⟨d, m, rfl, hplain⟩ := hn.exists_head
  have hend : Stretch ws (attrs ++ ['>']) u := by
    simpa using h.append (.of_vacant (w := ['>']) (by decide) u)
  have hinner : Stretch ws (d :: m ++ attrs ++ ['>']) u := by
    rw [List.append_assoc]
    exact (Stretch.of_vacant hvacant _).append hend
  exact .skip (Hole.lead?_char fun hc => absurd hc (by decide))
    (Placeholder.inert_opening hplain (m ++ attrs ++ ['>']) u) hinner

theorem bland_closeTag (hn : IsElementName n) : Bland (closeTag n) := by
  intro u
  have hvacant := hn.2
  obtain ⟨d, m, rfl, hplain⟩ := hn.exists_head
  have hinner : Vacant ('/' :: (d :: m ++ ['>'])) :=
    Vacant.append (s := ['/']) (by decide) (hvacant.append (by decide))
  exact .skip (Hole.lead?_char fun hc => absurd hc (by decide))
    (Placeholder.inert_closing ⟨hplain.1, hplain.2.2⟩ (m ++ ['>']) u) (.of_vacant hinner u)

theorem bland_openTag (hn : IsElementName n) (hattrs : Vacant attrs) : Bland (openTag n attrs) :=
  fun _ => stretch_openTag hn (.of_vacant hattrs _)

theorem stops_closeTag (n u : Text) : Stops (closeTag n ++ u) := fun d hd => by
  cases hd
  exact .inr rfl

/-- An element has the fixtures of its attributes and those of its content. -/
theorem stretch_element (hn : IsElementName n) (hattrs : ∀ u, Stretch vs attrs ('>' :: u))
    (ht : ∀ u, Stops u → Stretch ws t u) (u : Text) :
    Stretch (vs ++ ws) (element n attrs t) u := by
  have hopen : Stretch vs (openTag n attrs) (t ++ (closeTag n ++ u)) :=
    stretch_openTag hn (hattrs _)
  have hopened : Stretch (vs ++ ws) (openTag n attrs ++ t) (closeTag n ++ u) :=
    hopen.append (ht _ (stops_closeTag n u))
  have hclosed := hopened.append (bland_closeTag hn u)
  rwa [List.append_nil] at hclosed

theorem vacant_attributeChar {c : Char} (hc : c ≠ '{') : Vacant (attributeChar c) :=
  ⟨fun hm => hc (brace_mem_attributeChar hm), fun hm => (attributeChar_plain c _ hm).2.2.1 rfl⟩

theorem vacant_attributeValue (h : '{' ∉ s) : Vacant (attributeValue s) := by
  refine ⟨fun hm => ?_, fun hm => (attributeValue_plain _ hm).2.2.1 rfl⟩
  obtain ⟨c, hc, hbrace⟩ := List.mem_flatMap.mp hm
  rw [brace_mem_attributeChar hbrace] at hc
  exact h hc

theorem head?_attributeValue (h : (attributeValue s ++ u).head? = some '{')
    (hu : u.head? ≠ some '{') : s.head? = some '{' := by
  cases s with
  | nil => exact absurd h hu
  | cons c s =>
    have hmem : '{' ∈ attributeChar c := by
      obtain ⟨d, m, hd⟩ : ∃ d m, attributeChar c = d :: m := by
        unfold attributeChar
        split <;> exact ⟨_, _, rfl⟩
      have hhead : d = '{' := by
        rw [attributeValue, List.flatMap_cons, hd] at h
        exact Option.some.inj h
      rw [hd, hhead]
      exact List.mem_cons_self
    rw [brace_mem_attributeChar hmem]
    rfl

/-- Escaping leaves the fixtures as they are if it leaves each of them as it is. -/
theorem stretch_attributeValue (h : Stretch ws s rest) (hws : ∀ f ∈ ws, attributeValue f = f)
    (hu : u.head? ≠ some '{') : Stretch ws (attributeValue s) u := by
  induction h with
  | nil => exact .nil u
  | @skip ws c w rest hhole hplaceholder h ih =>
    have hrest := ih hws
    by_cases hc : c = '{'
    · subst hc
      have hplain := Placeholder.read?_of_ne (show '{' ≠ '<' by decide) (attributeValue w ++ u)
      refine .skip (Hole.lead?_char fun hc hhead => ?_) hplain hrest
      have hw := head?_attributeValue hhead hu
      refine Hole.head?_of_lead? hhole rfl ?_
      rw [List.head?_append, hw]
      rfl
    · exact (Stretch.of_vacant (vacant_attributeChar hc) _).append hrest
  | fixture hf h ih =>
    have hrest := ih fun g hg => hws g (List.mem_cons_of_mem _ hg)
    rw [attributeValue, List.flatMap_append]
    rw [attributeValue] at hrest
    have hkeep := hws _ List.mem_cons_self
    rw [attributeValue] at hkeep
    rw [hkeep]
    exact .fixture hf hrest

/-- Attributes with an address, or with the name of an embed. -/
theorem stretch_attr {name : String} (h : Stretch ws s []) (hws : ∀ f ∈ ws, attributeValue f = f)
    (hname : Vacant name.toList) (u : Text) : Stretch ws (' ' :: attr name s) u := by
  have hstart : Vacant (' ' :: (name.toList ++ ['=', '"'])) :=
    Vacant.append (s := [' ']) (by decide) (hname.append (by decide))
  have hvalue : Stretch ws (attributeValue s) ('"' :: u) :=
    stretch_attributeValue h hws (fun hc => by cases hc)
  have hquoted : Stretch ws (attributeValue s ++ ['"']) u := by
    simpa using hvalue.append (.of_vacant (w := ['"']) (by decide) u)
  have hshape : ' ' :: attr name s =
      ' ' :: (name.toList ++ ['=', '"']) ++ (attributeValue s ++ ['"']) := by
    simp [attr]
  rw [hshape]
  exact (Stretch.of_vacant hstart _).append hquoted

namespace LinkAttributes

variable {a : LinkAttributes}

theorem vacant_writeOne {e : Text × Option Text} (hkey : '{' ∉ e.1) (hvalue : ∀ v ∈ e.2, '{' ∉ v) :
    Vacant (writeOne e) := by
  have hstart : Vacant (' ' :: attributeValue e.1) :=
    Vacant.append (s := [' ']) (by decide) (vacant_attributeValue hkey)
  refine hstart.append ?_
  cases he : e.2 with
  | none => exact vacant_nil
  | some v =>
    have hv : Vacant (attributeValue v) := vacant_attributeValue (hvalue v he)
    have hquote : Vacant ['"'] := by decide
    exact Vacant.append (s := ['=', '"'] ++ attributeValue v)
      (Vacant.append (by decide) hv) hquote

theorem Braceless.vacant_html (h : a.Braceless) : Vacant a.html := by
  have hattrs : Vacant (a.attrs.flatMap writeOne) := by
    refine .of_forall fun d hd => ?_
    obtain ⟨e, he, hd⟩ := List.mem_flatMap.mp hd
    obtain ⟨hkey, hvalue⟩ := h.attrs e he
    obtain ⟨hbrace, hangle⟩ := vacant_writeOne hkey hvalue
    exact ⟨fun hc => hbrace (hc ▸ hd), fun hc => hangle (hc ▸ hd)⟩
  refine hattrs.append ?_
  split
  · exact vacant_nil
  · have hstyle : '{' ∉ Text.join [';'] a.style := by
      intro hm
      rcases Text.mem_join hm with hm | ⟨d, hd, hm⟩
      · exact absurd hm (by decide)
      · exact h.style d hd hm
    have hstart : Vacant " style=\"".toList := by decide
    exact (hstart.append (vacant_attributeValue hstyle)).append (by decide)

theorem Braceless.erase (h : a.Braceless) (key : Text) : (a.erase key).Braceless where
  attrs e he := h.attrs e (List.mem_filter.mp he).1
  style := h.style

end LinkAttributes

theorem Source.fixtures (h : Source ws s) : fixtures s = ws := by
  have happend := h.stretch.fixtures_append
  rwa [List.append_nil, Stencil.fixtures, List.append_nil] at happend

/-- In a link that keeps the order, name and address may change places. -/
theorem Orderly.swap (h : Orderly name url) (hname : Source ws name) (hurl : Source vs url) :
    ws ++ vs = vs ++ ws ∧ ∀ f ∈ vs, attributeValue f = f := by
  rw [Orderly, hname.fixtures, hurl.fixtures] at h
  rcases h with rfl | ⟨rfl, h⟩
  · exact ⟨List.append_nil ws, fun f hf => absurd hf List.not_mem_nil⟩
  · exact ⟨(List.append_nil vs).symm, h⟩

/-- Markup as it is rendered, whatever follows it: it has the fixtures of a source, and starts as
the source does. -/
structure Kept (ws : List Text) (s o : Text) : Prop where
  stretch : ∀ u, Stops u → Stretch ws o u
  echoes : ∀ u, Stops u → Echoes (o ++ u) s

namespace Kept

theorem nil (s : Text) : Kept [] s [] := ⟨fun u _ => .nil u, fun _ hu => .of_stops hu s⟩

theorem copied (ht : Stretch ws t rest) (hs : Unbroken (t ++ rest)) (h : Kept vs rest o) :
    Kept (ws ++ vs) (t ++ rest) (t ++ o) where
  stretch u hu := (ht.echo (h.echoes u hu) hs).append (h.stretch u hu)
  echoes u hu := by
    rw [List.append_assoc]
    exact (h.echoes u hu).append t

theorem escaped {d : Char} (hd : d ≠ '{' ∧ d ≠ '<') (h : Kept ws rest o) :
    Kept ws ('\\' :: d :: rest) (d :: o) where
  stretch u hu := by
    have hsign : Vacant [d] := .of_forall (by simpa using hd)
    exact (Stretch.of_vacant hsign _).append (h.stretch u hu)
  echoes u hu := .of_backslash (by simpa using hd.1) _

theorem built (ht : ∀ u, Stretch ws t u) (hhead : t.head? = some '<') (h : Kept vs rest o) :
    Kept (ws ++ vs) s (t ++ o) where
  stretch u hu := (ht _).append (h.stretch u hu)
  echoes u hu := by
    obtain ⟨m, rfl⟩ := List.head?_eq_some_iff.mp hhead
    refine .of_stops (fun d hd => ?_) s
    cases hd
    exact .inr rfl

end Kept

/-- A text is an element or a tag of its own, with fixtures that do not go on after it. -/
structure Built (ws : List Text) (t : Text) : Prop where
  head : t.head? = some '<'
  stretch : ∀ u, Stretch ws t u

theorem built_element (hn : IsElementName n) (hattrs : ∀ u, Stretch vs attrs u)
    (ht : ∀ u, Stops u → Stretch ws t u) : Built (vs ++ ws) (element n attrs t) :=
  ⟨rfl, stretch_element hn (fun u => hattrs ('>' :: u)) ht⟩

/-- An element whose attributes have no fixtures. -/
theorem built_vacant (hn : IsElementName n) (hattrs : Vacant attrs)
    (ht : ∀ u, Stops u → Stretch ws t u) : Built ws (element n attrs t) := by
  have hnone : ∀ u, Stretch [] attrs u := .of_vacant hattrs
  exact built_element hn hnone ht

theorem Source.stops (h : Source ws s) (hu : Stops u) : Stretch ws s u :=
  h.stretch.echo (.of_stops hu []) (by simpa using h.calm.unbroken)

variable {content : List Inline} {a : LinkAttributes}

theorem built_styled (h : ∀ u, Stops u → Stretch ws (htmlAll content) u) (style : Style) :
    Built ws (html (.styled style content)) := by
  have hone : ∀ n, IsElementName n → ∀ {t}, (∀ u, Stops u → Stretch ws t u) →
      Built ws (element n [] t) := fun n hn t ht => built_vacant hn vacant_nil ht
  cases style with
  | emphasis => exact hone "em".toList (by decide) h
  | strong => exact hone "strong".toList (by decide) h
  | both =>
    have hopen : "<em><strong>".toList =
        openTag "em".toList [] ++ openTag "strong".toList [] := rfl
    have hclose : "</strong></em>".toList =
        closeTag "strong".toList ++ closeTag "em".toList := rfl
    have hshape : html (.styled .both content) =
        element "em".toList [] (element "strong".toList [] (htmlAll content)) := by
      change "<em><strong>".toList ++ htmlAll content ++ "</strong></em>".toList = _
      rw [hopen, hclose]
      simp only [element, List.append_assoc]
    have hinner := hone "strong".toList (by decide) h
    rw [hshape]
    exact hone "em".toList (by decide) fun u _ => hinner.stretch u
  | underline => exact hone "u".toList (by decide) h
  | struck => exact hone "s".toList (by decide) h
  | deleted => exact hone "del".toList (by decide) h
  | inserted => exact hone "ins".toList (by decide) h

theorem built_fence {lang body : Text} (hlang : Vacant lang) (h : Source ws body) :
    Built ws (html (.fence lang body)) := by
  change Built ws (if lang.isEmpty then element "pre".toList [] body
    else element "code".toList (' ' :: attr "lang" lang) body)
  split
  · exact built_vacant (by decide) vacant_nil fun u hu => h.stops hu
  · have hattr : ∀ u, Stretch [] (' ' :: attr "lang" lang) u :=
      stretch_attr (.of_vacant hlang []) (fun f hf => absurd hf List.not_mem_nil) (by decide)
    exact built_element (n := "code".toList) (by decide) hattr fun u hu => h.stops hu

theorem built_autolink (h : Vacant url) : Built [] (html (.autolink url)) := by
  have hattr : ∀ u, Stretch [] (' ' :: attr "href" url) u :=
    stretch_attr (.of_vacant h []) (fun f hf => absurd hf List.not_mem_nil) (by decide)
  exact built_element (n := "a".toList) (by decide) hattr fun u _ => .of_vacant h u

theorem built_link (hname : ∀ u, Stops u → Stretch ws (htmlAll content) u)
    (hurl : Stretch vs url []) (hvs : ∀ f ∈ vs, attributeValue f = f) (ha : a.Braceless) :
    Built (vs ++ ws) (html (.link url a content)) := by
  have hattrs : ∀ u, Stretch vs (' ' :: attr "href" url ++ a.html) u := by
    intro u
    simpa using (stretch_attr hurl hvs (by decide) _).append (.of_vacant ha.vacant_html u)
  exact built_element (n := "a".toList) (by decide) hattrs hname

theorem built_sourceTag {media : Media} (hurl : Stretch vs url [])
    (hvs : ∀ f ∈ vs, attributeValue f = f) (hext : Vacant (extension url)) :
    Built vs (sourceTag media url) := by
  have hparts : ∀ x a b c : Text, x ++ a ++ b ++ c ++ ['"', '/', '>'] =
      x ++ (a ++ (b ++ c ++ ['"', '/'])) ++ ['>'] := by simp
  have hshape : sourceTag media url = openTag "source".toList (' ' :: attr "src" url ++
      (" type=\"".toList ++ media.type (extension url) ++ ['"', '/'])) :=
    hparts "<source ".toList _ _ _
  have htype : Vacant (media.type (extension url)) :=
    ⟨not_mem_type (by decide) hext.1, not_mem_type (by decide) hext.2⟩
  have hstart : Vacant " type=\"".toList := by decide
  have hlater : Vacant (" type=\"".toList ++ media.type (extension url) ++ ['"', '/']) :=
    (hstart.append htype).append (by decide)
  rw [hshape]
  refine ⟨rfl, fun u => stretch_openTag (by decide) ?_⟩
  simpa using (stretch_attr hurl hvs (by decide) _).append (.of_vacant hlater ('>' :: u))

theorem vacant_extension (h : Vacant url) : Vacant (extension url) :=
  ⟨not_mem_extension (by decide) h.1, not_mem_extension (by decide) h.2⟩

theorem vacant_of_ofExtension? {ext : Text} {media : Media}
    (h : Media.ofExtension? ext = some media) : Vacant ext := by
  have hext := List.all_eq_true.mp (isAlphanum_of_ofExtension? h)
  exact ⟨fun hm => absurd (hext _ hm) (by decide), fun hm => absurd (hext _ hm) (by decide)⟩

/-- The sources of an embed have no fixtures, or there is one source, with those of the
address. -/
theorem sources_cases (hurl : Source vs url) (hbar : '|' ∈ url → Vacant url) :
    (vs = [] ∧ ∀ t ∈ sources url, Vacant t) ∨ ∃ t, sources url = [t] ∧ Stretch vs t [] := by
  by_cases hm : '|' ∈ url
  · have hvacant := hbar hm
    refine .inl ⟨hurl.stretch.eq_nil_of_vacant hvacant, fun t ht => ?_⟩
    have hmade := madeOf_of_mem_sources ht
    exact ⟨fun hc => hvacant.1 (hmade _ hc), fun hc => hvacant.2 (hmade _ hc)⟩
  · have hone : sources url = [Text.trim url].filter fun t => !t.isEmpty := by
      rw [sources, Text.splitOn_of_not_mem hm, List.map_singleton]
    have htrim := hurl.trim
    cases ht : Text.trim url with
    | nil =>
      rw [ht] at hone htrim
      refine .inl ⟨htrim.stretch.eq_nil_of_vacant vacant_nil, fun t ht => ?_⟩
      rw [hone] at ht
      cases ht
    | cons c t =>
      rw [ht] at hone htrim
      exact .inr ⟨c :: t, hone, htrim.stretch⟩

theorem stretch_sources {media : Media} (hurl : Source vs url)
    (hvs : ∀ f ∈ vs, attributeValue f = f) (hbar : '|' ∈ url → Vacant url)
    (hmedia : Media.ofExtension? (extension ((sources url).head?.getD [])) = some media)
    (u : Text) :
    Stretch vs ((sources url).flatMap (sourceTag media)) u := by
  rcases sources_cases hurl hbar with ⟨rfl, hvacant⟩ | ⟨t, hone, ht⟩
  · clear hmedia
    generalize sources url = ts at hvacant
    induction ts generalizing u with
    | nil => exact .nil u
    | cons t ts ih =>
      have htag : Built [] (sourceTag media t) :=
        built_sourceTag (.of_vacant (hvacant t List.mem_cons_self) []) hvs
          (vacant_extension (hvacant t List.mem_cons_self))
      exact (htag.stretch _).append (ih u fun v hv => hvacant v (List.mem_cons_of_mem t hv))
  · rw [hone] at hmedia ⊢
    rw [List.flatMap_singleton]
    exact (built_sourceTag ht hvs (vacant_of_ofExtension? hmedia)).stretch u

theorem stretch_first (hurl : Source vs url) (hbar : '|' ∈ url → Vacant url) :
    Stretch vs ((sources url).head?.getD []) [] := by
  rcases sources_cases hurl hbar with ⟨rfl, hvacant⟩ | ⟨t, hone, ht⟩
  · cases hs : sources url with
    | nil => exact .nil []
    | cons t ts => exact .of_vacant (hvacant t (hs ▸ List.mem_cons_self)) []
  · rw [hone]
    exact ht

/-- Two attributes of an embed, and the ones that were given. -/
theorem stretch_pair {m k : String} (hm : Vacant m.toList) (hk : Vacant k.toList)
    (hs : Stretch vs s []) (hvs : ∀ f ∈ vs, attributeValue f = f) (ht : Stretch ws t [])
    (hws : ∀ f ∈ ws, attributeValue f = f) (ha : a.Braceless) (u : Text) :
    Stretch (vs ++ ws) (' ' :: attr m s ++ [' '] ++ attr k t ++ a.html) u := by
  have hlater : Stretch ws ([' '] ++ attr k t ++ a.html) u := by
    simpa using (stretch_attr ht hws hk _).append (.of_vacant ha.vacant_html u)
  simpa using (stretch_attr hs hvs hm _).append hlater

theorem built_player (hname : ∀ u, Stops u → Stretch ws (htmlAll content) u) {media : Media}
    {sources : List Text} (hsources : ∀ u, Stretch vs (sources.flatMap (sourceTag media)) u)
    (controls : Bool) (ha : a.Braceless) :
    Built (vs ++ ws) (html (.player media controls a sources content)) := by
  have hshape : html (.player media controls a sources content) =
      element media.name ((if controls then " controls".toList else []) ++ a.html)
        (sources.flatMap (sourceTag media) ++ htmlAll content) := element_written _ _ _ _ _
  have hmedia : IsElementName media.name := by
    cases media with
    | video => decide
    | audio => decide
  have hcontrols : Vacant (if controls then " controls".toList else []) := by
    cases controls with
    | true => decide
    | false => exact vacant_nil
  rw [hshape]
  exact built_vacant hmedia (hcontrols.append ha.vacant_html) fun u hu =>
    (hsources _).append (hname u hu)

theorem built_embed (hname : Source ws name)
    (hcontent : ∀ u, Stops u → Stretch ws (htmlAll content) u) (hurl : Source vs url)
    (hvs : ∀ f ∈ vs, attributeValue f = f) (hshown : Shown name url) (ha : a.Braceless) :
    Built (vs ++ ws) (html (embed name url a content)) := by
  have hws : ∀ f ∈ ws, attributeValue f = f := hname.fixtures ▸ hshown.1
  unfold embed
  dsimp only
  split
  next media hmedia =>
    exact built_player hcontent (stretch_sources hurl hvs hshown.2 hmedia) _ (ha.erase _)
  next =>
    have hfirst := stretch_first hurl hshown.2
    generalize (sources url).head?.getD [] = first at hfirst
    split
    · have hshape : html (.image first name a) = openTag "img".toList
          (' ' :: attr "src" first ++ [' '] ++ attr "alt" name ++ a.html ++ ['/']) :=
        (List.append_assoc ("<img ".toList ++ attr "src" first ++ [' '] ++ attr "alt" name ++
          a.html) ['/'] ['>']).symm
      rw [hshape]
      refine ⟨rfl, fun u => stretch_openTag (by decide) ?_⟩
      have hslash : Stretch [] ['/'] ('>' :: u) := .of_vacant (by decide) _
      simpa using (stretch_pair (by decide) (by decide) hfirst hvs hname.stretch hws ha _).append
        hslash
    · have hshape : html (.frame first name a) = openTag "iframe".toList
          (' ' :: attr "src" first ++ [' '] ++ attr "title" name ++ a.html) ++
            closeTag "iframe".toList :=
        (List.append_assoc ("<iframe ".toList ++ attr "src" first ++ [' '] ++ attr "title" name ++
          a.html) ['>'] (closeTag "iframe".toList)).symm
      rw [hshape]
      refine ⟨rfl, fun u => ?_⟩
      have hopen : Stretch (vs ++ ws) (openTag "iframe".toList
          (' ' :: attr "src" first ++ [' '] ++ attr "title" name ++ a.html))
            (closeTag "iframe".toList ++ u) :=
        stretch_openTag (by decide)
          (stretch_pair (by decide) (by decide) hfirst hvs hname.stretch hws ha _)
      simpa using hopen.append (bland_closeTag (by decide) u)

/-- What a token is rendered to has the fixtures of the token. -/
theorem built_ofToken {token : Token} (htoken : token.Reads ws)
    (hcontent : ∀ inner, token.inner? = some inner → ∀ vs, Source vs inner →
      Kept vs inner (htmlAll content)) : Built ws (html (ofToken content token)) := by
  cases htoken with
  | code h =>
    exact built_vacant (n := "pre".toList) (by decide) vacant_nil fun u hu => h.stops hu
  | fence hlang h => exact built_fence hlang h
  | autolink h => exact built_autolink h
  | styled h => exact built_styled (hcontent _ rfl _ h).stretch _
  | link hname hurl horder hattrs =>
    obtain ⟨hswap, hvs⟩ := horder.swap hname hurl
    rw [hswap]
    exact built_link (hcontent _ rfl _ hname).stretch hurl.stretch hvs hattrs
  | embed hname hurl horder hshown hattrs =>
    obtain ⟨hswap, hvs⟩ := horder.swap hname hurl
    rw [hswap]
    exact built_embed hname (hcontent _ rfl _ hname).stretch hurl hvs hshown hattrs

/-- Running markup keeps the fixtures of a calm source: some are in what is rendered, and the others
in the rest. Only markup of one line has a rest, which a line feed starts. -/
theorem kept_read (oneLine : Bool) (before : Context) (s : Text) :
    ∀ ws, Source ws s → ∃ us vs, ws = us ++ vs ∧ Kept us s (htmlAll (read oneLine before s).1) ∧
      Source vs (read oneLine before s).2 ∧
      ∀ c ∈ (read oneLine before s).2.head?, oneLine = true ∧ c = '\n' := by
  fun_induction read oneLine before s with
  | case1 => exact fun ws h => ⟨[], ws, rfl, .nil [], h, fun c hc => by cases hc⟩
  | case2 before s =>
    refine fun ws h => ⟨[], ws, rfl, .nil _, h, fun c hc => ?_⟩
    cases hc
    exact ⟨rfl, rfl⟩
  | case3 oneLine before s _ more ih =>
    intro ws h
    have hrest : Source ws s := h.drop_vacant (a := ['\n']) (by decide)
    obtain ⟨us, vs, he, hkept, hmore, hend⟩ := ih ws hrest
    have hfeed : Stretch [] ['\n'] s := .of_vacant (by decide) s
    exact ⟨us, vs, he, Kept.copied hfeed h.calm.unbroken hkept, hmore, hend⟩
  | case4 oneLine before c s _ token after rest hstep content more ih1 ih2 =>
    intro ws h
    have hreads := reads_step before h
    rw [hstep] at hreads
    cases hreads with
    | @copied us vs t hws htoken hs ht hrest =>
      obtain ⟨us', vs', rfl, hkept, hmore, hend⟩ := ih2 vs hrest
      have htoken : token = .text t := htoken
      have hs : c :: s = t ++ rest := hs
      have hcopied := Kept.copied ht (hs ▸ h.calm.unbroken) hkept
      rw [← hs] at hcopied
      subst htoken
      exact ⟨us ++ us', vs', by rw [hws, List.append_assoc], hcopied, hmore, hend⟩
    | @escaped d htoken hs hd hrest =>
      obtain ⟨us, vs, rfl, hkept, hmore, hend⟩ := ih2 _ hrest
      have htoken : token = .text [d] := htoken
      have hs : c :: s = '\\' :: d :: rest := hs
      have hescaped := Kept.escaped hd hkept
      rw [← hs] at hescaped
      subst htoken
      exact ⟨us, vs, rfl, hescaped, hmore, hend⟩
    | @built us vs hws htoken hrest =>
      obtain ⟨us', vs', rfl, hkept, hmore, hend⟩ := ih2 vs hrest
      have hcontent : ∀ inner, token.inner? = some inner → ∀ vs, Source vs inner →
          Kept vs inner (htmlAll content) := by
        intro inner hinner vs hsource
        obtain ⟨us, vs', rfl, hkept, hmore, hend⟩ := ih1 inner hinner vs hsource
        have hnil : (read false .other inner).2 = [] := by
          cases hr : (read false .other inner).2 with
          | nil => rfl
          | cons d m =>
            rw [hr] at hend
            exact absurd (hend d rfl).1 (by decide)
        rw [hnil] at hmore
        have hvs := hmore.stretch.eq_nil_of_vacant vacant_nil
        subst hvs
        rw [List.append_nil]
        simp only [content]
        split
        next other hother =>
          cases hinner.symm.trans hother
          exact hkept
        next hnone => cases hinner.symm.trans hnone
      have hbuilt := built_ofToken htoken hcontent
      exact ⟨us ++ us', vs', by rw [hws, List.append_assoc],
        Kept.built hbuilt.stretch hbuilt.head hkept, hmore, hend⟩

theorem bland_closeTags (lists : List (Nat × ListKind)) : Bland (Open.closeTags lists) := by
  have hkind : ∀ k : ListKind, Bland k.closeTag := by
    intro k
    cases k with
    | unordered => exact bland_closeTag (n := "ul".toList) (by decide)
    | ordered => exact bland_closeTag (n := "ol".toList) (by decide)
    | reversed => exact bland_closeTag (n := "ol".toList) (by decide)
  induction lists with
  | nil => exact vacant_nil.bland
  | cons l lists ih => exact (hkind l.2).append ih

theorem bland_closeQuote (o : Open) : Bland o.closeQuote.1 := by
  unfold Open.closeQuote
  dsimp only
  split
  · exact bland_closeTag (n := "blockquote".toList) (by decide)
  · exact vacant_nil.bland

theorem bland_openItem (indent : Nat) (mark : ItemMark) (lines : List Text) (o : Open) :
    Bland (openItem indent mark lines o).1 := by
  have hkind : ∀ k : ListKind, Bland k.openTag := by
    intro k
    cases k with
    | unordered => exact bland_openTag (n := "ul".toList) (by decide) vacant_nil
    | ordered => exact bland_openTag (n := "ol".toList) (by decide) vacant_nil
    | reversed =>
      have hattrs : Vacant " reversed".toList := by decide
      exact bland_openTag (n := "ol".toList) (by decide) hattrs
  have hopened : ∀ closed, Bland (Open.closeTags closed ++ (listKind indent mark lines).openTag) :=
    fun closed => (bland_closeTags closed).append (hkind _)
  unfold openItem
  dsimp only
  split
  · exact hopened _
  · split
    · exact hopened _
    · split
      · exact bland_closeTags _
      · exact hopened _

/-- A line as it is rendered: what stands around its markup has no fixtures, and the line ends where
it stops unless it is the last one. -/
structure Framed.Keeps (us : List Text) (rest : Text) (f : Framed) : Prop where
  before : Bland f.before
  content : ∀ u, Stops u → Stretch us (htmlAll f.content) u
  after : Bland f.after
  stops : ∀ u, (rest = [] → Stops u) → Stops (f.after ++ u)

theorem Framed.Keeps.stretch {us : List Text} {rest : Text} {f : Framed} (h : f.Keeps us rest)
    (hu : rest = [] → Stops u) : Stretch us (Piece.write f.pieces) u := by
  rw [Framed.write_pieces]
  have hcontent := h.content _ (h.stops u hu)
  have hafter := hcontent.append (h.after u)
  rw [List.append_nil] at hafter
  rw [List.append_assoc]
  exact (h.before _).append hafter

theorem stops_lineEnd (hrest : ∀ c ∈ rest.head?, c = '\n') (hu : afterLine rest = [] → Stops u) :
    Stops (lineEnd rest ++ u) := by
  cases rest with
  | nil => exact hu rfl
  | cons c rest =>
    cases hrest c rfl
    intro d hd
    cases hd
    exact .inl rfl

theorem bland_lineEnd (s : Text) : Bland (lineEnd s) := by
  unfold lineEnd
  split
  · exact Vacant.bland (by decide)
  · exact vacant_nil.bland

theorem Source.afterLine (h : Source ws s) : Source ws (afterLine s) := h.getD_strip? (by decide)

theorem Source.drop {p : Text} (h : Source ws s) (hp : p <+: s) (hvacant : Vacant p) :
    Source ws (s.drop p.length) := by
  rw [← List.prefix_iff_eq_append.mp hp] at h
  exact h.drop_vacant hvacant

/-- What is read as the mark of an item has no fixture. -/
theorem exists_of_itemMark? {line text : Text} {mark : ItemMark}
    (h : itemMark? line = some (mark, text)) : ∃ p, line = p ++ text ∧ Vacant p := by
  unfold itemMark? at h
  split at h
  next => cases h
  next c rest =>
    split at h
    next hc =>
      obtain ⟨r, hr, he⟩ := Option.map_eq_some_iff.mp h
      cases he
      refine ⟨[c, ' '], by rw [Text.strip?_eq_some_iff.mp hr]; rfl, .of_forall fun d hd => ?_⟩
      rcases List.mem_cons.mp hd with rfl | hd
      · constructor <;> rintro rfl <;> exact absurd hc (by decide)
      · rw [List.mem_singleton.mp hd]
        decide
    next =>
      split at h
      next =>
        obtain ⟨r, hr, he⟩ := Option.map_eq_some_iff.mp h
        cases he
        refine ⟨(c :: rest).takeWhile Char.isDigit ++ ['.', ' '], ?_, ?_⟩
        · rw [List.append_assoc, ← Text.strip?_eq_some_iff.mp hr, List.takeWhile_append_dropWhile]
        · exact (vacant_takeWhile (by decide) (by decide) (c :: rest)).append (by decide)
      next => cases h

theorem isElementName_heading (n : Nat) : IsElementName ('h' :: Text.ofNat n) := by
  have hdigits : Vacant (Text.ofNat n) :=
    ⟨Text.not_mem_ofNat (by decide) n, Text.not_mem_ofNat (by decide) n⟩
  exact ⟨rfl, Vacant.append (s := ['h']) (by decide) hdigits⟩

/-- The markup of a line, between two texts. -/
theorem keeps_read {before after : Text} (h : Source ws s) (hbefore : Bland before)
    (hafter : Bland after)
    (hstops : (∀ c ∈ (read true .other s).2.head?, c = '\n') →
      ∀ u, (afterLine (read true .other s).2 = [] → Stops u) → Stops (after ++ u)) :
    ∃ us vs, ws = us ++ vs ∧
      Framed.Keeps us (afterLine (read true .other s).2)
        ⟨before, (read true .other s).1, after⟩ ∧
      Source vs (afterLine (read true .other s).2) := by
  obtain ⟨us, vs, he, hkept, hrest, hend⟩ := kept_read true .other s ws h
  exact ⟨us, vs, he, ⟨hbefore, hkept.stretch, hafter, hstops fun c hc => (hend c hc).2⟩,
    hrest.afterLine⟩

theorem keeps_contentFrame {blanks : Text} (hblanks : Vacant blanks) (indent : Nat) (o : Open)
    (h : Source ws s) :
    ∃ us vs, ws = us ++ vs ∧
      (contentFrame blanks indent o s).Keeps us (contentLine blanks indent o s).2.2 ∧
      Source vs (contentLine blanks indent o s).2.2 := by
  have hline : firstLine s <+: s := List.takeWhile_prefix _
  have hlists : Bland o.closeLists.1 := bland_closeTags o.lists
  unfold contentFrame contentLine runningLine
  dsimp only
  split
  next hlevel =>
    have hmarks : Vacant ((firstLine s).takeWhile (· == '#')) :=
      vacant_takeWhile (by decide) (by decide) (firstLine s)
    have hprefix := (List.takeWhile_prefix (l := firstLine s) (· == '#')).trans hline
    generalize (firstLine s).takeWhile (· == '#') = marks at hmarks hprefix
    have hname := isElementName_heading marks.length
    have hinner : Source ws (afterSpace (s.drop marks.length)) :=
      (h.drop hprefix hmarks).getD_strip? (by decide)
    refine keeps_read hinner ?_ ?_ fun _ u _ d hd => ?_
    · have hopen := bland_openTag hname vacant_nil
      rw [openTag, List.append_nil] at hopen
      exact hlists.append hopen
    · exact (bland_closeTag hname).append (bland_lineEnd _)
    · cases hd
      exact .inr rfl
  next =>
    cases hm : itemMark? (firstLine s) with
    | some r =>
      obtain ⟨mark, text⟩ := r
      obtain ⟨p, hp, hvacant⟩ := exists_of_itemMark? hm
      have hlength : (firstLine s).length - text.length = p.length := by
        rw [hp, List.length_append]
        omega
      have hprefix : p <+: s := (hp ▸ List.prefix_append p text).trans hline
      have hinner : Source ws (s.drop ((firstLine s).length - text.length)) := by
        rw [hlength]
        exact h.drop hprefix hvacant
      have hend : Bland (closeTag "li".toList) := bland_closeTag (by decide)
      refine keeps_read hinner ?_ hend fun _ u _ d hd => ?_
      · exact (bland_openItem indent mark _ o).append
          (bland_openTag (n := "li".toList) (by decide) vacant_nil)
      · cases hd
        exact .inr rfl
    | none =>
      exact keeps_read h (hlists.append hblanks.bland) (bland_lineEnd _) fun hend u hu =>
        stops_lineEnd hend hu

/-- A line that is not markup. -/
theorem keeps_plain {before : Text} (h : Source ws s) (hline : Vacant (firstLine s))
    (hbefore : Bland before) :
    ∃ us vs, ws = us ++ vs ∧
      Framed.Keeps us (afterLine (s.dropWhile (· != '\n')))
        ⟨before, [], lineEnd (s.dropWhile (· != '\n'))⟩ ∧
      Source vs (afterLine (s.dropWhile (· != '\n'))) := by
  have hend : ∀ c ∈ (s.dropWhile (· != '\n')).head?, c = '\n' := by
    intro c hc
    have hhead := List.head?_dropWhile_not (· != '\n') s
    rw [hc] at hhead
    simpa using hhead
  rw [← List.takeWhile_append_dropWhile (p := (· != '\n')) (l := s)] at h
  exact ⟨[], ws, rfl, ⟨hbefore, fun u _ => .nil u, bland_lineEnd _, fun u => stops_lineEnd hend⟩,
    (h.drop_vacant hline).afterLine⟩

theorem vacant_of_trim {line : Text} (h : (Text.trim line).isEmpty) : Vacant line := by
  obtain ⟨before, after, hline, hbefore, hafter⟩ := Text.exists_blanks_trim line
  rw [List.isEmpty_iff.mp h, List.append_nil] at hline
  rw [hline]
  exact (smooth_of_blanks hbefore).1.append (smooth_of_blanks hafter).1

theorem vacant_of_isRule {line : Text} (h : isRule line) : Vacant line := by
  obtain ⟨blanks, hline, hblanks⟩ := Text.exists_blanks_trimEnd line
  have hall := List.all_eq_true.mp (Bool.and_eq_true_iff.mp h).2
  rw [hline]
  refine Vacant.append (.of_forall fun d hd => ?_) (smooth_of_blanks hblanks).1
  have hrule := hall d hd
  constructor <;> rintro rfl <;> exact absurd hrule (by decide)

theorem keeps_lineFrame (o : Open) (h : Source ws s) :
    ∃ us vs, ws = us ++ vs ∧ (lineFrame o s).Keeps us (line o s).2.2 ∧
      Source vs (line o s).2.2 := by
  have hblanks : Vacant (s.takeWhile isIndent) := vacant_takeWhile (by decide) (by decide) s
  have hinner : Source ws (s.dropWhile isIndent) := by
    rw [← List.takeWhile_append_dropWhile (p := isIndent) (l := s)] at h
    exact h.drop_vacant hblanks
  unfold lineFrame line
  dsimp only
  generalize s.takeWhile isIndent = blanks at hblanks
  generalize s.dropWhile isIndent = t at hinner
  split
  next hblank =>
    exact keeps_plain hinner (vacant_of_trim hblank)
      ((bland_closeTags o.lists).append (bland_closeQuote _))
  next =>
    have hstart : Bland (if t.head? = some '>' then
        (if o.quote then [] else "<blockquote>".toList, { o with quote := true })
        else o.closeQuote).1 := by
      split
      · dsimp only
        split
        · exact vacant_nil.bland
        · exact bland_openTag (n := "blockquote".toList) (by decide) vacant_nil
      · exact bland_closeQuote o
    generalize (if t.head? = some '>' then _ else o.closeQuote : Text × Open) = start at hstart
    have hrest : Source ws (if t.head? = some '>' then afterSpace t.tail else t) := by
      split
      next hquoted =>
        obtain ⟨m, rfl⟩ := List.head?_eq_some_iff.mp hquoted
        have hm : Source ws m := hinner.drop_vacant (a := ['>']) (by decide)
        exact hm.getD_strip? (by decide)
      next => exact hinner
    generalize (if t.head? = some '>' then afterSpace t.tail else t : Text) = u at hrest
    generalize (if t.head? = some '>' then 0 else indentWidth blanks : Nat) = indent
    split
    next hrule =>
      have hlists : Bland (start.1 ++ start.2.closeLists.1) :=
        hstart.append (bland_closeTags start.2.lists)
      have hbar : Bland (openTag "hr".toList ['/']) := bland_openTag (by decide) (by decide)
      exact keeps_plain hrest (vacant_of_isRule hrule) (hlists.append hbar)
    next =>
      obtain ⟨us, vs, he, hkeeps, hafter⟩ := keeps_contentFrame hblanks indent start.2 hrest
      exact ⟨us, vs, he, ⟨hstart.append hkeeps.before, hkeeps.content, hkeeps.after, hkeeps.stops⟩,
        hafter⟩

/-- After the last line there are closing tags only. -/
theorem stops_lines (o : Open) : Stops (lines o []) := by
  rw [lines, dif_pos rfl]
  intro d hd
  cases hlists : o.lists with
  | nil =>
    rw [Open.closeLists, hlists, Open.closeQuote] at hd
    cases hquote : o.quote with
    | true =>
      rw [hquote] at hd
      cases hd
      exact .inr rfl
    | false =>
      rw [hquote] at hd
      cases hd
  | cons l lists =>
    rw [Open.closeLists, hlists, Open.closeTags, List.flatMap_cons, List.append_assoc] at hd
    rcases hkind : l.2 with _ | _ | _ <;> rw [hkind] at hd <;> cases hd <;> exact .inr rfl

/-- The lines of a calm source keep its fixtures. -/
theorem stretch_lines (o : Open) (s : Text) : ∀ ws, Source ws s → Stretch ws (lines o s) [] := by
  fun_induction lines o s with
  | case1 o =>
    intro ws h
    rw [h.stretch.eq_nil_of_vacant vacant_nil]
    exact ((bland_closeTags o.lists).append (bland_closeQuote o)) []
  | case2 o s hne ih =>
    intro ws h
    obtain ⟨us, vs, rfl, hkeeps, hrest⟩ := keeps_lineFrame o h
    have hlater := ih vs hrest
    rw [← write_lineFrame]
    refine Stretch.append (hkeeps.stretch fun hnil => ?_) hlater
    rw [hnil, List.append_nil]
    exact stops_lines _

/-- A source is closed if every hole that opens in it closes. -/
def Closed (s : Text) : Prop := ∀ t ∈ s.tails, Hole.lead? t ≠ some none

instance : DecidablePred Closed := fun s => inferInstanceAs (Decidable (∀ t ∈ s.tails, _))

/-- A calm source of which every hole closes is rendered with its holes and its placeholders: none
is lost, and none is added, moved or changed. -/
theorem fixtures_render {s : Text} (hclosed : Closed s) (hcalm : Calm s) :
    fixtures (render s) = fixtures s := by
  have hstretch := Stretch.of_closed fun t ht => hclosed t ((List.mem_tails _ _).mpr ht)
  have hlines := stretch_lines .nothing s _ ⟨hstretch, hcalm⟩
  have hrender := hlines.fixtures_append
  rw [List.append_nil, fixtures, List.append_nil] at hrender
  exact hrender

theorem fixtures_render_item :
    let s := "# \x7b\x7ba\x7d\x7d\n- *b \x7b\x7bc\x7d\x7d* \\*\n".toList ++
      "[<_if:0 1>d</_if:0>](e) ![f](\x7b\x7bg\x7d\x7d)".toList
    Closed s ∧ Calm s ∧ fixtures (render s) = fixtures s :=
  ⟨by decide +kernel, by decide +kernel, fixtures_render (by decide +kernel) (by decide +kernel)⟩

/-- The sign that closes emphasis is found in a hole. -/
theorem fixtures_render_ne :
    let s := "*a \x7b\x7bx*y\x7d\x7d".toList
    Closed s ∧ render s = "<em>a \x7b\x7bx</em>y\x7d\x7d".toList ∧
      fixtures (render s) ≠ fixtures s := by
  have hrender : render "*a \x7b\x7bx*y\x7d\x7d".toList =
      "<em>a \x7b\x7bx</em>y\x7d\x7d".toList := by decide +kernel
  refine ⟨by decide +kernel, hrender, ?_⟩
  rw [hrender]
  decide +kernel

end Markdown

end Stencil
