import Stencil.Markdown.Inline
import Stencil.Proofs.Fixture
import Stencil.Proofs.Material

namespace Stencil

namespace Markdown

open Escape

/-- The signs that close a construct of running markup, or what is copied as it is. -/
def closingSigns : List Text :=
  [['\n'], ['*'], ['\x60'], ['_', '_'], ['~', '~'], ['-', '-'], [']', '('], [')'], ['>'],
    ['!', '%']]

/-- Do the fixtures of the name and of the address of a link stay in their order, and those of the
address as they are? The address is written first, and escaped. -/
def Orderly (name url : Text) : Prop :=
  fixtures url = [] ∨ fixtures name = [] ∧ ∀ f ∈ fixtures url, attributeValue f = f

instance (name url : Text) : Decidable (Orderly name url) :=
  inferInstanceAs (Decidable (_ ∨ _ ∧ _))

/-- Are the fixtures of the name of an embed, which may be escaped, left as they are, and is an
address with several sources, each of which is written twice, without fixtures? -/
def Shown (name url : Text) : Prop :=
  (∀ f ∈ fixtures name, attributeValue f = f) ∧ ('|' ∈ url → Vacant url)

instance (name url : Text) : Decidable (Shown name url) :=
  inferInstanceAs (Decidable ((∀ _ ∈ _, _) ∧ (_ → _)))

/-- Does what may be read at the start of a text leave fixtures alone? -/
structure CalmAt (t : Text) : Prop where
  escape : ∀ u ∈ Text.strip? ['\\'] t, u.head? ≠ some '{' ∧ u.head? ≠ some '<'
  angle : ∀ u ∈ Text.strip? ['<'] t, (u.dropWhile isInner).head? ≠ some '\\'
  fixture : ∀ f ∈ fixture? t, ∀ sign ∈ closingSigns, ¬sign <:+: f.1.dropLast
  link : ∀ u ∈ Text.strip? ['['] t, ∀ l ∈ link? u, Orderly l.1.1 l.1.2.1
  embed : ∀ u ∈ Text.strip? ['!', '['] t, ∀ l ∈ link? u, Shown l.1.1 l.1.2.1
  attributes : ∀ u ∈ Text.strip? [')', '{'] t, ∀ a ∈ cutInLine? ['}'] u,
    u.head? = some '{' ∨ Vacant a.1

instance (t : Text) : Decidable (CalmAt t) :=
  decidable_of_iff
    ((∀ u ∈ Text.strip? ['\\'] t, u.head? ≠ some '{' ∧ u.head? ≠ some '<') ∧
      (∀ u ∈ Text.strip? ['<'] t, (u.dropWhile isInner).head? ≠ some '\\') ∧
      (∀ f ∈ fixture? t, ∀ sign ∈ closingSigns, ¬sign <:+: f.1.dropLast) ∧
      (∀ u ∈ Text.strip? ['['] t, ∀ l ∈ link? u, Orderly l.1.1 l.1.2.1) ∧
      (∀ u ∈ Text.strip? ['!', '['] t, ∀ l ∈ link? u, Shown l.1.1 l.1.2.1) ∧
      ∀ u ∈ Text.strip? [')', '{'] t, ∀ a ∈ cutInLine? ['}'] u, u.head? = some '{' ∨ Vacant a.1)
    ⟨fun ⟨h1, h2, h3, h4, h5, h6⟩ => ⟨h1, h2, h3, h4, h5, h6⟩,
      fun h => ⟨h.escape, h.angle, h.fixture, h.link, h.embed, h.attributes⟩⟩

/-- Is a source free of backslashes at its fixtures, of signs in them, and of links that change
them? -/
def Calm (s : Text) : Prop := ∀ t ∈ s.tails, CalmAt t

instance : DecidablePred Calm := fun s => inferInstanceAs (Decidable (∀ t ∈ s.tails, CalmAt t))

variable {s t u a b pat before after inside rest : Text} {ws vs : List Text} {c : Char}

theorem cutInLine?_append_right (hp : pat ≠ []) (h : cutInLine? pat s = some (before, after))
    (t : Text) : cutInLine? pat (s ++ t) = some (before, after ++ t) := by
  obtain ⟨hcut, hline⟩ := Option.filter_eq_some_iff.mp h
  exact Option.filter_eq_some_iff.mpr ⟨Text.cut?_append_right hp hcut t, hline⟩

theorem strip?_append_right {lead : Text} (h : Text.strip? lead s = some rest) (t : Text) :
    Text.strip? lead (s ++ t) = some (rest ++ t) := by
  rw [Text.strip?_eq_some_iff.mp h, List.append_assoc, Text.strip?_append]

theorem matchingBracket?_append_right {depth : Nat} {quote : Option Char}
    (h : matchingBracket? depth quote s = some (inside, rest)) (t : Text) :
    matchingBracket? depth quote (s ++ t) = some (inside, rest ++ t) := by
  fun_induction matchingBracket? depth quote s generalizing inside rest with
  | case1 => cases h
  | case2 => cases h
  | case3 => cases h
  | case4 => cases h
  | case5 depth quote c hc hquote d s hd ih =>
    obtain ⟨r, hr, he⟩ := Option.map_eq_some_iff.mp h
    cases he
    rw [List.cons_append, List.cons_append, matchingBracket?, if_neg hc, if_pos hquote]
    simp only [if_neg hd, ih hr, Option.map_some]
  | case6 depth quote c s hc hquote hend =>
    cases Option.some.inj h
    rw [List.cons_append, matchingBracket?.eq_def]
    simp only [if_neg hc, if_neg hquote, if_pos hend]
  | case7 depth quote c s hc hquote hend ih =>
    obtain ⟨r, hr, he⟩ := Option.map_eq_some_iff.mp h
    cases he
    rw [List.cons_append, matchingBracket?.eq_def]
    simp only [if_neg hc, if_neg hquote, if_neg hend, ih hr, Option.map_some]

theorem link?_append_right {name url : Text} {attrs : LinkAttributes}
    (h : link? s = some ((name, url, attrs), rest)) (t : Text) :
    ∃ attrs' rest', link? (s ++ t) = some ((name, url, attrs'), rest') := by
  simp only [link?, Option.bind_eq_bind, Option.bind_eq_some_iff] at h
  obtain ⟨⟨nm, s1⟩, hname, s2, hopen, ⟨address, tail⟩, hurl, he⟩ := h
  cases he
  simp only [link?, matchingBracket?_append_right hname, strip?_append_right hopen,
    cutInLine?_append_right (by decide) hurl, Option.bind_eq_bind, Option.bind_some]
  exact ⟨_, _, rfl⟩

theorem CalmAt.left (h : CalmAt (t ++ u)) : CalmAt t where
  escape v hv := by
    have hmore := h.escape _ (strip?_append_right hv u)
    cases v with
    | nil => exact ⟨by decide, by decide⟩
    | cons d v => exact hmore
  angle v hv hhead := by
    refine h.angle _ (strip?_append_right hv u) ?_
    obtain ⟨m, hm⟩ := List.head?_eq_some_iff.mp hhead
    rw [List.dropWhile_append, hm]
    rfl
  fixture f hf := by
    have hread : fixture? t = some (f.1, f.2) := hf
    have hmore := fixture?_append hread (f.2 ++ u)
    rw [← List.append_assoc, ← eq_of_fixture? hread] at hmore
    exact h.fixture (f.1, f.2 ++ u) hmore
  link v hv l hl := by
    obtain ⟨attrs, rest, hmore⟩ := link?_append_right hl u
    exact h.link _ (strip?_append_right hv u) ((l.1.1, l.1.2.1, attrs), rest) hmore
  embed v hv l hl := by
    obtain ⟨attrs, rest, hmore⟩ := link?_append_right hl u
    exact h.embed _ (strip?_append_right hv u) ((l.1.1, l.1.2.1, attrs), rest) hmore
  attributes v hv a ha := by
    have hmore := h.attributes _ (strip?_append_right hv u) _
      (cutInLine?_append_right (by decide) ha u)
    refine hmore.imp_left fun hhead => ?_
    cases v with
    | nil => cases ha
    | cons d v => exact hhead

theorem Calm.of_infix (h : Calm s) (ht : t <:+: s) : Calm t := by
  intro u hu
  obtain ⟨a, b, rfl⟩ := ht
  obtain ⟨v, rfl⟩ := List.mem_tails u t |>.mp hu
  refine CalmAt.left (u := b) (h _ ((List.mem_tails _ _).mpr ⟨a ++ v, ?_⟩))
  simp

theorem Calm.unbroken (h : Calm s) : Unbroken s := fun t ht =>
  (h _ ((List.mem_tails _ s).mpr ht)).angle t (Text.strip?_append ['<'] t)

/-- A calm source with its fixtures. -/
structure Source (ws : List Text) (s : Text) : Prop where
  stretch : Stretch ws s []
  calm : Calm s

theorem Source.calmAt (h : Source ws s) (ht : t <:+ s) : CalmAt t :=
  h.calm t ((List.mem_tails t s).mpr ht)

theorem Source.free (h : Source ws s) {f : Text} (hf : f ∈ ws) {sign : Text}
    (hsign : sign ∈ closingSigns) : ¬sign <:+: f.dropLast := by
  obtain ⟨t, rest, ht, hread⟩ := h.stretch.exists_suffix hf
  exact (h.calmAt ht).fixture _ hread sign hsign

theorem vacant_of_mem_closingSigns {sign : Text} (h : sign ∈ closingSigns) : Vacant sign := by
  have hall : ∀ sign ∈ closingSigns, Vacant sign := by decide
  exact hall sign h

namespace Source

/-- What is copied up to a closing sign and through it takes whole fixtures. -/
theorem copy {sign : Text} (h : Source ws (a ++ sign ++ b)) (hsign : sign ∈ closingSigns) :
    ∃ us vs, ws = us ++ vs ∧ Stretch us (a ++ sign) b ∧ Source vs b := by
  obtain ⟨us, vs, he, hu, hv⟩ := h.stretch.split_after (vacant_of_mem_closingSigns hsign)
    fun f hf => h.free hf hsign
  rw [List.append_nil] at hu
  exact ⟨us, vs, he, hu, hv, h.calm.of_infix (List.suffix_append _ b).isInfix⟩

/-- A text is cut into two at a closing sign, each with its own fixtures. -/
theorem cut {sign : Text} (h : Source ws (a ++ sign ++ b)) (hsign : sign ∈ closingSigns)
    (hsmooth : Smooth sign) : ∃ us vs, ws = us ++ vs ∧ Source us a ∧ Source vs b := by
  obtain ⟨us, vs, he, hu, hv⟩ := h.copy hsign
  rw [List.append_assoc] at h
  have ha : Stretch us a [] :=
    (hu.drop_smooth hsmooth).echo (.of_stops stops_nil _) h.calm.unbroken
  exact ⟨us, vs, he, ⟨ha, h.calm.of_infix (List.prefix_append a _).isInfix⟩, hv⟩

theorem drop_vacant (h : Source ws (a ++ b)) (ha : Vacant a) : Source ws b :=
  ⟨h.stretch.drop_vacant ha, h.calm.of_infix (List.suffix_append a b).isInfix⟩

theorem drop_smooth (h : Source ws (a ++ b)) (hb : Smooth b) : Source ws a := by
  have hunbroken : Unbroken (a ++ (b ++ [])) := by simpa using h.calm.unbroken
  have ha : Stretch ws a [] :=
    (h.stretch.drop_smooth hb).echo (.of_stops stops_nil _) hunbroken
  exact ⟨ha, h.calm.of_infix (List.prefix_append a b).isInfix⟩

/-- A character that starts no fixture is passed over. -/
theorem skip (h : Source ws (c :: s)) (hc : fixture? (c :: s) = none) :
    Stretch [] [c] s ∧ Source ws s := by
  have hcalm := h.calm.of_infix (List.suffix_cons c s).isInfix
  obtain ⟨w, hw⟩ : ∃ w, w = c :: s := ⟨_, rfl⟩
  have hstretch := h.stretch
  rw [← hw] at hstretch
  cases hstretch with
  | nil => cases hw
  | skip hhole hplaceholder hmore =>
    cases hw
    rw [List.append_nil] at hhole hplaceholder
    exact ⟨.single hhole hplaceholder, hmore, hcalm⟩
  | fixture hf hmore =>
    rw [← hw, hf.append] at hc
    cases hc

/-- A fixture at the start of a source. -/
theorem of_fixture? {f : Text} (h : Source ws s) (hf : fixture? s = some (f, rest)) :
    ∃ vs, ws = f :: vs ∧ Source vs rest := by
  have hs := eq_of_fixture? hf
  have hcalm := h.calm.of_infix (hs ▸ List.suffix_append f rest).isInfix
  cases h.stretch with
  | nil => cases hf
  | skip hhole hplaceholder hmore =>
    rw [List.append_nil] at hhole hplaceholder
    simp only [fixture?, hhole, hplaceholder, Option.map_none] at hf
    cases hf
  | fixture hg hmore =>
    rw [hg.append] at hf
    cases hf
    exact ⟨_, rfl, hmore, hcalm⟩

end Source

/-- Do attributes have no opening brace? -/
structure LinkAttributes.Braceless (a : LinkAttributes) : Prop where
  attrs : ∀ e ∈ a.attrs, '{' ∉ e.1 ∧ ∀ v ∈ e.2, '{' ∉ v
  style : ∀ d ∈ a.style, '{' ∉ d

/-- The fixtures in the parts of a token, in the order of its source. -/
inductive Token.Reads : List Text → Token → Prop where
  | code {ws : List Text} {body : Text} (h : Source ws body) : Reads ws (.code body)
  | fence {ws : List Text} {lang body : Text} (hlang : Vacant lang) (h : Source ws body) :
      Reads ws (.fence lang body)
  | autolink {url : Text} (h : Vacant url) : Reads [] (.autolink url)
  | styled {ws : List Text} {style : Style} {inner : Text} (h : Source ws inner) :
      Reads ws (.styled style inner)
  | link {ws vs : List Text} {name url : Text} {attrs : LinkAttributes} (hname : Source ws name)
      (hurl : Source vs url) (horder : Orderly name url) (hattrs : attrs.Braceless) :
      Reads (ws ++ vs) (.link name url attrs)
  | embed {ws vs : List Text} {name url : Text} {attrs : LinkAttributes} (hname : Source ws name)
      (hurl : Source vs url) (horder : Orderly name url) (hshown : Shown name url)
      (hattrs : attrs.Braceless) : Reads (ws ++ vs) (.embed name url attrs)

/-- A step takes whole fixtures of a source: it copies them, or has them in its token, or it leaves
out a backslash. -/
inductive Step.Reads (ws : List Text) (s : Text) (st : Step) : Prop where
  | copied {us vs : List Text} {t : Text} (hws : ws = us ++ vs) (htoken : st.token = .text t)
      (hs : s = t ++ st.rest) (ht : Stretch us t st.rest) (hrest : Source vs st.rest)
  | escaped {d : Char} (htoken : st.token = .text [d]) (hs : s = '\\' :: d :: st.rest)
      (hd : d ≠ '{' ∧ d ≠ '<') (hrest : Source ws st.rest)
  | built {us vs : List Text} (hws : ws = us ++ vs) (htoken : st.token.Reads us)
      (hrest : Source vs st.rest)

theorem reads_vacant (h : Source ws (t ++ rest)) (ht : Vacant t) :
    (Step.text t rest).Reads ws (t ++ rest) :=
  .copied (List.nil_append ws).symm rfl rfl (.of_vacant ht rest) (h.drop_vacant ht)

theorem reads_plain (h : Source ws (c :: s)) (hc : fixture? (c :: s) = none) :
    (Step.plain c s).Reads ws (c :: s) := by
  obtain ⟨hone, hrest⟩ := h.skip hc
  exact .copied (List.nil_append ws).symm rfl rfl hone hrest

theorem reads_passage {opening closing : Text} (h : Source ws (c :: s))
    (hsign : closing ∈ closingSigns)
    (hnone : (Text.strip? opening (c :: s)).bind (cutInLine? closing) = none →
      fixture? (c :: s) = none) : (passage opening closing c s).Reads ws (c :: s) := by
  unfold passage
  split
  next inside rest hfound =>
    obtain ⟨inner, hopen, hcut⟩ := Option.bind_eq_some_iff.mp hfound
    have hs : c :: s = opening ++ inside ++ closing ++ rest := by
      rw [Text.strip?_eq_some_iff.mp hopen, (eq_of_cutInLine? hcut).1]
      simp
    rw [hs] at h ⊢
    obtain ⟨us, vs, he, hu, hv⟩ := h.copy hsign
    exact .copied he rfl rfl hu hv
  next hno => exact reads_plain h (hnone hno)

/-- A hole is in one line, and copied. -/
theorem reads_hole (raw : Bool) {inner : Text} (h : Source ws (c :: s))
    (hopen : Text.strip? (Hole.opening raw) (c :: s) = some inner)
    (hraw : raw = false → Text.strip? (Hole.opening true) (c :: s) = none) :
    (passage (Hole.opening raw) (Hole.closing raw) c s).Reads ws (c :: s) := by
  have hlead := Hole.lead?_of_strip? hopen hraw
  cases hcut : Text.cut? (Hole.closing raw) inner with
  | none =>
    rw [hcut] at hlead
    exact absurd hlead h.stretch.lead?_ne
  | some r =>
    obtain ⟨inside, rest⟩ := r
    rw [hcut] at hlead
    have hread : fixture? (c :: s) = some (Hole.written ⟨raw, inside⟩, rest) := by
      rw [fixture?, hlead]
      rfl
    obtain ⟨vs, rfl, hrest⟩ := h.of_fixture? hread
    have hfixture := isFixture_of_fixture? hread
    have hline : '\n' ∉ inside := by
      intro hm
      have hfree : ¬['\n'] <:+: (Hole.written ⟨raw, inside⟩).dropLast :=
        h.free List.mem_cons_self (by decide)
      have hclosing : Hole.closing raw ≠ [] := by cases raw <;> simp [Hole.closing]
      rw [List.singleton_infix_iff, Hole.written, List.dropLast_append_of_ne_nil hclosing] at hfree
      exact hfree (List.mem_append_left _ (List.mem_append_right _ hm))
    have hinLine : cutInLine? (Hole.closing raw) inner = some (inside, rest) :=
      Option.filter_eq_some_iff.mpr ⟨hcut, by simpa using hline⟩
    have hpassage : passage (Hole.opening raw) (Hole.closing raw) c s =
        Step.text (Hole.written ⟨raw, inside⟩) rest := by
      rw [passage, hopen, Option.bind_some, hinLine]
      rfl
    have hone := Stretch.fixture hfixture (.nil rest)
    rw [List.append_nil] at hone
    rw [hpassage]
    exact .copied List.singleton_append.symm rfl (eq_of_fixture? hread) hone hrest

/-- A placeholder is in one line. -/
theorem fixture?_of_unclosed
    (h : (Text.strip? ['<'] ('<' :: s)).bind (cutInLine? ['>']) = none) :
    fixture? ('<' :: s) = none := by
  refine Option.eq_none_iff_forall_ne_some.mpr fun ⟨f, rest⟩ hf => ?_
  rcases fixture?_cases hf with ⟨hole, hl, -⟩ | ⟨p, hp, hs⟩
  · rw [Hole.lead?_char fun hc => absurd hc (by decide)] at hl
    cases hl
  · obtain ⟨v, rfl, hv⟩ := hp.chars
    have hsplit : s = v ++ ['>'] ++ rest := (List.cons.inj hs).2
    have hend : '>' ∉ v := fun hm => absurd (hv _ hm) (by decide)
    have hline : '\n' ∉ v := fun hm => absurd (hv _ hm) (by decide)
    have hcut : Text.cut? ['>'] s = some (v, rest) := by
      rw [hsplit, List.append_assoc, Text.cut?_append_of_not_mem hend,
        Text.cut?_append_self (by simp)]
      simp
    have hfound : cutInLine? ['>'] s = some (v, rest) :=
      Option.filter_eq_some_iff.mpr ⟨hcut, by simpa using hline⟩
    have hopen : Text.strip? ['<'] ('<' :: s) = some s := Text.strip?_append ['<'] s
    rw [hopen, Option.bind_some, hfound] at h
    cases h

theorem reads_of_copied? {st : Step} (h : Source ws (c :: s)) (hst : copied? c s = some st) :
    st.Reads ws (c :: s) := by
  unfold copied? at hst
  split at hst
  next hescape =>
    cases Option.some.inj hst
    obtain ⟨rfl, hsign⟩ := hescape
    cases s with
    | nil => cases hsign
    | cons d s =>
      have hd : d ≠ '{' ∧ d ≠ '<' := by
        have hcalm := (h.calmAt List.suffix_rfl).escape (d :: s) (Text.strip?_append ['\\'] _)
        simpa using hcalm
      have hpair : Vacant ['\\', d] := .of_forall (by simpa using hd)
      exact .escaped rfl rfl hd (h.drop_vacant (a := ['\\', d]) hpair)
  next =>
    split at hst
    next htag =>
      cases Option.some.inj hst
      obtain ⟨rfl, -⟩ := htag
      exact reads_passage h (by decide) fixture?_of_unclosed
    next =>
      split at hst
      next hraw =>
        cases Option.some.inj hst
        obtain ⟨rfl, hraw⟩ := hraw
        obtain ⟨inner, rfl⟩ := List.isPrefixOf_iff_prefix.mp hraw
        exact reads_hole true h rfl fun hfalse => by cases hfalse
      next hraw =>
        split at hst
        next hhole =>
          cases Option.some.inj hst
          obtain ⟨rfl, hhole⟩ := hhole
          obtain ⟨inner, rfl⟩ := List.head?_eq_some_iff.mp hhole
          refine reads_hole false h rfl fun _ => ?_
          refine Option.eq_none_iff_forall_ne_some.mpr fun t ht => hraw ⟨rfl, ?_⟩
          rw [(List.cons.inj (Text.strip?_eq_some_iff.mp ht)).2]
          exact List.isPrefixOf_iff_prefix.mpr ⟨t, rfl⟩
        next =>
          split at hst
          next hmark =>
            cases Option.some.inj hst
            obtain ⟨rfl, -⟩ := hmark
            exact reads_passage h (by decide) fun _ => fixture?_of_ne (by decide) (by decide) s
          next => cases hst

theorem Source.getD_strip? (h : Source ws s) {lead : Text} (hlead : Vacant lead) :
    Source ws ((Text.strip? lead s).getD s) := by
  cases hs : Text.strip? lead s with
  | none => exact h
  | some t =>
    rw [Text.strip?_eq_some_iff.mp hs] at h
    exact h.drop_vacant hlead

theorem Source.getD_dropEnding? (h : Source ws s) {ending : Text} (hending : Smooth ending) :
    Source ws ((Text.dropEnding? ending s).getD s) := by
  cases hs : Text.dropEnding? ending s with
  | none => exact h
  | some t =>
    rw [Text.eq_of_dropEnding? hs] at h
    exact h.drop_smooth hending

theorem source_fenceParts (h : Source ws inside) :
    Vacant (fenceParts inside).1 ∧ Source ws (fenceParts inside).2 := by
  have hlang : Vacant (inside.takeWhile isLangChar) :=
    vacant_takeWhile (by decide) (by decide) inside
  unfold fenceParts
  dsimp only
  split
  next body _ hbody =>
    rw [← List.takeWhile_append_dropWhile (p := isLangChar) (l := inside), hbody] at h
    have hinner : Source ws body := (h.drop_vacant hlang).drop_vacant (a := ['\n']) (by decide)
    exact ⟨hlang, hinner.getD_dropEnding? (by decide)⟩
  next => exact ⟨vacant_nil, (h.getD_strip? (by decide)).getD_dropEnding? (by decide)⟩

theorem reads_fence (h : Source ws (fenceSign ++ s)) :
    (fence s).Reads ws (fenceSign ++ s) := by
  unfold fence
  split
  next inside rest hcut =>
    have hinner : Source ws (inside ++ ['\x60'] ++ (['\x60', '\x60'] ++ rest)) := by
      have hs := h.drop_vacant (by decide)
      rw [Text.eq_of_cut? hcut] at hs
      simpa [fenceSign] using hs
    obtain ⟨us, vs, he, hu, hv⟩ := hinner.cut (by decide) (by decide)
    obtain ⟨hlang, hbody⟩ := source_fenceParts hu
    exact .built he (.fence hlang hbody) (hv.drop_vacant (by decide))
  next => exact reads_vacant h (by decide)

theorem reads_code (h : Source ws ('\x60' :: s)) : (code s).Reads ws ('\x60' :: s) := by
  unfold code
  split
  next body rest hcut =>
    have hs : Source ws s := h.drop_vacant (a := ['\x60']) (by decide)
    rw [(eq_of_cutInLine? hcut).1] at hs
    obtain ⟨us, vs, he, hu, hv⟩ := hs.cut (by decide) (by decide)
    exact .built he (.code hu) hv
  next => exact reads_plain h (fixture?_of_ne (by decide) (by decide) s)

theorem reads_of_coded? {st : Step} (h : Source ws (c :: s)) (hst : coded? c s = some st) :
    st.Reads ws (c :: s) := by
  unfold coded? at hst
  split at hst
  next hc =>
    subst hc
    split at hst
    next hfence =>
      cases Option.some.inj hst
      obtain ⟨u, rfl⟩ := List.isPrefixOf_iff_prefix.mp hfence
      exact reads_fence h
    next =>
      cases Option.some.inj hst
      exact reads_code h
  next => cases hst

theorem vacant_url (s : Text) : Vacant (url s) :=
  (vacant_takeWhile (by decide) (by decide) s).of_sublist (prefix_url s).sublist

theorem reads_of_autolinked? {context : Context} {st : Step} (h : Source ws s)
    (hst : autolinked? context s = some st) : st.Reads ws s := by
  unfold autolinked? at hst
  split at hst
  next =>
    cases Option.some.inj hst
    have hparts : Source ws (url s ++ s.drop (url s).length) := by
      rw [url_append_drop]
      exact h
    exact .built (List.nil_append ws).symm (.autolink (vacant_url s))
      (hparts.drop_vacant (vacant_url s))
  next => cases hst

namespace LinkAttributes

theorem madeOf_value (s : Text) : (value s).1.MadeOf s ∧ (value s).2.MadeOf s := by
  unfold value
  split
  next => exact ⟨.nil, .nil⟩
  next q inner =>
    have hinner : Text.MadeOf inner (q :: inner) := (Text.MadeOf.refl inner).later q
    split
    · have htail := Text.MadeOf.of_sublist (List.tail_sublist (inner.dropWhile (· != q)))
      exact ⟨hinner.takeWhile _, htail.trans (hinner.dropWhile _)⟩
    · exact ⟨(Text.MadeOf.refl _).takeWhile _, (Text.MadeOf.refl _).dropWhile _⟩

theorem Braceless.cons_attr {a : LinkAttributes} (h : a.Braceless) {key : Text}
    {value : Option Text} (hkey : '{' ∉ key) (hvalue : ∀ v ∈ value, '{' ∉ v) :
    Braceless { a with attrs := (key, value) :: a.attrs } where
  attrs e he := by
    rcases List.mem_cons.mp he with rfl | he
    · exact ⟨hkey, hvalue⟩
    · exact h.attrs e he
  style := h.style

theorem Braceless.cons_style {a : LinkAttributes} (h : a.Braceless) {d : Text} (hd : '{' ∉ d) :
    Braceless { a with style := d :: a.style } where
  attrs := h.attrs
  style e he := by
    rcases List.mem_cons.mp he with rfl | he
    · exact hd
    · exact h.style e he

theorem braceless_empty : empty.Braceless :=
  ⟨fun _ he => absurd he List.not_mem_nil, fun _ he => absurd he List.not_mem_nil⟩

theorem braceless_read (h : '{' ∉ s) : (read s).Braceless := by
  have hfree : ∀ {t u : Text}, '{' ∉ u → Text.MadeOf t u → '{' ∉ t := fun hu ht hm => hu (ht _ hm)
  fun_induction read s with
  | case1 => exact braceless_empty
  | case2 c s _ ih => exact ih (List.not_mem_of_not_mem_cons h)
  | case3 s v more _ ih =>
    have hs := List.not_mem_of_not_mem_cons h
    refine (ih (hfree hs (madeOf_value s).2)).cons_attr List.not_mem_nil ?_
    rintro _ ⟨⟩
    exact hfree hs (madeOf_value s).1
  | case4 s more _ _ ih =>
    have hs := List.not_mem_of_not_mem_cons h
    refine (ih (hfree hs ((Text.MadeOf.refl s).dropWhile _))).cons_style ?_
    exact List.not_mem_cons_of_ne_of_not_mem (by decide)
      (hfree hs ((Text.MadeOf.refl s).takeWhile _).trim)
  | case5 c s _ _ _ key rest hrest v more ih =>
    have hs := List.not_mem_of_not_mem_cons h
    have hkey : '{' ∉ key := hfree h (((Text.MadeOf.refl s).takeWhile _).keep c)
    have hlater : '{' ∉ rest :=
      List.not_mem_of_not_mem_cons (hrest ▸ hfree hs ((Text.MadeOf.refl s).dropWhile _))
    refine (ih (hfree hlater (madeOf_value rest).2)).cons_attr hkey ?_
    rintro _ ⟨⟩
    exact hfree hlater (madeOf_value rest).1
  | case6 c s _ _ _ key rest hrest more declaration ih =>
    have hs := List.not_mem_of_not_mem_cons h
    have hkey : '{' ∉ key := hfree h (((Text.MadeOf.refl s).takeWhile _).keep c)
    have hlater : '{' ∉ rest :=
      List.not_mem_of_not_mem_cons (hrest ▸ hfree hs ((Text.MadeOf.refl s).dropWhile _))
    refine (ih (hfree hlater ((Text.MadeOf.refl rest).dropWhile _))).cons_style ?_
    refine List.not_mem_append (hfree hkey (Text.MadeOf.refl key).trim) ?_
    exact List.not_mem_cons_of_ne_of_not_mem (by decide)
      (hfree hlater ((Text.MadeOf.refl rest).takeWhile _).trim)
  | case7 c s _ _ _ key _ _ more ih =>
    have hs := List.not_mem_of_not_mem_cons h
    have hkey : '{' ∉ key := hfree h (((Text.MadeOf.refl s).takeWhile _).keep c)
    exact (ih (hfree hs ((Text.MadeOf.refl s).dropWhile _))).cons_attr hkey fun v hv => by cases hv

end LinkAttributes

theorem smooth_of_blanks (h : ∀ d ∈ t, isWhiteSpace d) : Smooth t := by
  have hne : ∀ d, d = '{' ∨ d = '<' ∨ d = '}' ∨ d = '>' → d ∉ t := by
    rintro d (rfl | rfl | rfl | rfl) hm <;> exact absurd (h _ hm) (by decide)
  exact ⟨⟨hne _ (by decide), hne _ (by decide)⟩, hne _ (by decide), hne _ (by decide)⟩

theorem Source.trim (h : Source ws s) : Source ws (Text.trim s) := by
  obtain ⟨before, after, hs, hbefore, hafter⟩ := Text.exists_blanks_trim s
  rw [hs] at h
  exact (h.drop_smooth (smooth_of_blanks hafter)).drop_vacant (smooth_of_blanks hbefore).1

theorem source_linkAttributes (h : Source ws s) (hcalm : CalmAt (')' :: s)) :
    (linkAttributes s).1.Braceless ∧ Source ws (linkAttributes s).2 := by
  unfold linkAttributes
  split
  next inner =>
    split
    next => exact ⟨LinkAttributes.braceless_empty, h⟩
    next hhead =>
      split
      next attrs rest hcut =>
        have hattrs := (hcalm.attributes inner rfl _ hcut).resolve_left hhead
        have hinner := (h.skip (fixture?_of_lone (fun _ => hhead) (by decide))).2
        rw [(eq_of_cutInLine? hcut).1, List.append_assoc] at hinner
        exact ⟨LinkAttributes.braceless_read hattrs.1,
          (hinner.drop_vacant hattrs).drop_vacant (by decide)⟩
      next => exact ⟨LinkAttributes.braceless_empty, h⟩
  next => exact ⟨LinkAttributes.braceless_empty, h⟩

/-- The parts of a link in a calm source. -/
theorem source_link {name url : Text} {attrs : LinkAttributes} (h : Source ws s)
    (hlink : link? s = some ((name, url, attrs), rest)) :
    ∃ us vs ts, ws = us ++ vs ++ ts ∧ Source us name ∧ Source vs url ∧ Source ts rest ∧
      attrs.Braceless := by
  obtain ⟨address, tail, rfl, rfl, htail⟩ := exists_of_link? hlink
  obtain ⟨us, ws', rfl, hname, hafter⟩ := h.cut (by decide) (by decide)
  obtain ⟨vs, ts, rfl, haddress, htail'⟩ := hafter.cut (by decide) (by decide)
  have hsuffix : ')' :: tail <:+ address ++ [')'] ++ tail := ⟨address, by simp⟩
  obtain ⟨hattrs, hrest⟩ := source_linkAttributes htail' (hafter.calmAt hsuffix)
  rw [htail] at hattrs hrest
  exact ⟨us, vs, ts, (List.append_assoc us vs ts).symm, hname, haddress.trim, hrest, hattrs⟩

theorem reads_of_linked? {st : Step} (h : Source ws (c :: s)) (hst : linked? c s = some st) :
    st.Reads ws (c :: s) := by
  have hcalm : CalmAt (c :: s) := h.calmAt List.suffix_rfl
  unfold linked? at hst
  split at hst
  next hembed =>
    obtain ⟨rfl, hhead⟩ := hembed
    obtain ⟨u, rfl⟩ := List.head?_eq_some_iff.mp hhead
    obtain ⟨⟨⟨name, url, attrs⟩, rest⟩, hlink, he⟩ := Option.map_eq_some_iff.mp hst
    cases he
    have hinner : Source ws u := h.drop_vacant (a := ['!', '[']) (by decide)
    have hbracket : CalmAt ('[' :: u) := h.calmAt (List.suffix_cons '!' ('[' :: u))
    obtain ⟨us, vs, ts, rfl, hname, hurl, hrest, hattrs⟩ := source_link hinner hlink
    exact .built rfl (.embed hname hurl (hbracket.link u rfl _ hlink) (hcalm.embed u rfl _ hlink)
      hattrs) hrest
  next =>
    split at hst
    next hc =>
      subst hc
      obtain ⟨⟨⟨name, url, attrs⟩, rest⟩, hlink, he⟩ := Option.map_eq_some_iff.mp hst
      cases he
      have hinner : Source ws s := h.drop_vacant (a := ['[']) (by decide)
      obtain ⟨us, vs, ts, rfl, hname, hurl, hrest, hattrs⟩ := source_link hinner hlink
      exact .built rfl (.link hname hurl (hcalm.link s rfl _ hlink) hattrs) hrest
    next => cases hst

theorem vacant_stars (s : Text) : Vacant (s.takeWhile (· == '*')) :=
  vacant_takeWhile (by decide) (by decide) s

theorem reads_stars (h : Source ws ('*' :: s)) : (stars s).Reads ws ('*' :: s) := by
  have hrun : Vacant ('*' :: s.takeWhile (· == '*')) :=
    Vacant.append (s := ['*']) (by decide) (vacant_stars s)
  have hs : '*' :: s.takeWhile (· == '*') ++ s.dropWhile (· == '*') = '*' :: s := by
    rw [List.cons_append, List.takeWhile_append_dropWhile]
  rw [← hs] at h
  have htext := reads_vacant h hrun
  rw [hs] at htext
  unfold stars
  dsimp only
  split
  next => exact htext
  next =>
    split
    next inner rest hclose =>
      obtain ⟨after, he, rfl⟩ := eq_of_closingRun? hclose
      have hinner := h.drop_vacant hrun
      rw [he] at hinner
      obtain ⟨us, vs, rfl, hu, hv⟩ := hinner.cut (by decide) (by decide)
      rw [← List.takeWhile_append_dropWhile (p := (· == '*')) (l := after)] at hv
      exact .built rfl (.styled hu) (hv.drop_vacant (vacant_stars after))
    next => exact htext

theorem reads_between {d : Char} {style : Style} {after : Context} (h : Source ws (c :: s))
    (hc : c = d) (hs : s.head? = some d) (hsign : [d, d] ∈ closingSigns)
    (hsmooth : Smooth [d, d]) : (between [d, d] style after s.tail).Reads ws (c :: s) := by
  obtain ⟨u, rfl⟩ := List.head?_eq_some_iff.mp hs
  subst hc
  rw [List.tail_cons]
  unfold between
  split
  next inner rest hcut =>
    split
    next => exact reads_vacant h hsmooth.1
    next =>
      have hinner : Source ws u := h.drop_vacant (a := [c, c]) hsmooth.1
      rw [(eq_of_cutInLine? hcut).1] at hinner
      obtain ⟨us, vs, he, hu, hv⟩ := hinner.cut hsign hsmooth
      exact .built he (.styled hu) hv
  next => exact reads_vacant h hsmooth.1

theorem reads_of_styled? {context : Context} {st : Step} (h : Source ws (c :: s))
    (hst : styled? context c s = some st) : st.Reads ws (c :: s) := by
  unfold styled? at hst
  split at hst
  next hblank =>
    cases Option.some.inj hst
    obtain ⟨-, rfl, -⟩ := hblank
    have hrest : Source ws s := h.drop_vacant (a := [' ']) (by decide)
    exact .copied (List.nil_append ws).symm rfl rfl (.of_vacant (by decide) s) hrest
  next =>
    split at hst
    next hc =>
      cases Option.some.inj hst
      subst hc
      exact reads_stars h
    next =>
      split at hst
      next hc =>
        cases Option.some.inj hst
        exact reads_between h hc.1 hc.2 (by decide) (by decide)
      next =>
        split at hst
        next hc =>
          split at hst
          · cases Option.some.inj hst
            exact reads_between h hc.1 hc.2 (by decide) (by decide)
          · cases Option.some.inj hst
            exact reads_between h hc.1 hc.2 (by decide) (by decide)
        next =>
          split at hst
          next hc =>
            cases Option.some.inj hst
            exact reads_between h hc.1 hc.2.1 (by decide) (by decide)
          next => cases hst

theorem startsTag_of_fixture? {f : Text} (h : fixture? ('<' :: s) = some (f, rest)) :
    s.head?.any startsTag := by
  rcases fixture?_cases h with ⟨hole, hl, -⟩ | ⟨p, hp, hs⟩
  · rw [Hole.lead?_char fun hc => absurd hc (by decide)] at hl
    cases hl
  · cases hp with
    | closer =>
      cases hs
      rfl
    | @opener full index hf hd hk hi =>
      obtain ⟨digits, hfull, hspecial⟩ := Placeholder.eq_of_nameAndDepth? hd
      cases hname : p.name with
      | nil =>
        rw [hname] at hspecial
        cases hspecial
      | cons d name =>
        rw [hname] at hspecial hfull
        subst hfull
        cases hs
        rcases Bool.or_eq_true_iff.mp hspecial with hd | hd
        · simp [beq_iff_eq.mp hd, startsTag]
        · simp [startsTag, Char.isAlpha, hd]

/-- What is not copied as it is does not start a fixture. -/
theorem fixture?_of_not_copied (h : copied? c s = none) : fixture? (c :: s) = none := by
  by_cases hc : c = '<'
  · subst hc
    refine Option.eq_none_iff_forall_ne_some.mpr fun ⟨f, rest⟩ hf => ?_
    have htag := startsTag_of_fixture? hf
    simp [copied?, htag] at h
  · refine fixture?_of_lone (fun hbrace hhead => ?_) hc
    subst hbrace
    simp only [copied?, hhead] at h
    split at h
    next => cases h
    next =>
      split at h
      next => cases h
      next => split at h <;> simp at h

/-- Every step takes whole fixtures of a calm source. -/
theorem reads_step (context : Context) (h : Source ws (c :: s)) :
    (step context c s).Reads ws (c :: s) := by
  unfold step
  cases h1 : copied? c s with
  | some st => exact reads_of_copied? h h1
  | none =>
    cases h2 : coded? c s with
    | some st => exact reads_of_coded? h h2
    | none =>
      cases h3 : autolinked? context (c :: s) with
      | some st => exact reads_of_autolinked? h h3
      | none =>
        cases h4 : linked? c s with
        | some st => exact reads_of_linked? h h4
        | none =>
          cases h5 : styled? context c s with
          | some st => exact reads_of_styled? h h5
          | none => exact reads_plain h (fixture?_of_not_copied h1)

end Markdown

end Stencil
