import Stencil.Markdown.Token
import Stencil.Proofs.Path

namespace Stencil

/-- Is every character of a text one of another text? -/
def Text.MadeOf (t s : Text) : Prop := ∀ c ∈ t, c ∈ s

namespace Text.MadeOf

variable {s t u : Text}

theorem refl (s : Text) : s.MadeOf s := fun _ h => h

theorem trans (htu : u.MadeOf t) (hts : t.MadeOf s) : u.MadeOf s := fun c hc => hts c (htu c hc)

theorem nil : MadeOf [] s := fun _ h => absurd h List.not_mem_nil

theorem cons {c : Char} (hc : c ∈ s) (ht : t.MadeOf s) : MadeOf (c :: t) s := by
  intro d hd
  rcases List.mem_cons.mp hd with rfl | hd
  · exact hc
  · exact ht d hd

theorem later (c : Char) (h : t.MadeOf s) : t.MadeOf (c :: s) := fun d hd =>
  List.mem_cons_of_mem c (h d hd)

theorem keep (c : Char) (h : t.MadeOf s) : MadeOf (c :: t) (c :: s) :=
  cons List.mem_cons_self (h.later c)

theorem append (ht : t.MadeOf s) (hu : u.MadeOf s) : MadeOf (t ++ u) s := by
  intro c hc
  rcases List.mem_append.mp hc with hc | hc
  · exact ht c hc
  · exact hu c hc

theorem of_sublist (h : t.Sublist s) : t.MadeOf s := fun _ hc => h.subset hc

theorem left (h : MadeOf (t ++ u) s) : t.MadeOf s := fun c hc => h c (List.mem_append_left u hc)

theorem right (h : MadeOf (t ++ u) s) : u.MadeOf s := fun c hc => h c (List.mem_append_right t hc)

theorem takeWhile (p : Char → Bool) (h : t.MadeOf s) : MadeOf (t.takeWhile p) s :=
  (of_sublist (List.takeWhile_sublist p)).trans h

theorem dropWhile (p : Char → Bool) (h : t.MadeOf s) : MadeOf (t.dropWhile p) s :=
  (of_sublist (List.dropWhile_sublist p)).trans h

theorem reverse (h : t.MadeOf s) : MadeOf t.reverse s := fun c hc => h c (List.mem_reverse.mp hc)

theorem strip? {lead : Text} (h : Text.strip? lead s = some t) : t.MadeOf s := by
  have hs : (lead ++ t).MadeOf s := Text.strip?_eq_some_iff.mp h ▸ refl s
  exact hs.right

theorem getD_strip? (lead s : Text) : ((Text.strip? lead s).getD s).MadeOf s := by
  cases h : Text.strip? lead s with
  | none => exact refl s
  | some t => exact strip? h

theorem getD_dropEnding? (ending s : Text) : ((Text.dropEnding? ending s).getD s).MadeOf s := by
  cases h : Text.dropEnding? ending s with
  | none => exact refl s
  | some t =>
    obtain ⟨u, hu, rfl⟩ := Option.map_eq_some_iff.mp h
    have hrev : MadeOf u s.reverse := strip? hu
    exact (hrev.trans (refl s).reverse).reverse

theorem cut? {pat before after : Text} (h : Text.cut? pat s = some (before, after)) :
    before.MadeOf s ∧ pat.MadeOf s ∧ after.MadeOf s := by
  have hs : (before ++ pat ++ after).MadeOf s := Text.eq_of_cut? h ▸ refl s
  exact ⟨hs.left.left, hs.left.right, hs.right⟩

theorem trim (h : t.MadeOf s) : (Text.trim t).MadeOf s :=
  (((h.dropWhile isWhiteSpace).reverse.dropWhile isWhiteSpace).reverse)

theorem cutLast? {c : Char} {before after : Text} (h : Text.cutLast? c s = some (before, after)) :
    after.MadeOf s := by
  obtain ⟨⟨last, first⟩, hcut, he⟩ := Option.map_eq_some_iff.mp h
  cases he
  exact ((cut? hcut).1.trans (refl s).reverse).reverse

theorem of_mem_splitOn {c : Char} {part : Text} (h : part ∈ Text.splitOn [c] s) :
    part.MadeOf s := by
  induction s using Text.parts_induction c with
  | last s hs =>
    rw [Text.splitOn_of_not_mem hs] at h
    rw [List.mem_singleton.mp h]
    exact refl s
  | part s t hs ih =>
    rw [Text.splitOn_cons_of_not_mem hs] at h
    rcases List.mem_cons.mp h with rfl | h
    · exact fun d hd => List.mem_append_left _ hd
    · exact fun d hd => List.mem_append_right _ (List.mem_cons_of_mem c (ih h d hd))

end Text.MadeOf

namespace Markdown

/-- The texts in a token have only characters of another text. -/
def Token.Within (s : Text) : Token → Prop
  | .text t => t.MadeOf s
  | .code body => body.MadeOf s
  | .fence _ body => body.MadeOf s
  | .autolink url => url.MadeOf s
  | .styled _ inner => inner.MadeOf s
  | .link name _ _ => name.MadeOf s
  | .embed name url _ => name.MadeOf s ∧ url.MadeOf s

/-- The same of a step, for its token and the rest. -/
structure Step.Within (s : Text) (st : Step) : Prop where
  token : st.token.Within s
  rest : st.rest.MadeOf s

variable {s t rest : Text} {c : Char} {st : Step}

theorem Token.Within.inner {token : Token} {inner : Text} (h : token.Within s)
    (hinner : token.inner? = some inner) : inner.MadeOf s := by
  cases token with
  | styled style text =>
    cases hinner
    exact h
  | link name url attrs =>
    cases hinner
    exact h
  | embed name url attrs =>
    cases hinner
    exact h.1
  | text t => cases hinner
  | code body => cases hinner
  | fence lang body => cases hinner
  | autolink url => cases hinner

theorem within_text (ht : t.MadeOf s) (hr : rest.MadeOf s) : (Step.text t rest).Within s :=
  ⟨ht, hr⟩

theorem within_plain (hc : c ∈ s) (hr : rest.MadeOf s) : (Step.plain c rest).Within s :=
  ⟨.cons hc .nil, hr⟩

theorem madeOf_of_cutInLine? {pat before after : Text}
    (h : cutInLine? pat s = some (before, after)) :
    before.MadeOf s ∧ pat.MadeOf s ∧ after.MadeOf s :=
  Text.MadeOf.cut? (Option.filter_eq_some_iff.mp h).1

theorem within_passage {opening closing : Text} (hall : Text.MadeOf (c :: t) s) :
    (passage opening closing c t).Within s := by
  unfold passage
  split
  next inside rest h =>
    obtain ⟨inner, hinner, hcut⟩ := Option.bind_eq_some_iff.mp h
    obtain ⟨hinside, hclosing, hrest⟩ := madeOf_of_cutInLine? hcut
    have hopened : Text.MadeOf (opening ++ inner) s := Text.strip?_eq_some_iff.mp hinner ▸ hall
    have htext : Text.MadeOf (opening ++ inside ++ closing) s :=
      (hopened.left.append (hinside.trans hopened.right)).append (hclosing.trans hopened.right)
    exact within_text htext (hrest.trans hopened.right)
  next => exact within_plain (hall c List.mem_cons_self) (Text.MadeOf.right (t := [c]) hall)

theorem madeOf_fenceParts (inside : Text) : (fenceParts inside).2.MadeOf inside := by
  unfold fenceParts
  dsimp only
  split
  next body hlang hbody =>
    have hdropped : Text.MadeOf ('\n' :: body) inside := hbody ▸ (Text.MadeOf.refl _).dropWhile _
    have hinner : Text.MadeOf body inside := Text.MadeOf.right (t := ['\n']) hdropped
    exact (Text.MadeOf.getD_dropEnding? _ _).trans hinner
  next => exact (Text.MadeOf.getD_dropEnding? _ _).trans (.getD_strip? _ _)

theorem within_fence (hsign : fenceSign.MadeOf s) (ht : t.MadeOf s) : (fence t).Within s := by
  unfold fence
  split
  next inside rest h =>
    obtain ⟨hinside, -, hrest⟩ := Text.MadeOf.cut? h
    exact ⟨((madeOf_fenceParts inside).trans hinside).trans ht, hrest.trans ht⟩
  next => exact within_text hsign ht

theorem within_code (hsign : '\x60' ∈ s) (ht : t.MadeOf s) : (code t).Within s := by
  unfold code
  split
  next body rest h =>
    obtain ⟨hbody, -, hrest⟩ := madeOf_of_cutInLine? h
    exact ⟨hbody.trans ht, hrest.trans ht⟩
  next => exact within_plain hsign ht

theorem madeOf_trimUrl (u : Text) : (trimUrl u).MadeOf u := by
  induction u with
  | nil => exact .nil
  | cons c u ih =>
    unfold trimUrl
    split
    · exact ih.trans (.of_sublist (List.sublist_cons_self c u))
    · exact .refl _

theorem madeOf_url (s : Text) : (url s).MadeOf s :=
  ((madeOf_trimUrl _).trans ((Text.MadeOf.refl s).takeWhile isUrlChar).reverse).reverse

theorem madeOf_of_matchingBracket? {depth : Nat} {quote : Option Char} {inside : Text}
    (h : matchingBracket? depth quote s = some (inside, rest)) :
    inside.MadeOf s ∧ rest.MadeOf s := by
  fun_induction matchingBracket? depth quote s generalizing inside rest with
  | case1 => cases h
  | case2 => cases h
  | case3 => cases h
  | case4 => cases h
  | case5 depth quote c _ _ d s _ ih =>
    obtain ⟨r, hr, he⟩ := Option.map_eq_some_iff.mp h
    cases he
    obtain ⟨hinside, hrest⟩ := ih hr
    exact ⟨(hinside.keep d).keep c, (hrest.later d).later c⟩
  | case6 depth quote c s _ _ _ =>
    cases Option.some.inj h
    exact ⟨.nil, (Text.MadeOf.refl s).later c⟩
  | case7 depth quote c s _ _ _ ih =>
    obtain ⟨r, hr, he⟩ := Option.map_eq_some_iff.mp h
    cases he
    obtain ⟨hinside, hrest⟩ := ih hr
    exact ⟨hinside.keep c, hrest.later c⟩

theorem madeOf_linkAttributes (s : Text) : Text.MadeOf (linkAttributes s).2 s := by
  unfold linkAttributes
  split
  next inner =>
    split
    · exact .refl _
    · split
      next attrs rest h => exact (madeOf_of_cutInLine? h).2.2.later _
      next => exact .refl _
  next => exact .refl _

theorem madeOf_of_link? {name url : Text} {attrs : LinkAttributes}
    (h : link? s = some ((name, url, attrs), rest)) :
    name.MadeOf s ∧ url.MadeOf s ∧ rest.MadeOf s := by
  simp only [link?, Option.bind_eq_bind, Option.bind_eq_some_iff] at h
  obtain ⟨⟨nm, s1⟩, hname, s2, hopen, ⟨u, s3⟩, hurl, he⟩ := h
  cases he
  obtain ⟨hn, h1⟩ := madeOf_of_matchingBracket? hname
  have h2 : s2.MadeOf s := (Text.MadeOf.strip? hopen).trans h1
  obtain ⟨hu, -, h3⟩ := madeOf_of_cutInLine? hurl
  exact ⟨hn, (hu.trans h2).trim, ((madeOf_linkAttributes s3).trans h3).trans h2⟩

theorem madeOf_of_closingRun? {n : Nat} {previous : Option Char} {inner : Text}
    (h : closingRun? c n previous s = some (inner, rest)) :
    inner.MadeOf s ∧ rest.MadeOf s := by
  fun_induction closingRun? c n previous s generalizing inner rest with
  | case1 => cases h
  | case2 => cases h
  | case3 previous s =>
    cases Option.some.inj h
    exact ⟨.nil, ((Text.MadeOf.refl s).dropWhile _).later c⟩
  | case4 previous s _ _ ih =>
    obtain ⟨r, hr, he⟩ := Option.map_eq_some_iff.mp h
    cases he
    obtain ⟨hinner, hrest⟩ := ih hr
    have hs := (Text.MadeOf.refl s).dropWhile (· == c)
    have hrun : Text.MadeOf (s.takeWhile (· == c)) s := (Text.MadeOf.refl s).takeWhile _
    exact ⟨(hrun.append (hinner.trans hs)).keep c, (hrest.trans hs).later c⟩
  | case5 previous x s _ _ ih =>
    obtain ⟨r, hr, he⟩ := Option.map_eq_some_iff.mp h
    cases he
    obtain ⟨hinner, hrest⟩ := ih hr
    exact ⟨hinner.keep x, hrest.later x⟩

theorem within_stars (hc : '*' ∈ s) (ht : t.MadeOf s) : (stars t).Within s := by
  have hrun : Text.MadeOf ('*' :: t.takeWhile (· == '*')) s := .cons hc (ht.takeWhile _)
  have hrest : Text.MadeOf (t.dropWhile (· == '*')) s := ht.dropWhile _
  unfold stars
  dsimp only
  split
  next => exact within_text hrun hrest
  next =>
    split
    next inner rest h =>
      obtain ⟨hinner, hafter⟩ := madeOf_of_closingRun? h
      exact ⟨hinner.trans hrest, hafter.trans hrest⟩
    next => exact within_text hrun hrest

theorem within_between {sign : Text} {style : Style} {after : Context} (hsign : sign.MadeOf s)
    (ht : t.MadeOf s) : (between sign style after t).Within s := by
  unfold between
  split
  next inner rest h =>
    split
    · exact within_text hsign ht
    · obtain ⟨hinner, -, hrest⟩ := madeOf_of_cutInLine? h
      exact ⟨hinner.trans ht, hrest.trans ht⟩
  next => exact within_text hsign ht

theorem within_of_copied? (h : copied? c t = some st) : st.Within (c :: t) := by
  have ht : t.MadeOf (c :: t) := (Text.MadeOf.refl t).later c
  unfold copied? at h
  split at h
  · cases Option.some.inj h
    exact within_text ((Text.MadeOf.of_sublist (List.take_sublist 1 t)).trans ht)
      ((Text.MadeOf.of_sublist (List.tail_sublist t)).trans ht)
  all_goals repeat' split at h
  all_goals first
    | (cases Option.some.inj h; exact within_passage (.refl _))
    | cases h

theorem within_of_coded? (h : coded? c t = some st) : st.Within (c :: t) := by
  have ht : t.MadeOf (c :: t) := (Text.MadeOf.refl t).later c
  unfold coded? at h
  split at h
  next hc =>
    subst hc
    have hsign : '\x60' ∈ '\x60' :: t := List.mem_cons_self
    split at h
    · cases Option.some.inj h
      exact within_fence (.cons hsign (.cons hsign (.cons hsign .nil)))
        ((Text.MadeOf.of_sublist (List.drop_sublist 2 t)).trans ht)
    · cases Option.some.inj h
      exact within_code hsign ht
  next => cases h

theorem within_of_autolinked? {before : Context} (h : autolinked? before s = some st) :
    st.Within s := by
  unfold autolinked? at h
  split at h
  · cases Option.some.inj h
    exact ⟨madeOf_url s, .of_sublist (List.drop_sublist _ s)⟩
  · cases h

theorem within_of_linked? (h : linked? c t = some st) : st.Within (c :: t) := by
  have ht : t.MadeOf (c :: t) := (Text.MadeOf.refl t).later c
  unfold linked? at h
  split at h
  · obtain ⟨⟨⟨name, url, attrs⟩, rest⟩, hlink, he⟩ := Option.map_eq_some_iff.mp h
    cases he
    obtain ⟨hname, hurl, hrest⟩ := madeOf_of_link? hlink
    have htail : Text.MadeOf t.tail (c :: t) :=
      (Text.MadeOf.of_sublist (List.tail_sublist t)).trans ht
    exact ⟨⟨hname.trans htail, hurl.trans htail⟩, hrest.trans htail⟩
  · split at h
    · obtain ⟨⟨⟨name, url, attrs⟩, rest⟩, hlink, he⟩ := Option.map_eq_some_iff.mp h
      cases he
      obtain ⟨hname, -, hrest⟩ := madeOf_of_link? hlink
      exact ⟨hname.trans ht, hrest.trans ht⟩
    · cases h

theorem within_of_styled? {before : Context} (h : styled? before c t = some st) :
    st.Within (c :: t) := by
  have ht : t.MadeOf (c :: t) := (Text.MadeOf.refl t).later c
  have htail : Text.MadeOf t.tail (c :: t) :=
    (Text.MadeOf.of_sublist (List.tail_sublist t)).trans ht
  have hsign : ∀ {d : Char}, c = d → Text.MadeOf [d, d] (c :: t) := fun hd =>
    .cons (hd ▸ List.mem_cons_self) (.cons (hd ▸ List.mem_cons_self) .nil)
  unfold styled? at h
  split at h
  · cases Option.some.inj h
    exact ⟨.cons List.mem_cons_self .nil, ht⟩
  · split at h
    next hc =>
      cases Option.some.inj h
      exact within_stars (hc ▸ List.mem_cons_self) ht
    next =>
      repeat' split at h
      all_goals first
        | (cases Option.some.inj h; exact within_between (hsign (And.left ‹_›)) htail)
        | cases h

theorem within_step (before : Context) (c : Char) (t : Text) :
    (step before c t).Within (c :: t) := by
  unfold step
  cases h1 : copied? c t with
  | some st => exact within_of_copied? h1
  | none =>
    cases h2 : coded? c t with
    | some st => exact within_of_coded? h2
    | none =>
      cases h3 : autolinked? before (c :: t) with
      | some st => exact within_of_autolinked? h3
      | none =>
        cases h4 : linked? c t with
        | some st => exact within_of_linked? h4
        | none =>
          cases h5 : styled? before c t with
          | some st => exact within_of_styled? h5
          | none => exact within_plain List.mem_cons_self ((Text.MadeOf.refl t).later c)

end Markdown

end Stencil
