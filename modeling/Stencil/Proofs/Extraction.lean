import Stencil.Literal.Table
import Stencil.Proofs.Text

namespace Stencil

open Text

namespace Text

/-- A pattern is not found just where it does not stand. -/
theorem cut?_eq_none_iff {pat s : Text} (hp : pat ≠ []) : cut? pat s = none ↔ ¬pat <:+: s := by
  induction s with
  | nil => simp [cut?, hp]
  | cons c s ih =>
    rw [cut?, List.infix_cons_iff, not_or, ← ih]
    cases hs : strip? pat (c :: s) with
    | some rest =>
      have hstart : pat <+: c :: s := ⟨rest, (strip?_eq_some_iff.mp hs).symm⟩
      simp [hstart]
    | none =>
      have hstart : ¬pat <+: c :: s := by
        rintro ⟨rest, hrest⟩
        cases hs.symm.trans (strip?_eq_some_iff.mpr hrest.symm)
      simp [hstart]

end Text

namespace Quoted

variable {quote c : Char} {s body rest : Text}

/-- Does a text end with an odd number of backslashes? Then the last one escapes what follows. -/
def escapesNext (s : Text) : Bool := (s.reverse.takeWhile (· == '\\')).length % 2 == 1

/-- The body of a literal goes up to the first quote that is not escaped. -/
structure Closed (q : Quoted) : Prop where
  unescaped : escapesNext q.body = false
  first : ∀ before after, q.body = before ++ q.quote :: after → escapesNext before

theorem escapesNext_cons (hc : c ≠ '\\') (s : Text) : escapesNext (c :: s) = escapesNext s := by
  have htake : (c :: s).reverse.takeWhile (· == '\\') = s.reverse.takeWhile (· == '\\') := by
    rw [List.reverse_cons, List.takeWhile_append]
    split
    next hall => simpa [hc] using (List.takeWhile_prefix _).eq_of_length hall |>.symm
    next => rfl
  rw [escapesNext, htake, escapesNext]

/-- An escaped character and its backslash escape nothing. -/
theorem escapesNext_pair (c : Char) (s : Text) : escapesNext ('\\' :: c :: s) = escapesNext s := by
  have hlength : ((('\\' :: c :: s).reverse.takeWhile (· == '\\')).length) % 2 =
      ((s.reverse.takeWhile (· == '\\')).length) % 2 := by
    rw [List.reverse_cons, List.reverse_cons, List.append_assoc, List.takeWhile_append]
    split
    next hall =>
      rw [hall]
      by_cases hc : c = '\\' <;> simp [hc]
    next => rfl
  rw [escapesNext, hlength, escapesNext]

theorem closed_nil (quote : Char) : Closed ⟨[], quote⟩ where
  unescaped := rfl
  first before after h := by simp at h

theorem closed_cons_iff (hc : c ≠ '\\') (hq : c ≠ quote) :
    Closed ⟨c :: body, quote⟩ ↔ Closed ⟨body, quote⟩ := by
  constructor
  · rintro ⟨hu, hf⟩
    refine ⟨(escapesNext_cons hc body).symm.trans hu, fun before after h => ?_⟩
    rw [← escapesNext_cons hc]
    exact hf (c :: before) after (congrArg (List.cons c) h)
  · rintro ⟨hu, hf⟩
    refine ⟨(escapesNext_cons hc body).trans hu, fun before after h => ?_⟩
    cases before with
    | nil => exact absurd (List.cons.inj h).1 hq
    | cons d before =>
      obtain ⟨rfl, ht⟩ := List.cons.inj h
      rw [escapesNext_cons hc]
      exact hf before after ht

theorem closed_pair_iff (hq : quote ≠ '\\') :
    Closed ⟨'\\' :: c :: body, quote⟩ ↔ Closed ⟨body, quote⟩ := by
  constructor
  · rintro ⟨hu, hf⟩
    refine ⟨(escapesNext_pair c body).symm.trans hu, fun before after h => ?_⟩
    rw [← escapesNext_pair c]
    exact hf ('\\' :: c :: before) after (congrArg (fun t => '\\' :: c :: t) h)
  · rintro ⟨hu, hf⟩
    refine ⟨(escapesNext_pair c body).trans hu, fun before after h => ?_⟩
    match before with
    | [] => exact absurd (List.cons.inj h).1.symm hq
    | [d] =>
      obtain ⟨hd, -⟩ := List.cons.inj h
      exact hd ▸ rfl
    | d :: e :: before =>
      obtain ⟨hd, ht⟩ := List.cons.inj h
      obtain ⟨-, ht⟩ := List.cons.inj ht
      rw [← hd, escapesNext_pair]
      exact hf before after ht

theorem closing?_cons (hc : c ≠ '\\') (s : Text) : closing? quote (c :: s) =
    if c = quote then some ([], s)
    else (closing? quote s).map fun (body, rest) => (c :: body, rest) := by
  rw [closing?]
  · rintro rfl
    exact absurd rfl hc
  · rintro d t rfl
    exact absurd rfl hc

theorem closing?_escape (c : Char) (s : Text) : closing? quote ('\\' :: c :: s) =
    (closing? quote s).map fun (body, rest) => ('\\' :: c :: body, rest) := by
  rw [closing?]

/-- The reading of a literal stops at the first quote that is not escaped. -/
theorem closing?_append (hq : quote ≠ '\\') (h : Closed ⟨body, quote⟩) (rest : Text) :
    closing? quote (body ++ quote :: rest) = some (body, rest) := by
  induction hn : body.length using Nat.strongRecOn generalizing body with
  | ind n ih =>
    cases body with
    | nil => rw [List.nil_append, closing?_cons hq, if_pos rfl]
    | cons c body =>
      by_cases hc : c = '\\'
      · subst hc
        cases body with
        | nil =>
          have hlast : escapesNext ['\\'] = false := h.unescaped
          exact absurd hlast (by decide)
        | cons d body =>
          have hlater := ih body.length (by simp [← hn]) ((closed_pair_iff hq).mp h) rfl
          rw [List.cons_append, List.cons_append, closing?_escape, hlater]
          rfl
      · have hne : c ≠ quote := by
          rintro rfl
          exact absurd (h.first [] body rfl) (by decide)
        have hlater := ih body.length (by simp [← hn]) ((closed_cons_iff hc hne).mp h) rfl
        rw [List.cons_append, closing?_cons hc, if_neg hne, hlater]
        rfl

/-- A literal is read up to its first quote that is not escaped. -/
theorem closing?_eq_some_iff (hq : quote ≠ '\\') : closing? quote s = some (body, rest) ↔
    s = body ++ quote :: rest ∧ Closed ⟨body, quote⟩ := by
  constructor
  · intro h
    refine ⟨eq_of_closing? h, ?_⟩
    fun_induction closing? quote s generalizing body rest with
    | case1 => cases h
    | case2 => cases h
    | case3 c s ih =>
      obtain ⟨⟨b, r⟩, hb, he⟩ := Option.map_eq_some_iff.mp h
      cases he
      exact (closed_pair_iff hq).mpr (ih hb)
    | case4 s =>
      cases h
      exact closed_nil _
    | case5 c s hlast hpair hc ih =>
      obtain ⟨⟨b, r⟩, hb, he⟩ := Option.map_eq_some_iff.mp h
      cases he
      have hback : c ≠ '\\' := by
        rintro rfl
        cases s with
        | nil => exact hlast rfl rfl
        | cons d s => exact hpair d s rfl rfl
      exact (closed_cons_iff hback hc).mpr (ih hb)
  · rintro ⟨rfl, h⟩
    exact closing?_append hq h rest

end Quoted

namespace Segment

variable {before text rest s : Text} {c : Char} {seg : Segment} {segs : List Segment}

/-- Are there only blanks on the line before a place? -/
def FreshLine (before : Text) : Prop :=
  ∃ earlier blanks, before = earlier ++ blanks ∧ (∀ c ∈ earlier.getLast?, c = '\n') ∧
    ∀ c ∈ blanks, c = ' ' ∨ c = '\t' ∨ c = '\r'

/-- A comment, between what stands before it and what stands after it. -/
inductive IsComment (before : Text) : Text → Text → Prop
  | html {inside after : Text} (h : ¬htmlClosing <:+: inside ++ htmlClosing.dropLast) :
    IsComment before (htmlOpening ++ inside ++ htmlClosing) after
  | block {inside after : Text} (h : ¬blockClosing <:+: inside ++ blockClosing.dropLast) :
    IsComment before (blockOpening ++ inside ++ blockClosing) after
  | line {lead inside after : Text} (hlead : lead = ['/', '/'] ∨ lead = ['#', '!'])
    (hbefore : FreshLine before) (hinside : '\n' ∉ inside) (hafter : ∀ c ∈ after.head?, c = '\n') :
    IsComment before (lead ++ inside) after

/-- A quoted literal after what stands before it. An apostrophe in a word opens none. -/
structure IsLiteral (before : Text) (q : Quoted) : Prop where
  quote : q.quote = '"' ∨ q.quote = '\x60' ∨
    q.quote = '\'' ∧ ∀ c ∈ before.getLast?, ¬c.isAlpha ∧ ¬c.isDigit
  closed : q.Closed

/-- Does a comment open at the start of a text that is never closed? -/
def Unclosed (s : Text) : Prop :=
  (∃ inside, s = htmlOpening ++ inside ∧ ¬htmlClosing <:+: inside) ∨
    ∃ inside, s = blockOpening ++ inside ∧ ¬blockClosing <:+: inside

/-- A comment or a literal, between what stands before it and what stands after it. -/
inductive Bounded (before : Text) : Segment → Text → Prop
  | comment {text after : Text} (h : IsComment before text after) :
    Bounded before (.comment text) after
  | quoted {q : Quoted} {after : Text} (h : IsLiteral before q) : Bounded before (.quoted q) after

/-- A segment, between what stands before it and what stands after it: a comment or a literal, all
that follows where a comment is not closed, or a character where nothing of this begins. -/
inductive Stands (before : Text) : Segment → Text → Prop
  | bounded {seg : Segment} {after : Text} (h : Bounded before seg after) : Stands before seg after
  | unclosed {text : Text} (h : Unclosed text) : Stands before (.plain text) []
  | char {c : Char} {after : Text} (hc : ¬Unclosed (c :: after))
    (hb : ∀ seg rest, c :: after = seg.written ++ rest → ¬Bounded before seg rest) :
    Stands before (.plain [c]) after

/-- The segments are all of a source, and each is one where it stands. -/
structure IsSplit (before source : Text) (segs : List Segment) : Prop where
  whole : segs.flatMap written = source
  stands : ∀ pre seg post, segs = pre ++ seg :: post →
    Stands (before ++ pre.flatMap written) seg (post.flatMap written)

theorem atLineStart_iff : atLineStart before.reverse ↔ FreshLine before := by
  unfold atLineStart
  rw [List.all_eq_true]
  constructor
  · intro h
    refine ⟨(before.reverse.dropWhile (· != '\n')).reverse,
      (before.reverse.takeWhile (· != '\n')).reverse, ?_, fun c hc => ?_, fun c hc => ?_⟩
    · rw [← List.reverse_append, List.takeWhile_append_dropWhile, List.reverse_reverse]
    · have hhead := List.head?_dropWhile_not (· != '\n') before.reverse
      rw [List.getLast?_reverse] at hc
      rw [Option.mem_def.mp hc] at hhead
      simpa using hhead
    · simpa [or_assoc] using h c (List.mem_reverse.mp hc)
  · rintro ⟨earlier, blanks, rfl, hearlier, hblanks⟩ c hc
    have hline : ∀ d ∈ blanks.reverse, (d != '\n') = true := by
      intro d hd
      rcases hblanks d (List.mem_reverse.mp hd) with rfl | rfl | rfl <;> rfl
    have hstop : ∀ d ∈ earlier.reverse.head?, (d != '\n') = false := by
      intro d hd
      rw [List.head?_reverse] at hd
      simp [hearlier d hd]
    rw [List.reverse_append, takeWhile_append_stop hline hstop] at hc
    simpa [or_assoc] using hblanks c (List.mem_reverse.mp hc)

theorem enclosed?_eq_some_iff {opening closing : Text} (hne : closing ≠ []) :
    enclosed? opening closing s = some (text, rest) ↔ ∃ inside,
      text = opening ++ inside ++ closing ∧ s = text ++ rest ∧
        ¬closing <:+: inside ++ closing.dropLast := by
  simp only [enclosed?, Option.bind_eq_bind, Option.bind_eq_some_iff]
  constructor
  · rintro ⟨inner, hinner, ⟨inside, after⟩, hcut, he⟩
    cases he
    refine ⟨inside, rfl, ?_, not_infix_of_cut? hne hcut⟩
    rw [strip?_eq_some_iff.mp hinner, eq_of_cut? hcut]
    simp
  · rintro ⟨inside, rfl, rfl, h⟩
    refine ⟨inside ++ closing ++ rest, by simp, (inside, rest), ?_, rfl⟩
    exact cut?_append_of_not_infix hne h rest

theorem enclosed?_eq_none_iff {opening closing inside : Text} (hne : closing ≠ []) :
    enclosed? opening closing (opening ++ inside) = none ↔ ¬closing <:+: inside := by
  rw [← cut?_eq_none_iff hne]
  simp only [enclosed?, strip?_append, Option.bind_eq_bind, Option.bind_some]
  cases cut? closing inside <;> simp

theorem neverCloses_iff : neverCloses s ↔ Unclosed s := by
  have hopens : ∀ opening closing : Text, closing ≠ [] →
      ((opening.isPrefixOf s && (enclosed? opening closing s).isNone) = true ↔
        ∃ inside, s = opening ++ inside ∧ ¬closing <:+: inside) := by
    intro opening closing hne
    rw [Bool.and_eq_true, List.isPrefixOf_iff_prefix, Option.isNone_iff_eq_none]
    constructor
    · rintro ⟨⟨inside, rfl⟩, h⟩
      exact ⟨inside, rfl, (enclosed?_eq_none_iff hne).mp h⟩
    · rintro ⟨inside, rfl, h⟩
      exact ⟨List.prefix_append _ _, (enclosed?_eq_none_iff hne).mpr h⟩
  rw [neverCloses, Bool.or_eq_true, hopens _ _ (by decide), hopens _ _ (by decide)]
  rfl

theorem comment?_of_html (hs : htmlOpening <+: s) :
    comment? before s = enclosed? htmlOpening htmlClosing s := by
  rw [comment?, if_pos (List.isPrefixOf_iff_prefix.mpr hs)]

theorem comment?_of_block (hs : blockOpening <+: s) :
    comment? before s = enclosed? blockOpening blockClosing s := by
  obtain ⟨rest, rfl⟩ := hs
  rfl

theorem comment?_of_line {lead : Text} (hlead : lead = ['/', '/'] ∨ lead = ['#', '!'])
    (hs : lead <+: s) :
    comment? before s = if atLineStart before then some (spanUntil (· == '\n') s) else none := by
  obtain ⟨rest, rfl⟩ := hs
  rcases hlead with rfl | rfl <;> simp [comment?, htmlOpening, blockOpening]

theorem not_feed_of_lead {lead : Text} (hlead : lead = ['/', '/'] ∨ lead = ['#', '!']) :
    ∀ c ∈ lead, (!(c == '\n')) = true := by
  rcases hlead with rfl | rfl <;> simp

theorem comment?_eq_some_iff : comment? before.reverse s = some (text, rest) ↔
    s = text ++ rest ∧ IsComment before text rest := by
  constructor
  · intro h
    refine ⟨(eq_of_comment? h).1, ?_⟩
    unfold comment? at h
    split at h
    · obtain ⟨inside, rfl, -, hin⟩ := (enclosed?_eq_some_iff (by decide)).mp h
      exact .html hin
    split at h
    · obtain ⟨inside, rfl, -, hin⟩ := (enclosed?_eq_some_iff (by decide)).mp h
      exact .block hin
    split at h
    next hline =>
      simp only [Bool.and_eq_true, Bool.or_eq_true, List.isPrefixOf_iff_prefix] at hline
      obtain ⟨lead, hlead, inside, rfl⟩ :
          ∃ lead, (lead = ['/', '/'] ∨ lead = ['#', '!']) ∧ lead <+: s :=
        hline.1.elim (fun h => ⟨_, .inl rfl, h⟩) fun h => ⟨_, .inr rfl, h⟩
      have hstay := not_feed_of_lead hlead
      obtain ⟨rfl, rfl⟩ := Prod.mk.inj (Option.some.inj h)
      rw [List.takeWhile_append_of_pos hstay, List.dropWhile_append_of_pos hstay]
      refine .line hlead (atLineStart_iff.mp hline.2) (fun hm => ?_) fun c hc => ?_
      · exact absurd (List.all_eq_true.mp List.all_takeWhile _ hm) (by decide)
      · have hhead := List.head?_dropWhile_not (fun c => !(c == '\n')) inside
        rw [Option.mem_def.mp hc] at hhead
        simpa using hhead
    next => cases h
  · rintro ⟨rfl, h⟩
    cases h with
    | @html inside _ hin =>
      rw [comment?_of_html (by simp), enclosed?_eq_some_iff (by decide)]
      exact ⟨inside, rfl, rfl, hin⟩
    | @block inside _ hin =>
      rw [comment?_of_block (by simp), enclosed?_eq_some_iff (by decide)]
      exact ⟨inside, rfl, rfl, hin⟩
    | @line lead inside _ hlead hbefore hinside hafter =>
      have hstay : ∀ c ∈ lead ++ inside, (!(c == '\n')) = true := by
        intro c hc
        rcases List.mem_append.mp hc with hc | hc
        · exact not_feed_of_lead hlead c hc
        · have hne : c ≠ '\n' := fun he => hinside (he ▸ hc)
          simpa using hne
      have hstop : ∀ c ∈ rest.head?, (!(c == '\n')) = false := by
        intro c hc
        simp [hafter c hc]
      rw [comment?_of_line hlead (by simp), if_pos (atLineStart_iff.mpr hbefore), spanUntil,
        takeWhile_append_stop hstay hstop, dropWhile_append_stop hstay hstop]

theorem opensQuote_iff : opensQuote before.reverse c ↔ c = '"' ∨ c = '\x60' ∨
    c = '\'' ∧ ∀ p ∈ before.getLast?, ¬p.isAlpha ∧ ¬p.isDigit := by
  rw [opensQuote, List.head?_reverse]
  cases before.getLast? <;> simp [or_assoc]

/-- The signs of comments and of literals start with different characters. -/
theorem comment?_of_quote (hc : opensQuote before c) : comment? before (c :: s) = none := by
  simp only [opensQuote, Bool.or_eq_true, Bool.and_eq_true, beq_iff_eq] at hc
  rcases hc with (rfl | rfl) | ⟨rfl, -⟩ <;> rfl

theorem lead?_of_comment? (h : comment? before s = some (text, rest)) :
    lead? before s = some (comment text, rest) := by
  simp only [lead?, h]

theorem lead?_of_none (h : comment? before (c :: s) = none) (hc : opensQuote before c = false) :
    lead? before (c :: s) = none := by
  simp only [lead?, h, hc, Bool.false_eq_true, if_false]

theorem lead?_eq_some_iff : lead? before.reverse s = some (seg, rest) ↔
    s = seg.written ++ rest ∧ Bounded before seg rest := by
  have hback : ∀ {b : Text} {q : Char}, opensQuote b q → q ≠ '\\' := by
    rintro b q hq rfl
    simp [opensQuote] at hq
  constructor
  · intro h
    refine ⟨(eq_of_lead? h).1, ?_⟩
    unfold lead? at h
    split at h
    next hc =>
      cases h
      exact .comment (comment?_eq_some_iff.1 hc).2
    next =>
      split at h
      next => cases h
      next q inner =>
        split at h
        next hq =>
          obtain ⟨⟨body, r⟩, hb, he⟩ := Option.map_eq_some_iff.mp h
          cases he
          exact .quoted ⟨opensQuote_iff.mp hq, ((Quoted.closing?_eq_some_iff (hback hq)).mp hb).2⟩
        next => cases h
  · rintro ⟨rfl, h⟩
    cases h with
    | comment hc => exact lead?_of_comment? (comment?_eq_some_iff.2 ⟨rfl, hc⟩)
    | @quoted q _ hq =>
      have hopens : opensQuote before.reverse q.quote := opensQuote_iff.mpr hq.quote
      have hs : (quoted q).written ++ rest = q.quote :: (q.body ++ q.quote :: rest) := by
        simp [written, Quoted.written]
      have hbody := Quoted.closing?_append (hback hopens) hq.closed rest
      rw [hs]
      simp only [lead?, comment?_of_quote hopens, hopens, if_true, hbody, Option.map_some]

/-- A comment that is not closed is not read. -/
theorem not_bounded_of_unclosed (hs : Unclosed s) (he : s = seg.written ++ rest) :
    ¬Bounded before seg rest := by
  intro hb
  have hlead := lead?_eq_some_iff.2 ⟨he, hb⟩
  have hnone : lead? before.reverse s = none := by
    rcases hs with ⟨inside, rfl, h⟩ | ⟨inside, rfl, h⟩
    · have hcomment : comment? before.reverse (htmlOpening ++ inside) = none := by
        rw [comment?_of_html (List.prefix_append ..)]
        exact (enclosed?_eq_none_iff (by decide)).mpr h
      exact lead?_of_none hcomment rfl
    · have hcomment : comment? before.reverse (blockOpening ++ inside) = none := by
        rw [comment?_of_block (List.prefix_append ..)]
        exact (enclosed?_eq_none_iff (by decide)).mpr h
      exact lead?_of_none hcomment rfl
  cases hnone.symm.trans hlead

theorem isSplit_nil (before : Text) : IsSplit before [] [] where
  whole := rfl
  stands pre seg post h := by simp at h

theorem isSplit_cons_iff : IsSplit before s (seg :: segs) ↔
    ∃ rest, s = seg.written ++ rest ∧ Stands before seg rest ∧
      IsSplit (before ++ seg.written) rest segs := by
  constructor
  · rintro ⟨rfl, hstands⟩
    refine ⟨segs.flatMap written, rfl, by simpa using hstands [] seg segs rfl, rfl, ?_⟩
    rintro pre seg' post rfl
    simpa using hstands (seg :: pre) seg' post rfl
  · rintro ⟨rest, rfl, hseg, rfl, hstands⟩
    refine ⟨rfl, fun pre seg' post h => ?_⟩
    cases pre with
    | nil =>
      obtain ⟨rfl, rfl⟩ := List.cons.inj h
      simpa using hseg
    | cons first pre =>
      obtain ⟨rfl, rfl⟩ := List.cons.inj h
      simpa using hstands pre seg' post rfl

theorem Stands.written_ne_nil (h : Stands before seg rest) : seg.written ≠ [] := by
  cases h with
  | bounded hb => exact (eq_of_lead? (lead?_eq_some_iff.2 ⟨rfl, hb⟩)).2
  | unclosed hs =>
    rcases hs with ⟨inside, rfl, -⟩ | ⟨inside, rfl, -⟩ <;> exact List.cons_ne_nil _ _
  | char => exact List.cons_ne_nil _ _

theorem segments_of_unclosed (hs : Unclosed s) : segments before s = [plain s] := by
  cases s with
  | nil => rcases hs with ⟨inside, h, -⟩ | ⟨inside, h, -⟩ <;> cases h
  | cons c s => rw [segments, if_pos (neverCloses_iff.mpr hs)]

theorem segments_of_lead? (hn : neverCloses (c :: s) = false)
    (hl : lead? before (c :: s) = some (seg, rest)) :
    segments before (c :: s) = seg :: segments (seg.written.reverse ++ before) rest := by
  rw [segments, if_neg (by simp [hn])]
  split
  next hl' =>
    cases hl.symm.trans hl'
    rfl
  next hl' => cases hl.symm.trans hl'

theorem segments_of_unled (hn : neverCloses (c :: s) = false)
    (hl : lead? before (c :: s) = none) :
    segments before (c :: s) = plain [c] :: segments (c :: before) s := by
  rw [segments, if_neg (by simp [hn])]
  split
  next hl' => cases hl.symm.trans hl'
  next => rfl

/-- The segments of a source are a way to cut it. -/
theorem isSplit_segments (before s : Text) :
    IsSplit before.reverse s (segments before s) := by
  fun_induction segments before s with
  | case1 => exact isSplit_nil _
  | case2 before c s hn =>
    refine isSplit_cons_iff.mpr ⟨[], (List.append_nil _).symm, ?_, isSplit_nil _⟩
    exact .unclosed (neverCloses_iff.mp hn)
  | case3 before c s hn seg rest hl ih =>
    have hread := lead?_eq_some_iff.1 (before.reverse_reverse.symm ▸ hl)
    refine isSplit_cons_iff.mpr ⟨rest, hread.1, .bounded hread.2, ?_⟩
    simpa using ih
  | case4 before c s hn hl ih =>
    refine isSplit_cons_iff.mpr ⟨s, rfl, .char (fun h => hn (neverCloses_iff.mpr h)) ?_, ?_⟩
    · intro seg rest he hb
      have hread := lead?_eq_some_iff.2 ⟨he, hb⟩
      rw [List.reverse_reverse, hl] at hread
      cases hread
    · simpa [written] using ih

/-- There is no other way to cut a source. -/
theorem segments_of_isSplit (h : IsSplit before s segs) : segments before.reverse s = segs := by
  induction segs generalizing before s with
  | nil =>
    obtain rfl : [] = s := h.whole
    rw [segments]
  | cons seg segs ih =>
    obtain ⟨rest, rfl, hseg, hrest⟩ := isSplit_cons_iff.mp h
    have ih := ih hrest
    rw [List.reverse_append] at ih
    obtain ⟨c, t, ht⟩ := List.exists_cons_of_ne_nil
      (List.append_ne_nil_of_left_ne_nil hseg.written_ne_nil rest)
    have hopen : ∀ u, ¬Unclosed u → neverCloses u = false := fun u hu =>
      Bool.eq_false_iff.mpr fun h => hu (neverCloses_iff.mp h)
    cases hseg with
    | bounded hb =>
      have hn := hopen (seg.written ++ rest) fun hu => not_bounded_of_unclosed hu rfl hb
      have hl := lead?_eq_some_iff.2 ⟨rfl, hb⟩
      rw [ht] at hn hl ⊢
      rw [segments_of_lead? hn hl, ih]
    | @unclosed text hu =>
      rw [segments] at ih
      rw [← ih, written, List.append_nil]
      exact segments_of_unclosed hu
    | @char d _ hu hb =>
      have hl : lead? before.reverse (d :: rest) = none :=
        Option.eq_none_iff_forall_ne_some.mpr fun r hl =>
          hb r.1 r.2 (lead?_eq_some_iff.1 hl).1 (lead?_eq_some_iff.1 hl).2
      exact (segments_of_unled (hopen _ hu) hl).trans (congrArg (List.cons _) ih)

theorem segments_eq_iff : segments before.reverse s = segs ↔ IsSplit before s segs := by
  refine ⟨?_, segments_of_isSplit⟩
  rintro rfl
  simpa using isSplit_segments before.reverse s

/-- What is left of a segment, if there are so many literals before it. -/
def left (count : Nat) : Segment → Text
  | plain text => text
  | comment _ => []
  | quoted _ => Reference.write Reference.literal count

end Segment

namespace LiteralTable

open Segment

theorem find?_ofNat {table : LiteralTable} {n : Nat} {q : Quoted} (hn : n < indexBound)
    (hq : table[n]? = some q) : table.find? (ofNat n) = some q := by
  rw [find?, toIndex?_ofNat hn, Option.bind_some, hq]

theorem quote_of_mem_extract {source : Text} {q : Quoted} (hq : q ∈ (extract source).2) :
    q.quote = '"' ∨ q.quote = '\x60' ∨ q.quote = '\'' := by
  obtain ⟨seg, hseg, hl⟩ := List.mem_filterMap.mp hq
  obtain ⟨pre, post, hsegs⟩ := List.append_of_mem hseg
  have hstands := (isSplit_segments [] source).stands pre seg post hsegs
  cases seg with
  | plain text => cases hl
  | comment text => cases hl
  | quoted q' =>
    cases hl
    cases hstands with
    | bounded hb =>
      cases hb with
      | quoted h => exact h.quote.imp_right (Or.imp_right And.left)

theorem writeReferences_eq (n : Nat) (segs : List Segment) : writeReferences n segs =
    (segs.mapIdx fun i seg =>
      seg.left (n + ((segs.take i).filterMap literal?).length)).flatten := by
  induction segs generalizing n with
  | nil => rfl
  | cons seg segs ih =>
    rw [List.mapIdx_cons, List.flatten_cons]
    cases seg with
    | plain text => simp [writeReferences, ih, left, literal?, List.filterMap_cons]
    | comment text => simp [writeReferences, ih, left, literal?, List.filterMap_cons]
    | quoted q =>
      simp [writeReferences, ih, left, literal?, Nat.add_assoc, Nat.add_comm 1]

/-- There is one way to cut a source into comments, literals and the text between them. Extraction
leaves the text, no comment, and in the place of every literal the reference with the number of
literals before it; the table has all literals in order. From a comment that is never closed on all
is text. -/
theorem extract_lossless (source : Text) : ∃ segs, IsSplit [] source segs ∧
    (∀ others, IsSplit [] source others → others = segs) ∧
    (extract source).1 =
      (segs.mapIdx fun i seg => seg.left ((segs.take i).filterMap literal?).length).flatten ∧
    (extract source).2 = segs.filterMap literal? ∧
    ∀ pre post, segs = pre ++ post → Unclosed (post.flatMap written) →
      post = [.plain (post.flatMap written)] := by
  have hsplit : IsSplit [] source (segments [] source) := isSplit_segments [] source
  refine ⟨segments [] source, hsplit, fun others h => (segments_eq_iff.mpr h).symm, ?_, rfl, ?_⟩
  · have hleft := writeReferences_eq 0 (segments [] source)
    simp only [Nat.zero_add] at hleft
    exact hleft
  · intro pre post hsegs hu
    have hpost : IsSplit (pre.flatMap written) (post.flatMap written) post := by
      refine ⟨rfl, fun more seg rest h => ?_⟩
      have hstands := hsplit.stands (pre ++ more) seg rest (by rw [hsegs, h, List.append_assoc])
      simpa using hstands
    exact (segments_of_isSplit hpost).symm.trans (segments_of_unclosed hu)

end LiteralTable

end Stencil
