import Stencil.Proofs.Extraction
import Stencil.Proofs.Literal
import Stencil.Proofs.Skeleton

namespace Stencil

open Placeholder

namespace Text

variable {p : Char → Bool} {c : Char}

theorem takeWhile_append_of_stop (hc : p c = false) (s u : Text) :
    (s ++ c :: u).takeWhile p = s.takeWhile p := by
  induction s with
  | nil => simp [hc]
  | cons d s ih => by_cases hd : p d <;> simp [hd, ih]

theorem dropWhile_append_of_stop (hc : p c = false) (s u : Text) :
    (s ++ c :: u).dropWhile p = s.dropWhile p ++ c :: u := by
  induction s with
  | nil => simp [hc]
  | cons d s ih => by_cases hd : p d <;> simp [hd, ih]

end Text

namespace Tag

section

variable {u : Text}

theorem hole?_append (hu : '}' ∉ u) (s : Text) :
    hole? (s ++ '<' :: u) = (hole? s).map fun r => (r.1, r.2 ++ '<' :: u) := by
  -- a pair of braces cannot end in what follows, which begins with a bracket and has no brace
  have hnone : ∀ {inner : Text}, Text.cut? ['}', '}'] inner = none →
      Text.cut? ['}', '}'] (inner ++ '<' :: u) = none := by
    intro inner h
    rw [Text.cut?_eq_none_iff (by simp)] at h ⊢
    rintro ⟨before, after, he⟩
    rcases List.append_eq_append_iff.mp he with ⟨x, hx, _⟩ | ⟨x, hb, hx⟩
    · exact h ⟨before, x, hx.symm⟩
    · rcases List.eq_nil_or_concat x with rfl | ⟨y, c, rfl⟩
      · exact h ⟨before, [], by simpa using hb⟩
      · have hc : '}' = c := by simpa using congrArg List.getLast? hb
        have hm : c ∈ '<' :: u := by simp [hx]
        simp [← hc, hu] at hm
  match s with
  | [] => simp [hole?, Text.strip?]
  | [c] => by_cases hc : '{' = c <;> simp [hole?, Text.strip?, hc]
  | c :: d :: s =>
    by_cases hc : '{' = c
    · by_cases hd : '{' = d
      · subst hc hd
        cases hcut : Text.cut? ['}', '}'] s with
        | none => simp [hole?, Text.strip?, hcut, hnone hcut]
        | some r =>
          simp only [hole?, Text.strip?, List.cons_append, if_true, Option.bind_some, hcut,
            Text.cut?_append_right (by simp) hcut, Option.map_some]
          cases r.2 with
          | nil => simp
          | cons e rest => by_cases he : e = '}' <;> simp [he]
      · simp [hole?, Text.strip?, hd]
    · simp [hole?, Text.strip?, hc]

theorem isLess_append (s : Text) : isLess (s ++ '<' :: u) = isLess s := by
  cases s <;> simp [isLess]

theorem nameEnds_append (s : Text) : nameEnds (s ++ '<' :: u) = nameEnds s := by
  cases s <;> simp [nameEnds]

theorem isComparison_cons {c : Char} (hc : c ≠ '=') (previous : Char) (s : Text) :
    isComparison previous (c :: s) = (isAsciiBlank previous && (c == ' ' || c == '\t') &&
      (((c :: s).dropWhile fun c => c == ' ' || c == '\t').head?.any fun c =>
        !(c == '<' || c == '\n' || c == '\r' || c == '>'))) := by
  unfold isComparison
  split
  next he => exact absurd (List.cons.inj he).1 hc
  next he =>
    cases he
    rfl
  next he => cases he

theorem isComparison_append (previous : Char) (s : Text) :
    isComparison previous (s ++ '<' :: u) = isComparison previous s := by
  cases s with
  | nil => simp [isComparison]
  | cons c s =>
    by_cases hc : c = '='
    · subst hc
      rfl
    · -- a comparison has more of its tag on its line, and a bracket is none of it
      have hblank : ('<' == ' ' || '<' == '\t') = false := by decide
      rw [List.cons_append, isComparison_cons hc, isComparison_cons hc, ← List.cons_append,
        Text.dropWhile_append_of_stop hblank]
      cases (c :: s).dropWhile fun c => c == ' ' || c == '\t' <;> simp

theorem tailEnd?_hole {s hole rest : Text} (h : hole? s = some (hole, rest)) (condition : Bool)
    (previous : Char) : tailEnd? condition previous s =
      (tailEnd? condition '}' rest).map fun r => (hole ++ r.1, r.2) := by
  cases s with
  | nil => cases h
  | cons c s =>
    rw [tailEnd?]
    split
    next h' =>
      cases h.symm.trans h'
      rfl
    next h' => cases h.symm.trans h'

theorem tailEnd?_cons {c : Char} {s : Text} (h : hole? (c :: s) = none) (condition : Bool)
    (previous : Char) : tailEnd? condition previous (c :: s) =
      if c = '<' ∧ ¬(condition ∧ isLess s) then none
      else if c = '>' ∧ ¬(condition ∧ isComparison previous s) then some ([], s)
      else (tailEnd? condition c s).map fun r => (c :: r.1, r.2) := by
  rw [tailEnd?]
  split
  next h' => cases h.symm.trans h'
  next => rfl

theorem tailEnd?_append (hu : '}' ∉ u) (condition : Bool) (previous : Char) (s : Text) :
    tailEnd? condition previous (s ++ '<' :: '/' :: u) =
      (tailEnd? condition previous s).map fun r => (r.1, r.2 ++ '<' :: '/' :: u) := by
  have hu' : '}' ∉ '/' :: u := by simpa using hu
  have hnone : ∀ {c : Char} {s : Text}, hole? (c :: s) = none →
      hole? (c :: (s ++ '<' :: '/' :: u)) = none := fun h => by
    rw [← List.cons_append, hole?_append hu', h, Option.map_none]
  fun_induction tailEnd? condition previous s with
  | case1 previous =>
    rw [List.nil_append, tailEnd?_cons (hole?_of_head? (by simp))]
    simp [isLess]
  | case2 previous c s hole rest hh ih =>
    have happ := hole?_append hu' (c :: s)
    rw [hh, Option.map_some] at happ
    rw [tailEnd?_hole happ, ih, Option.map_map, Option.map_map]
    rfl
  | case3 previous c s hh hc =>
    rw [List.cons_append, tailEnd?_cons (hnone hh), isLess_append, if_pos hc, Option.map_none]
  | case4 previous c s hh hc hs =>
    rw [List.cons_append, tailEnd?_cons (hnone hh), isLess_append, if_neg hc, isComparison_append,
      if_pos hs, Option.map_some]
  | case5 previous c s hh hc hs ih =>
    rw [List.cons_append, tailEnd?_cons (hnone hh), isLess_append, if_neg hc, isComparison_append,
      if_neg hs, ih, Option.map_map, Option.map_map]
    rfl

theorem body?_append (hu : '}' ∉ u) (closing : Bool) (s : Text) :
    body? closing (s ++ '<' :: '/' :: u) =
      (body? closing s).map fun r => (r.1, r.2 ++ '<' :: '/' :: u) := by
  unfold body?
  rw [Text.takeWhile_append_of_stop (by decide), Text.dropWhile_append_of_stop (by decide)]
  dsimp only
  rw [nameEnds_append, tailEnd?_append hu]
  split
  · rfl
  · rw [Option.map_map, Option.map_map]
    refine congrArg (Option.map · _) (funext fun r => ?_)
    dsimp only [Function.comp]
    split <;> rfl

/-- A tag is read in the same way when a closing tag follows the text. -/
theorem read?_append (hu : '}' ∉ u) {s : Text} (hs : s ≠ []) :
    read? (s ++ '<' :: '/' :: u) = (read? s).map fun r => (r.1, r.2 ++ '<' :: '/' :: u) := by
  obtain ⟨c, s, rfl⟩ := List.exists_cons_of_ne_nil hs
  by_cases hc : c = '<'
  · subst hc
    cases s with
    | nil =>
      have hname : isNameChar '<' = false := by decide
      simp [read?, body?, hname]
    | cons d s =>
      by_cases hd : d = '/'
      · subst hd
        exact body?_append hu true s
      · have := body?_append hu false (d :: s)
        simpa [read?, hd] using this
  · simp [read?, hc]

end

end Tag

theorem Nested.append {s rest u : Text} {f : Forest Tag} (h : Nested s f rest) (hu : '}' ∉ u) :
    Nested (s ++ '<' :: '/' :: u) f (rest ++ '<' :: '/' :: u) := by
  have hread : ∀ {s r : Text} {tag : Tag}, Tag.read? s = some (tag, r) →
      Tag.read? (s ++ '<' :: '/' :: u) = some (tag, r ++ '<' :: '/' :: u) := by
    intro s r tag h
    have hs : s ≠ [] := by
      rintro rfl
      cases h
    rw [Tag.read?_append hu hs, h]
    rfl
  induction h with
  | done s => exact .done _
  | @char c s rest f hn h ih =>
    refine .char (fun tag r hr => ?_) ih
    change Tag.read? (c :: s ++ '<' :: '/' :: u) = some (tag, r) at hr
    rw [Tag.read?_append hu (List.cons_ne_nil c s)] at hr
    obtain ⟨⟨tag', r'⟩, hr', he⟩ := Option.map_eq_some_iff.mp hr
    cases he
    exact hn _ _ hr'
  | bodyMark hr hb h ih => exact .bodyMark (hread hr) hb ih
  | alone hr ho hl h ih => exact .alone (hread hr) ho hl ih
  | around hr ho hl hc hr' hlast hname h ihc ih =>
    exact .around (hread hr) ho hl ihc (hread hr') hlast hname ih

namespace Tag

/-- A tag without attributes, read up to its bracket. -/
theorem body?_bare (closing : Bool) {name rest : Text} (hn : ∀ c ∈ name, isNameChar c)
    (hne : name ≠ []) (hc : isConditional name → rest.head? ≠ some '=') :
    body? closing (name ++ '>' :: rest) = some (⟨closing, name, [], false⟩, rest) := by
  have hstop : ∀ c ∈ ('>' :: rest).head?, isNameChar c = false := by simp; decide
  have hend : tailEnd? (isConditional name) 'a' ('>' :: rest) = some ([], rest) := by
    have hcomparison : ¬(isConditional name ∧ isComparison 'a' rest) := by
      rintro ⟨hcond, hcomp⟩
      cases rest with
      | nil => cases hcomp
      | cons c rest =>
        rw [isComparison_cons (fun he => hc hcond (congrArg some he))] at hcomp
        cases hcomp
    rw [tailEnd?_cons (hole?_of_head? (by simp))]
    simp [hcomparison]
  unfold body?
  rw [Text.takeWhile_append_stop hn hstop, Text.dropWhile_append_stop hn hstop]
  simp only [hend, List.isEmpty_eq_false_iff.mpr hne]
  rfl

theorem read?_bare_closing {name : Text} (hn : ∀ c ∈ name, isNameChar c) (hne : name ≠ []) :
    read? ('<' :: '/' :: (name ++ ['>'])) = some (⟨true, name, [], false⟩, []) :=
  body?_bare true hn hne (by simp)

theorem read?_bare_opening {name rest : Text} (hn : ∀ c ∈ name, isNameChar c) (hne : name ≠ [])
    (hc : isConditional name → rest.head? ≠ some '=') :
    read? ('<' :: (name ++ '>' :: rest)) = some (⟨false, name, [], false⟩, rest) := by
  have hbody := body?_bare false hn hne hc
  obtain ⟨c, name, rfl⟩ := List.exists_cons_of_ne_nil hne
  have hslash : c ≠ '/' := by
    rintro rfl
    exact absurd (hn '/' List.mem_cons_self) (by decide)
  simpa [read?, hslash] using hbody

theorem set?_bare (literals : LiteralTable) (closing selfClosing : Bool) (name : Text) :
    set? literals ⟨closing, name, [], selfClosing⟩ = some .empty := by
  by_cases hc : isConditional name
  · simp [set?, attributes?, hc, conditionTokens?]
    rfl
  · simp [set?, attributes?, hc, attributeTokens]

end Tag

/-- A nested source in a tag without attributes is nested. -/
theorem Nested.wrap {name s : Text} {f : Forest Tag} (h : Nested s f [])
    (hn : ∀ c ∈ name, isNameChar c) (hs : isSpecialName name) (hm : isBranchMark name = false)
    (hc : Tag.isConditional name → s.head? ≠ some '=') :
    Nested ('<' :: (name ++ '>' :: (s ++ '<' :: '/' :: (name ++ ['>']))))
      (.around name ⟨false, name, [], false⟩ f .nil) [] := by
  have hne : name ≠ [] := by
    rintro rfl
    cases hs
  have hbrace : '}' ∉ name ++ ['>'] := by
    intro hb
    rcases List.mem_append.mp hb with hb | hb
    · exact absurd (hn _ hb) (by decide)
    · exact absurd hb (by decide)
  have hhead : Tag.isConditional name →
      (s ++ '<' :: '/' :: (name ++ ['>'])).head? ≠ some '=' := by
    intro hcond
    have := hc hcond
    cases s <;> simp_all
  refine .around (Tag.read?_bare_opening hn hne hhead) ?_ ?_ (h.append hbrace)
    (Tag.read?_bare_closing hn hne) rfl rfl (.done [])
  · simp [Tag.isOpening, Tag.isBodyMark, hs]
  · simp [Tag.isLeaf, hm]

namespace Placeholder

theorem depth_lt_of_nameAndDepth? {full name : Text} {depth : Nat}
    (h : nameAndDepth? full = some (name, depth)) : depth < Text.indexBound := by
  simp only [nameAndDepth?, Option.bind_eq_bind, Option.bind_eq_some_iff] at h
  obtain ⟨⟨_, digits⟩, _, h⟩ := h
  split at h
  next =>
    obtain ⟨n, hn, he⟩ := Option.bind_eq_some_iff.mp h
    cases he
    exact Text.lt_of_toNatBelow? hn
  next => cases h

/-- What is read as a placeholder can be written and read back. -/
theorem Spelling.wellFormed {p : Placeholder} {w : Text} (h : p.Spelling w) : p.WellFormed := by
  have hlabel : ∀ {full : Text}, (∀ c ∈ full, isNameChar c) →
      nameAndDepth? full = some (p.name, p.depth) →
      (∀ c ∈ p.name, isNameChar c) ∧ isSpecialName p.name := by
    intro full hf hd
    obtain ⟨digits, rfl, hs⟩ := eq_of_nameAndDepth? hd
    exact ⟨fun c hc => hf c (List.mem_append_left _ hc), hs⟩
  cases h with
  | closer hf hd hk ha =>
    obtain ⟨hn, hs⟩ := hlabel hf hd
    exact ⟨hn, hs, depth_lt_of_nameAndDepth? hd, by simp [ha], fun _ => ha⟩
  | opener hf hd hk hi =>
    obtain ⟨hn, hs⟩ := hlabel hf hd
    refine ⟨hn, hs, depth_lt_of_nameAndDepth? hd, fun n hn => ?_, fun h => absurd h hk⟩
    generalize p.attrs = attrs at hi hn
    cases hi with
    | absent => cases hn
    | digits hds hindex =>
      cases hn
      exact Text.lt_of_toNatBelow? hindex

theorem WellFormed.lower {p : Placeholder} (h : p.WellFormed) (amount : Nat) :
    (p.lower amount).WellFormed :=
  { h with depth := Nat.lt_of_le_of_lt (Nat.sub_le p.depth amount) h.depth }

/-- No placeholder begins where none began, when the same text follows up to an angle bracket. -/
theorem read?_eq_none_of_beginAlike {c : Char} {s t : Text} (h : BeginAlike s t)
    (hn : read? (c :: s) = none) : read? (c :: t) = none := by
  refine Option.eq_none_iff_forall_ne_some.mpr ?_
  rintro ⟨p, rest⟩ hr
  obtain ⟨w, hw, hspell⟩ := exists_spelling hr
  obtain ⟨v, rfl, hv⟩ := hspell.exists_tail
  obtain ⟨rfl, ht⟩ := List.cons.inj hw
  obtain ⟨r, rfl⟩ := h.exists_append ht hv
  cases hn.symm.trans (hspell.read r)

/-- The pieces of a text, their depth lowered, are read back, and begin as the text does. -/
theorem readBack_lowered (s : Text) (amount : Nat) :
    ReadBack ((pieces s).map (lowerPiece amount)) [] ∧
      BeginAlike s (write ((pieces s).map (lowerPiece amount))) := by
  fun_induction pieces s with
  | case1 => exact ⟨trivial, rfl⟩
  | case2 c s p rest hr ih =>
    obtain ⟨w, hw, hspell⟩ := exists_spelling hr
    obtain ⟨v, rfl, _⟩ := hspell.exists_tail
    have hlower := hspell.wellFormed.lower amount
    obtain ⟨v', hv', _⟩ := exists_written_tail hlower
    refine ⟨⟨hlower, ih.1⟩, .of_head? (by rw [hw]; rfl) ?_⟩
    change ((p.lower amount).written ++ _).head? = some '<'
    rw [hv']
    rfl
  | case3 c s hr ih =>
    obtain ⟨hread, hlike⟩ := ih
    refine ⟨⟨?_, hread⟩, hlike.cons c⟩
    rw [List.append_nil]
    exact read?_eq_none_of_beginAlike hlike hr

theorem lowerDepth_eq (s : Text) (amount : Nat) :
    lowerDepth s amount = write ((pieces s).map (lowerPiece amount)) := by
  rw [lowerDepth, write, List.flatMap_map]
  refine List.flatMap_congr fun q _ => ?_
  cases q <;> rfl

theorem lowerDepth_lowerDepth (s : Text) (a b : Nat) :
    lowerDepth (lowerDepth s a) b = lowerDepth s (a + b) := by
  rw [lowerDepth_eq s a, lowerDepth_write (readBack_lowered s a).1, lowerDepth_eq, List.map_map]
  refine congrArg write (List.map_congr_left fun q _ => ?_)
  cases q with
  | inl c => rfl
  | inr p => simp [lowerPiece, lower, Nat.sub_sub]

end Placeholder

namespace Normalized

theorem ofText?_wrapped {name s : Text} {f : Forest Tag} (h : Nested s f [])
    (hn : ∀ c ∈ name, isNameChar c) (hs : isSpecialName name) (hm : isBranchMark name = false)
    (hc : Tag.isConditional name → s.head? ≠ some '=') (literals : LiteralTable) :
    ofText? literals ('<' :: (name ++ '>' :: (s ++ '<' :: '/' :: (name ++ ['>'])))) =
      (f.map (Tag.set? literals)).all?.map fun g =>
        ⟨(⟨name, 0, none, .opens⟩ : Placeholder).written ++ write ((g.number 0).pieces 1) ++
          closer name 0, g.sets⟩ := by
  rw [ofText?_nested (h.wrap hn hs hm hc)]
  simp only [Forest.map, Forest.all?, Tag.set?_bare, Option.bind_some, Option.map_bind]
  rw [Option.map_eq_bind]
  refine congrArg _ (funext fun g => ?_)
  simp [Forest.added, Forest.number, Forest.pieces, Forest.sets, Forest.tags, Attributes.isEmpty,
    Attributes.empty, written]

end Normalized

/-- A nested source in a tag has the content of the tag one level deeper than the source by itself,
and the same attributes: lowered by one, the content is what the source alone becomes. Lowering
twice is lowering by the sum, for all texts. -/
theorem normalized_unwrapped :
    (∀ (literals : LiteralTable) (name s : Text) (f : Forest Tag),
      (∀ c ∈ name, isNameChar c) → isSpecialName name → isBranchMark name = false →
      (Tag.isConditional name → s.head? ≠ some '=') → Nested s f [] →
      (∀ tag ∈ f.tags, ¬tag.IsStalled) → s.length + 1 < Text.indexBound →
      ∃ n c, Normalized.ofText? literals s = some n ∧
        Normalized.ofText? literals (['<'] ++ name ++ ['>'] ++ s ++ ['<', '/'] ++ name ++ ['>']) =
          some ⟨['<'] ++ name ++ [':', '0', '>'] ++ c ++ ['<', '/'] ++ name ++ [':', '0', '>'],
            n.attrs⟩ ∧
        lowerDepth c 1 = n.html) ∧
      ∀ (t : Text) (a b : Nat), lowerDepth (lowerDepth t a) b = lowerDepth t (a + b) := by
  refine ⟨fun literals name s f hn hs hm hc h hf hlen => ?_, lowerDepth_lowerDepth⟩
  have hform := Normalized.ofText?_nested h literals
  have hwrap := Normalized.ofText?_wrapped h hn hs hm hc literals
  obtain ⟨g, hg⟩ := Option.isSome_iff_exists.mp (Normalized.isSome_all?_iff.mpr hf)
  rw [hg, Option.map_some] at hform hwrap
  have htext : ['<'] ++ name ++ ['>'] ++ s ++ ['<', '/'] ++ name ++ ['>'] =
      '<' :: (name ++ '>' :: (s ++ '<' :: '/' :: (name ++ ['>']))) := by simp
  refine ⟨_, write ((g.number 0).pieces 1), hform, ?_, ?_⟩
  · rw [htext, hwrap]
    simp [written, closer, Text.ofNat, Nat.toDigits, Nat.toDigitsCore, Nat.digitChar]
  · obtain ⟨hread, _⟩ := h.readBack hg (t := []) rfl 1 0 (by omega) (by omega)
    rw [lowerDepth_write hread, Forest.map_lowerPiece]

theorem normalized_unwrapped_if : ∃ c,
    Normalized.ofText? [] "<Card>b<_if x>c</_if></Card>".toList =
        some ⟨"<Card:0>".toList ++ c ++ "</Card:0>".toList, [⟨[("0".toList, "x".toList)]⟩]⟩ ∧
      lowerDepth c 1 = "b<_if:0 0>c</_if:0>".toList := by
  have hopen : Tag.read? "<_if x>c</_if>".toList =
      some (⟨false, "_if".toList, "x".toList, false⟩, "c</_if>".toList) := by decide +kernel
  have hclose : Tag.read? "</_if>".toList = some (⟨true, "_if".toList, [], false⟩, []) := by
    decide +kernel
  have hcontent := Nested.plain (c := 'c') (by decide) (.done "</_if>".toList)
  have hif := Nested.around hopen (by decide) (by decide) hcontent hclose rfl rfl (.done [])
  have hnested := Nested.plain (c := 'b') (by decide) hif
  have hform : Normalized.ofText? [] ('b' :: "<_if x>c</_if>".toList) =
      some ⟨"b<_if:0 0>c</_if:0>".toList, [⟨[("0".toList, "x".toList)]⟩]⟩ := by decide +kernel
  have hname : ∀ c ∈ "Card".toList, isNameChar c := List.all_eq_true.mp (by decide +kernel)
  have hmarked : Marked "x".toList := .char .nil (by decide)
  obtain ⟨n, c, hn, hc, hlower⟩ := normalized_unwrapped.1 [] "Card".toList _ _ hname (by decide)
    (by decide) (by decide) hnested (by
      simp only [Forest.tags, List.append_nil, List.mem_singleton, forall_eq]
      exact fun hstalled => hmarked.not_stalls hstalled.2) (by decide)
  cases Option.some.inj (hn.symm.trans hform)
  exact ⟨c, by simpa using hc, hlower⟩

/-- An equals sign makes the end of the tag before it a comparison: there is no tag around it. -/
theorem not_wrapped_equals : (∃ f, Nested "=a".toList f []) ∧
    ∀ c attrs, Normalized.ofText? [] "<_if>=a</_if>".toList ≠
      some ⟨"<_if:0>".toList ++ c ++ "</_if:0>".toList, attrs⟩ := by
  have hform : Normalized.ofText? [] "<_if>=a</_if>".toList =
      some ⟨"<_if>=a</_if>".toList, []⟩ := by
    decide +kernel
  refine ⟨⟨_, .plain (by decide) (.plain (by decide) (.done []))⟩, ?_⟩
  intro c attrs h
  rw [hform] at h
  have hhtml := congrArg Normalized.html (Option.some.inj h)
  simp at hhtml

end Stencil
