import Stencil.Proofs.InlineElements
import Stencil.Proofs.Nesting
import Stencil.Proofs.Slot

namespace Stencil.Block

variable {literals : LiteralTable}

/-- A closing tag of a name: in any case, with white space or none before its end. -/
inductive ClosingTag (name : Text) : Text → Prop where
  | mk {tag blanks : Text} (ht : Text.lowerAscii tag = name) (hb : ∀ c ∈ blanks, isWhiteSpace c) :
      ClosingTag name ('<' :: '/' :: (tag ++ blanks ++ ['>']))

/-- What opens an element before its first closing bracket: a name for a kind of block, in any case,
and what stands after the name. -/
structure Opens (kind : Kind) (tag inside : Text) : Prop where
  letters : ∀ c ∈ tag, c.isAlpha
  kind : Kind.ofName? (Text.lowerAscii tag) = some kind
  head : ∀ c ∈ inside.head?, c ∈ ['/', ' ', '\t', '\n', '\r']
  inside : '>' ∉ inside

/-- A complete element that is a block: its tag closes itself, or it goes up to the first closing
tag of its name. The attributes and the body of the block are what the source had there. -/
inductive Element (literals : LiteralTable) : Text → Block → Prop where
  | alone {kind : Kind} {tag inside : Text} (h : Opens kind tag (inside ++ ['/'])) :
      Element literals (['<'] ++ tag ++ inside ++ ['/', '>'])
        ⟨kind, restored literals (Text.trimEnd inside), [], Text.lowerAscii tag = "less".toList⟩
  | around {kind : Kind} {tag inside body close : Text} (h : Opens kind tag inside)
      (hs : inside.getLast? ≠ some '/') (hc : ClosingTag (Text.lowerAscii tag) close)
      (hb : ∀ u, ClosingTag (Text.lowerAscii tag) u → ¬u <:+: body) :
      Element literals (['<'] ++ tag ++ inside ++ ['>'] ++ body ++ close)
        ⟨kind, restored literals (Text.trimEnd inside), restored literals body,
          Text.lowerAscii tag = "less".toList⟩

theorem exists_closingTag {name x rest : Text}
    (ht : Text.lowerAscii (x.take (['<', '/'] ++ name).length) = ['<', '/'] ++ name)
    (hs : Text.strip? ['>'] (Text.trimStart (x.drop (['<', '/'] ++ name).length)) = some rest) :
    ∃ w, ClosingTag name w ∧ x = w ++ rest := by
  have hx := List.take_append_drop (['<', '/'] ++ name).length x
  generalize x.take (['<', '/'] ++ name).length = lead at ht hx
  generalize x.drop (['<', '/'] ++ name).length = s at hs hx
  have hsplit := List.takeWhile_append_dropWhile (p := isWhiteSpace) (l := s)
  rw [show s.dropWhile isWhiteSpace = '>' :: rest from Text.strip?_eq_some_iff.mp hs] at hsplit
  obtain ⟨a, t, rfl, hla, hl⟩ := List.map_eq_cons_iff.mp ht
  obtain ⟨b, tag, rfl, hlb, htag⟩ := List.map_eq_cons_iff.mp hl
  obtain rfl := Markdown.eq_of_toLower (by decide) hla
  obtain rfl := Markdown.eq_of_toLower (by decide) hlb
  have hb : ∀ c ∈ s.takeWhile isWhiteSpace, isWhiteSpace c :=
    List.all_eq_true.mp List.all_takeWhile
  refine ⟨_, .mk htag hb, ?_⟩
  rw [← hx]
  conv_lhs => rw [← hsplit]
  simp

theorem closing?_of_tag {name w : Text} (h : ClosingTag name w) (rest : Text) :
    closing? name (w ++ rest) = some ([], rest) := by
  obtain @⟨tag, blanks, rfl, hb⟩ := h
  have hlength : (['<', '/'] ++ Text.lowerAscii tag).length = (['<', '/'] ++ tag).length := by
    simp [Text.lowerAscii]
  have happ : '<' :: '/' :: (tag ++ blanks ++ ['>']) ++ rest =
      (['<', '/'] ++ tag) ++ (blanks ++ '>' :: rest) := by simp
  have hlower : Text.lowerAscii (['<', '/'] ++ tag) = ['<', '/'] ++ Text.lowerAscii tag := by
    simp [Text.lowerAscii]
  have htrim : Text.trimStart (blanks ++ '>' :: rest) = '>' :: rest :=
    Text.dropWhile_append_stop hb (by simp; decide)
  rw [List.cons_append, closing?]
  rw [← List.cons_append, happ, hlength, List.take_left, List.drop_left, if_pos hlower, htrim]
  rfl

theorem closing?_cons {name s : Text} {c : Char}
    (h : ∀ w rest, ClosingTag name w → c :: s ≠ w ++ rest) :
    closing? name (c :: s) = (closing? name s).map fun r => (c :: r.1, r.2) := by
  rw [closing?]
  split
  next ht =>
    split
    next rest hs =>
      obtain ⟨w, hw, he⟩ := exists_closingTag ht hs
      exact absurd he (h w rest hw)
    next => rfl
  next => rfl

/-- A bracket stands at the start of a closing tag, and nowhere else in it. -/
theorem ClosingTag.exists_tail {name w : Text} (h : ClosingTag name w)
    (hn : ∀ c ∈ name, c.isAlpha) : ∃ v, w = '<' :: v ∧ '<' ∉ v := by
  obtain @⟨tag, blanks, rfl, hb⟩ := h
  refine ⟨_, rfl, fun hm => ?_⟩
  simp only [List.mem_cons, List.mem_append, List.not_mem_nil, or_false] at hm
  rcases hm with hm | (hm | hm) | hm
  · cases hm
  · have := hn _ (List.mem_map_of_mem (f := Char.toLower) hm)
    cases this
  · exact absurd (hb _ hm) (by decide)
  · cases hm

/-- What has no bracket and stands before a bracket ends before it. -/
theorem prefix_of_not_mem {a b v r : Text} (h : a ++ '<' :: b = v ++ r) (hv : '<' ∉ v) :
    v <+: a := by
  rcases List.append_eq_append_iff.mp h with ⟨x, rfl, hx⟩ | ⟨x, rfl, _⟩
  · cases x with
    | nil => simp
    | cons c x =>
      obtain ⟨rfl, -⟩ := List.cons.inj hx
      exact absurd (by simp) hv
  · exact List.prefix_append v x

/-- The closing tag that is found is the first one. -/
theorem closing?_eq_some_iff {name s body rest : Text} (hn : ∀ c ∈ name, c.isAlpha) :
    closing? name s = some (body, rest) ↔ ∃ w, ClosingTag name w ∧ s = body ++ w ++ rest ∧
      ∀ u, ClosingTag name u → ¬u <:+: body := by
  constructor
  · intro h
    induction s generalizing body with
    | nil => cases h
    | cons c s ih =>
      by_cases hstart : ∃ w r, ClosingTag name w ∧ c :: s = w ++ r
      · obtain ⟨w, r, hw, he⟩ := hstart
        rw [he, closing?_of_tag hw] at h
        cases h
        refine ⟨w, hw, he, fun u hu hi => ?_⟩
        obtain ⟨v, rfl, _⟩ := hu.exists_tail hn
        cases List.infix_nil.mp hi
      · have hnone : ∀ w r, ClosingTag name w → c :: s ≠ w ++ r := fun w r hw he =>
          hstart ⟨w, r, hw, he⟩
        rw [closing?_cons hnone] at h
        obtain ⟨⟨body, rest⟩, hr, he⟩ := Option.map_eq_some_iff.mp h
        obtain ⟨rfl, rfl⟩ := Prod.mk.inj he
        obtain ⟨w, hw, rfl, hb⟩ := ih hr
        refine ⟨w, hw, by simp, fun u hu hi => ?_⟩
        rcases List.infix_cons_iff.mp hi with ⟨r, hr⟩ | hi
        · refine hnone u (r ++ w ++ rest) hu ?_
          rw [← List.append_assoc, ← List.append_assoc, hr]
          simp
        · exact hb u hu hi
  · rintro ⟨w, hw, rfl, hb⟩
    induction body with
    | nil => exact closing?_of_tag hw rest
    | cons c body ih =>
      have hnone : ∀ u r, ClosingTag name u → c :: (body ++ w ++ rest) ≠ u ++ r := by
        intro u r hu he
        obtain ⟨v, rfl, hv⟩ := hu.exists_tail hn
        obtain ⟨t, rfl, _⟩ := hw.exists_tail hn
        obtain ⟨rfl, he⟩ := List.cons.inj he
        have hp : v <+: body := prefix_of_not_mem (by simpa using he) hv
        exact hb _ hu ((List.prefix_cons_inj '<').mpr hp).isInfix
      have hbody : ∀ u, ClosingTag name u → ¬u <:+: body := fun u hu hi =>
        hb u hu (hi.trans (List.suffix_cons c body).isInfix)
      rw [List.cons_append, List.cons_append, closing?_cons hnone, ih hbody]
      rfl

theorem isStop_iff {c : Char} : (c == '>' || c == '/' || isAsciiBlank c && c.toNat != 12) = true ↔
    c = '>' ∨ c ∈ ['/', ' ', '\t', '\n', '\r'] := by
  constructor
  · intro h
    simp only [isAsciiBlank, Bool.or_eq_true, Bool.and_eq_true, bne_iff_ne, beq_iff_eq] at h
    simp only [List.mem_cons, List.not_mem_nil, or_false]
    tauto
  · rintro (rfl | h)
    · rfl
    · simp only [List.mem_cons, List.not_mem_nil, or_false] at h
      rcases h with rfl | rfl | rfl | rfl | rfl <;> decide

theorem not_mem_of_cut? {c : Char} {s before after : Text}
    (h : Text.cut? [c] s = some (before, after)) : c ∉ before := by
  intro hm
  obtain ⟨a, b, rfl⟩ := List.append_of_mem hm
  exact Text.not_infix_of_cut? (by simp) h ⟨a, b, by simp⟩

theorem Opens.not_isAlpha {kind : Kind} {tag inside : Text} (h : Opens kind tag inside) (t : Text) :
    ∀ c ∈ (inside ++ '>' :: t).head?, c.isAlpha = false := by
  intro c hc
  cases inside with
  | nil =>
    cases hc
    rfl
  | cons d inside =>
    have hm := h.head c hc
    simp only [List.mem_cons, List.not_mem_nil, or_false] at hm
    rcases hm with rfl | rfl | rfl | rfl | rfl <;> rfl

theorem read?_of_opens {kind : Kind} {tag inside : Text} (h : Opens kind tag inside) (t : Text) :
    read? literals (tag ++ (inside ++ '>' :: t)) =
      let (attrs, alone) := attrsAndSlash inside
      let less : Bool := Text.lowerAscii tag = "less".toList
      if alone then some (⟨kind, restored literals attrs, [], less⟩, t)
      else (closing? (Text.lowerAscii tag) t).map fun r =>
        (⟨kind, restored literals attrs, restored literals r.1, less⟩, r.2) := by
  have hstop : ((inside ++ '>' :: t).head?.any fun c =>
      c == '>' || c == '/' || isAsciiBlank c && c.toNat != 12) = true := by
    cases inside with
    | nil => rfl
    | cons c inside => exact isStop_iff.mpr (.inr (h.head c rfl))
  have hcut := Text.cut?_append_cons h.inside t
  unfold read?
  rw [Text.takeWhile_append_stop h.letters (h.not_isAlpha t),
    Text.dropWhile_append_stop h.letters (h.not_isAlpha t)]
  simp only [h.kind, hstop, hcut, Option.bind_eq_bind, Option.bind_some, Bool.not_true,
    Bool.false_eq_true, if_false, Option.map_eq_bind]
  rfl

theorem exists_opens {s : Text} {r : Block × Text} (h : read? literals s = some r) :
    ∃ kind tag inside t, Opens kind tag inside ∧ s = tag ++ (inside ++ '>' :: t) := by
  have hsplit := List.takeWhile_append_dropWhile (p := Char.isAlpha) (l := s)
  simp only [read?, Option.bind_eq_bind, Option.bind_eq_some_iff] at h
  obtain ⟨kind, hk, h⟩ := h
  split at h
  next => cases h
  next hstop =>
    simp only [Option.bind_eq_some_iff] at h
    obtain ⟨⟨inside, t⟩, hcut, _⟩ := h
    have hi := not_mem_of_cut? hcut
    rw [Text.eq_of_cut? hcut] at hsplit hstop
    refine ⟨kind, _, inside, t, ⟨List.all_eq_true.mp List.all_takeWhile, hk, ?_, hi⟩, ?_⟩
    · intro c hc
      obtain ⟨inside, rfl⟩ := List.head?_eq_some_iff.mp hc
      simp only [List.cons_append, List.head?_cons, Option.any_some, Bool.not_eq_true',
        Bool.not_eq_false, isStop_iff] at hstop
      exact hstop.resolve_left fun he => hi (by simp [he])
    · simpa using hsplit.symm

theorem isAlpha_lowerAscii {tag : Text} (h : ∀ c ∈ tag, c.isAlpha) :
    ∀ c ∈ Text.lowerAscii tag, c.isAlpha := by
  intro c hc
  obtain ⟨d, hd, rfl⟩ := List.mem_map.mp hc
  rw [Char.isAlpha_toLower_eq_isAlpha]
  exact h d hd

/-- The block that is read is the element at the start of the text. -/
theorem read?_eq_some_iff {s rest : Text} {b : Block} :
    read? literals s = some (b, rest) ↔ ∃ w, '<' :: s = w ++ rest ∧ Element literals w b := by
  constructor
  · intro h
    obtain ⟨kind, tag, inside, t, ho, rfl⟩ := exists_opens h
    rw [read?_of_opens ho, attrsAndSlash] at h
    cases hslash : Text.dropEnding? ['/'] inside with
    | some attrs =>
      obtain rfl := Text.eq_of_dropEnding? hslash
      simp only [hslash, if_true] at h
      cases h
      exact ⟨_, by simp, .alone ho⟩
    | none =>
      simp only [hslash, Bool.false_eq_true, if_false] at h
      obtain ⟨⟨body, r⟩, hclosing, he⟩ := Option.map_eq_some_iff.mp h
      cases he
      obtain ⟨close, hc, rfl, hb⟩ :=
        (closing?_eq_some_iff (isAlpha_lowerAscii ho.letters)).mp hclosing
      refine ⟨_, ?_, .around ho ?_ hc hb⟩
      · simp
      · intro hlast
        obtain ⟨attrs, rfl⟩ := List.getLast?_eq_some_iff.mp hlast
        rw [Text.dropEnding?_append] at hslash
        cases hslash
  · rintro ⟨w, hw, he⟩
    cases he with
    | @alone kind tag inside ho =>
      have hs : s = tag ++ (inside ++ ['/'] ++ '>' :: rest) := by simpa using hw
      rw [hs, read?_of_opens ho, attrsAndSlash, Text.dropEnding?_append]
      rfl
    | @around kind tag inside body close ho hs hc hb =>
      have hs' : s = tag ++ (inside ++ '>' :: (body ++ close ++ rest)) := by simpa using hw
      have hslash : Text.dropEnding? ['/'] inside = none := by
        refine Option.eq_none_iff_forall_ne_some.mpr fun attrs ha => hs ?_
        rw [Text.eq_of_dropEnding? ha]
        simp
      have hclosing : closing? (Text.lowerAscii tag) (body ++ close ++ rest) = some (body, rest) :=
        (closing?_eq_some_iff (isAlpha_lowerAscii ho.letters)).mpr ⟨close, hc, rfl, hb⟩
      rw [hs', read?_of_opens ho, attrsAndSlash, hslash]
      simp only [Bool.false_eq_true, if_false, hclosing]
      rfl

theorem Element.exists_tail {w : Text} {b : Block} (h : Element literals w b) :
    ∃ v, w = '<' :: v := by
  cases h <;> exact ⟨_, rfl⟩

/-- A part of a text: a character that stays, or an element with the block that it is. -/
abbrev Part := Char ⊕ (Text × Block)

def elements (ps : List Part) : List (Text × Block) := ps.filterMap Sum.getRight?

/-- The characters that stay, with one text after the other in the places of the elements. -/
def fill : List Part → List Text → Text
  | [], _ => []
  | .inl c :: ps, ts => c :: fill ps ts
  | .inr _ :: ps, t :: ts => t ++ fill ps ts
  | .inr _ :: ps, [] => fill ps []

@[simp] theorem elements_char (c : Char) (ps : List Part) : elements (.inl c :: ps) = elements ps :=
  rfl

@[simp] theorem elements_element (e : Text × Block) (ps : List Part) :
    elements (.inr e :: ps) = e :: elements ps := rfl

/-- The parts of a text. A character stays only if no element begins there. -/
inductive Parted (literals : LiteralTable) : Text → List Part → Prop where
  | nil : Parted literals [] []
  | char {c : Char} {s : Text} {ps : List Part}
      (hn : ∀ w b rest, Element literals w b → c :: s ≠ w ++ rest) (h : Parted literals s ps) :
      Parted literals (c :: s) (.inl c :: ps)
  | element {w s : Text} {b : Block} {ps : List Part} (he : Element literals w b)
      (h : Parted literals s ps) : Parted literals (w ++ s) (.inr (w, b) :: ps)

/-- With its elements in their places, a parted text is the text. -/
theorem Parted.fill_elements {s : Text} {ps : List Part} (h : Parted literals s ps) :
    fill ps ((elements ps).map Prod.fst) = s := by
  induction h with
  | nil => rfl
  | char hn h ih => exact congrArg (List.cons _) ih
  | element he h ih => exact congrArg (_ ++ ·) ih

theorem sinkFrom_of_read? {s rest : Text} {b : Block} (h : read? literals s = some (b, rest))
    (n : Nat) : sinkFrom literals n ('<' :: s) =
      (marker n ++ (sinkFrom literals (n + 1) rest).1,
        b :: (sinkFrom literals (n + 1) rest).2) := by
  rw [sinkFrom, if_pos rfl]
  split
  next h' =>
    cases h.symm.trans h'
    rfl
  next h' => cases h.symm.trans h'

theorem sinkFrom_cons {c : Char} {s : Text} (h : c = '<' → read? literals s = none) (n : Nat) :
    sinkFrom literals n (c :: s) =
      (c :: (sinkFrom literals n s).1, (sinkFrom literals n s).2) := by
  rw [sinkFrom]
  split
  next hc =>
    split
    next h' => cases (h hc).symm.trans h'
    next => rfl
  next => rfl

theorem exists_parted (literals : LiteralTable) (s : Text) : ∃ ps, Parted literals s ps := by
  induction hn : s.length using Nat.strongRecOn generalizing s with
  | ind n ih =>
    cases s with
    | nil => exact ⟨[], .nil⟩
    | cons c s =>
      have hread : (∃ b rest, c = '<' ∧ read? literals s = some (b, rest)) ∨
          ∀ w b rest, Element literals w b → c :: s ≠ w ++ rest := by
        by_cases h : ∃ w b rest, Element literals w b ∧ c :: s = w ++ rest
        · obtain ⟨w, b, rest, he, hs⟩ := h
          obtain ⟨v, rfl⟩ := he.exists_tail
          obtain ⟨rfl, _⟩ := List.cons.inj hs
          exact .inl ⟨b, rest, rfl, read?_eq_some_iff.mpr ⟨_, hs, he⟩⟩
        · exact .inr fun w b rest he hs => h ⟨w, b, rest, he, hs⟩
      rcases hread with ⟨b, rest, rfl, hr⟩ | hnone
      · have hlength := length_of_read? hr
        obtain ⟨ps, hps⟩ := ih rest.length (by simp only [← hn, List.length_cons]; omega) rest rfl
        obtain ⟨w, hw, he⟩ := read?_eq_some_iff.mp hr
        rw [hw]
        exact ⟨_, .element he hps⟩
      · obtain ⟨ps, hps⟩ := ih s.length (by simp [← hn]) s rfl
        exact ⟨_, .char hnone hps⟩

/-- Sinking puts a marker in the place of each element, and keeps its block. -/
theorem Parted.sinkFrom {s : Text} {ps : List Part} (h : Parted literals s ps) (n : Nat) :
    sinkFrom literals n s = (fill ps ((List.range' n (elements ps).length).map marker),
      (elements ps).map Prod.snd) := by
  induction h generalizing n with
  | nil =>
    rw [Block.sinkFrom]
    rfl
  | @char c s ps hn h ih =>
    have hnone : c = '<' → read? literals s = none := by
      rintro rfl
      refine Option.eq_none_iff_forall_ne_some.mpr ?_
      rintro ⟨b, rest⟩ hr
      obtain ⟨w, hw, he⟩ := read?_eq_some_iff.mp hr
      exact hn w b rest he hw
    rw [sinkFrom_cons hnone, ih]
    rfl
  | @element w s b ps he h ih =>
    obtain ⟨v, rfl⟩ := he.exists_tail
    have hr : read? literals (v ++ s) = some (b, s) := read?_eq_some_iff.mpr ⟨_, rfl, he⟩
    rw [List.cons_append, sinkFrom_of_read? hr, ih]
    rfl

/-- Is there no marker in a text? The digits of a marker may be of any script. -/
def Unmarked (s : Text) : Prop :=
  ∀ ds, ds ≠ [] → (∀ c ∈ ds, isDecimalDigit c) →
    ¬"<!_script ".toList ++ ds ++ ['/', '>'] <:+: s

/-- A marker begins only where its text stands in the source, up to the next bracket. -/
theorem marker?_eq_none_of_beginAlike {c : Char} {s t : Text} (h : BeginAlike s t)
    (hs : Unmarked (c :: s)) : marker? (c :: t) = none := by
  have hlead : "<!_script ".toList = '<' :: "!_script ".toList := by simp
  refine Option.eq_none_iff_forall_ne_some.mpr ?_
  rintro ⟨ds, rest⟩ hm
  obtain ⟨he, hne, hd⟩ := marker?_eq_some_iff.mp hm
  rw [hlead, List.cons_append] at he
  obtain ⟨rfl, ht⟩ := List.cons.inj he
  have hv : '<' ∉ "!_script ".toList ++ ds ++ ['/', '>'] := by
    have : '<' ∉ ds := fun hm => absurd (hd _ hm) (by decide)
    simp [this]
  have ht : t = "!_script ".toList ++ ds ++ ['/', '>'] ++ rest := by
    rw [ht]
    simp
  obtain ⟨r, rfl⟩ := h.exists_append ht hv
  exact hs ds hne hd ⟨[], r, by simp⟩

theorem Parted.beginAlike {s : Text} {ps : List Part} (h : Parted literals s ps) (n k : Nat)
    (hk : (elements ps).length = k) :
    BeginAlike s (fill ps ((List.range' n k).map marker)) := by
  induction h generalizing n k with
  | nil => rfl
  | char hn h ih => exact (ih n k hk).cons _
  | element he h ih =>
    obtain ⟨v, rfl⟩ := he.exists_tail
    subst hk
    exact .of_head? rfl rfl

theorem marker?_marker (n : Nat) (t : Text) :
    marker? (marker n ++ t) = some (Text.ofNat n, t) := by
  have hshape : marker n ++ t = "<!_script ".toList ++ (Text.ofNat n ++ '/' :: '>' :: t) := by
    unfold marker
    simp only [List.append_assoc, List.cons_append, List.nil_append]
  refine marker?_eq_some_iff.mpr ⟨hshape, Text.ofNat_ne_nil n, fun c hc => ?_⟩
  simp [isDecimalDigit, Text.isDigit_of_mem_ofNat hc]

/-- The markers that are found are those of the elements, each with the block of its element. -/
theorem Parted.pieces {s : Text} {ps : List Part} (h : Parted literals s ps) (hs : Unmarked s)
    {blocks before : List Block} (hb : blocks = before ++ (elements ps).map Prod.snd)
    (hl : blocks.length ≤ Text.indexBound) :
    pieces blocks (fill ps ((List.range' before.length (elements ps).length).map marker)) =
      ps.map (Sum.map id fun e => some e.2) := by
  induction h generalizing before with
  | nil =>
    change Block.pieces blocks [] = []
    rw [Block.pieces]
  | @char c s ps hn h ih =>
    have hrest : Unmarked s := fun ds hne hd hi =>
      hs ds hne hd (hi.trans (List.suffix_cons c s).isInfix)
    have hnone := marker?_eq_none_of_beginAlike (h.beginAlike before.length _ rfl) hs
    exact (pieces_cons hnone).trans (congrArg (List.cons (.inl c)) (ih hrest hb))
  | @element w s b ps he h ih =>
    have hrest : Unmarked s := fun ds hne hd hi =>
      hs ds hne hd (hi.trans (List.suffix_append w s).isInfix)
    have hblock : blocks[before.length]? = some b := by simp [hb]
    have hn : before.length < Text.indexBound :=
      Nat.lt_of_lt_of_le (List.getElem?_eq_some_iff.mp hblock).1 hl
    have hmarker := marker?_marker before.length
      (fill ps ((List.range' (before.length + 1) (elements ps).length).map marker))
    have hfound := @pieces_of_marker? blocks _ _ _ hmarker
    rw [Text.toIndex?_ofNat hn, Option.bind_some, hblock] at hfound
    have hnext : blocks = before ++ [b] ++ (elements ps).map Prod.snd := by simp [hb]
    have ih := ih hrest hnext
    rw [List.length_append] at ih
    exact hfound.trans (congrArg (List.cons (Sum.inr (some b))) ih)

theorem Parted.length_elements_le {s : Text} {ps : List Part} (h : Parted literals s ps) :
    (elements ps).length ≤ s.length := by
  induction h with
  | nil => exact Nat.le_refl 0
  | char hn h ih => exact Nat.le_succ_of_le ih
  | @element w s b ps he h ih =>
    obtain ⟨v, rfl⟩ := he.exists_tail
    simp only [elements_element, List.length_cons, List.length_append]
    omega

theorem reinjectM_of_pieces {m : Type → Type} [Monad m] [LawfulMonad m] {hooks : Hooks}
    {blocks : List Block} {s : Text} {ps : List Part}
    (h : pieces blocks s = ps.map (Sum.map id fun e => some e.2)) (emit : Text → m Text) :
    reinjectM hooks blocks emit s = do
      let texts ← ((elements ps).map Prod.snd).mapM fun b => emit (b.html hooks)
      return fill ps texts := by
  unfold reinjectM
  rw [h]
  clear h
  induction ps with
  | nil => simp [elements, fill]
  | cons p ps ih =>
    cases p with
    | inl c =>
      have ih := congrArg (fun x => (c :: ·) <$> x) ih
      simpa [fill] using ih
    | inr e =>
      have ih := fun a : Text => congrArg (fun x => (a ++ ·) <$> x) ih
      simpa [fill] using bind_congr ih

/-- No block is lost, doubled or moved. Sinking a text without markers leaves its characters outside
elements, with the markers from zero on in the places of the elements, and takes the blocks of the
elements. Putting the blocks back emits each of them once, in their order, and puts what is emitted
in the places of the elements. -/
theorem sink_reinjected {s : Text} (hs : Unmarked s) (hl : s.length < Text.indexBound) :
    ∃ ps, Parted literals s ps ∧ fill ps ((elements ps).map Prod.fst) = s ∧
      sink literals s = (fill ps ((List.range (elements ps).length).map marker),
        (elements ps).map Prod.snd) ∧
      ∀ (m : Type → Type) [Monad m] [LawfulMonad m] (hooks : Hooks) (emit : Text → m Text),
        reinjectM hooks (sink literals s).2 emit (sink literals s).1 = do
          let texts ← (sink literals s).2.mapM fun b => emit (b.html hooks)
          return fill ps texts := by
  obtain ⟨ps, hps⟩ := exists_parted literals s
  have hsink := hps.sinkFrom 0
  have hlength := hps.length_elements_le
  refine ⟨ps, hps, hps.fill_elements, ?_, fun m _ _ hooks emit => ?_⟩
  · rw [sink, hsink, List.range_eq_range']
  · have hbound : ((elements ps).map Prod.snd).length ≤ Text.indexBound := by
      rw [List.length_map]
      omega
    have hpieces := hps.pieces hs (List.nil_append _).symm hbound
    rw [sink, hsink]
    exact reinjectM_of_pieces hpieces emit

theorem sink_reinjected_two : ∃ ps : List Part,
    fill ps ((elements ps).map Prod.fst) = "x<JS>b</js >y<css/>".toList ∧
      sink [] "x<JS>b</js >y<css/>".toList = ("x<!_script 0/>y<!_script 1/>".toList,
        [⟨.script, [], ['b'], false⟩, ⟨.style, [], [], false⟩]) ∧
      ∀ emit : Text → StateM (List Text) Text,
        reinjectM .none (sink [] "x<JS>b</js >y<css/>".toList).2 emit
            (sink [] "x<JS>b</js >y<css/>".toList).1 = do
          let texts ← [⟨.script, [], ['b'], false⟩, ⟨.style, [], [], false⟩].mapM
            fun b : Block => emit (b.html .none)
          return fill ps texts := by
  have hunmarked : Unmarked "x<JS>b</js >y<css/>".toList := by
    intro ds _ _ hi
    have hm : '!' ∈ "x<JS>b</js >y<css/>".toList := hi.subset (by simp)
    exact absurd hm (by decide +kernel)
  have hsink : sink [] "x<JS>b</js >y<css/>".toList = ("x<!_script 0/>y<!_script 1/>".toList,
      [⟨.script, [], ['b'], false⟩, ⟨.style, [], [], false⟩]) := by decide +kernel
  obtain ⟨ps, -, hfill, -, hreinject⟩ := @sink_reinjected [] _ hunmarked (by decide +kernel)
  refine ⟨ps, hfill, hsink, fun emit => ?_⟩
  have h := hreinject (StateM (List Text)) .none emit
  rw [hsink] at h ⊢
  exact h

end Stencil.Block
