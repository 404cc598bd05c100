import Stencil.Placeholder
import Stencil.Proofs.Text
import Stencil.Tag.Basic

namespace Stencil.Placeholder

/-- A placeholder that can be written and read back. -/
structure WellFormed (p : Placeholder) : Prop where
  name : ∀ c ∈ p.name, isNameChar c
  special : isSpecialName p.name
  depth : p.depth < Text.indexBound
  attrs : ∀ n ∈ p.attrs, n < Text.indexBound
  closes : p.kind = .closes → p.attrs = none

/-- What stands in a placeholder for its name and its depth. -/
def label (name : Text) (depth : Nat) : Text := name ++ ':' :: Text.ofNat depth

/-- What stands in a placeholder for the index of its attributes. -/
def indexText : Option Nat → Text
  | some n => ' ' :: Text.ofNat n
  | none => []

theorem isNameChar_of_isDigit {c : Char} (h : c.isDigit) : isNameChar c := by
  simp [isNameChar, h]

theorem isNameChar_of_mem_label {name : Text} (hn : ∀ c ∈ name, isNameChar c) (depth : Nat) :
    ∀ c ∈ label name depth, isNameChar c := by
  intro c hc
  rcases List.mem_append.mp hc with hc | hc
  · exact hn c hc
  · rcases List.mem_cons.mp hc with rfl | hc
    · rfl
    · exact isNameChar_of_isDigit (Text.isDigit_of_mem_ofNat hc)

theorem nameAndDepth?_label {name : Text} {depth : Nat} (hs : isSpecialName name)
    (hd : depth < Text.indexBound) : nameAndDepth? (label name depth) = some (name, depth) := by
  have hc : ':' ∉ Text.ofNat depth := Text.not_mem_ofNat (by decide) depth
  simp [nameAndDepth?, label, Text.cutLast?_append name hc, hs, Text.toIndex?_ofNat hd]

theorem eq_of_nameAndDepth? {full name : Text} {depth : Nat}
    (h : nameAndDepth? full = some (name, depth)) :
    ∃ digits, full = name ++ ':' :: digits ∧ isSpecialName name := by
  simp only [nameAndDepth?, Option.bind_eq_bind, Option.bind_eq_some_iff] at h
  obtain ⟨⟨n, d⟩, hc, h⟩ := h
  split at h
  next hs =>
    obtain ⟨k, _, he⟩ := Option.bind_eq_some_iff.mp h
    cases he
    exact ⟨d, Text.eq_of_cutLast? hc, hs⟩
  next => simp at h

theorem nameAndDepth?_of_head? {s : Text} (h : ∀ d ∈ s.head?, d ≠ '_' ∧ d.isUpper = false) :
    nameAndDepth? (s.takeWhile isNameChar) = none := by
  refine Option.eq_none_iff_forall_ne_some.mpr fun ⟨name, depth⟩ hn => ?_
  obtain ⟨digits, hfull, hspecial⟩ := eq_of_nameAndDepth? hn
  cases name with
  | nil => cases hspecial
  | cons d name =>
    have hhead : s.head? = some d := by
      cases s with
      | nil => cases hfull
      | cons e s =>
        rw [List.takeWhile_cons] at hfull
        split at hfull
        · exact congrArg some (List.cons.inj hfull).1
        · cases hfull
    obtain ⟨hline, hupper⟩ := h d hhead
    simp [isSpecialName, hline, hupper] at hspecial

theorem isSpecialName_append {name : Text} (h : isSpecialName name) (s : Text) :
    isSpecialName (name ++ s) := by
  cases name with
  | nil => simp [isSpecialName] at h
  | cons c name => simpa [isSpecialName] using h

theorem read?_closing (s : Text) :
    read? ('<' :: '/' :: s) = (nameAndDepth? (s.takeWhile isNameChar)).bind fun r =>
      (Text.strip? ['>'] (s.dropWhile isNameChar)).map fun rest =>
        (⟨r.1, r.2, none, .closes⟩, rest) :=
  rfl

theorem read?_opening {s : Text} (h : s.head? ≠ some '/') :
    read? ('<' :: s) = (nameAndDepth? (s.takeWhile isNameChar)).bind fun r =>
      (index? (s.dropWhile isNameChar)).bind fun i =>
        (kind? i.2).map fun k => (⟨r.1, r.2, i.1, k.1⟩, k.2) := by
  cases s with
  | nil => rfl
  | cons c s =>
    have hc : c ≠ '/' := by simpa using h
    simp only [read?]
    split
    next heq => exact absurd (List.cons.inj (List.cons.inj heq).2).1 hc
    next heq =>
      cases heq
      rfl
    next hn => exact absurd rfl (hn (c :: s))

theorem read?_of_ne {c : Char} (hc : c ≠ '<') (s : Text) : read? (c :: s) = none := by
  unfold read?
  split
  next heq => exact absurd (List.cons.inj heq).1 hc
  next heq => exact absurd (List.cons.inj heq).1 hc
  next => rfl

def endText : Kind → Text
  | .alone => ['/', '>']
  | _ => ['>']

theorem head?_endText {k : Kind} {rest : Text} {c : Char} (h : (endText k ++ rest).head? = some c) :
    c = '>' ∨ c = '/' := by
  cases k with
  | opens => exact .inl (Option.some.inj h).symm
  | closes => exact .inl (Option.some.inj h).symm
  | alone => exact .inr (Option.some.inj h).symm

theorem kind?_endText {k : Kind} (h : k ≠ .closes) (rest : Text) :
    kind? (endText k ++ rest) = some (k, rest) := by
  cases k with
  | opens => rfl
  | closes => exact absurd rfl h
  | alone => rfl

theorem index?_digits {ds rest : Text} {n : Nat} (hd : ∀ c ∈ ds, c.isDigit)
    (hn : Text.toIndex? ds = some n) (hr : ∀ c ∈ rest.head?, c.isDigit = false) :
    index? (' ' :: (ds ++ rest)) = some (some n, rest) := by
  simp [index?, Text.takeWhile_append_stop hd hr, Text.dropWhile_append_stop hd hr, hn]

theorem index?_of_head? {s : Text} (h : s.head? ≠ some ' ') : index? s = some (none, s) := by
  cases s with
  | nil => rfl
  | cons c s =>
    have hc : c ≠ ' ' := by simpa using h
    unfold index?
    split
    next heq => exact absurd (List.cons.inj heq).1 hc
    next => rfl

theorem head?_ne_of_special {full : Text} (h : isSpecialName full) (s : Text) :
    (full ++ s).head? ≠ some '/' := by
  cases full with
  | nil => simp [isSpecialName] at h
  | cons c full =>
    rintro he
    have : c = '/' := by simpa using he
    subst this
    exact absurd h (by simp [isSpecialName])

theorem read?_closer {full name : Text} {depth : Nat} (hf : ∀ c ∈ full, isNameChar c)
    (h : nameAndDepth? full = some (name, depth)) (rest : Text) :
    read? ('<' :: '/' :: (full ++ '>' :: rest)) = some (⟨name, depth, none, .closes⟩, rest) := by
  have hr : ∀ c ∈ ('>' :: rest).head?, isNameChar c = false := by simp; decide
  rw [read?_closing, Text.takeWhile_append_stop hf hr, Text.dropWhile_append_stop hf hr, h]
  simp [Text.strip?]

theorem read?_opener {full name index : Text} {depth : Nat} {attrs : Option Nat} {k : Kind}
    (hf : ∀ c ∈ full, isNameChar c) (h : nameAndDepth? full = some (name, depth))
    (hi : ∀ c ∈ index.head?, isNameChar c = false)
    (ha : ∀ rest, index? (index ++ endText k ++ rest) = some (attrs, endText k ++ rest))
    (hk : k ≠ .closes) (rest : Text) :
    read? ('<' :: (full ++ index ++ endText k ++ rest)) = some (⟨name, depth, attrs, k⟩, rest) := by
  obtain ⟨digits, he, hs⟩ := eq_of_nameAndDepth? h
  have hhead := head?_ne_of_special (he ▸ isSpecialName_append hs _) (index ++ endText k ++ rest)
  have hr : ∀ c ∈ (index ++ endText k ++ rest).head?, isNameChar c = false := by
    cases index with
    | nil =>
      intro c hc
      rcases head?_endText hc with rfl | rfl <;> decide
    | cons c index => simpa using hi
  simp only [List.append_assoc] at hhead hr ha ⊢
  rw [read?_opening hhead, Text.takeWhile_append_stop hf hr, Text.dropWhile_append_stop hf hr, h]
  simp [ha, kind?_endText hk]

/-- What may stand in a placeholder for the index of its attributes, with what it is read as. -/
inductive IndexText : Text → Option Nat → Prop where
  | absent : IndexText [] none
  | digits {ds : Text} {n : Nat} (hd : ∀ c ∈ ds, c.isDigit) (hn : Text.toIndex? ds = some n) :
      IndexText (' ' :: ds) (some n)

theorem IndexText.written {attrs : Option Nat} (h : ∀ n ∈ attrs, n < Text.indexBound) :
    IndexText (indexText attrs) attrs := by
  cases attrs with
  | none => exact .absent
  | some n =>
    have hn := Text.toIndex?_ofNat (h n rfl)
    exact .digits (fun c hc => Text.isDigit_of_mem_ofNat hc) hn

theorem IndexText.read {index : Text} {attrs : Option Nat} (h : IndexText index attrs) {k : Kind}
    (rest : Text) : index? (index ++ endText k ++ rest) = some (attrs, endText k ++ rest) := by
  cases h with
  | absent =>
    refine index?_of_head? fun he => ?_
    rcases head?_endText he with h | h <;> exact absurd h (by decide)
  | digits hd hn =>
    have he : ∀ c ∈ (endText k ++ rest).head?, c.isDigit = false := by
      intro c hc
      rcases head?_endText hc with rfl | rfl <;> rfl
    simpa using index?_digits hd hn he

theorem IndexText.head {index : Text} {attrs : Option Nat} (h : IndexText index attrs) :
    ∀ c ∈ index.head?, isNameChar c = false := by
  cases h with
  | absent => simp
  | digits => simp; decide

/-- The two forms of what is read as a placeholder. -/
inductive Spelling (p : Placeholder) : Text → Prop where
  | closer {full : Text} (hf : ∀ c ∈ full, isNameChar c)
      (hd : nameAndDepth? full = some (p.name, p.depth)) (hk : p.kind = .closes)
      (ha : p.attrs = none) : Spelling p ('<' :: '/' :: (full ++ ['>']))
  | opener {full index : Text} (hf : ∀ c ∈ full, isNameChar c)
      (hd : nameAndDepth? full = some (p.name, p.depth)) (hk : p.kind ≠ .closes)
      (hi : IndexText index p.attrs) : Spelling p ('<' :: (full ++ index ++ endText p.kind))

theorem Spelling.read {p : Placeholder} {w : Text} (h : Spelling p w) (rest : Text) :
    read? (w ++ rest) = some (p, rest) := by
  rcases p with ⟨name, depth, attrs, kind⟩
  cases h with
  | @closer full hf hd hk ha =>
    have hk : kind = .closes := hk
    have ha : attrs = none := ha
    subst hk ha
    have := read?_closer hf hd rest
    simpa using this
  | @opener full index hf hd hk hi =>
    have := read?_opener hf hd hi.head (fun rest => hi.read rest) hk rest
    simpa using this

theorem Spelling.exists_tail {p : Placeholder} {w : Text} (h : Spelling p w) :
    ∃ v, w = '<' :: v ∧ '<' ∉ v := by
  have hname : ∀ {full : Text}, (∀ c ∈ full, isNameChar c) → '<' ∉ full := fun hf hm =>
    absurd (hf _ hm) (by decide)
  rcases p with ⟨name, depth, attrs, kind⟩
  cases h with
  | @closer full hf => exact ⟨_, rfl, by simp [hname hf]⟩
  | @opener full index hf _ _ hi =>
    refine ⟨_, rfl, ?_⟩
    have he : '<' ∉ endText kind := by cases kind <;> simp [endText]
    have hx : '<' ∉ index := by
      cases hi with
      | absent => simp
      | digits hd =>
        intro hm
        rcases List.mem_cons.mp hm with h | h
        · exact absurd h (by decide)
        · exact absurd (hd _ h) (by decide)
    simp [hname hf, hx, he]

theorem written_eq (p : Placeholder) : p.written =
    match p.kind with
    | .closes => closer p.name p.depth
    | k => '<' :: (label p.name p.depth ++ indexText p.attrs ++ endText k) := by
  rcases p with ⟨name, depth, attrs, kind⟩
  cases kind <;> cases attrs <;> simp [written, label, indexText, endText]

theorem WellFormed.spelling {p : Placeholder} (h : p.WellFormed) : Spelling p p.written := by
  have hf := isNameChar_of_mem_label h.name p.depth
  have hd := nameAndDepth?_label h.special h.depth
  rw [written_eq]
  rcases p with ⟨name, depth, attrs, kind⟩
  cases kind with
  | closes =>
    have := Spelling.closer hf hd rfl (h.closes rfl)
    simpa [closer, label] using this
  | opens => exact .opener hf hd (by simp) (.written h.attrs)
  | alone => exact .opener hf hd (by simp) (.written h.attrs)

/-- A written placeholder is read back, whatever follows it. -/
theorem read?_written {p : Placeholder} (h : p.WellFormed) (rest : Text) :
    read? (p.written ++ rest) = some (p, rest) := h.spelling.read rest

theorem exists_indexText {s rest : Text} {attrs : Option Nat} (h : index? s = some (attrs, rest)) :
    ∃ index, s = index ++ rest ∧ IndexText index attrs := by
  unfold index? at h
  split at h
  next s =>
    obtain ⟨n, hn, he⟩ := Option.map_eq_some_iff.mp h
    cases he
    refine ⟨' ' :: s.takeWhile Char.isDigit, ?_, .digits (fun c hc => ?_) hn⟩
    · simp
    · exact List.all_eq_true.mp (List.all_takeWhile ..) c hc
  next =>
    cases Option.some.inj h
    exact ⟨[], rfl, .absent⟩

theorem exists_endText {s rest : Text} {k : Kind} (h : kind? s = some (k, rest)) :
    k ≠ .closes ∧ s = endText k ++ rest := by
  unfold kind? at h
  split at h
  · cases Option.some.inj h
    exact ⟨by simp, rfl⟩
  · cases Option.some.inj h
    exact ⟨by simp, rfl⟩
  · simp at h

/-- What is read as a placeholder is one text that is read so in any place. -/
theorem exists_spelling {s rest : Text} {p : Placeholder} (h : read? s = some (p, rest)) :
    ∃ w, s = w ++ rest ∧ Spelling p w := by
  have hall : ∀ t : Text, ∀ c ∈ t.takeWhile isNameChar, isNameChar c := fun t =>
    List.all_eq_true.mp List.all_takeWhile
  unfold read? at h
  split at h
  next s =>
    obtain ⟨⟨name, depth⟩, hd, h⟩ := Option.bind_eq_some_iff.mp h
    obtain ⟨r, hr, he⟩ := Option.map_eq_some_iff.mp h
    cases he
    refine ⟨'<' :: '/' :: (s.takeWhile isNameChar ++ ['>']), ?_, .closer (hall s) hd rfl rfl⟩
    have hs := Text.strip?_eq_some_iff.mp hr
    calc '<' :: '/' :: s
        = '<' :: '/' :: (s.takeWhile isNameChar ++ s.dropWhile isNameChar) := by
          rw [List.takeWhile_append_dropWhile]
      _ = _ := by rw [hs]; simp
  next s _ =>
    obtain ⟨⟨name, depth⟩, hd, h⟩ := Option.bind_eq_some_iff.mp h
    obtain ⟨⟨attrs, s'⟩, hi, h⟩ := Option.bind_eq_some_iff.mp h
    obtain ⟨⟨kind, r⟩, hk, he⟩ := Option.map_eq_some_iff.mp h
    cases he
    obtain ⟨index, hs, hi⟩ := exists_indexText hi
    obtain ⟨hk, he⟩ := exists_endText hk
    refine ⟨'<' :: (s.takeWhile isNameChar ++ index ++ endText kind), ?_, .opener (hall s) hd hk hi⟩
    calc '<' :: s
        = '<' :: (s.takeWhile isNameChar ++ s.dropWhile isNameChar) := by
          rw [List.takeWhile_append_dropWhile]
      _ = _ := by rw [hs, he]; simp
  next => simp at h

/-- A part of a text: a character outside placeholders, or a placeholder. -/
abbrev Piece := Char ⊕ Placeholder

def Piece.written : Piece → Text
  | .inl c => [c]
  | .inr p => p.written

def write (ps : List Piece) : Text := ps.flatMap Piece.written

@[simp] theorem write_nil : write [] = [] := rfl

@[simp] theorem write_char (c : Char) (ps : List Piece) : write (.inl c :: ps) = c :: write ps :=
  rfl

@[simp] theorem write_placeholder (p : Placeholder) (ps : List Piece) :
    write (.inr p :: ps) = p.written ++ write ps := rfl

@[simp] theorem write_append (ps qs : List Piece) : write (ps ++ qs) = write ps ++ write qs :=
  List.flatMap_append

theorem write_map_inl (s : Text) : write (s.map .inl) = s := by
  induction s with
  | nil => rfl
  | cons c s ih => exact congrArg (List.cons c) ih

/-- Pieces that are read back from their text when another text follows: no character of it starts
a placeholder. -/
def ReadBack : List Piece → Text → Prop
  | [], _ => True
  | .inl c :: ps, t => read? (c :: (write ps ++ t)) = none ∧ ReadBack ps t
  | .inr p :: ps, t => p.WellFormed ∧ ReadBack ps t

theorem readBack_append {ps qs : List Piece} {t : Text} :
    ReadBack (ps ++ qs) t ↔ ReadBack ps (write qs ++ t) ∧ ReadBack qs t := by
  induction ps with
  | nil => simp [ReadBack]
  | cons p ps ih =>
    cases p with
    | inl c => simp [ReadBack, ih, and_assoc]
    | inr p => simp [ReadBack, ih, and_assoc]

theorem read?_append {s rest : Text} {p : Placeholder} (h : read? s = some (p, rest)) (t : Text) :
    read? (s ++ t) = some (p, rest ++ t) := by
  obtain ⟨w, rfl, hw⟩ := exists_spelling h
  rw [List.append_assoc]
  exact hw.read (rest ++ t)

theorem ReadBack.alone {ps : List Piece} {t : Text} (h : ReadBack ps t) : ReadBack ps [] := by
  induction ps with
  | nil => trivial
  | cons p ps ih =>
    cases p with
    | inr p => exact ⟨h.1, ih h.2⟩
    | inl c =>
      refine ⟨?_, ih h.2⟩
      cases hr : read? (c :: (write ps ++ [])) with
      | none => rfl
      | some r =>
        have := read?_append hr t
        rw [List.append_nil, List.cons_append, h.1] at this
        exact absurd this (by simp)

theorem next?_cons_of_read? {c : Char} {s : Text} (h : read? (c :: s) = none) :
    next? (c :: s) = (next? s).map fun f => { f with before := c :: f.before } := by
  simp only [next?, h]

theorem exists_written_tail {p : Placeholder} (h : p.WellFormed) :
    ∃ v, p.written = '<' :: v ∧ '<' ∉ v := h.spelling.exists_tail

theorem next?_written {p : Placeholder} (h : p.WellFormed) (s : Text) :
    next? (p.written ++ s) = some ⟨[], p, p.written, s⟩ := by
  have hr := read?_written h s
  obtain ⟨v, hv, _⟩ := exists_written_tail h
  rw [hv] at hr ⊢
  rw [List.cons_append] at hr ⊢
  simp only [next?, hr]
  have hl : (v ++ s).length + 1 - s.length = ('<' :: v).length := by simp; omega
  rw [hl, ← List.cons_append, List.take_left]

/-- The first closer of a tag at a depth stands after pieces none of which is this closer. -/
theorem cutCloser?_write {ps : List Piece} {name rest : Text} {depth : Nat}
    (hw : (⟨name, depth, none, .closes⟩ : Placeholder).WellFormed)
    (hr : ReadBack ps (closer name depth ++ rest))
    (hne : .inr ⟨name, depth, none, .closes⟩ ∉ ps) :
    cutCloser? name depth (write ps ++ (closer name depth ++ rest)) = some (write ps, rest) := by
  have hread : ∀ {s t : Text}, Text.strip? (closer name depth) s = some t →
      read? s = some (⟨name, depth, none, .closes⟩, t) := by
    intro s t h
    rw [Text.strip?_eq_some_iff.mp h]
    exact read?_written hw t
  have hc : closer name depth = '<' :: (['/'] ++ name ++ [':'] ++ Text.ofNat depth ++ ['>']) := rfl
  unfold cutCloser?
  induction ps with
  | nil => exact Text.cut?_append_self (by simp [hc]) rest
  | cons q ps ih =>
    have hne' := List.ne_of_not_mem_cons hne
    have ih := fun h => ih h (List.not_mem_of_not_mem_cons hne)
    cases q with
    | inl c =>
      have hs : Text.strip? (closer name depth) (c :: (write ps ++ (closer name depth ++ rest))) =
          none := by
        refine Option.eq_none_iff_forall_ne_some.mpr fun t ht => ?_
        have := hread ht
        rw [hr.1] at this
        exact absurd this (by simp)
      rw [write_char, List.cons_append, Text.cut?_cons_of_strip? hs, ih hr.2]
      rfl
    | inr q =>
      obtain ⟨v, hv, hn⟩ := exists_written_tail hr.1
      have hs : Text.strip? (closer name depth)
          ('<' :: (v ++ (write ps ++ (closer name depth ++ rest)))) = none := by
        refine Option.eq_none_iff_forall_ne_some.mpr fun t ht => ?_
        have h1 := hread ht
        have h2 := read?_written hr.1 (write ps ++ (closer name depth ++ rest))
        rw [hv, List.cons_append, h1] at h2
        have := (Prod.mk.inj (Option.some.inj h2)).1
        exact hne' (congrArg Sum.inr this)
      have hcut : Text.cut? (closer name depth) (v ++ (write ps ++ (closer name depth ++ rest))) =
          some (v ++ write ps, rest) := by
        rw [hc, Text.cut?_append_of_not_mem hn, ← hc, ih hr.2]
        rfl
      rw [write_placeholder, List.append_assoc, hv, List.cons_append,
        Text.cut?_cons_of_strip? hs, hcut]
      rfl

end Stencil.Placeholder
