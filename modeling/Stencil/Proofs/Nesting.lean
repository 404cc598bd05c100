import Stencil.Proofs.Forest
import Stencil.Proofs.Marked

namespace Stencil

namespace Tag

/-- Does this tag stand for the place where the page goes into its layout? -/
def isBodyMark (tag : Tag) : Bool :=
  tag.selfClosing && !tag.closing && Text.eqIgnoringCase tag.name "body".toList

/-- Does the normalization write this tag in another way? -/
def isRewritten (tag : Tag) : Bool := tag.isBodyMark || Placeholder.isSpecialName tag.name

/-- Is this a function, component or import tag that is not a closing one? -/
def isOpening (tag : Tag) : Bool :=
  Placeholder.isSpecialName tag.name && !tag.closing && !tag.isBodyMark

theorem special_of_isOpening {tag : Tag} (h : tag.isOpening) :
    Placeholder.isSpecialName tag.name := by
  simp only [isOpening, Bool.and_eq_true] at h
  exact h.1.1

def isLeaf (tag : Tag) : Bool := tag.selfClosing || Placeholder.isBranchMark tag.name

/-- The attributes that are built from a tag; none if its tail cannot be split. -/
def set? (literals : LiteralTable) (tag : Tag) : Option Attributes :=
  attributes? literals tag.name tag.tail

/-- Is this a condition whose splitting comes to an opening sign that is never closed? -/
def IsStalled (tag : Tag) : Prop := isConditional tag.name ∧ Stalls tag.tail

theorem isSome_set?_iff {literals : LiteralTable} {tag : Tag} :
    (tag.set? literals).isSome ↔ ¬tag.IsStalled := by
  rw [set?, isSome_attributes?_iff, IsStalled, not_and]

end Tag

/-- A source whose tags are properly nested, up to a rest: its forest of tags. -/
inductive Nested : Text → Forest Tag → Text → Prop where
  | done (s : Text) : Nested s .nil s
  | char {c : Char} {s rest : Text} {f : Forest Tag}
      (hn : ∀ tag r, Tag.read? (c :: s) = some (tag, r) → tag.isRewritten = false)
      (h : Nested s f rest) : Nested (c :: s) (.char c f) rest
  | bodyMark {s s' rest : Text} {tag : Tag} {f : Forest Tag} (hr : Tag.read? s = some (tag, s'))
      (hb : tag.isBodyMark) (h : Nested s' f rest) :
      Nested s (f.textBefore Normalized.bodyMarker) rest
  | alone {s s' rest : Text} {tag : Tag} {f : Forest Tag} (hr : Tag.read? s = some (tag, s'))
      (ho : tag.isOpening) (hl : tag.isLeaf) (h : Nested s' f rest) :
      Nested s (.alone tag.name tag f) rest
  | around {s s₁ s₂ s₃ rest : Text} {tag last : Tag} {content f : Forest Tag}
      (hr : Tag.read? s = some (tag, s₁)) (ho : tag.isOpening) (hl : tag.isLeaf = false)
      (hc : Nested s₁ content s₂) (hr' : Tag.read? s₂ = some (last, s₃)) (hlast : last.closing)
      (hname : last.name = tag.name) (h : Nested s₃ f rest) :
      Nested s (.around tag.name tag content f) rest

namespace Forest

variable {α : Type}

/-- The forest of what is there, if all of it is there. -/
def all? : Forest (Option α) → Option (Forest α)
  | nil => some nil
  | char c rest => (all? rest).map (char c)
  | alone name tag rest => tag.bind fun t => (all? rest).map (alone name t)
  | around name tag content rest =>
    tag.bind fun t => (all? content).bind fun c => (all? rest).map (around name t c)

/-- The set that a tag adds to the table: none without attributes. -/
def added (a : Attributes) : Option Attributes := if a.isEmpty then none else some a

/-- The sets of a forest, in the order in which its tags open. -/
def sets (f : Forest Attributes) : List Attributes := f.tags.flatMap fun a => (added a).toList

/-- The forest with the index of each set, when the table has so many sets already. -/
def number (count : Nat) : Forest Attributes → Forest (Option Nat)
  | nil => nil
  | char c rest => char c (number count rest)
  | alone name a rest =>
    alone name ((added a).map fun _ => count) (number (count + (added a).toList.length) rest)
  | around name a content rest =>
    around name ((added a).map fun _ => count)
      (number (count + (added a).toList.length) content)
      (number (count + (added a).toList.length + content.sets.length) rest)

/-- The set at an index of a table; a tag without an index has no attributes. -/
def setAt? (table : List Attributes) : Option Nat → Option Attributes
  | none => some .empty
  | some n => table[n]?

theorem all?_textBefore (s : Text) (f : Forest (Option α)) :
    all? (textBefore s f) = (all? f).map (textBefore s) := by
  induction s with
  | nil => cases h : all? f <;> simp [h]
  | cons c s ih =>
    have hcons : ∀ {β : Type} (g : Forest β), textBefore (c :: s) g = char c (textBefore s g) :=
      fun _ => rfl
    rw [hcons, all?, ih, Option.map_map]
    rfl

theorem map_textBefore {β : Type} (g : α → β) (s : Text) (f : Forest α) :
    (textBefore s f).map g = textBefore s (f.map g) := by
  induction s with
  | nil => rfl
  | cons c s ih => exact congrArg (char c) ih

theorem tags_textBefore (s : Text) (f : Forest α) : (textBefore s f).tags = f.tags := by
  induction s with
  | nil => rfl
  | cons c s ih => exact ih

theorem number_textBefore (count : Nat) (s : Text) (f : Forest Attributes) :
    number count (textBefore s f) = textBefore s (number count f) := by
  induction s with
  | nil => rfl
  | cons c s ih => exact congrArg (char c) ih

theorem pieces_textBefore (depth : Nat) (s : Text) (f : Forest (Option Nat)) :
    (textBefore s f).pieces depth = s.map .inl ++ f.pieces depth := by
  induction s with
  | nil => rfl
  | cons c s ih => exact congrArg (List.cons (Sum.inl c)) ih

theorem isSome_all? {f : Forest (Option α)} : f.all?.isSome ↔ ∀ t ∈ f.tags, t.isSome := by
  induction f with
  | nil => simp [all?, tags]
  | char c rest ih => simpa [all?, tags] using ih
  | alone name tag rest ih => cases tag <;> simp [all?, tags, ih]
  | around name tag content rest ihc ihr =>
    cases tag with
    | none => simp [all?, tags]
    | some t =>
      rw [all?, Option.bind_some, tags]
      simp only [List.cons_append, List.mem_cons, List.mem_append, or_imp, forall_and, forall_eq,
        Option.isSome_some, true_and, ← ihc, ← ihr]
      cases content.all? <;> simp

theorem eq_map_some_of_all? {f : Forest (Option α)} {g : Forest α} (h : f.all? = some g) :
    f = g.map some := by
  induction f generalizing g with
  | nil => cases h; rfl
  | char c rest ih =>
    obtain ⟨r, hr, rfl⟩ := Option.map_eq_some_iff.mp h
    exact congrArg (char c) (ih hr)
  | alone name tag rest ih =>
    obtain ⟨t, rfl, h1⟩ := Option.bind_eq_some_iff.mp h
    obtain ⟨r, hr, rfl⟩ := Option.map_eq_some_iff.mp h1
    exact congrArg (alone name (some t)) (ih hr)
  | around name tag content rest ihc ihr =>
    obtain ⟨t, rfl, h1⟩ := Option.bind_eq_some_iff.mp h
    obtain ⟨c, hc, h2⟩ := Option.bind_eq_some_iff.mp h1
    obtain ⟨r, hr, rfl⟩ := Option.map_eq_some_iff.mp h2
    exact congr (congrArg (around name (some t)) (ihc hc)) (ihr hr)

theorem tags_map {β : Type} (g : α → β) (f : Forest α) : (f.map g).tags = f.tags.map g := by
  induction f with
  | nil => rfl
  | char c rest ih => exact ih
  | alone name tag rest ih => simp [map, tags, ih]
  | around name tag content rest ihc ihr => simp [map, tags, ihc, ihr]

theorem length_added_le (a : Attributes) : (added a).toList.length ≤ 1 := by
  cases added a <;> simp

@[simp] theorem sets_alone (name : Text) (a : Attributes) (rest : Forest Attributes) :
    (alone name a rest).sets = (added a).toList ++ rest.sets := rfl

@[simp] theorem sets_around (name : Text) (a : Attributes) (content rest : Forest Attributes) :
    (around name a content rest).sets = (added a).toList ++ (content.sets ++ rest.sets) := by
  simp [sets, tags]

@[simp] theorem sets_textBefore (s : Text) (f : Forest Attributes) :
    (textBefore s f).sets = f.sets := by
  rw [sets, tags_textBefore, sets]

theorem eq_empty_of_added {a : Attributes} (h : added a = none) : a = .empty := by
  unfold added at h
  split at h
  next he => exact congrArg Attributes.mk (List.isEmpty_iff.mp he)
  next => simp at h

theorem setAt?_added {table pre post : List Attributes} {a : Attributes}
    (h : table = pre ++ (added a).toList ++ post) :
    setAt? table ((added a).map fun _ => pre.length) = some a := by
  cases ha : added a with
  | none => simp [setAt?, eq_empty_of_added ha]
  | some b =>
    have hb : a = b := by
      unfold added at ha
      split at ha
      next => simp at ha
      next => exact Option.some.inj ha
    subst h hb
    simp [setAt?, ha]

theorem map_setAt?_number {table : List Attributes} (f : Forest Attributes)
    (pre post : List Attributes) (h : table = pre ++ f.sets ++ post) :
    (number pre.length f).map (setAt? table) = f.map some := by
  induction f generalizing pre post with
  | nil => rfl
  | char c rest ih => exact congrArg (char c) (ih pre post h)
  | alone name a rest ih =>
    have hadded : table = pre ++ (added a).toList ++ (rest.sets ++ post) := by simpa using h
    have ha := setAt?_added hadded
    have hrest := ih (pre ++ (added a).toList) post (by simpa using h)
    rw [List.length_append] at hrest
    simp [number, map, ha, hrest]
  | around name a content rest ihc ihr =>
    have hadded : table = pre ++ (added a).toList ++ (content.sets ++ rest.sets ++ post) := by
      simpa using h
    have ha := setAt?_added hadded
    have hcontent := ihc (pre ++ (added a).toList) (rest.sets ++ post) (by simpa using h)
    have hrest := ihr (pre ++ (added a).toList ++ content.sets) post (by simpa using h)
    rw [List.length_append] at hcontent hrest
    rw [List.length_append] at hrest
    simp [number, map, ha, hcontent, hrest]

theorem filterMap_tags_number (f : Forest Attributes) (count : Nat) :
    (number count f).tags.filterMap id = List.range' count f.sets.length := by
  have hadd : ∀ (a : Attributes) (count : Nat),
      ([(added a).map fun _ => count].filterMap id : List Nat) =
        List.range' count (added a).toList.length := by
    intro a count
    cases added a <;> simp
  induction f generalizing count with
  | nil => rfl
  | char c rest ih => exact ih count
  | alone name a rest ih =>
    rw [sets_alone, List.length_append, ← List.range'_append_1, ← hadd, ← ih]
    simp only [number, tags, ← List.filterMap_append]
    rfl
  | around name a content rest ihc ihr =>
    rw [sets_around, List.length_append, List.length_append, ← List.range'_append_1,
      ← List.range'_append_1, ← hadd, ← ihc, ← ihr, ← List.filterMap_append,
      ← List.filterMap_append]
    rfl

end Forest

namespace Normalized

variable {literals : LiteralTable}

/-- The normalized form with a text before it, and sets before its table. -/
def before (text : Text) (sets : List Attributes) (n : Normalized) : Normalized :=
  ⟨text ++ n.html, sets ++ n.attrs⟩

theorem before_before (s t : Text) (as bs : List Attributes) (n : Normalized) :
    before s as (before t bs n) = before (s ++ t) (as ++ bs) n := by
  simp [before]

theorem placeTag?_of_not_rewritten {tag : Tag} (hb : tag.isBodyMark = false)
    (hs : Placeholder.isSpecialName tag.name = false) (depth count : Nat) :
    placeTag? literals depth count tag = some none := by
  have hb' : ¬(tag.selfClosing && !tag.closing && Text.eqIgnoringCase tag.name "body".toList) =
      true := Bool.eq_false_iff.mp hb
  unfold placeTag?
  rw [if_neg hb', hs]
  split <;> rfl

theorem go?_of_not_rewritten {c : Char} {s : Text}
    (h : ∀ tag r, Tag.read? (c :: s) = some (tag, r) → tag.isRewritten = false)
    (depth count : Nat) :
    go? literals depth count (c :: s) = (go? literals depth count s).map (before [c] []) := by
  rw [go?]
  split
  next => rfl
  next tag rest hr =>
    obtain ⟨hb, hs⟩ := Bool.or_eq_false_iff.mp (h tag rest hr)
    rw [placeTag?_of_not_rewritten hb hs]
    rfl

theorem go?_of_read? {s rest : Text} {tag : Tag} (hr : Tag.read? s = some (tag, rest))
    (depth count : Nat) {text : Text} {d : Nat} {set : Option Attributes}
    (hp : placeTag? literals depth count tag = some (some (text, d, set))) :
    go? literals depth count s =
      (go? literals d (count + set.toList.length) rest).map (before text set.toList) := by
  cases s with
  | nil => simp [Tag.read?] at hr
  | cons c s =>
    rw [go?]
    split
    next hn => rw [hn] at hr; exact absurd hr (by simp)
    next tag' rest' hr' =>
      cases Option.some.inj (hr.symm.trans hr')
      rw [hp]
      rfl

theorem go?_of_unread {s rest : Text} {tag : Tag} (hr : Tag.read? s = some (tag, rest))
    (depth count : Nat) (hp : placeTag? literals depth count tag = none) :
    go? literals depth count s = none := by
  cases s with
  | nil => simp [Tag.read?] at hr
  | cons c s =>
    rw [go?]
    split
    next hn => rw [hn] at hr; exact absurd hr (by simp)
    next tag' rest' hr' =>
      cases Option.some.inj (hr.symm.trans hr')
      rw [hp]

theorem head?_name_of_special {name : Text} (h : Placeholder.isSpecialName name) :
    name.head? ≠ some '!' := by
  intro he
  simp [Placeholder.isSpecialName, he] at h

theorem placeTag?_bodyMark {tag : Tag} (h : tag.isBodyMark) (depth count : Nat) :
    placeTag? literals depth count tag = some (some (bodyMarker, depth, none)) := by
  have hname : tag.name.head? ≠ some '!' := by
    intro he
    simp only [Tag.isBodyMark, Bool.and_eq_true, Text.eqIgnoringCase, Text.lowerAscii,
      beq_iff_eq] at h
    have h := h.2
    obtain ⟨c, t, ht⟩ : ∃ c t, tag.name = c :: t := by
      cases hn : tag.name with
      | nil => simp [hn] at he
      | cons c t => exact ⟨c, t, rfl⟩
    have hc : c = '!' := by simpa [ht] using he
    have hl := (List.cons.inj (by simpa [ht] using h :
      c.toLower :: t.map Char.toLower = 'b' :: ['o', 'd', 'y'])).1
    subst hc
    exact absurd hl (by decide)
  have hb : (tag.selfClosing && !tag.closing &&
      Text.eqIgnoringCase tag.name "body".toList) = true := h
  unfold placeTag?
  rw [if_neg hname, if_pos hb]

theorem placeTag?_closing {tag : Tag} (hs : Placeholder.isSpecialName tag.name) (hc : tag.closing)
    (depth count : Nat) : placeTag? literals (depth + 1) count tag =
      some (some (Placeholder.closer tag.name depth, depth, none)) := by
  unfold placeTag?
  simp [head?_name_of_special hs, hs, hc]

theorem placeTag?_opening {tag : Tag} (h : tag.isOpening) (depth count : Nat) :
    placeTag? literals depth count tag = (tag.set? literals).map fun a =>
      some ((⟨tag.name, depth, (Forest.added a).map fun _ => count,
        if tag.isLeaf then .alone else .opens⟩ : Placeholder).written,
        (if tag.isLeaf then depth else depth + 1), Forest.added a) := by
  simp only [Tag.isOpening, Bool.and_eq_true, Bool.not_eq_eq_eq_not, Bool.not_true] at h
  obtain ⟨⟨hs, hc⟩, hb⟩ := h
  have hb' : ¬(tag.selfClosing && !tag.closing && Text.eqIgnoringCase tag.name "body".toList) =
      true := Bool.eq_false_iff.mp hb
  unfold placeTag?
  rw [if_neg (head?_name_of_special hs), if_neg hb', hs, hc]
  refine congrArg (Option.map · (tag.set? literals)) (funext fun a => ?_)
  cases hl : tag.isLeaf with
  | true => exact if_pos hl
  | false => exact if_neg (Bool.eq_false_iff.mp hl)

theorem go?_opening {s rest : Text} {tag : Tag} (hr : Tag.read? s = some (tag, rest))
    (h : tag.isOpening) (depth count : Nat) :
    go? literals depth count s = (tag.set? literals).bind fun a =>
      (go? literals (if tag.isLeaf then depth else depth + 1)
        (count + (Forest.added a).toList.length) rest).map
          (before (⟨tag.name, depth, (Forest.added a).map fun _ => count,
            if tag.isLeaf then .alone else .opens⟩ : Placeholder).written
            (Forest.added a).toList) := by
  have hp := @placeTag?_opening literals _ h depth count
  cases ha : tag.set? literals with
  | none =>
    rw [ha] at hp
    exact go?_of_unread hr depth count hp
  | some a =>
    rw [ha] at hp
    exact go?_of_read? hr depth count hp

theorem go?_closing {s rest : Text} {tag : Tag} (hr : Tag.read? s = some (tag, rest))
    (hs : Placeholder.isSpecialName tag.name) (hc : tag.closing) (depth count : Nat) :
    go? literals (depth + 1) count s = (go? literals depth count rest).map
      (before (⟨tag.name, depth, none, .closes⟩ : Placeholder).written []) :=
  go?_of_read? hr (depth + 1) count (placeTag?_closing hs hc depth count)

open Placeholder in
/-- The normalized form of a nested source is its written forest, with the sets of its tags, before
the normalized form of the rest. -/
theorem go?_nested {s rest : Text} {f : Forest Tag} (h : Nested s f rest) (depth count : Nat) :
    go? literals depth count s = (f.map (Tag.set? literals)).all?.bind fun g =>
      (go? literals depth (count + g.sets.length) rest).map
        (before (write ((g.number count).pieces depth)) g.sets) := by
  induction h generalizing depth count with
  | done s =>
    have hb : before [] [] = id := rfl
    simp [Forest.map, Forest.all?, Forest.number, Forest.pieces, Forest.sets, Forest.tags, hb]
  | @char c s rest f hn h ih =>
    rw [go?_of_not_rewritten hn, ih]
    simp only [Forest.map, Forest.all?, Option.bind_map, Option.map_bind]
    refine congrArg _ (funext fun g => ?_)
    simp only [Function.comp, Option.map_map]
    rfl
  | @bodyMark s s' rest tag f hr hb h ih =>
    rw [go?_of_read? hr depth count (placeTag?_bodyMark hb depth count), Forest.map_textBefore,
      Forest.all?_textBefore]
    simp only [Option.toList_none, List.length_nil, Nat.add_zero, ih, Option.bind_map,
      Option.map_bind]
    refine congrArg _ (funext fun g => ?_)
    simp only [Function.comp, Option.map_map, Forest.sets_textBefore, Forest.number_textBefore,
      Forest.pieces_textBefore, write_append, write_map_inl]
    refine congrArg (Option.map · _) (funext fun n => before_before _ _ _ _ n)
  | @alone s s' rest tag f hr ho hl h ih =>
    rw [go?_opening hr ho]
    simp only [hl, if_true, Forest.map, Forest.all?, Option.bind_assoc, Option.bind_map, ih,
      Option.map_bind]
    refine congrArg _ (funext fun a => congrArg _ (funext fun g => ?_))
    simp only [Function.comp_apply, Option.map_map, Forest.sets_alone, List.length_append,
      Nat.add_assoc]
    refine congrArg (Option.map · _) (funext fun n => before_before _ _ _ _ n)
  | @around s s₁ s₂ s₃ rest tag last content f hr ho hl hc hr' hlast hname h ihc ihr =>
    have hs : isSpecialName last.name := hname ▸ Tag.special_of_isOpening ho
    rw [go?_opening hr ho]
    simp only [hl, Bool.false_eq_true, if_false, Forest.map, Forest.all?, Option.bind_assoc,
      Option.bind_map, ihc, go?_closing hr' hs hlast, hname, ihr, Option.map_bind]
    refine congrArg _ (funext fun a => congrArg _ (funext fun g => ?_))
    simp only [Function.comp, Option.map_bind]
    refine congrArg _ (funext fun k => ?_)
    simp only [Option.map_map, Forest.sets_around, List.length_append,
      Nat.add_assoc]
    refine congrArg (Option.map · _) (funext fun n => ?_)
    simp only [Function.comp, before_before]
    simp [before, Forest.number, Forest.pieces, Nat.add_assoc]

end Normalized

namespace Nested

/-- No tag begins with a character that is no angle bracket. -/
theorem plain {c : Char} {s rest : Text} {f : Forest Tag} (hc : c ≠ '<') (h : Nested s f rest) :
    Nested (c :: s) (.char c f) rest :=
  .char (fun _ _ hr => absurd (Option.some.inj (Tag.head?_of_read? hr)) hc) h

theorem length_le {s rest : Text} {f : Forest Tag} (h : Nested s f rest) {literals : LiteralTable}
    {g : Forest Attributes} (hg : (f.map (Tag.set? literals)).all? = some g) :
    g.sets.length + rest.length ≤ s.length := by
  induction h generalizing g with
  | done s =>
    cases hg
    simp [Forest.sets, Forest.tags]
  | char hn h ih =>
    obtain ⟨r, hr, rfl⟩ := Option.map_eq_some_iff.mp hg
    have := ih hr
    exact Nat.le_succ_of_le this
  | bodyMark hr hb h ih =>
    rw [Forest.map_textBefore, Forest.all?_textBefore] at hg
    obtain ⟨r, hgr, rfl⟩ := Option.map_eq_some_iff.mp hg
    have := ih hgr
    have := Tag.length_of_read? hr
    rw [Forest.sets_textBefore]
    omega
  | alone hr ho hl h ih =>
    obtain ⟨a, _, h1⟩ := Option.bind_eq_some_iff.mp hg
    obtain ⟨r, hgr, rfl⟩ := Option.map_eq_some_iff.mp h1
    have := ih hgr
    have := Forest.length_added_le a
    have := Tag.length_of_read? hr
    rw [Forest.sets_alone, List.length_append]
    omega
  | around hr ho hl hc hr' hlast hname h ihc ihr =>
    obtain ⟨a, _, h1⟩ := Option.bind_eq_some_iff.mp hg
    obtain ⟨c, hgc, h2⟩ := Option.bind_eq_some_iff.mp h1
    obtain ⟨r, hgr, rfl⟩ := Option.map_eq_some_iff.mp h2
    have := ihc hgc
    have := ihr hgr
    have := Forest.length_added_le a
    have := Tag.length_of_read? hr
    have := Tag.length_of_read? hr'
    rw [Forest.sets_around, List.length_append, List.length_append]
    omega

end Nested

/-- Do two texts begin alike, up to their first angle brackets? -/
def BeginAlike (s t : Text) : Prop := s.takeWhile (· ≠ '<') = t.takeWhile (· ≠ '<')

namespace BeginAlike

theorem cons (c : Char) {s t : Text} (h : BeginAlike s t) : BeginAlike (c :: s) (c :: t) := by
  unfold BeginAlike at h ⊢
  by_cases hc : c = '<'
  · simp [hc]
  · simp [hc] at h ⊢
    exact h

theorem of_head? {s t : Text} (hs : s.head? = some '<') (ht : t.head? = some '<') :
    BeginAlike s t := by
  unfold BeginAlike
  cases s <;> cases t <;> simp_all

theorem exists_append {s t v rest : Text} (h : BeginAlike s t) (ht : t = v ++ rest) (hv : '<' ∉ v) :
    ∃ r, s = v ++ r := by
  have hp : ∀ c ∈ v, decide (c ≠ '<') = true := fun c hc => by
    have : c ≠ '<' := fun he => hv (he ▸ hc)
    simpa using this
  have hs : s.takeWhile (· ≠ '<') = v ++ rest.takeWhile (· ≠ '<') := by
    rw [h, ht, List.takeWhile_append_of_pos hp]
  refine ⟨rest.takeWhile (· ≠ '<') ++ s.dropWhile (· ≠ '<'), ?_⟩
  rw [← List.append_assoc, ← hs, List.takeWhile_append_dropWhile]

end BeginAlike

namespace Placeholder

theorem readBack_bodyMarker (t : Text) : ReadBack (Normalized.bodyMarker.map .inl) t := by
  have hname : ∀ c ∈ "BODY".toList, isNameChar c := List.all_eq_true.mp (by decide)
  have hread : read? ('<' :: ("BODY".toList ++ ('/' :: '>' :: t))) = none := by
    have hstop : ∀ c ∈ ('/' :: '>' :: t).head?, isNameChar c = false := by simp; decide
    have hnone : nameAndDepth? "BODY".toList = none := by decide
    rw [read?_opening (by simp), Text.takeWhile_append_stop hname hstop, hnone]
    rfl
  have hchar : ∀ c : Char, c ≠ '<' → ∀ s, read? (c :: s) = none := fun c hc s => read?_of_ne hc s
  exact ⟨hread, hchar _ (by decide) _, hchar _ (by decide) _, hchar _ (by decide) _,
    hchar _ (by decide) _, hchar _ (by decide) _, hchar _ (by decide) _, trivial⟩

/-- A character that starts no rewritten tag starts no placeholder, when the same text follows it up
to an angle bracket. -/
theorem read?_of_not_rewritten {c : Char} {s t : Text} (h : BeginAlike s t)
    (hn : ∀ tag r, Tag.read? (c :: s) = some (tag, r) → tag.isRewritten = false) :
    read? (c :: t) = none := by
  refine Option.eq_none_iff_forall_ne_some.mpr fun ⟨p, rest⟩ hr => ?_
  obtain ⟨w, hw, hspell⟩ := exists_spelling hr
  obtain ⟨v, rfl, hv⟩ := hspell.exists_tail
  obtain ⟨hc, ht⟩ := List.cons.inj hw
  obtain ⟨r, rfl⟩ := h.exists_append ht hv
  obtain ⟨tag, hread, hspecial⟩ := Tag.exists_read?_of_spelling hspell r
  have := hn tag r (hc ▸ hread)
  simp [Tag.isRewritten, hspecial] at this

end Placeholder

namespace Nested

open Placeholder

theorem wellFormed {s rest : Text} {tag : Tag} (hr : Tag.read? s = some (tag, rest))
    (ho : tag.isOpening) {depth count : Nat} (hd : depth < Text.indexBound)
    (hc : count < Text.indexBound) (a : Option Attributes) {kind : Kind} (hk : kind ≠ .closes) :
    (⟨tag.name, depth, a.map fun _ => count, kind⟩ : Placeholder).WellFormed where
  name := Tag.isNameChar_of_read? hr
  special := Tag.special_of_isOpening ho
  depth := hd
  attrs n hn := by
    obtain ⟨_, _, rfl⟩ := Option.map_eq_some_iff.mp hn
    exact hc
  closes h := absurd h hk

/-- A tag begins as any placeholder does, with an angle bracket. -/
theorem beginAlike_written {s rest : Text} {tag : Tag} (hr : Tag.read? s = some (tag, rest))
    {p : Placeholder} (hp : p.WellFormed) (t : Text) : BeginAlike s (p.written ++ t) := by
  obtain ⟨v, hv, _⟩ := exists_written_tail hp
  exact .of_head? (Tag.head?_of_read? hr) (by rw [hv]; rfl)

/-- A tag around others is read back, if what is in it and what follows it are. -/
theorem readBack_around {name t : Text} {index : Option Nat} {depth : Nat}
    {content rest : Forest (Option Nat)}
    (hopen : (⟨name, depth, index, .opens⟩ : Placeholder).WellFormed)
    (hclose : (⟨name, depth, none, .closes⟩ : Placeholder).WellFormed)
    (hcontent : ReadBack (content.pieces (depth + 1))
      ((⟨name, depth, none, .closes⟩ : Placeholder).written ++ (write (rest.pieces depth) ++ t)))
    (hrest : ReadBack (rest.pieces depth) t) :
    ReadBack ((Forest.around name index content rest).pieces depth) t := by
  refine ⟨hopen, readBack_append.mpr ⟨?_, hclose, hrest⟩⟩
  rw [write_placeholder, List.append_assoc]
  exact hcontent

/-- The written forest of a nested source is read back, and begins as the source does. -/
theorem readBack {s rest : Text} {f : Forest Tag} (h : Nested s f rest) {literals : LiteralTable}
    {g : Forest Attributes} (hg : (f.map (Tag.set? literals)).all? = some g) {t : Text}
    (ht : BeginAlike rest t) (depth count : Nat) (hd : depth + s.length < Text.indexBound)
    (hc : count + s.length < Text.indexBound) :
    ReadBack ((g.number count).pieces depth) t ∧
      BeginAlike s (write ((g.number count).pieces depth) ++ t) := by
  induction h generalizing g t depth count with
  | done s =>
    cases hg
    exact ⟨trivial, ht⟩
  | @char c s rest f hn h ih =>
    obtain ⟨r, hgr, rfl⟩ := Option.map_eq_some_iff.mp hg
    simp only [List.length_cons] at hd hc
    obtain ⟨hread, hlike⟩ := ih hgr ht depth count (by omega) (by omega)
    exact ⟨⟨read?_of_not_rewritten hlike hn, hread⟩, hlike.cons c⟩
  | @bodyMark s s' rest tag f hr hb h ih =>
    rw [Forest.map_textBefore, Forest.all?_textBefore] at hg
    obtain ⟨r, hgr, rfl⟩ := Option.map_eq_some_iff.mp hg
    have hlen := Tag.length_of_read? hr
    obtain ⟨hread, _⟩ := ih hgr ht depth count (by omega) (by omega)
    rw [Forest.number_textBefore, Forest.pieces_textBefore]
    exact ⟨readBack_append.mpr ⟨readBack_bodyMarker _, hread⟩,
      .of_head? (Tag.head?_of_read? hr) rfl⟩
  | @alone s s' rest tag f hr ho hl h ih =>
    obtain ⟨a, _, h1⟩ := Option.bind_eq_some_iff.mp hg
    obtain ⟨r, hgr, rfl⟩ := Option.map_eq_some_iff.mp h1
    have hlen := Tag.length_of_read? hr
    have := Forest.length_added_le a
    obtain ⟨hread, _⟩ := ih hgr ht depth (count + (Forest.added a).toList.length)
      (by omega) (by omega)
    have hw : (⟨tag.name, depth, (Forest.added a).map fun _ => count, .alone⟩ :
        Placeholder).WellFormed := wellFormed hr ho (by omega) (by omega) _ (by simp)
    refine ⟨⟨hw, hread⟩, ?_⟩
    simpa [Forest.number, Forest.pieces] using beginAlike_written hr hw _
  | @around s s₁ s₂ s₃ rest tag last content f hr ho hl hcontent hr' hlast hname h ihc ihr =>
    obtain ⟨a, _, h1⟩ := Option.bind_eq_some_iff.mp hg
    obtain ⟨c, hgc, h2⟩ := Option.bind_eq_some_iff.mp h1
    obtain ⟨r, hgr, rfl⟩ := Option.map_eq_some_iff.mp h2
    have hlen := Tag.length_of_read? hr
    have hlen' := Tag.length_of_read? hr'
    have hle := hcontent.length_le hgc
    have := Forest.length_added_le a
    have hopen : (⟨tag.name, depth, (Forest.added a).map fun _ => count, .opens⟩ :
        Placeholder).WellFormed := wellFormed hr ho (by omega) (by omega) _ (by simp)
    have hclose : (⟨tag.name, depth, none, .closes⟩ : Placeholder).WellFormed :=
      { hopen with attrs := by simp, closes := fun _ => rfl }
    obtain ⟨hrest, _⟩ := ihr hgr ht depth (count + (Forest.added a).toList.length + c.sets.length)
      (by omega) (by omega)
    obtain ⟨hread, _⟩ := ihc hgc (beginAlike_written hr' hclose _) (depth + 1)
      (count + (Forest.added a).toList.length) (by omega) (by omega)
    refine ⟨readBack_around hopen hclose hread hrest, ?_⟩
    rw [Forest.number, Forest.pieces, List.cons_append, write_placeholder, List.append_assoc]
    exact beginAlike_written hr hopen _

end Nested

namespace Normalized

/-- The normalized form of a nested source is its forest, written, with the sets of its tags. -/
theorem ofText?_nested {s : Text} {f : Forest Tag} (h : Nested s f []) (literals : LiteralTable) :
    ofText? literals s = (f.map (Tag.set? literals)).all?.map fun g =>
      ⟨Placeholder.write ((g.number 0).pieces 0), g.sets⟩ := by
  rw [ofText?, go?_nested h, Option.map_eq_bind]
  refine congrArg _ (funext fun g => ?_)
  simp [go?, before]

theorem isSome_all?_iff {literals : LiteralTable} {f : Forest Tag} :
    (f.map (Tag.set? literals)).all?.isSome ↔ ∀ tag ∈ f.tags, ¬tag.IsStalled := by
  simp [Forest.isSome_all?, Forest.tags_map, Tag.isSome_set?_iff]

end Normalized

/-- The normalized form of a source whose tags are properly nested. There is one unless a condition
is stalled. The walk of the rendering finds the tags of the source in it, with the texts between
them, and at the index of a tag the attributes that are built from it; the indices are those of the
table, each of them once. -/
theorem walk_normalized {s : Text} {f : Forest Tag} (h : Nested s f []) (literals : LiteralTable)
    (hs : s.length < Text.indexBound) :
    ((∀ tag ∈ f.tags, ¬tag.IsStalled) → ∃ (n : Normalized) (g : Forest Attributes),
      Normalized.ofText? literals s = some n ∧ f.map (Tag.set? literals) = g.map some ∧
      (Forest.walk 0 n.html).map (Forest.setAt? n.attrs) = g.map some ∧
      (Forest.walk 0 n.html).tags.filterMap id = List.range n.attrs.length) ∧
    ((∃ tag ∈ f.tags, tag.IsStalled) → Normalized.ofText? literals s = none) := by
  have hform := Normalized.ofText?_nested h literals
  refine ⟨fun hf => ?_, fun ⟨tag, hm, hstalled⟩ => ?_⟩
  · obtain ⟨g, hg⟩ := Option.isSome_iff_exists.mp (Normalized.isSome_all?_iff.mpr hf)
    rw [hg, Option.map_some] at hform
    obtain ⟨hread, _⟩ := h.readBack hg (t := []) rfl 0 0 (by omega) (by omega)
    have hwalk := Forest.walk_write hread
    refine ⟨_, g, hform, Forest.eq_map_some_of_all? hg, ?_, ?_⟩
    · rw [hwalk]
      exact Forest.map_setAt?_number g [] [] (by simp)
    · rw [hwalk, Forest.filterMap_tags_number, List.range_eq_range']
  · have hnone : (f.map (Tag.set? literals)).all? = none := by
      refine Option.not_isSome_iff_eq_none.mp fun hsome => ?_
      exact Normalized.isSome_all?_iff.mp hsome tag hm hstalled
    rw [hform, hnone, Option.map_none]

theorem walk_normalized_box : ∃ n,
    Normalized.ofText? [] "<Box id='1'>a<Box/></Box>".toList = some n ∧
      (Forest.walk 0 n.html).map (Forest.setAt? n.attrs) =
        .around "Box".toList (some ⟨[("id".toList, "'1'".toList)]⟩)
          (.char 'a' (.alone "Box".toList (some .empty) .nil)) .nil := by
  have hopen : Tag.read? "<Box id='1'>a<Box/></Box>".toList =
      some (⟨false, "Box".toList, "id='1'".toList, false⟩, "a<Box/></Box>".toList) := by
    decide +kernel
  have halone : Tag.read? "<Box/></Box>".toList =
      some (⟨false, "Box".toList, [], true⟩, "</Box>".toList) := by decide +kernel
  have hclose : Tag.read? "</Box>".toList = some (⟨true, "Box".toList, [], false⟩, []) := by
    decide +kernel
  have hcontent := Nested.plain (c := 'a') (by decide)
    (.alone halone (by decide) (by decide) (.done _))
  have hnested := Nested.around hopen (by decide) (by decide) hcontent hclose rfl rfl (.done [])
  have hplain : ∀ {tag : Tag}, tag.name = "Box".toList → ¬tag.IsStalled := by
    rintro tag hname ⟨hc, -⟩
    rw [hname] at hc
    exact absurd hc (by decide)
  obtain ⟨n, g, hn, hg, hwalk, -⟩ := (walk_normalized hnested [] (by decide)).1 (by
    simp only [Forest.tags, List.mem_cons, List.append_nil, List.not_mem_nil, or_false]
    rintro tag (rfl | rfl) <;> exact hplain rfl)
  exact ⟨n, hn, hwalk.trans (hg.symm.trans (by decide +kernel))⟩

/-- A condition that is nothing but an opening sign has no normalized form. -/
theorem walk_missing :
    (∃ f, Nested "<_if %!></_if>".toList f []) ∧
      Normalized.ofText? [] "<_if %!></_if>".toList = none := by
  have hopen : Tag.read? "<_if %!></_if>".toList =
      some (⟨false, "_if".toList, "%!".toList, false⟩, "</_if>".toList) := by decide +kernel
  have hclose : Tag.read? "</_if>".toList = some (⟨true, "_if".toList, [], false⟩, []) := by
    decide +kernel
  exact ⟨⟨_, .around hopen (by decide) (by decide) (.done _) hclose rfl rfl (.done [])⟩,
    by decide +kernel⟩

end Stencil
