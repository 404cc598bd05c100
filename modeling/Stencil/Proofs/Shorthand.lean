import Stencil.Loop.Shorthand
import Stencil.Proofs.Text

namespace Stencil.Loop

/-- The text of the reference after a dollar sign: a name, and the names after points. -/
def reference (s : Text) : Text := s.takeWhile isNameChar ++ (fields (s.dropWhile isNameChar)).1

/-- What follows the reference after a dollar sign. -/
def afterReference (s : Text) : Text := (fields (s.dropWhile isNameChar)).2

section

variable (names : List Text)

/-- Does a text start with a reference to one of the names? -/
def StartsBound (s : Text) : Prop := ∃ t, s = '$' :: t ∧ t.takeWhile isNameChar ∈ names

/-- Is this reference written out, when the text follows a character? -/
def IsBound (before : Option Char) (s : Text) : Prop :=
  before.any isNameChar = false ∧ StartsBound names s

/-- In a text that follows a character, a text stands right after a reference that is written
out. -/
inductive Follows : Option Char → Text → Text → Prop where
  | here {before : Option Char} {s : Text} (hs : IsBound names before ('$' :: s))
      (hr : reference s ≠ []) : Follows before ('$' :: s) (afterReference s)
  | reference {before : Option Char} {s t : Text} (hs : IsBound names before ('$' :: s))
      (h : Follows ('$' :: reference s).getLast? (afterReference s) t) : Follows before ('$' :: s) t
  | skip {before : Option Char} {s inside close rest t : Text} (hs : skipped? s = some close)
      (hc : Text.cut? close s = some (inside, rest)) (h : Follows close.getLast? rest t) :
      Follows before s t
  | char {before : Option Char} {c : Char} {s t : Text} (hs : skipped? (c :: s) = none)
      (hn : ¬IsBound names before (c :: s)) (h : Follows (some c) s t) : Follows before (c :: s) t

/-- Does a reference that is written out stand right before another reference to one of the
names? -/
def Crowded (before : Option Char) (s : Text) : Prop :=
  ∃ t, Follows names before s t ∧ StartsBound names t

end

variable {names : List Text} {before : Option Char}

theorem startsBound_cons {c : Char} {s : Text} :
    StartsBound names (c :: s) ↔ c = '$' ∧ s.takeWhile isNameChar ∈ names := by
  constructor
  · rintro ⟨t, ht, hn⟩
    obtain ⟨rfl, rfl⟩ := List.cons.inj ht
    exact ⟨rfl, hn⟩
  · rintro ⟨rfl, hn⟩
    exact ⟨s, rfl, hn⟩

theorem not_startsBound_nil : ¬StartsBound names [] := fun ⟨_, ht, _⟩ => nomatch ht

theorem close_cases {s close : Text} (h : skipped? s = some close) :
    (∃ t, s = '{' :: '{' :: t ∧ close = ['}', '}']) ∨ ∃ t, s = '<' :: t ∧ close = ['>'] := by
  unfold skipped? at h
  split at h
  next t => exact .inl ⟨t, rfl, (Option.some.inj h).symm⟩
  next t => exact .inr ⟨t, rfl, (Option.some.inj h).symm⟩
  next => cases h

theorem close_ne_nil {s close : Text} (h : skipped? s = some close) : close ≠ [] := by
  rcases close_cases h with ⟨t, -, rfl⟩ | ⟨t, -, rfl⟩ <;> simp

theorem skipped?_append {s close : Text} (h : skipped? s = some close) (t : Text) :
    skipped? (s ++ t) = some close := by
  rcases close_cases h with ⟨u, rfl, rfl⟩ | ⟨u, rfl, rfl⟩ <;> rfl

theorem skipped?_of_ne {c : Char} (h : c ≠ '{') (h' : c ≠ '<') (s : Text) :
    skipped? (c :: s) = none := by
  refine Option.eq_none_iff_forall_ne_some.mpr fun close hs => ?_
  rcases close_cases hs with ⟨t, ht, -⟩ | ⟨t, ht, -⟩
  · exact h (List.cons.inj ht).1
  · exact h' (List.cons.inj ht).1

/-- What is skipped up to its close starts as the whole text does. -/
theorem skipped?_inside {s close inside rest : Text} (hs : skipped? s = some close)
    (hc : Text.cut? close s = some (inside, rest)) : skipped? inside = some close := by
  have hwhole := Text.eq_of_cut? hc
  rcases close_cases hs with ⟨t, rfl, rfl⟩ | ⟨t, rfl, rfl⟩
  · rcases inside with _ | ⟨a, _ | ⟨b, inside⟩⟩
    · cases hwhole
    · cases hwhole
    · cases hwhole
      rfl
  · cases inside with
    | nil => cases hwhole
    | cons a inside =>
      obtain ⟨rfl, -⟩ := List.cons.inj hwhole
      rfl

theorem expandAfter_skip {s close inside rest : Text} (hs : skipped? s = some close)
    (hc : Text.cut? close s = some (inside, rest)) :
    expandAfter names before s = inside ++ close ++ expandAfter names close.getLast? rest := by
  cases s with
  | nil => cases hs
  | cons c s =>
    rw [expandAfter]
    simp only [hs]
    split
    next inside' rest' hc' =>
      cases hc.symm.trans hc'
      rw [dif_neg (close_ne_nil hs)]
    next hc' => cases hc.symm.trans hc'

theorem expandAfter_open {s close : Text} (hs : skipped? s = some close)
    (hc : Text.cut? close s = none) : expandAfter names before s = s := by
  cases s with
  | nil => cases hs
  | cons c s =>
    rw [expandAfter]
    simp only [hs]
    split
    next hc' => cases hc.symm.trans hc'
    next => rfl

theorem expandAfter_reference {s : Text} (h : IsBound names before ('$' :: s)) :
    expandAfter names before ('$' :: s) = '{' :: '{' :: (reference s ++ '}' :: '}' ::
      expandAfter names ('$' :: reference s).getLast? (afterReference s)) := by
  have hn := (startsBound_cons.mp h.2).2
  rw [expandAfter]
  simp [skipped?, h.1, hn, reference, afterReference]

/-- The characters of a name stay. -/
theorem expandAfter_word (before : Option Char) {w : Text} (hw : ∀ c ∈ w, isNameChar c)
    (s : Text) :
    expandAfter names before (w ++ s) = w ++ expandAfter names (w.getLast?.or before) s := by
  induction w generalizing before with
  | nil => rfl
  | cons c w ih =>
    have hc := hw c List.mem_cons_self
    have hne : ∀ d, isNameChar d = false → c ≠ d := by
      rintro d hd rfl
      rw [hc] at hd
      cases hd
    have hskip := skipped?_of_ne (hne '{' rfl) (hne '<' rfl) (w ++ s)
    have hlast : (c :: w).getLast?.or before = w.getLast?.or (some c) := by
      rw [← List.singleton_append, List.getLast?_append]
      cases w.getLast? <;> rfl
    rw [List.cons_append, expandAfter]
    simp only [hskip]
    rw [if_neg fun h => hne '$' rfl h.1, ih _ fun d hd => hw d (List.mem_cons_of_mem c hd), hlast,
      List.cons_append]

/-- A character that is not skipped and starts no reference stays. -/
theorem expandAfter_char {c : Char} {s : Text} (hs : skipped? (c :: s) = none)
    (hn : ¬IsBound names before (c :: s)) :
    expandAfter names before (c :: s) = c :: expandAfter names (some c) s := by
  rw [expandAfter]
  simp only [hs]
  by_cases hc : c = '$' ∧ before.any isNameChar = false
  · obtain ⟨rfl, hb⟩ := hc
    have hn : s.takeWhile isNameChar ∉ names := fun h => hn ⟨hb, startsBound_cons.mpr ⟨rfl, h⟩⟩
    have hword := @expandAfter_word names (some '$') _
      (List.all_eq_true.mp (List.all_takeWhile (p := isNameChar) (l := s)))
      (s.dropWhile isNameChar)
    have hlast : ('$' :: s.takeWhile isNameChar).getLast? =
        (s.takeWhile isNameChar).getLast?.or (some '$') := by
      rw [← List.singleton_append, List.getLast?_append]
      rfl
    rw [List.takeWhile_append_dropWhile] at hword
    rw [if_pos (by simp [hb]), if_neg hn, hword, hlast, List.cons_append]
  · rw [if_neg (by simpa using hc)]

theorem length_afterReference_le (s : Text) : (afterReference s).length ≤ s.length :=
  (length_fields_le _).trans (Text.length_dropWhile_le isNameChar s)

/-- The scan of a text: what is skipped up to its close or to the end, references that are written
out, and single characters. -/
theorem scan_induction (names : List Text) {motive : Option Char → Text → Prop}
    (nil : ∀ before, motive before [])
    (skip : ∀ before s close inside rest, skipped? s = some close →
      Text.cut? close s = some (inside, rest) → motive close.getLast? rest → motive before s)
    (opened : ∀ before s close, skipped? s = some close → Text.cut? close s = none →
      motive before s)
    (reference : ∀ before s, IsBound names before ('$' :: s) →
      motive ('$' :: reference s).getLast? (afterReference s) → motive before ('$' :: s))
    (char : ∀ before c s, skipped? (c :: s) = none → ¬IsBound names before (c :: s) →
      motive (some c) s → motive before (c :: s))
    (before : Option Char) (s : Text) : motive before s := by
  induction hn : s.length using Nat.strongRecOn generalizing before s with
  | ind n ih =>
    cases s with
    | nil => exact nil before
    | cons c s =>
      cases hs : skipped? (c :: s) with
      | some close =>
        cases hc : Text.cut? close (c :: s) with
        | none => exact opened before _ close hs hc
        | some r =>
          have hlength := Text.length_of_cut? hc
          have hpos := List.length_pos_iff.mpr (close_ne_nil hs)
          exact skip before _ close r.1 r.2 hs hc (ih _ (by omega) _ _ rfl)
      | none =>
        have hs' : s.length < n := by simp [← hn]
        by_cases hb : IsBound names before (c :: s)
        · obtain ⟨rfl, -⟩ := startsBound_cons.mp hb.2
          have hlength := length_afterReference_le s
          exact reference before s hb (ih _ (by omega) _ _ rfl)
        · exact char before c s hs hb (ih _ hs' _ _ rfl)

/-- A character stays at the start, unless it is the sign of a reference that is written out. -/
theorem expandAfter_cons_cases (names : List Text) (before : Option Char) (c : Char) (s : Text) :
    (∃ t, expandAfter names before (c :: s) = c :: t) ∨ IsBound names before (c :: s) := by
  cases hs : skipped? (c :: s) with
  | some close =>
    cases hc : Text.cut? close (c :: s) with
    | none => exact .inl ⟨s, expandAfter_open hs hc⟩
    | some r =>
      have hwhole := Text.eq_of_cut? hc
      rw [expandAfter_skip hs hc]
      cases hp : r.1 ++ close with
      | nil => exact absurd (List.append_eq_nil_iff.mp hp).2 (close_ne_nil hs)
      | cons d p =>
        rw [hp] at hwhole
        exact .inl ⟨_, by rw [(List.cons.inj hwhole).1]; rfl⟩
  | none =>
    by_cases hb : IsBound names before (c :: s)
    · exact .inr hb
    · exact .inl ⟨_, expandAfter_char hs hb⟩

/-- The name at the start of a text stays. -/
theorem takeWhile_expandAfter (names : List Text) (before : Option Char) (s : Text) :
    (expandAfter names before s).takeWhile isNameChar = s.takeWhile isNameChar := by
  have hword := @expandAfter_word names before _
    (List.all_eq_true.mp (List.all_takeWhile (p := isNameChar) (l := s))) (s.dropWhile isNameChar)
  rw [List.takeWhile_append_dropWhile] at hword
  rw [hword]
  refine Text.takeWhile_append_stop (List.all_eq_true.mp List.all_takeWhile) ?_
  have hhead := List.head?_dropWhile_not isNameChar s
  cases hd : s.dropWhile isNameChar with
  | nil =>
    rw [expandAfter]
    simp
  | cons c t =>
    rw [hd] at hhead
    rcases expandAfter_cons_cases names ((s.takeWhile isNameChar).getLast?.or before) c t with
      ⟨u, hu⟩ | hb
    · rw [hu]
      simpa using hhead
    · obtain ⟨rfl, -⟩ := startsBound_cons.mp hb.2
      rw [expandAfter_reference hb]
      simp
      decide

/-- What stands before a text matters only if the text starts with a reference. -/
theorem expandAfter_of_not_startsBound {s : Text} (h : ¬StartsBound names s)
    (before before' : Option Char) :
    expandAfter names before s = expandAfter names before' s := by
  cases s with
  | nil => rw [expandAfter, expandAfter]
  | cons c s =>
    cases hs : skipped? (c :: s) with
    | some close =>
      cases hc : Text.cut? close (c :: s) with
      | none => rw [expandAfter_open hs hc, expandAfter_open hs hc]
      | some r => rw [expandAfter_skip hs hc, expandAfter_skip hs hc]
    | none => rw [expandAfter_char hs fun hb => h hb.2, expandAfter_char hs fun hb => h hb.2]

/-- A reference to one of the names is left at the start after a character of a name only. -/
theorem startsBound_expandAfter {s : Text} :
    StartsBound names (expandAfter names before s) ↔
      StartsBound names s ∧ before.any isNameChar := by
  cases s with
  | nil =>
    rw [expandAfter]
    exact iff_of_false not_startsBound_nil fun h => not_startsBound_nil h.1
  | cons c s =>
    by_cases hb : IsBound names before (c :: s)
    · obtain ⟨rfl, -⟩ := startsBound_cons.mp hb.2
      have hout : ¬StartsBound names (expandAfter names before ('$' :: s)) := by
        rw [expandAfter_reference hb, startsBound_cons]
        exact fun h => absurd h.1 (by decide)
      exact iff_of_false hout fun h => by rw [hb.1] at h; cases h.2
    · by_cases hc : c = '$'
      · subst hc
        rw [expandAfter_char rfl hb, startsBound_cons, startsBound_cons, takeWhile_expandAfter]
        refine ⟨fun h => ⟨h, ?_⟩, And.left⟩
        exact Bool.not_eq_false _ ▸ fun hf => hb ⟨hf, startsBound_cons.mpr h⟩
      · obtain ⟨t, ht⟩ := (expandAfter_cons_cases names before c s).resolve_right hb
        rw [ht, startsBound_cons, startsBound_cons]
        exact iff_of_false (fun h => hc h.1) fun h => hc h.1.1

theorem expandAfter_congr {before' : Option Char}
    (h : before.any isNameChar = before'.any isNameChar) (s : Text) :
    expandAfter names before s = expandAfter names before' s := by
  by_cases hs : StartsBound names s
  · obtain ⟨t, rfl, -⟩ := id hs
    cases hb : before.any isNameChar with
    | false => rw [expandAfter_reference ⟨hb, hs⟩, expandAfter_reference ⟨h ▸ hb, hs⟩]
    | true =>
      have hno : ∀ b : Option Char, b.any isNameChar = true → ¬IsBound names b ('$' :: t) :=
        fun b hb h => absurd (hb.symm.trans h.1) (by decide)
      rw [expandAfter_char rfl (hno _ hb), expandAfter_char rfl (hno _ (h ▸ hb))]
  · exact expandAfter_of_not_startsBound hs before before'

/-- A text that stays after some character stays outside words too, unless it starts with a
reference. -/
theorem expandAfter_eq_self_iff (hb : before.any isNameChar = false) (after : Option Char)
    {s : Text} :
    expandAfter names before s = s ↔ expandAfter names after s = s ∧ ¬StartsBound names s := by
  by_cases hs : StartsBound names s
  · refine iff_of_false (fun h => ?_) fun h => h.2 hs
    obtain ⟨t, rfl, -⟩ := id hs
    rw [expandAfter_reference ⟨hb, hs⟩] at h
    exact absurd (List.cons.inj h).1 (by decide)
  · rw [expandAfter_of_not_startsBound hs before after]
    exact (and_iff_left hs).symm

theorem isNameChar_of_mem_reference {s : Text} {c : Char} (h : c ∈ reference s) :
    isNameChar c ∨ c = '.' := by
  have hname : ∀ t : Text, c ∈ t.takeWhile isNameChar → isNameChar c ∨ c = '.' := fun t hm =>
    .inl (List.all_eq_true.mp List.all_takeWhile c hm)
  have hfields : ∀ t : Text, c ∈ (fields t).1 → isNameChar c ∨ c = '.' := by
    intro t hm
    fun_induction fields t with
    | case1 d t hd more ih =>
      simp only [List.cons_append, List.mem_cons, List.mem_append] at hm
      rcases hm with rfl | rfl | hm | hm
      · exact .inr rfl
      · exact .inl hd
      · exact hname t hm
      · exact ih hm
    | case2 => cases hm
    | case3 => cases hm
  exact (List.mem_append.mp h).elim (hname s) (hfields _)

/-- A reference that is more than its sign ends with a character of a name. -/
theorem getLast?_reference {s : Text} (h : reference s ≠ []) :
    ('$' :: reference s).getLast?.any isNameChar := by
  have hname : ∀ t : Text, ∀ c ∈ (t.takeWhile isNameChar).getLast?, isNameChar c := fun t c hc =>
    List.all_eq_true.mp List.all_takeWhile c (List.mem_of_getLast? hc)
  have hfields : ∀ t : Text, ∀ c ∈ (fields t).1.getLast?, isNameChar c := by
    intro t
    fun_induction fields t with
    | case1 d t hd more ih =>
      intro c hc
      rw [List.getLast?_append, Option.mem_def, Option.or_eq_some_iff] at hc
      rcases hc with hc | ⟨-, hc⟩
      · exact ih c hc
      · rw [List.getLast?_cons_cons, ← List.singleton_append, List.getLast?_append,
          Option.or_eq_some_iff] at hc
        rcases hc with hc | ⟨-, hc⟩
        · exact hname t c hc
        · cases hc
          exact hd
    | case2 => simp
    | case3 => simp
  obtain ⟨c, hc⟩ : ∃ c, (reference s).getLast? = some c := by
    cases hr : (reference s).getLast? with
    | none => exact absurd (List.getLast?_eq_none_iff.mp hr) h
    | some c => exact ⟨c, rfl⟩
  have hlast : ('$' :: reference s).getLast? = some c := by
    rw [← List.singleton_append, List.getLast?_append, hc]
    rfl
  rw [hlast]
  rw [reference, List.getLast?_append, Option.or_eq_some_iff] at hc
  rcases hc with hc | ⟨-, hc⟩
  · exact hfields _ c hc
  · exact hname s c hc

theorem crowded_skip {s close inside rest : Text} (hs : skipped? s = some close)
    (hc : Text.cut? close s = some (inside, rest)) :
    Crowded names before s ↔ Crowded names close.getLast? rest := by
  refine exists_congr fun t => and_congr_left fun _ => ⟨fun h => ?_, .skip hs hc⟩
  cases h with
  | here => cases hs
  | reference => cases hs
  | skip hs' hc' h =>
    cases hs.symm.trans hs'
    cases hc.symm.trans hc'
    exact h
  | char hs' => cases hs.symm.trans hs'

theorem not_crowded_open {s close : Text} (hs : skipped? s = some close)
    (hc : Text.cut? close s = none) : ¬Crowded names before s := by
  rintro ⟨t, h, -⟩
  cases h with
  | here => cases hs
  | reference => cases hs
  | skip hs' hc' =>
    cases hs.symm.trans hs'
    cases hc.symm.trans hc'
  | char hs' => cases hs.symm.trans hs'

theorem crowded_reference {s : Text} (hs : IsBound names before ('$' :: s)) :
    Crowded names before ('$' :: s) ↔
      Crowded names ('$' :: reference s).getLast? (afterReference s) ∨
        reference s ≠ [] ∧ StartsBound names (afterReference s) := by
  constructor
  · rintro ⟨t, h, ht⟩
    cases h with
    | here _ hr => exact .inr ⟨hr, ht⟩
    | reference _ h => exact .inl ⟨t, h, ht⟩
    | skip hs' => cases hs'
    | char _ hn => exact absurd hs hn
  · rintro (⟨t, h, ht⟩ | ⟨hr, ht⟩)
    · exact ⟨t, .reference hs h, ht⟩
    · exact ⟨_, .here hs hr, ht⟩

theorem crowded_char {c : Char} {s : Text} (hs : skipped? (c :: s) = none)
    (hn : ¬IsBound names before (c :: s)) :
    Crowded names before (c :: s) ↔ Crowded names (some c) s := by
  refine exists_congr fun t => and_congr_left fun _ => ⟨fun h => ?_, .char hs hn⟩
  cases h with
  | here hb => exact absurd hb hn
  | reference hb => exact absurd hb hn
  | skip hs' => cases hs.symm.trans hs'
  | char _ _ h => exact h

theorem not_crowded_nil : ¬Crowded names before [] := by
  rintro ⟨t, h, -⟩
  cases h with
  | skip hs => cases hs

theorem not_mem_reference (s : Text) : '}' ∉ reference s := fun hm =>
  (isNameChar_of_mem_reference hm).elim (fun h => absurd h (by decide)) (by decide)

/-- A hole is skipped, and what follows it follows a brace. -/
theorem expandAfter_hole (before : Option Char) {w : Text} (hw : '}' ∉ w) (t : Text) :
    expandAfter names before ('{' :: '{' :: (w ++ '}' :: '}' :: t)) =
      '{' :: '{' :: (w ++ '}' :: '}' :: expandAfter names (some '}') t) := by
  have hno : '}' ∉ '{' :: '{' :: w := by simp [hw]
  have hcut : Text.cut? ['}', '}'] ('{' :: '{' :: (w ++ '}' :: '}' :: t)) =
      some ('{' :: '{' :: w, t) := by
    have := @Text.cut?_append_of_not_mem '}' ['}'] _ hno ('}' :: '}' :: t)
    simpa [Text.cut?, Text.strip?] using this
  rw [expandAfter_skip rfl hcut]
  simp

/-- A character that stays in the first pass stays in the second one. -/
theorem expandAfter_stays {c : Char} {s : Text} (hs : skipped? (c :: s) = none)
    (hn : ¬IsBound names before (c :: s)) :
    expandAfter names before (c :: expandAfter names (some c) s) =
      c :: expandAfter names (some c) (expandAfter names (some c) s) := by
  cases ho : skipped? (c :: expandAfter names (some c) s) with
  | none =>
    refine expandAfter_char ho fun hb => hn ⟨hb.1, ?_⟩
    have hstart := startsBound_cons.mp hb.2
    rw [takeWhile_expandAfter] at hstart
    exact startsBound_cons.mpr hstart
  | some close =>
    -- A brace that was alone stands before the braces of a hole now: it belongs to them.
    rcases close_cases ho with ⟨t, ht, -⟩ | ⟨t, ht, -⟩
    · obtain ⟨rfl, ht⟩ := List.cons.inj ht
      cases s with
      | nil =>
        rw [expandAfter] at ht
        cases ht
      | cons d s =>
        rcases expandAfter_cons_cases names (some '{') d s with ⟨u, hu⟩ | hb
        · rw [hu] at ht
          cases (List.cons.inj ht).1
          cases hs
        · obtain ⟨rfl, -⟩ := startsBound_cons.mp hb.2
          have hbrace : '}' ∉ '{' :: reference s := by simp [not_mem_reference]
          rw [expandAfter_reference hb, expandAfter_hole _ (not_mem_reference s)]
          exact expandAfter_hole before hbrace _
    · cases (List.cons.inj ht).1
      cases hs

/-- A text that is written out twice is as it is after the first time, exactly if it is not
crowded. -/
theorem expandAfter_expandAfter_iff (names : List Text) (before : Option Char) (s : Text) :
    expandAfter names before (expandAfter names before s) = expandAfter names before s ↔
      ¬Crowded names before s := by
  induction before, s using scan_induction names with
  | nil before =>
    rw [expandAfter, expandAfter]
    exact iff_of_true rfl not_crowded_nil
  | skip before s close inside rest hs hc ih =>
    have hout :
        skipped? (inside ++ close ++ expandAfter names close.getLast? rest) = some close := by
      rw [List.append_assoc]
      exact skipped?_append (skipped?_inside hs hc) _
    have hcut := Text.cut?_append_of_cut? (close_ne_nil hs) hc
      (expandAfter names close.getLast? rest)
    rw [expandAfter_skip hs hc, expandAfter_skip hout hcut, List.append_cancel_left_eq, ih,
      crowded_skip hs hc]
  | opened before s close hs hc =>
    rw [expandAfter_open hs hc, expandAfter_open hs hc]
    exact iff_of_true rfl (not_crowded_open hs hc)
  | reference before s hs ih =>
    rw [expandAfter_reference hs, expandAfter_hole before (not_mem_reference s),
      crowded_reference hs, not_or, ← ih]
    simp only [List.cons.injEq, List.append_cancel_left_eq, true_and]
    by_cases hr : reference s = []
    · have hlast : (some '}').any isNameChar = ('$' :: reference s).getLast?.any isNameChar := by
        rw [hr]
        rfl
      rw [expandAfter_congr hlast]
      exact (and_iff_left fun h => h.1 hr).symm
    · have hlast := getLast?_reference hr
      rw [@expandAfter_eq_self_iff names (some '}') rfl ('$' :: reference s).getLast?,
        startsBound_expandAfter]
      simp [hr, hlast]
  | char before c s hs hn ih =>
    rw [expandAfter_char hs hn, expandAfter_stays hs hn, List.cons_inj_right, ih,
      crowded_char hs hn]

/-- Writing out the shorthand of a body twice is writing it out once, for any names that are bound,
exactly if no reference that is written out stands right before another reference to one of the
names. -/
theorem expandAfter_twice_iff (names : List Text) (body : Text) :
    expandAfter names none (expandAfter names none body) = expandAfter names none body ↔
      ∀ t, Follows names none body ('$' :: t) → t.takeWhile isNameChar ∉ names := by
  rw [expandAfter_expandAfter_iff]
  constructor
  · intro h t ht hn
    exact h ⟨_, ht, startsBound_cons.mpr ⟨rfl, hn⟩⟩
  · rintro h ⟨_, ht, t, rfl, hn⟩
    exact h t ht hn

/-- Of two references side by side the first pass writes out the first one, and a second pass the
other one. -/
theorem expandAfter_side_by_side :
    expandAfter ["a".toList] none "$a$a".toList = "\x7b\x7ba\x7d\x7d$a".toList ∧
      expandAfter ["a".toList] none (expandAfter ["a".toList] none "$a$a".toList) =
        "\x7b\x7ba\x7d\x7d\x7b\x7ba\x7d\x7d".toList := by
  decide +kernel

end Stencil.Loop
