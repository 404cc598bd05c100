import Mathlib.Data.List.Infix
import Stencil.Markdown.Block

namespace Stencil.Markdown

variable {s t rest : Text} {c : Char}

/-- A turn of a loop takes something from the start of a text, and leaves the rest. -/
def Advances (s rest : Text) : Prop := ∃ taken, taken ≠ [] ∧ s = taken ++ rest

theorem Advances.of_cons_suffix (hs : c :: t <:+ s) (h : rest <:+ t) : Advances s rest := by
  obtain ⟨before, rfl⟩ := hs
  obtain ⟨between, rfl⟩ := h
  exact ⟨before ++ c :: between, by simp, by simp⟩

theorem advances_iff : Advances s rest ↔ rest <:+ s ∧ rest.length < s.length := by
  constructor
  · rintro ⟨taken, hne, rfl⟩
    have := List.length_pos_iff.mpr hne
    exact ⟨List.suffix_append taken rest, by rw [List.length_append]; omega⟩
  · rintro ⟨⟨taken, rfl⟩, hlength⟩
    refine ⟨taken, ?_, rfl⟩
    rintro rfl
    exact absurd hlength (Nat.lt_irrefl _)

/-- A loop ends with one result, and after so many turns at most. -/
def EndsWithin {α : Type} (runs : α → Nat → Prop) (a : α) (turns : Nat) : Prop :=
  (∃ n, runs a n) ∧ ∀ b n, runs b n → b = a ∧ n ≤ turns

namespace LinkAttributes

/-- What one turn of the loop over attributes reads. -/
inductive Item where
  | gap
  | attr (key : Text) (value : Option Text)
  | declaration (d : Text)

def Item.put (a : LinkAttributes) : Item → LinkAttributes
  | gap => a
  | attr key value => { a with attrs := (key, value) :: a.attrs }
  | declaration d => { a with style := d :: a.style }

/-- Reads a gap, or a key with what belongs to it, and gives the rest. -/
def item (s : Text) : Item × Text :=
  match s with
  | [] => (.gap, [])
  | c :: t =>
    if isGap c then (.gap, t)
    else
      let key := s.takeWhile fun c => !endsKey c
      match s.dropWhile fun c => !endsKey c with
      | '=' :: rest => (.attr key (some (value rest).1), (value rest).2)
      | ':' :: rest =>
        (.declaration (Text.trim key ++ ':' :: Text.trim (rest.takeWhile (· != ';'))),
          rest.dropWhile (· != ';'))
      | rest => (.attr key none, rest)

/-- The loop over attributes ends after so many turns. -/
inductive Runs : Text → LinkAttributes → Nat → Prop
  | done : Runs [] empty 0
  | turn {s : Text} {a : LinkAttributes} {n : Nat} (hs : s ≠ []) (h : Runs (item s).2 a n) :
      Runs s ((item s).1.put a) (n + 1)

theorem suffix_value (s : Text) : (value s).2 <:+ s := by
  unfold value
  split
  next => exact List.suffix_rfl
  next q inner =>
    split
    · exact ((List.tail_suffix _).trans (List.dropWhile_suffix _)).trans (List.suffix_cons q inner)
    · exact List.dropWhile_suffix _

theorem item_gap (hc : isGap c) (t : Text) : item (c :: t) = (.gap, t) := by
  rw [item, if_pos hc]

theorem item_equals (t : Text) : item ('=' :: t) = (.attr [] (some (value t).1), (value t).2) := rfl

theorem item_colon (t : Text) : item (':' :: t) =
    (.declaration (':' :: Text.trim (t.takeWhile (· != ';'))), t.dropWhile (· != ';')) := rfl

theorem item_key (hc : endsKey c = false) (t : Text) : item (c :: t) =
    let key := c :: t.takeWhile fun c => !endsKey c
    match t.dropWhile fun c => !endsKey c with
    | '=' :: rest => (.attr key (some (value rest).1), (value rest).2)
    | ':' :: rest =>
      (.declaration (Text.trim key ++ ':' :: Text.trim (rest.takeWhile (· != ';'))),
        rest.dropWhile (· != ';'))
    | rest => (.attr key none, rest) := by
  have hgap : isGap c = false := by
    simp only [endsKey, Bool.or_eq_false_iff] at hc
    exact hc.2
  simp only [item, hgap, List.takeWhile_cons, List.dropWhile_cons, hc, Bool.not_false, if_true,
    Bool.false_eq_true, if_false]

/-- The first character of an item: a gap, a sign that ends an empty key, or the start of a key. -/
theorem first_cases (c : Char) : isGap c ∨ c = '=' ∨ c = ':' ∨ endsKey c = false := by
  cases h : endsKey c with
  | false => exact .inr (.inr (.inr rfl))
  | true =>
    simp only [endsKey, Bool.or_eq_true, beq_iff_eq] at h
    rcases h with (h | h) | h
    · exact .inr (.inl h)
    · exact .inr (.inr (.inl h))
    · exact .inl h

theorem advances_item (hs : s ≠ []) : Advances s (item s).2 := by
  obtain ⟨c, t, rfl⟩ := List.exists_cons_of_ne_nil hs
  refine .of_cons_suffix List.suffix_rfl ?_
  rcases first_cases c with hc | rfl | rfl | hc
  · rw [item_gap hc]
  · rw [item_equals]
    exact suffix_value t
  · rw [item_colon]
    exact List.dropWhile_suffix _
  · have hdrop := List.dropWhile_suffix (l := t) fun c => !endsKey c
    rw [item_key hc]
    dsimp only
    split
    next rest h => exact (suffix_value rest).trans ((List.suffix_cons '=' rest).trans (h ▸ hdrop))
    next rest h =>
      exact (List.dropWhile_suffix _).trans ((List.suffix_cons ':' rest).trans (h ▸ hdrop))
    next => exact hdrop

theorem read_eq (hs : s ≠ []) : read s = (item s).1.put (read (item s).2) := by
  obtain ⟨c, t, rfl⟩ := List.exists_cons_of_ne_nil hs
  rw [read]
  rcases first_cases c with hc | rfl | rfl | hc
  · rw [item_gap hc, if_pos hc]
    rfl
  · rfl
  · rfl
  · have hend : isGap c = false ∧ c ≠ '=' ∧ c ≠ ':' := by
      simp only [endsKey, Bool.or_eq_false_iff, beq_eq_false_iff_ne] at hc
      exact ⟨hc.2, hc.1.1, hc.1.2⟩
    rw [item_key hc, if_neg hend.2.1, if_neg hend.2.2]
    simp only [hend.1, Bool.false_eq_true, if_false]
    split
    next rest h => simp only [h, Item.put]
    next rest h => simp only [h, Item.put]
    next hequals hcolon =>
      split
      next rest h => exact absurd h (hequals rest)
      next rest h => exact absurd h (hcolon rest)
      next => rfl

theorem Runs.eq_read {a : LinkAttributes} {n : Nat} (h : Runs s a n) : a = read s := by
  induction h with
  | done => rw [read]
  | turn hs h ih => rw [read_eq hs, ih]

theorem Runs.le_length {a : LinkAttributes} {n : Nat} (h : Runs s a n) : n ≤ s.length := by
  induction h with
  | done => exact Nat.le_refl 0
  | @turn s a n hs h ih =>
    have := (advances_iff.mp (advances_item hs)).2
    omega

theorem exists_runs (s : Text) : ∃ n, Runs s (read s) n := by
  induction hn : s.length using Nat.strongRecOn generalizing s with
  | ind n ih =>
    subst hn
    by_cases hs : s = []
    · subst hs
      rw [read]
      exact ⟨0, .done⟩
    · obtain ⟨n, h⟩ := ih _ (advances_iff.mp (advances_item hs)).2 (item s).2 rfl
      rw [read_eq hs]
      exact ⟨n + 1, .turn hs h⟩

/-- The loop over attributes ends, whatever the text. -/
theorem runs_endsWithin (s : Text) : EndsWithin (Runs s) (read s) s.length :=
  ⟨exists_runs s, fun _ _ h => ⟨h.eq_read, h.le_length⟩⟩

end LinkAttributes

namespace Inline

/-- The loop over running markup ends after so many turns, those of the loops over what is inside
counted. -/
inductive Runs : Bool → Context → Text → List Inline × Text → Nat → Prop
  | done {oneLine : Bool} {before : Context} : Runs oneLine before [] ([], []) 0
  | lineEnd {before : Context} {s : Text} : Runs true before ('\n' :: s) ([], '\n' :: s) 0
  | lineFeed {before : Context} {s : Text} {more : List Inline × Text} {n : Nat}
      (h : Runs false .other s more n) :
      Runs false before ('\n' :: s) (.text ['\n'] :: more.1, more.2) (n + 1)
  | plain {oneLine : Bool} {before : Context} {c : Char} {s : Text} {more : List Inline × Text}
      {n : Nat} (hc : c ≠ '\n') (hinner : (step before c s).token.inner? = none)
      (h : Runs oneLine (step before c s).after (step before c s).rest more n) :
      Runs oneLine before (c :: s) (ofToken [] (step before c s).token :: more.1, more.2) (n + 1)
  | nested {oneLine : Bool} {before : Context} {c : Char} {s inner : Text}
      {content more : List Inline × Text} {m n : Nat} (hc : c ≠ '\n')
      (hinner : (step before c s).token.inner? = some inner)
      (hcall : Runs false .other inner content m)
      (h : Runs oneLine (step before c s).after (step before c s).rest more n) :
      Runs oneLine before (c :: s) (ofToken content.1 (step before c s).token :: more.1, more.2)
        (m + n + 1)

variable {oneLine : Bool} {before : Context} {r : List Inline × Text} {n : Nat}

/-- What the loop reads in one turn: one token, with what is inside it. -/
theorem read_cons (hc : c ≠ '\n') (oneLine : Bool) (before : Context) (s : Text) :
    read oneLine before (c :: s) =
      (ofToken
          (((step before c s).token.inner?.map fun inner => (read false .other inner).1).getD [])
          (step before c s).token ::
        (read oneLine (step before c s).after (step before c s).rest).1,
        (read oneLine (step before c s).after (step before c s).rest).2) := by
  rw [read, if_neg hc]
  dsimp only
  split
  next inner h => rw [h]; rfl
  next h => rw [h]; rfl

theorem read_lineEnd (before : Context) (s : Text) :
    read true before ('\n' :: s) = ([], '\n' :: s) := by
  rw [read, if_pos rfl, if_pos rfl]

theorem read_lineFeed (before : Context) (s : Text) : read false before ('\n' :: s) =
    (.text ['\n'] :: (read false .other s).1, (read false .other s).2) := by
  rw [read, if_pos rfl, if_neg Bool.false_ne_true]

/-- When the loop ends, it has read what there is to read. -/
theorem Runs.eq_read (h : Runs oneLine before s r n) : r = read oneLine before s := by
  induction h with
  | done => rw [read]
  | lineEnd => rw [read_lineEnd]
  | lineFeed h ih => rw [read_lineFeed, ← ih]
  | plain hc hinner h ih =>
    rw [read_cons hc, hinner, ← ih]
    rfl
  | nested hc hinner hcall h ihcall ih =>
    rw [read_cons hc, hinner, ← ih, Option.map_some, ← ihcall]
    rfl

/-- A turn of the loop, with those of the loop over what is inside, takes a character each. -/
theorem Runs.length_le (h : Runs oneLine before s r n) : n + r.2.length ≤ s.length := by
  induction h with
  | done => exact Nat.le_refl 0
  | lineEnd => exact Nat.le_of_eq (Nat.zero_add _)
  | lineFeed h ih =>
    rw [List.length_cons]
    dsimp only
    omega
  | @plain oneLine before c s more n hc hinner h ih =>
    have := (length_of_step before c s).1
    rw [List.length_cons]
    dsimp only
    omega
  | @nested oneLine before c s inner content more m n hc hinner hcall h ihcall ih =>
    have := (length_of_step before c s).2 inner hinner
    rw [List.length_cons]
    dsimp only
    omega

theorem exists_runs (oneLine : Bool) (before : Context) (s : Text) :
    ∃ n, Runs oneLine before s (read oneLine before s) n := by
  induction hn : s.length using Nat.strongRecOn generalizing oneLine before s with
  | ind n ih =>
    subst hn
    cases s with
    | nil =>
      rw [read]
      exact ⟨0, .done⟩
    | cons c s =>
      by_cases hc : c = '\n'
      · subst hc
        cases oneLine with
        | true =>
          rw [read_lineEnd]
          exact ⟨0, .lineEnd⟩
        | false =>
          obtain ⟨n, h⟩ := ih s.length (Nat.lt_succ_self _) false .other s rfl
          rw [read_lineFeed]
          exact ⟨n + 1, .lineFeed h⟩
      · obtain ⟨hrest, hcall⟩ := length_of_step before c s
        obtain ⟨n, h⟩ := ih _ hrest oneLine (step before c s).after (step before c s).rest rfl
        rw [read_cons hc]
        cases hinner : (step before c s).token.inner? with
        | none => exact ⟨n + 1, .plain hc hinner h⟩
        | some inner =>
          have hlength := hcall inner hinner
          obtain ⟨m, hm⟩ := ih inner.length (by rw [List.length_cons]; omega) false .other inner rfl
          exact ⟨m + n + 1, .nested hc hinner hm h⟩

/-- The loop over running markup ends, whatever the text. -/
theorem runs_endsWithin (oneLine : Bool) (before : Context) (s : Text) :
    EndsWithin (Runs oneLine before s) (read oneLine before s) s.length :=
  ⟨exists_runs oneLine before s, fun _ _ h => ⟨h.eq_read, Nat.le_of_add_right_le h.length_le⟩⟩

theorem suffix_read (oneLine : Bool) (before : Context) (s : Text) :
    (read oneLine before s).2 <:+ s := by
  obtain ⟨n, h⟩ := exists_runs oneLine before s
  generalize read oneLine before s = r at h
  induction h with
  | done => exact List.suffix_rfl
  | lineEnd => exact List.suffix_rfl
  | lineFeed h ih => exact ih.trans (List.suffix_cons _ _)
  | @plain oneLine before c s more n hc hinner h ih =>
    obtain ⟨taken, hs, -⟩ := takes_step before c s
    exact ih.trans ⟨taken, hs.symm⟩
  | @nested oneLine before c s inner content more m n hc hinner hcall h ihcall ih =>
    obtain ⟨taken, hs, -⟩ := takes_step before c s
    exact ih.trans ⟨taken, hs.symm⟩

end Inline

/-- The running markup of a line that is neither blank nor a rule, with the text after the line. -/
def running (s : Text) : Text :=
  let line := firstLine s
  let level := (line.takeWhile (· == '#')).length
  if 1 ≤ level ∧ level ≤ 6 then afterSpace (s.drop level)
  else
    match itemMark? line with
    | some (_, content) => s.drop (line.length - content.length)
    | none => s

/-- A text without the sign of a quote at its start. -/
def unquoted (s : Text) : Text := if s.head? = some '>' then afterSpace s.tail else s

/-- The running markup of the first line of a text, if the line has any. -/
def running? (s : Text) : Option Text :=
  let s := s.dropWhile isIndent
  if (Text.trim (firstLine s)).isEmpty then none
  else if isRule (firstLine (unquoted s)) then none
  else some (running (unquoted s))

/-- A line is rendered with running markup in it, and with what the loop over it leaves. -/
structure Around (content : List Inline × Text) (rendered : Text × Open × Text) : Prop where
  text : ∃ opening closing, rendered.1 = opening ++ (Inline.htmlAll content.1 ++ closing)
  rest : rendered.2.2 = afterLine content.2

/-- The loop over lines ends with a text after so many turns, those of the loops over the running
markup of the lines counted. -/
inductive Lines : Open → Text → Text → Nat → Prop
  | done (o : Open) : Lines o [] (o.closeLists.1 ++ o.closeQuote.1) 0
  | bare {o : Open} {s out : Text} {n : Nat} (hs : s ≠ []) (hrunning : running? s = none)
      (h : Lines (line o s).2.1 (line o s).2.2 out n) : Lines o s ((line o s).1 ++ out) (n + 1)
  | running {o : Open} {s t out : Text} {content : List Inline × Text} {m n : Nat} (hs : s ≠ [])
      (hrunning : running? s = some t) (hcall : Inline.Runs true .other t content m)
      (haround : Around content (line o s)) (h : Lines (line o s).2.1 (line o s).2.2 out n) :
      Lines o s ((line o s).1 ++ out) (m + n + 1)

variable {o : Open} {out : Text} {n : Nat}

theorem suffix_afterSpace (s : Text) : afterSpace s <:+ s := by
  unfold afterSpace
  cases h : Text.strip? [' '] s with
  | none => exact List.suffix_rfl
  | some rest => exact ⟨[' '], (Text.strip?_eq_some_iff.mp h).symm⟩

theorem suffix_afterLine (s : Text) : afterLine s <:+ s := by
  unfold afterLine
  cases h : Text.strip? ['\n'] s with
  | none => exact List.suffix_rfl
  | some rest => exact ⟨['\n'], (Text.strip?_eq_some_iff.mp h).symm⟩

theorem suffix_running (s : Text) : running s <:+ s := by
  unfold running
  dsimp only
  split
  · exact (suffix_afterSpace _).trans (List.drop_suffix _ s)
  · split
    · exact List.drop_suffix _ s
    · exact List.suffix_rfl

theorem suffix_unquoted (s : Text) : unquoted s <:+ s := by
  unfold unquoted
  split
  · exact (suffix_afterSpace _).trans (List.tail_suffix s)
  · exact List.suffix_rfl

theorem suffix_running? (h : running? s = some t) : t <:+ s := by
  unfold running? at h
  dsimp only at h
  split at h
  · cases h
  · split at h
    · cases h
    · cases h
      exact (suffix_running _).trans ((suffix_unquoted _).trans (List.dropWhile_suffix _))

theorem around_contentLine (blanks : Text) (indent : Nat) (o : Open) (s : Text) :
    Around (Inline.read true .other (running s)) (contentLine blanks indent o s) := by
  have hbetween : ∀ a b c d e : Text, a ++ (b ++ c ++ d) ++ e = a ++ b ++ (c ++ (d ++ e)) := by simp
  unfold contentLine running
  dsimp only
  split
  · exact ⟨⟨_, _, hbetween _ _ _ _ _⟩, rfl⟩
  · cases itemMark? (firstLine s) with
    | some r => exact ⟨⟨_, _, (List.append_nil _).symm.trans (hbetween _ _ _ _ _)⟩, rfl⟩
    | none => exact ⟨⟨_, _, hbetween _ _ _ _ _⟩, rfl⟩

theorem Around.append_left {content : List Inline × Text} {rendered : Text × Open × Text}
    (h : Around content rendered) (start : Text) :
    Around content (start ++ rendered.1, rendered.2.1, rendered.2.2) := by
  obtain ⟨opening, closing, htext⟩ := h.text
  exact ⟨⟨start ++ opening, closing, by rw [htext, List.append_assoc]⟩, h.rest⟩

/-- What a line has of running markup is rendered in it. -/
theorem around_line (h : running? s = some t) (o : Open) :
    Around (Inline.read true .other t) (line o s) := by
  unfold running? at h
  dsimp only at h
  split at h
  · cases h
  next hblank =>
    split at h
    · cases h
    next hrule =>
      cases h
      unfold line
      dsimp only
      rw [if_neg hblank, ← unquoted, if_neg hrule]
      exact (around_contentLine _ _ _ _).append_left _

/-- A line without running markup leaves the text after its line feed. -/
theorem suffix_bare (h : running? s = none) (o : Open) : (line o s).2.2 <:+ s := by
  have hindent := List.dropWhile_suffix (l := s) isIndent
  have hafter : ∀ u : Text, afterLine (u.dropWhile (· != '\n')) <:+ u := fun u =>
    (suffix_afterLine _).trans (List.dropWhile_suffix _)
  unfold running? at h
  unfold line
  dsimp only at h ⊢
  split at h
  next hblank =>
    rw [if_pos hblank]
    exact (hafter _).trans hindent
  next hblank =>
    split at h
    next hrule =>
      rw [if_neg hblank, ← unquoted, if_pos hrule]
      exact (hafter _).trans ((suffix_unquoted _).trans hindent)
    next => cases h

theorem advances_line (o : Open) (hs : s ≠ []) : Advances s (line o s).2.2 := by
  refine advances_iff.mpr ⟨?_, length_line_lt hs⟩
  cases h : running? s with
  | some t =>
    rw [(around_line h o).rest]
    exact (suffix_afterLine _).trans ((Inline.suffix_read _ _ t).trans (suffix_running? h))
  | none => exact suffix_bare h o

theorem lines_of_ne_nil (o : Open) (hs : s ≠ []) :
    lines o s = (line o s).1 ++ lines (line o s).2.1 (line o s).2.2 := by
  rw [lines, dif_neg hs]

/-- When the loop ends, it has rendered what there is to render. -/
theorem Lines.eq_lines (h : Lines o s out n) : out = lines o s := by
  induction h with
  | done o => rw [lines, dif_pos rfl]
  | bare hs hrunning h ih => rw [lines_of_ne_nil _ hs, ← ih]
  | running hs hrunning hcall haround h ih => rw [lines_of_ne_nil _ hs, ← ih]

/-- The turns of the loop over lines, and of the loops over their markup, take a character each. -/
theorem Lines.le_length (h : Lines o s out n) : n ≤ 2 * s.length := by
  induction h with
  | done o => exact Nat.zero_le _
  | @bare o s out n hs hrunning h ih =>
    have := length_line_lt (o := o) hs
    omega
  | @running o s t out content m n hs hrunning hcall haround h ih =>
    have hline := @length_line_lt o s hs
    have hmarkup := hcall.length_le
    have hstart := (suffix_running? hrunning).length_le
    have hrest := length_afterLine_le content.2
    rw [← haround.rest] at hrest
    omega

theorem exists_lines (o : Open) (s : Text) : ∃ n, Lines o s (lines o s) n := by
  induction hn : s.length using Nat.strongRecOn generalizing o s with
  | ind n ih =>
    subst hn
    by_cases hs : s = []
    · subst hs
      rw [lines, dif_pos rfl]
      exact ⟨0, .done o⟩
    · obtain ⟨n, h⟩ := ih _ (length_line_lt hs) (line o s).2.1 (line o s).2.2 rfl
      rw [lines_of_ne_nil o hs]
      cases hrunning : running? s with
      | none => exact ⟨n + 1, .bare hs hrunning h⟩
      | some t =>
        obtain ⟨m, hm⟩ := Inline.exists_runs true .other t
        exact ⟨m + n + 1, .running hs hrunning hm (around_line hrunning o) h⟩

/-- The loop over lines ends, whatever the text. -/
theorem lines_endsWithin (o : Open) (s : Text) :
    EndsWithin (Lines o s) (lines o s) (2 * s.length) :=
  ⟨exists_lines o s, fun _ _ h => ⟨h.eq_lines, h.le_length⟩⟩

/-- Every turn of a loop over a text takes something, and what is compiled by a call is shorter than
the text. -/
structure Shrinks (s : Text) : Prop where
  lines (o : Open) (hs : s ≠ []) : Advances s (line o s).2.2
  markup (before : Context) (c : Char) (t : Text) (ht : c :: t <:+ s) :
    Advances (c :: t) (step before c t).rest
  attributes (hs : s ≠ []) : Advances s (LinkAttributes.item s).2
  call (before : Context) (c : Char) (t inner : Text) (ht : c :: t <:+ s)
    (hinner : (step before c t).token.inner? = some inner) : inner.length < s.length

theorem shrinks (s : Text) : Shrinks s where
  lines o hs := advances_line o hs
  markup before c t _ := by
    obtain ⟨taken, hs, hne, -⟩ := takes_step before c t
    exact ⟨taken, hne, hs⟩
  attributes hs := LinkAttributes.advances_item hs
  call before c t inner ht hinner := by
    have hlength := ht.length_le
    have := (length_of_step before c t).2 inner hinner
    rw [List.length_cons] at hlength
    omega

/-- Markup is compiled in time: every loop over a text ends, with what it is compiled to, after at
most two turns for each of its characters, and after at most one if there is only running markup. -/
theorem render_finishes (s : Text) : Shrinks s ∧
    EndsWithin (Lines .nothing s) (render s) (2 * s.length) ∧
    (∃ content, EndsWithin (Inline.Runs false .other s) content s.length ∧
      renderInline s = Inline.htmlAll content.1) ∧
    EndsWithin (LinkAttributes.Runs s) (LinkAttributes.read s) s.length :=
  ⟨shrinks s, lines_endsWithin .nothing s, ⟨_, Inline.runs_endsWithin false .other s, rfl⟩,
    LinkAttributes.runs_endsWithin s⟩

end Stencil.Markdown
