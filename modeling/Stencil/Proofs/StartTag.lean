import Stencil.Engine
import Stencil.Proofs.Filling

namespace Stencil

namespace InlineTag

theorem afterInside_brace (s : Text) : afterInside ('}' :: s) = afterInside s := by
  rw [afterInside]
  simp

theorem afterInside_dropWhile (s : Text) :
    afterInside (s.dropWhile (· == '}')) = afterInside s := by
  induction s with
  | nil => rfl
  | cons c s ih =>
    by_cases hc : c = '}'
    · subst hc
      simp [ih, afterInside_brace]
    · simp [hc]

theorem afterInside_char {c : Char} {s : Text} (hl : c ≠ '<') (hg : c ≠ '>')
    (hb : c = '{' → s.head? ≠ some '{') : afterInside (c :: s) = afterInside s := by
  rw [afterInside]
  have : ¬(c = '{' ∧ s.head? = some '{') := fun h => hb h.1 h.2
  simp [hl, hg, this]

theorem afterInside_hole {h : Hole} (hd : h.Delimited) (s : Text) :
    afterInside (h.written ++ s) = afterInside s := by
  have hno : ∀ pre : Text, (∀ c ∈ pre, c = '{') → ¬['}', '}'] <:+: (pre ++ h.inner) ++ ['}'] := by
    intro pre hpre
    induction pre with
    | nil => exact hd.closes
    | cons c pre ih =>
      intro hi
      rcases List.infix_cons_iff.mp hi with ⟨t, ht⟩ | hi
      · have hc := hpre c List.mem_cons_self
        exact absurd ((List.cons.inj ht).1.trans hc) (by decide)
      · exact ih (fun c hc => hpre c (List.mem_cons_of_mem _ hc)) hi
  have hcut : ∀ (pre : Text) (t : Text), (∀ c ∈ pre, c = '{') →
      Text.cut? ['}', '}'] (pre ++ h.inner ++ ['}', '}'] ++ t) = some (pre ++ h.inner, t) :=
    fun pre t hpre => Text.cut?_append_of_not_infix (by simp) (hno pre hpre) t
  rcases h with ⟨raw, inner⟩
  cases raw with
  | false =>
    have := hcut ['{'] s (by simp)
    have hafter : afterHole ('{' :: (inner ++ '}' :: '}' :: s)) = s.dropWhile (· == '}') := by
      unfold afterHole
      simp only [List.cons_append, List.nil_append, List.append_assoc] at this
      rw [this]
    have hw : (⟨false, inner⟩ : Hole).written ++ s = '{' :: '{' :: (inner ++ '}' :: '}' :: s) := by
      simp [Hole.written, Hole.opening, Hole.closing]
    rw [hw, afterInside]
    simp [hafter, afterInside_dropWhile]
  | true =>
    have := hcut ['{', '{'] ('}' :: s) (by simp)
    have hafter : afterHole ('{' :: '{' :: (inner ++ '}' :: '}' :: '}' :: s)) =
        s.dropWhile (· == '}') := by
      unfold afterHole
      simp only [List.cons_append, List.nil_append, List.append_assoc] at this
      rw [this]
      rfl
    have hw : (⟨true, inner⟩ : Hole).written ++ s =
        '{' :: '{' :: '{' :: (inner ++ '}' :: '}' :: '}' :: s) := by
      simp [Hole.written, Hole.opening, Hole.closing]
    rw [hw, afterInside]
    simp [hafter, afterInside_dropWhile]

def isAngle (c : Char) : Bool := c == '<' || c == '>'

/-- No angle bracket stands outside the holes. -/
def Plain (ps : List Hole.Piece) : Prop := ∀ c, .inl c ∈ ps → isAngle c = false

theorem head?_write_append {ps : List Hole.Piece} {s : Text}
    (hp : (Hole.write ps).head? ≠ some '{') (hs : s.head? ≠ some '{') :
    (Hole.write ps ++ s).head? ≠ some '{' := by
  cases h : Hole.write ps with
  | nil => exact hs
  | cons c t => simpa [h] using hp

/-- The inside of a tag is left at the first angle bracket outside holes. -/
theorem afterInside_write {ps : List Hole.Piece} (hp : Hole.Parted ps) (hplain : Plain ps)
    {s : Text} (hs : s.head? ≠ some '{') : afterInside (Hole.write ps ++ s) = afterInside s := by
  induction ps with
  | nil => rfl
  | cons piece ps ih =>
    have hmore : Plain ps := fun c hc => hplain c (List.mem_cons_of_mem _ hc)
    cases piece with
    | inl c =>
      have hc := hplain c List.mem_cons_self
      simp only [isAngle, Bool.or_eq_false_iff, beq_eq_false_iff_ne] at hc
      rw [Hole.write_char, List.cons_append, afterInside_char hc.1 hc.2, ih hp.2 hmore]
      exact fun hb => head?_write_append (hp.1 hb) hs
    | inr h => rw [Hole.write_hole, List.append_assoc, afterInside_hole hp.1, ih hp.2 hmore]

theorem afterInside_angle {c : Char} (hc : isAngle c) (s : Text) :
    afterInside (c :: s) = c :: s := by
  rw [afterInside]
  have : c = '<' ∨ c = '>' := by simpa [isAngle] using hc
  simp [this]

/-- What stands between angle brackets is read as a tag if it starts with a letter and holds no
angle bracket outside holes. -/
theorem lead?_enclosed {inside : List Hole.Piece} (hn : ∃ c ps, inside = .inl c :: ps ∧ c.isAlpha)
    (hp : Hole.Parted inside) (h : Plain inside) (rest : Text) :
    lead? ('<' :: (Hole.write inside ++ '>' :: rest)) =
      some (.inr ('<' :: (Hole.write inside ++ ['>'])), rest) := by
  obtain ⟨c, ps, rfl, hc⟩ := hn
  have hafter : afterInside (c :: (Hole.write ps ++ '>' :: rest)) = '>' :: rest := by
    have := afterInside_write hp h (s := '>' :: rest) (by simp)
    rwa [afterInside_angle rfl] at this
  rw [Hole.write_char, List.cons_append, lead?]
  simp only [hc, if_true, hafter]
  refine congrArg (fun w => some (Sum.inr w, rest)) ?_
  have hl : (Hole.write ps ++ '>' :: rest).length + 2 - rest.length =
      ('<' :: (c :: Hole.write ps ++ ['>'])).length := by
    simp
    omega
  have hw : '<' :: c :: (Hole.write ps ++ '>' :: rest) =
      '<' :: (c :: Hole.write ps ++ ['>']) ++ rest := by simp
  rw [hl, hw, List.take_left]

theorem lead?_of_not_alpha {c : Char} {s : Text} (h : c = '<' → ∀ d ∈ s.head?, d.isAlpha = false) :
    lead? (c :: s) = none := by
  unfold lead?
  split
  next d t heq =>
    obtain ⟨rfl, rfl⟩ := List.cons.inj heq
    simp [h rfl d (by simp)]
  next => rfl

theorem pieces_of_lead? {s rest : Text} {piece : Text ⊕ Text} (h : lead? s = some (piece, rest)) :
    pieces s = piece :: pieces rest := by
  cases s with
  | nil => simp [lead?] at h
  | cons c s =>
    rw [pieces]
    split
    next hh => cases Option.some.inj (h.symm.trans hh); rfl
    next hh => rw [h] at hh; simp at hh

theorem pieces_cons {c : Char} {s : Text} (h : lead? (c :: s) = none) :
    pieces (c :: s) = .inl [c] :: pieces s := by
  rw [pieces]
  split
  next hh => rw [h] at hh; simp at hh
  next => rfl

/-- Text in which no tag starts is running text. -/
theorem pieces_append {s t : Text} (hs : ∀ a c b, s = a ++ '<' :: c :: b → c.isAlpha = false)
    (ht : ∀ c ∈ t.head?, c.isAlpha = false) :
    pieces (s ++ t) = s.map (fun c => .inl [c]) ++ pieces t := by
  induction s with
  | nil => rfl
  | cons c s ih =>
    have hlead : lead? (c :: (s ++ t)) = none := by
      refine lead?_of_not_alpha ?_
      rintro rfl d hd
      cases s with
      | nil => exact ht d (by simpa using hd)
      | cons e s =>
        cases Option.some.inj hd
        exact hs [] d s rfl
    rw [List.cons_append, pieces_cons hlead, ih fun a d b he => hs (c :: a) d b (by simp [he])]
    rfl

end InlineTag

/-- Where in a start tag something stands: between attributes, at the start of a value, in a value
without quotes, or in a quoted one. -/
inductive Spot where
  | between
  | start
  | bare
  | quoted (quote : Char)
deriving Repr, DecidableEq

namespace Spot

/-- The spot after a piece. A hole is part of a value, whatever will stand in its place. -/
def after : Spot → Hole.Piece → Spot
  | between, .inl c => if c = '=' then start else between
  | between, .inr _ => between
  | start, .inl c =>
    if isAsciiBlank c then start else if c = '"' ∨ c = '\'' then quoted c else bare
  | start, .inr _ => bare
  | bare, .inl c => if isAsciiBlank c then between else bare
  | bare, .inr _ => bare
  | quoted q, .inl c => if c = q then between else quoted q
  | quoted q, .inr _ => quoted q

/-- Does a tag go on to the end of these pieces, and can it end there? Angle brackets stand in
quoted values only, and these are closed. -/
def Within : Spot → List Hole.Piece → Prop
  | spot, [] => ∀ q, spot ≠ quoted q
  | spot, p :: ps =>
    (∀ c, p = .inl c → InlineTag.isAngle c → ∃ q, spot = quoted q) ∧ Within (spot.after p) ps

end Spot

/-- A start tag: what stands between its angle brackets, the first character of the name first. -/
structure StartTag where
  inside : List Hole.Piece
  named : ∃ c ps, inside = .inl c :: ps ∧ c.isAlpha
  parted : Hole.Parted inside
  within : Spot.between.Within inside

namespace StartTag

open InlineTag

def pieces (t : StartTag) : List Hole.Piece := .inl '<' :: t.inside ++ [.inl '>']

def written (t : StartTag) : Text := '<' :: (Hole.write t.inside ++ ['>'])

theorem write_pieces (t : StartTag) : Hole.write t.pieces = t.written := by
  simp [pieces, written]

theorem parted_append {ps qs : List Hole.Piece} (hp : Hole.Parted ps) (hq : Hole.Parted qs)
    (hh : (Hole.write qs).head? ≠ some '{') : Hole.Parted (ps ++ qs) := by
  induction ps with
  | nil => exact hq
  | cons p ps ih =>
    cases p with
    | inl c =>
      have hhead : c = '{' → (Hole.write (ps ++ qs)).head? ≠ some '{' := fun hc => by
        rw [Hole.write_append]
        exact head?_write_append (hp.1 hc) hh
      exact ⟨hhead, ih hp.2⟩
    | inr h => exact ⟨hp.1, ih hp.2⟩

theorem parted_left {ps qs : List Hole.Piece} (h : Hole.Parted (ps ++ qs)) : Hole.Parted ps := by
  induction ps with
  | nil => trivial
  | cons p ps ih =>
    cases p with
    | inr hole => exact ⟨h.1, ih h.2⟩
    | inl c =>
      have hhead : c = '{' → (Hole.write ps ++ Hole.write qs).head? ≠ some '{' := by
        have h1 : c = '{' → (Hole.write (ps ++ qs)).head? ≠ some '{' := h.1
        rwa [Hole.write_append] at h1
      refine ⟨fun hc => ?_, ih h.2⟩
      have := hhead hc
      cases hw : Hole.write ps with
      | nil => simp
      | cons d t => simpa [hw] using this

theorem parted_pieces (t : StartTag) : Hole.Parted t.pieces := by
  have hend : Hole.Parted [.inl '>'] := ⟨by simp, trivial⟩
  exact ⟨fun h => absurd h (by decide), parted_append t.parted hend (by simp)⟩

/-- A tag is read as such if no angle bracket stands in its quoted values. -/
theorem lead?_written {t : StartTag} (h : Plain t.inside) (rest : Text) :
    lead? (t.written ++ rest) = some (.inr t.written, rest) := by
  have := lead?_enclosed t.named t.parted h rest
  simpa [written] using this

theorem exists_angle {ps : List Hole.Piece} (h : ¬Plain ps) :
    ∃ a c b, ps = a ++ .inl c :: b ∧ isAngle c ∧ Plain a := by
  induction ps with
  | nil => exact absurd (fun c hc => by simp at hc) h
  | cons p ps ih =>
    by_cases hp : ∃ c, p = .inl c ∧ isAngle c
    · obtain ⟨c, rfl, hc⟩ := hp
      exact ⟨[], c, ps, rfl, hc, fun c hc => by simp at hc⟩
    · have hone : ∀ c, p = .inl c → isAngle c = false := fun c he =>
        Bool.eq_false_iff.mpr fun hc => hp ⟨c, he, hc⟩
      obtain ⟨a, c, b, rfl, hc, ha⟩ := ih fun hps => h fun c hm => by
        rcases List.mem_cons.mp hm with he | hm
        · exact hone c he.symm
        · exact hps c hm
      refine ⟨p :: a, c, b, rfl, hc, fun d hd => ?_⟩
      rcases List.mem_cons.mp hd with he | hd
      · exact hone d he.symm
      · exact ha d hd

/-- A tag with an angle bracket in a quoted value is read as something else. -/
theorem lead?_ne_written {t : StartTag} (h : ¬Plain t.inside) (rest : Text) :
    ∃ piece r, lead? (t.written ++ rest) = some (piece, r) ∧ piece ≠ .inr t.written := by
  obtain ⟨a, c, b, hi, hc, ha⟩ := exists_angle h
  obtain ⟨d, ps, hd, halpha⟩ := t.named
  have hparted : Hole.Parted a := parted_left (hi ▸ t.parted)
  have hbrace : (c :: (Hole.write b ++ '>' :: rest)).head? ≠ some '{' := by
    intro he
    cases Option.some.inj he
    exact absurd hc (by decide)
  have hafter : afterInside (Hole.write t.inside ++ '>' :: rest) =
      c :: (Hole.write b ++ '>' :: rest) := by
    rw [hi, Hole.write_append, List.append_assoc, Hole.write_char, List.cons_append,
      afterInside_write hparted ha hbrace, afterInside_angle hc]
  have hlen : (Hole.write t.inside).length = (Hole.write a).length + 1 + (Hole.write b).length := by
    simp [hi]
    omega
  have hlen' : (Hole.write t.inside).length = (Hole.write ps).length + 1 := by simp [hd]
  have hw : t.written ++ rest = '<' :: d :: (Hole.write ps ++ '>' :: rest) := by
    simp [written, hd]
  rw [hd, Hole.write_char, List.cons_append] at hafter
  rw [hw, lead?]
  simp only [halpha, if_true, hafter]
  split
  next r heq =>
    obtain ⟨rfl, rfl⟩ := List.cons.inj heq
    refine ⟨_, _, rfl, fun he => ?_⟩
    have := congrArg List.length (Sum.inr.inj he)
    simp only [written, List.length_take, List.length_cons, List.length_append,
      List.length_nil] at this
    omega
  next => exact ⟨_, _, rfl, by simp⟩

/-- A tag with its holes filled as those of a tag are. -/
def fillings (t : StartTag) (r : Resolver) : List (Char ⊕ Filling) :=
  t.pieces.map (Sum.map id (Filling.inTag r))

end StartTag

/-- A text of a template as a page has it: running text and start tags, and among them tags that are
cut off, by the end of the text or by an angle bracket. -/
inductive Markup where
  | last (run : List Hole.Piece)
  | cut (run inside : List Hole.Piece) (more : Markup)
  | tag (run : List Hole.Piece) (t : StartTag) (more : Markup)

namespace Markup

open InlineTag

/-- Running text: its holes can be told apart, and no tag starts in it. -/
structure Running (run : List Hole.Piece) : Prop where
  parted : Hole.Parted run
  noTag : ∀ a c b, Hole.write run = a ++ '<' :: c :: b → c.isAlpha = false

structure CutOff (inside : List Hole.Piece) : Prop where
  named : ∃ c ps, inside = .inl c :: ps ∧ c.isAlpha
  parted : Hole.Parted inside
  plain : Plain inside

def written : Markup → Text
  | last run => Hole.write run
  | cut run inside more => Hole.write run ++ '<' :: (Hole.write inside ++ written more)
  | tag run t more => Hole.write run ++ (t.written ++ written more)

/-- The parts of a text are what they are called. -/
def WellFormed : Markup → Prop
  | last run => Running run
  | cut run inside more =>
    Running run ∧ CutOff inside ∧ (∀ c ∈ more.written.head?, c = '<') ∧ WellFormed more
  | tag run _ more => Running run ∧ WellFormed more

def tags : Markup → List StartTag
  | last _ => []
  | cut _ _ more => tags more
  | tag _ t more => t :: tags more

/-- What the renderer has to find: the tags, on the right, and the text around them. -/
def inline : Markup → List (Text ⊕ Text)
  | last run => (Hole.write run).map fun c => .inl [c]
  | cut run inside more =>
    ((Hole.write run).map fun c => .inl [c]) ++ .inl ('<' :: Hole.write inside) :: inline more
  | tag run t more => ((Hole.write run).map fun c => .inl [c]) ++ .inr t.written :: inline more

theorem pieces_run {run : List Hole.Piece} (h : Running run) {s : Text}
    (hs : ∀ c ∈ s.head?, c = '<') : InlineTag.pieces (Hole.write run ++ s) =
      ((Hole.write run).map fun c => .inl [c]) ++ InlineTag.pieces s :=
  pieces_append h.noTag fun c hc => by
    rw [hs c hc]
    decide

theorem lead?_cutOff {inside : List Hole.Piece} (h : CutOff inside) {s : Text}
    (hs : ∀ c ∈ s.head?, c = '<') :
    lead? ('<' :: (Hole.write inside ++ s)) = some (.inl ('<' :: Hole.write inside), s) := by
  obtain ⟨c, ps, hi, hc⟩ := h.named
  have hafter : afterInside (Hole.write inside ++ s) = s := by
    have hbrace : s.head? ≠ some '{' := fun he => absurd (hs _ he) (by decide)
    rw [afterInside_write h.parted h.plain hbrace]
    cases s with
    | nil => simp [afterInside]
    | cons d s => rw [hs d rfl, afterInside_angle rfl]
  have hne : ∀ r, s ≠ '>' :: r := by
    rintro r rfl
    exact absurd (hs '>' rfl) (by decide)
  rw [hi, Hole.write_char, List.cons_append] at hafter ⊢
  rw [lead?]
  have hl : (Hole.write ps ++ s).length + 2 - s.length = ('<' :: c :: Hole.write ps).length := by
    simp
    omega
  simp only [hc, if_true, hafter, hl]
  refine congrArg (fun w => some (Sum.inl w, s)) ?_
  rw [← List.cons_append, ← List.cons_append, List.take_left]

theorem pieces_written {m : Markup} (hm : m.WellFormed) :
    InlineTag.pieces m.written = m.inline ↔ ∀ t ∈ m.tags, Plain t.inside := by
  induction m with
  | last run =>
    have := pieces_run hm (s := []) (by simp)
    simp only [List.append_nil] at this
    simp [written, inline, tags, this, InlineTag.pieces]
  | cut run inside more ih =>
    obtain ⟨hrun, hcut, hhead, hmore⟩ := hm
    rw [written, pieces_run hrun (by simp), inline, List.append_cancel_left_eq,
      pieces_of_lead? (lead?_cutOff hcut hhead), tags, ← ih hmore]
    simp
  | tag run t more ih =>
    obtain ⟨hrun, hmore⟩ := hm
    have hstart : ∀ c ∈ (t.written ++ more.written).head?, c = '<' := by
      intro c hc
      exact (Option.some.inj hc).symm
    rw [written, pieces_run hrun hstart, inline, List.append_cancel_left_eq, tags,
      List.forall_mem_cons]
    by_cases hplain : Plain t.inside
    · rw [pieces_of_lead? (StartTag.lead?_written hplain _)]
      simp [hplain, ih hmore]
    · obtain ⟨piece, rest, hlead, hne⟩ := StartTag.lead?_ne_written hplain more.written
      rw [pieces_of_lead? hlead]
      exact ⟨fun he => absurd (List.cons.inj he).1 hne, fun h => absurd h.1 hplain⟩

/-- A text with the holes of its tags filled, when so many fragments are finished already. -/
def once (early : Bool) (r : Resolver) : Nat → Markup → List Hole.Piece
  | _, last run => run
  | n, cut run inside more => run ++ .inl '<' :: (inside ++ once early r n more)
  | n, tag run t more =>
    run ++ (Filling.pieces early n (t.fillings r) ++
      once early r (n + (Filling.fragments early (t.fillings r)).length) more)

def attributeFragments (early : Bool) (r : Resolver) (m : Markup) : List Text :=
  m.tags.flatMap fun t => Filling.fragments early (t.fillings r)

/-- What stands at the holes of the running text once those of the tags are filled. -/
def texts (early : Bool) (body : Option Text) (r : Resolver) (n : Nat) (m : Markup) :
    List (Char ⊕ Filling) :=
  (m.once early r n).map (Sum.map id (Filling.inText body r))

theorem verbatim_inTag {r : Resolver} {h : Hole} {s : Text}
    (hv : Filling.inTag r h = .verbatim s) : s = [] := by
  unfold Filling.inTag at hv
  dsimp only at hv
  split at hv
  · simp at hv
  · split at hv
    · exact (Filling.verbatim.inj hv).symm
    · simp at hv
  · simp at hv

theorem stays_inTag {r : Resolver} (h h' : Hole) (hs : Filling.inTag r h = .stays h') : h' = h := by
  unfold Filling.inTag at hs
  dsimp only at hs
  split at hs
  · exact (Filling.stays.inj hs).symm
  · split at hs <;> simp at hs
  · simp at hs

theorem stays_inText {body : Option Text} {r : Resolver} (h h' : Hole)
    (hs : Filling.inText body r h = .stays h') : h' = h := by
  unfold Filling.inText at hs
  dsimp only at hs
  split at hs
  · simp at hs
  · split at hs
    · exact (Filling.stays.inj hs).symm
    · split at hs <;> simp at hs

theorem parted_map_inl {s : Text} (hs : '{' ∉ s) {ps : List Hole.Piece} (hp : Hole.Parted ps) :
    Hole.Parted (s.map .inl ++ ps) := by
  induction s with
  | nil => exact hp
  | cons c s ih =>
    have hc : c ≠ '{' := fun he => hs (he ▸ List.mem_cons_self)
    exact ⟨fun h => absurd h hc, ih (List.not_mem_of_not_mem_cons hs)⟩

theorem not_mem_reference (n : Nat) : '{' ∉ Reference.write Reference.fragment n := by
  intro hm
  simp only [Reference.write, Reference.fragment, Marker.closing, List.mem_append, List.mem_cons,
    List.not_mem_nil, or_false] at hm
  rcases hm with ((hm | hm | hm) | hm) | hm | hm
  · exact absurd hm (by decide)
  · exact absurd hm (by decide)
  · exact absurd hm (by decide)
  · exact Text.not_mem_ofNat (by decide) n hm
  · exact absurd hm (by decide)
  · exact absurd hm (by decide)

/-- No hole arises where the holes of a tag are filled. -/
theorem parted_pieces (early : Bool) {r : Resolver} {ps : List Hole.Piece} (hp : Hole.Parted ps)
    (n : Nat) : Hole.Parted (Filling.pieces early n (ps.map (Sum.map id (Filling.inTag r)))) := by
  induction ps generalizing n with
  | nil => trivial
  | cons p ps ih =>
    cases p with
    | inl c =>
      refine ⟨fun hc hh => hp.1 hc ?_, ih hp.2 n⟩
      cases ps with
      | nil => simp [Filling.pieces] at hh
      | cons q ps =>
        cases q with
        | inl d => simpa [Filling.pieces] using hh
        | inr hole => simp [Hole.written_eq]
    | inr hole =>
      rw [List.map_cons, Sum.map_inr]
      cases hf : Filling.inTag r hole with
      | verbatim s =>
        cases verbatim_inTag hf
        exact ih hp.2 n
      | stays h =>
        cases stays_inTag _ _ hf
        exact ⟨hp.1, ih hp.2 n⟩
      | fragment html =>
        cases early with
        | true => exact parted_map_inl (Marker.brace_not_mem_shield html) (ih hp.2 n)
        | false => exact parted_map_inl (not_mem_reference n) (ih hp.2 (n + 1))

theorem pieces_fillings (early : Bool) (t : StartTag) (r : Resolver) (n : Nat) :
    Filling.pieces early n (t.fillings r) = .inl '<' ::
      (Filling.pieces early n (t.inside.map (Sum.map id (Filling.inTag r))) ++ [.inl '>']) := by
  have hfillings : t.fillings r =
      .inl '<' :: (t.inside.map (Sum.map id (Filling.inTag r)) ++ [.inl '>']) := by
    simp [StartTag.fillings, StartTag.pieces]
  rw [hfillings, Filling.pieces, Filling.pieces_append]
  rfl

theorem head?_once {m : Markup} {early : Bool} {r : Resolver} {n : Nat}
    (h : ∀ c ∈ m.written.head?, c = '<') : (Hole.write (m.once early r n)).head? ≠ some '{' := by
  have hrun : ∀ {run : List Hole.Piece} {s t : Text},
      (∀ c ∈ (Hole.write run ++ '<' :: s).head?, c = '<') →
      (Hole.write run ++ '<' :: t).head? ≠ some '{' := by
    intro run s t hs
    cases hw : Hole.write run with
    | nil => simp
    | cons c u =>
      rw [hw] at hs
      rw [hs c rfl]
      simp
  cases m with
  | last run => exact fun he => absurd (h '{' he) (by decide)
  | cut run inside more =>
    rw [once, Hole.write_append, Hole.write_char]
    exact hrun h
  | tag run t more =>
    rw [once, pieces_fillings, Hole.write_append, List.cons_append, Hole.write_char]
    exact hrun h

theorem parted_once {m : Markup} (hm : m.WellFormed) (early : Bool) (r : Resolver) (n : Nat) :
    Hole.Parted (m.once early r n) := by
  have hangle : ∀ {c : Char} {ps : List Hole.Piece}, c ≠ '{' → Hole.Parted ps →
      Hole.Parted (.inl c :: ps) := fun hc h => ⟨fun he => absurd he hc, h⟩
  induction m generalizing n with
  | last run => exact hm.parted
  | cut run inside more ih =>
    obtain ⟨hrun, hcut, hhead, hmore⟩ := hm
    have := StartTag.parted_append hcut.parted (ih hmore n) (head?_once hhead)
    exact StartTag.parted_append hrun.parted (hangle (by decide) this) (by simp)
  | tag run t more ih =>
    have hmore := ih hm.2 (n + (Filling.fragments early (t.fillings r)).length)
    have htag := StartTag.parted_append (parted_pieces early (r := r) t.parted n)
      (hangle (c := '>') (by decide) hmore) (by simp)
    rw [once, pieces_fillings]
    refine StartTag.parted_append hm.1.parted ?_ (by simp)
    simpa using hangle (c := '<') (by decide) htag

end Markup

namespace Rendering

open InlineTag

variable {σ : Type}

/-- What the filling of tags makes of running text, on the left, and of a tag, on the right. -/
def fillInline (f : Hole → Rendering σ (Option Text)) : Text ⊕ Text → Rendering σ Text
  | .inl t => pure t
  | .inr tag => Hole.fillM f tag

theorem fillTagsM_eq (f : Hole → Rendering σ (Option Text)) (s : Text) :
    InlineTag.fillM f s = (return (← (InlineTag.pieces s).mapM (fillInline f)).flatten) := by
  rw [InlineTag.fillM]
  refine congrArg (fun g =>
    (do return (← (InlineTag.pieces s).mapM g).flatten : Rendering σ Text)) ?_
  funext piece
  cases piece <;> rfl

theorem mapM_running (f : Hole → Rendering σ (Option Text)) (s : Text) (ps : List (Text ⊕ Text))
    (p : Progress σ) : (s.map (fun c => (.inl [c] : Text ⊕ Text)) ++ ps).mapM (fillInline f) p =
      (s.map (fun c => [c]) ++ (ps.mapM (fillInline f) p).1, (ps.mapM (fillInline f) p).2) := by
  induction s with
  | nil => rfl
  | cons c s ih => exact mapM_cons_run rfl ih

theorem flatten_running (s : Text) (out : List Text) :
    (s.map (fun c => [c]) ++ out).flatten = s ++ out.flatten := by
  induction s with
  | nil => rfl
  | cons c s ih => exact congrArg (List.cons c) ih

/-- Filling the holes inside tags leaves the running text as it is. -/
theorem mapM_inline {frame : Frame σ} {f : Hole → Rendering σ (Option Text)} {r : Resolver}
    (hf : ∀ h, f h = place frame (Filling.inTag r h)) (m : Markup) (p : Progress σ) :
    ∃ out, m.inline.mapM (fillInline f) p =
        (out, p.stashAll (m.attributeFragments frame.pass.isEarly r)) ∧
      out.flatten = Hole.write (m.once frame.pass.isEarly r p.size) := by
  induction m generalizing p with
  | last run =>
    have := mapM_running f (Hole.write run) [] p
    refine ⟨(Hole.write run).map (fun c => [c]), ?_, ?_⟩
    · simpa [Markup.inline, Markup.attributeFragments, Markup.tags, pure, StateT.pure] using this
    · simpa [Markup.once] using flatten_running (Hole.write run) []
  | cut run inside more ih =>
    obtain ⟨out, ho, hflat⟩ := ih p
    have hcut : (Sum.inl ('<' :: Hole.write inside) :: more.inline).mapM (fillInline f) p =
        (('<' :: Hole.write inside) :: out,
          p.stashAll (more.attributeFragments frame.pass.isEarly r)) := mapM_cons_run rfl ho
    refine ⟨(Hole.write run).map (fun c => [c]) ++ ('<' :: Hole.write inside) :: out, ?_, ?_⟩
    · rw [Markup.inline, mapM_running, hcut]
      rfl
    · rw [flatten_running, List.flatten_cons, hflat, Markup.once, Hole.write_append,
        Hole.write_char, Hole.write_append, List.cons_append]
  | tag run t more ih =>
    have hfill := fillM_write hf Markup.stays_inTag t.parted_pieces p
    rw [t.write_pieces] at hfill
    obtain ⟨out, ho, hflat⟩ :=
      ih (p.stashAll (Filling.fragments frame.pass.isEarly (t.fillings r)))
    rw [← Progress.stashAll_append] at ho
    rw [Progress.size_stashAll] at hflat
    have htag : (Sum.inr t.written :: more.inline).mapM (fillInline f) p =
        (Hole.write (Filling.pieces frame.pass.isEarly p.size (t.fillings r)) :: out,
          p.stashAll (Filling.fragments frame.pass.isEarly (t.fillings r) ++
            more.attributeFragments frame.pass.isEarly r)) := mapM_cons_run hfill ho
    refine ⟨(Hole.write run).map (fun c => [c]) ++
      Hole.write (Filling.pieces frame.pass.isEarly p.size (t.fillings r)) :: out, ?_, ?_⟩
    · rw [Markup.inline, mapM_running, htag]
      rfl
    · rw [flatten_running, List.flatten_cons, hflat, Markup.once, Hole.write_append,
        Hole.write_append]

theorem fillM_inline {frame : Frame σ} {f : Hole → Rendering σ (Option Text)} {r : Resolver}
    (hf : ∀ h, f h = place frame (Filling.inTag r h)) {m : Markup} (hm : m.WellFormed)
    (hplain : ∀ t ∈ m.tags, Plain t.inside) (p : Progress σ) :
    InlineTag.fillM f m.written p = (Hole.write (m.once frame.pass.isEarly r p.size),
      p.stashAll (m.attributeFragments frame.pass.isEarly r)) := by
  obtain ⟨out, ho, hflat⟩ := mapM_inline hf m p
  rw [fillTagsM_eq, (Markup.pieces_written hm).mpr hplain, ← hflat]
  simp only [bind, StateT.bind, pure, StateT.pure, ho]

/-- Filling a text whose start tags the renderer finds. -/
theorem interpolate_written (frame : Frame σ) (scope : Scope) {m : Markup} (hm : m.WellFormed)
    (hplain : ∀ t ∈ m.tags, Plain t.inside) (p : Progress σ) :
    interpolate frame scope m.written p =
      let r := frame.resolver scope
      let early := frame.pass.isEarly
      let q := p.stashAll (m.attributeFragments early r)
      let texts := m.texts early frame.body r p.size
      (Hole.write (Filling.pieces early q.size texts),
        q.stashAll (Filling.fragments early texts)) := by
  have htags := fillM_inline (attributeHole_eq frame (frame.resolver scope)) hm hplain p
  have htext := fillM_write (textHole_eq frame (frame.resolver scope)) Markup.stays_inText
    (Markup.parted_once hm frame.pass.isEarly (frame.resolver scope) p.size)
    (p.stashAll (m.attributeFragments frame.pass.isEarly (frame.resolver scope)))
  rw [interpolate]
  simp only [bind, StateT.bind, htags]
  exact htext

end Rendering

theorem Escape.attributeChar_plain (d : Char) :
    ∀ c ∈ attributeChar d, c ≠ '"' ∧ c ≠ '\'' ∧ c ≠ '<' ∧ c ≠ '>' := by
  unfold attributeChar
  split
  · simp
  · simp
  · simp
  · simp
  · simp
  next h1 h2 _ h3 h4 =>
    intro c hc
    cases List.mem_singleton.mp hc
    exact ⟨h3, h4, h1, h2⟩

theorem Escape.attributeValue_plain {s : Text} :
    ∀ c ∈ attributeValue s, c ≠ '"' ∧ c ≠ '\'' ∧ c ≠ '<' ∧ c ≠ '>' := by
  intro c hc
  obtain ⟨d, _, hd⟩ := List.mem_flatMap.mp hc
  exact attributeChar_plain d c hd

open InlineTag in
/-- How a rendering fills a text of a template. The renderer finds the start tags of the text if and
only if no quoted value in them holds an angle bracket. Then it fills the holes of these tags first,
each double-braced one by its value escaped for attributes, and after them the holes of the running
text, to which those of a tag belong that is cut off. -/
theorem interpolate_markup {σ : Type} (frame : Frame σ) (scope : Scope) {m : Markup}
    (hm : m.WellFormed) (p : Progress σ) :
    (InlineTag.pieces m.written = m.inline ↔ ∀ t ∈ m.tags, Plain t.inside) ∧
    ((∀ t ∈ m.tags, Plain t.inside) →
      let r := frame.resolver scope
      let early := frame.pass.isEarly
      let q := p.stashAll (m.attributeFragments early r)
      let texts := m.texts early frame.body r p.size
      Rendering.interpolate frame scope m.written p =
          (Hole.write (Filling.pieces early q.size texts),
            q.stashAll (Filling.fragments early texts)) ∧
        ∀ t ∈ m.tags, ∀ h, .inr h ∈ t.inside → h.raw = false →
          ∀ value, r.text? (Expression.binding h.expr).2 = some value →
            (∀ c ∈ Escape.attributeValue value, c ≠ '"' ∧ c ≠ '\'' ∧ c ≠ '<' ∧ c ≠ '>') ∧
            Filling.inTag r h =
              match (Expression.binding h.expr).1 with
              | none => .fragment (Escape.attributeValue value)
              | some key =>
                if value.isEmpty then .verbatim []
                else .fragment (key ++ "=\"".toList ++ Escape.attributeValue value ++ ['"'])) := by
  refine ⟨Markup.pieces_written hm, fun hplain => ⟨?_, fun t ht h hh hraw value hv => ⟨?_, ?_⟩⟩⟩
  · exact Rendering.interpolate_written frame scope hm hplain p
  · exact Escape.attributeValue_plain
  · unfold Filling.inTag
    rcases hb : Expression.binding h.expr with ⟨key, expr⟩
    rw [hb] at hv
    cases key <;> simp [hv, hraw]

/-- The start tag `<a href="{{x}}">`. -/
def StartTag.link : StartTag where
  inside := "a href=\"".toList.map .inl ++ [.inr ⟨false, ['x']⟩, .inl '"']
  named := ⟨'a', _, rfl, rfl⟩
  parted := by
    have hend : Hole.Parted [.inr ⟨false, ['x']⟩, .inl '"'] :=
      ⟨⟨by simp, by decide⟩, by simp, trivial⟩
    exact Markup.parted_map_inl (by decide) hend
  within := by simp [Spot.Within, Spot.after, InlineTag.isAngle, isAsciiBlank]

theorem interpolate_markup_link :
    let site : Site Unit := ⟨⟨[], .none, none, [], 1⟩, fun _ _ => pure none⟩
    let frame := Frame.root site .late (.ofHtml [] [] [] [] [])
    let p : Progress Unit := ⟨.empty, [], ⟨(), []⟩⟩
    Rendering.interpolate frame [("x".toList, .str "\"<".toList)] "<a href=\"{{x}}\">".toList p =
      ("<a href=\"%!v0!%\">".toList, p.stashAll ["&quot;&lt;".toList]) := by
  intro site frame p
  have hm : (Markup.tag [] .link (.last [])).WellFormed :=
    ⟨⟨trivial, by simp⟩, ⟨trivial, by simp⟩⟩
  have hplain : InlineTag.Plain StartTag.link.inside := by
    have hall : StartTag.link.inside.all
        (Sum.elim (fun c => !InlineTag.isAngle c) fun _ => true) := by decide
    intro c hc
    simpa using List.all_eq_true.mp hall _ hc
  have h := interpolate_markup frame [("x".toList, .str "\"<".toList)] hm p
  have hfill := (h.2 (by simpa [Markup.tags] using hplain)).1
  refine hfill.trans (Prod.ext (by decide +kernel) ?_)
  refine (congrArg (Progress.stashAll _) (by decide +kernel : _ = [])).trans ?_
  rw [Progress.stashAll_nil]
  exact congrArg p.stashAll (by decide +kernel)

/-- A `>` in a quoted value ends the tag for the renderer, and the value of a hole after it is not
escaped for the attribute that it stands in. -/
theorem page?_quoted_angle :
    let value := "\" onclick=\"evil".toList
    let page? := Engine.page? "<a title=\">\" href=\"{{x}}\">".toList [("x".toList, .str value)]
    page? = some ("<a title=\">\" href=\"".toList ++ value ++ "\">".toList) ∧
      page? ≠ some ("<a title=\">\" href=\"".toList ++ Escape.attributeValue value ++
        "\">".toList) := by
  decide +kernel

end Stencil
