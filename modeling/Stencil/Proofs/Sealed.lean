import Stencil.Proofs.Occurrence
import Stencil.Proofs.StartTag

namespace Stencil

namespace Placeholder

/-- No placeholder begins with this text, whatever follows it. -/
def Inert (s : Text) : Prop := ∀ t, read? (s ++ t) = none

theorem Inert.mono {s t : Text} (h : Inert s) (hp : s <+: t) : Inert t := by
  obtain ⟨u, rfl⟩ := hp
  intro v
  rw [List.append_assoc]
  exact h (u ++ v)

theorem inert_of_ne {c : Char} (hc : c ≠ '<') (s : Text) : Inert (c :: s) :=
  fun t => read?_of_ne hc (s ++ t)

/-- A bracket before a character that starts no name of a tag is inert. -/
theorem inert_opening {d : Char} (h : d ≠ '_' ∧ d ≠ '/' ∧ d.isUpper = false) (s : Text) :
    Inert ('<' :: d :: s) := by
  intro t
  have hslash : (d :: (s ++ t)).head? ≠ some '/' := fun he => h.2.1 (Option.some.inj he)
  have hname := nameAndDepth?_of_head? (s := d :: (s ++ t)) (by simpa using ⟨h.1, h.2.2⟩)
  rw [List.cons_append, List.cons_append, read?_opening hslash, hname]
  rfl

theorem inert_closing {d : Char} (h : d ≠ '_' ∧ d.isUpper = false) (s : Text) :
    Inert ('<' :: '/' :: d :: s) := by
  intro t
  have hname := nameAndDepth?_of_head? (s := d :: (s ++ t)) (by simpa using h)
  rw [List.cons_append, List.cons_append, List.cons_append, read?_closing, hname]
  rfl

/-- A placeholder ends at the first closing bracket and holds no closing brace: what follows one of
these does not matter. -/
theorem Inert.of_stop {d : Char} (hd : d = '>' ∨ d = '}') {s y : Text} (h : Inert (s ++ d :: y)) :
    Inert (s ++ [d]) := by
  intro t
  refine Option.eq_none_iff_forall_ne_some.mpr fun ⟨p, rest⟩ hr => ?_
  obtain ⟨w, hw, hspell⟩ := exists_spelling hr
  obtain ⟨v, hv, hchars⟩ := hspell.shape
  have hwhole : w <+: s ++ [d] := by
    have hleft : w <+: s ++ [d] ++ t := ⟨rest, hw.symm⟩
    rcases List.prefix_or_prefix_of_prefix hleft (List.prefix_append (s ++ [d]) t) with hp | hp
    · exact hp
    · rw [hv] at hp ⊢
      rcases List.prefix_concat_iff.mp hp with hp | hp
      · exact ⟨[], by rw [List.append_nil, hp]⟩
      · have hmem : d ∈ '<' :: v := hp.subset (by simp)
        have hne : d ≠ '<' := by rcases hd with rfl | rfl <;> decide
        obtain ⟨-, h1, h2⟩ := hchars d ((List.mem_cons.mp hmem).resolve_left hne)
        exact (hd.elim h1 h2).elim
  obtain ⟨z, hz⟩ := hwhole
  have hread : read? (s ++ d :: y ++ []) = some (p, z ++ y) := by
    have := hspell.read (z ++ y)
    rw [← List.append_assoc, hz] at this
    simpa using this
  rw [h []] at hread
  cases hread

/-- The characters before the first placeholder. -/
def lead : List Piece → Text
  | .inl c :: ps => c :: lead ps
  | _ => []

/-- What stays of a text, from its start on, when holes in it are filled. -/
def fixed (s : Text) : Text := s.takeWhile (· ≠ '{')

/-- The placeholders are well-formed, and no other one begins anywhere, whatever stands in the place
of the placeholders and of the holes between them. -/
def Sealed : List Piece → Prop
  | [] => True
  | .inl c :: ps => Inert (c :: fixed (lead ps)) ∧ Sealed ps
  | .inr p :: ps => p.WellFormed ∧ Sealed ps

theorem fixed_append (s : Text) :
    (∀ u, fixed (s ++ u) = fixed s) ∨ ∀ u, fixed (s ++ u) = s ++ fixed u := by
  induction s with
  | nil => exact .inr fun _ => rfl
  | cons c s ih =>
    by_cases hc : c = '{'
    · exact .inl fun u => by simp [fixed, hc]
    · refine ih.imp (fun h u => ?_) fun h u => ?_
      · simpa [fixed, hc] using h u
      · simpa [fixed, hc] using h u

theorem fixed_mono {s t : Text} (h : s <+: t) : fixed s <+: fixed t := by
  obtain ⟨u, rfl⟩ := h
  rcases fixed_append s with h | h
  · rw [h]
  · rw [h]
    exact (List.takeWhile_prefix _).trans (List.prefix_append s _)

theorem lead_append_left (ps qs : List Piece) : lead ps <+: lead (ps ++ qs) := by
  induction ps with
  | nil => exact List.nil_prefix
  | cons p ps ih =>
    cases p with
    | inl c => exact (List.prefix_cons_inj c).mpr ih
    | inr p => exact List.nil_prefix

theorem lead_write_left (ps : List Piece) : lead ps <+: write ps := by
  induction ps with
  | nil => exact List.nil_prefix
  | cons p ps ih =>
    cases p with
    | inl c => exact (List.prefix_cons_inj c).mpr ih
    | inr p => exact List.nil_prefix

theorem lead_append_placeholder (ps qs : List Piece) (p : Placeholder) :
    lead (ps ++ .inr p :: qs) = lead ps := by
  induction ps with
  | nil => rfl
  | cons q ps ih =>
    cases q with
    | inl c => exact congrArg (List.cons c) ih
    | inr q => rfl

theorem lead_map_inl (s : Text) : lead (s.map .inl) = s := by
  induction s with
  | nil => rfl
  | cons c s ih => exact congrArg (List.cons c) ih

namespace Sealed

theorem append {ps qs : List Piece} (hp : Sealed ps) (hq : Sealed qs) : Sealed (ps ++ qs) := by
  induction ps with
  | nil => exact hq
  | cons p ps ih =>
    cases p with
    | inr p => exact ⟨hp.1, ih hp.2⟩
    | inl c =>
      have hlead := fixed_mono (lead_append_left ps qs)
      exact ⟨hp.1.mono ((List.prefix_cons_inj c).mpr hlead), ih hp.2⟩

theorem right {ps qs : List Piece} (h : Sealed (ps ++ qs)) : Sealed qs := by
  induction ps with
  | nil => exact h
  | cons p ps ih => cases p <;> exact ih h.2

theorem append_placeholder {ps qs : List Piece} {p : Placeholder} :
    Sealed (ps ++ .inr p :: qs) ↔ Sealed ps ∧ p.WellFormed ∧ Sealed qs := by
  induction ps with
  | nil => simp [Sealed]
  | cons q ps ih =>
    cases q with
    | inl c =>
      simp only [List.cons_append, Sealed, lead_append_placeholder, ih, and_assoc]
    | inr q => simp only [List.cons_append, Sealed, ih, and_assoc]

theorem text {s : Text} (h : '<' ∉ s) : Sealed (s.map .inl) := by
  induction s with
  | nil => trivial
  | cons c s ih =>
    obtain ⟨hc, hs⟩ := List.ne_and_not_mem_of_not_mem_cons h
    exact ⟨inert_of_ne hc.symm _, ih hs⟩

theorem readBack {ps : List Piece} (h : Sealed ps) (t : Text) : ReadBack ps t := by
  induction ps with
  | nil => trivial
  | cons p ps ih =>
    cases p with
    | inr p => exact ⟨h.1, ih h.2⟩
    | inl c =>
      have hlead : fixed (lead ps) <+: write ps :=
        (List.takeWhile_prefix _).trans (lead_write_left ps)
      exact ⟨h.1.mono ((List.prefix_cons_inj c).mpr hlead) t, ih h.2⟩

end Sealed

theorem pieces_of_read? {s rest : Text} {p : Placeholder} (h : read? s = some (p, rest)) :
    pieces s = .inr p :: pieces rest := by
  cases s with
  | nil => cases h
  | cons c s =>
    rw [pieces]
    split
    next h' =>
      cases h.symm.trans h'
      rfl
    next h' => cases h.symm.trans h'

theorem pieces_cons {c : Char} {s : Text} (h : read? (c :: s) = none) :
    pieces (c :: s) = .inl c :: pieces s := by
  rw [pieces]
  split
  next h' => cases h.symm.trans h'
  next => rfl

theorem pieces_write {ps : List Piece} (h : ReadBack ps []) : pieces (write ps) = ps := by
  induction ps with
  | nil => simp [pieces]
  | cons q ps ih =>
    cases q with
    | inl c =>
      have hc : read? (c :: write ps) = none := by simpa using h.1
      rw [write_char, pieces_cons hc, ih h.2]
    | inr p => rw [write_placeholder, pieces_of_read? (read?_written h.1 _), ih h.2]

/-- A piece whose depth is lowered if it is a placeholder. -/
def lowerPiece (amount : Nat) : Piece → Piece := Sum.map id fun p => p.lower amount

theorem lowerDepth_write {ps : List Piece} (h : ReadBack ps []) (amount : Nat) :
    lowerDepth (write ps) amount = write (ps.map (lowerPiece amount)) := by
  rw [lowerDepth, pieces_write h, write, List.flatMap_map]
  refine List.flatMap_congr fun q _ => ?_
  cases q <;> rfl

theorem lead_map_lowerPiece (amount : Nat) (ps : List Piece) :
    lead (ps.map (lowerPiece amount)) = lead ps := by
  induction ps with
  | nil => rfl
  | cons q ps ih =>
    cases q with
    | inl c => exact congrArg (List.cons c) ih
    | inr p => rfl

theorem Sealed.lowered {ps : List Piece} (h : Sealed ps) (amount : Nat) :
    Sealed (ps.map (lowerPiece amount)) := by
  induction ps with
  | nil => trivial
  | cons q ps ih =>
    cases q with
    | inl c =>
      refine ⟨?_, ih h.2⟩
      rw [lead_map_lowerPiece]
      exact h.1
    | inr p =>
      obtain ⟨hp, hps⟩ := h
      exact ⟨{ hp with depth := Nat.lt_of_le_of_lt (Nat.sub_le p.depth amount) hp.depth }, ih hps⟩

/-- A placeholder, or a character after which nothing before it can become a placeholder. -/
def IsStop : Piece → Prop
  | .inl c => c = '>' ∨ c = '}'
  | .inr _ => True

theorem lead_append_stop (ps : List Piece) {q : Piece} (hq : IsStop q) :
    (∀ rs, lead (ps ++ q :: rs) = lead ps) ∨
      ∃ d, (d = '>' ∨ d = '}') ∧ ∀ rs, lead (ps ++ q :: rs) = lead ps ++ d :: lead rs := by
  induction ps with
  | nil =>
    cases q with
    | inl d => exact .inr ⟨d, hq, fun _ => rfl⟩
    | inr p => exact .inl fun _ => rfl
  | cons p ps ih =>
    cases p with
    | inr p => exact .inl fun _ => rfl
    | inl c =>
      refine ih.imp (fun h rs => congrArg (List.cons c) (h rs)) ?_
      rintro ⟨d, hd, h⟩
      exact ⟨d, hd, fun rs => congrArg (List.cons c) (h rs)⟩

/-- What stands after a stop can be exchanged. -/
theorem Sealed.exchange {ps rs rs' : List Piece} {q : Piece} (hq : IsStop q)
    (h : Sealed (ps ++ q :: rs)) (h' : Sealed rs') : Sealed (ps ++ q :: rs') := by
  induction ps with
  | nil =>
    cases q with
    | inr p => exact ⟨h.1, h'⟩
    | inl d =>
      have hd : d ≠ '<' := by rcases hq with rfl | rfl <;> decide
      exact ⟨inert_of_ne hd _, h'⟩
  | cons p ps ih =>
    cases p with
    | inr p => exact ⟨h.1, ih h.2⟩
    | inl c =>
      refine ⟨?_, ih h.2⟩
      have hinert : Inert (c :: fixed (lead (ps ++ q :: rs))) := h.1
      change Inert (c :: fixed (lead (ps ++ q :: rs')))
      rcases lead_append_stop ps hq with hl | ⟨d, hd, hl⟩
      · rw [hl] at hinert
        rw [hl]
        exact hinert
      · rw [hl] at hinert
        rw [hl]
        rcases fixed_append (lead ps) with hf | hf
        · rw [hf] at hinert
          rw [hf]
          exact hinert
        · have hne : d ≠ '{' := by rcases hd with rfl | rfl <;> decide
          have hstop : ∀ u, fixed (d :: u) = d :: fixed u := by simp [fixed, hne]
          rw [hf, hstop] at hinert
          rw [hf, hstop]
          have hend : Inert (c :: lead ps ++ [d]) := hinert.of_stop hd
          exact hend.mono ⟨fixed (lead rs'), by simp⟩

end Placeholder

namespace Hole

theorem write_pieces (s : Text) : write (pieces s) = s := by
  fun_induction pieces s with
  | case1 => rfl
  | case2 c s h rest hl ih => rw [write_hole, ih, ← eq_of_lead? hl]
  | case3 c s hl => exact write_map_inl (c :: s)
  | case4 c s hl ih => rw [write_char, ih]

end Hole

namespace InlineTag

theorem suffix_afterHole (s : Text) : afterHole s <:+ s := by
  unfold afterHole
  split
  next before rest h =>
    have hrest : rest <:+ s := ⟨before ++ ['}', '}'], (Text.eq_of_cut? h).symm⟩
    exact (List.dropWhile_suffix _).trans hrest
  next => exact List.nil_suffix

theorem suffix_afterInside (s : Text) : afterInside s <:+ s := by
  fun_induction afterInside s with
  | case1 => exact List.suffix_rfl
  | case2 => exact List.suffix_rfl
  | case3 c s _ _ ih => exact (ih.trans (suffix_afterHole s)).trans (List.suffix_cons c s)
  | case4 c s _ _ ih => exact ih.trans (List.suffix_cons c s)

/-- The text of a piece. -/
def pieceText : Text ⊕ Text → Text := Sum.elim id id

theorem eq_of_lead? {s rest : Text} {piece : Text ⊕ Text} (h : lead? s = some (piece, rest)) :
    s = pieceText piece ++ rest := by
  have htake : ∀ {w r : Text}, r <:+ w → w = w.take (w.length - r.length) ++ r := by
    rintro _ r ⟨u, rfl⟩
    simp
  unfold lead? at h
  split at h
  next c s =>
    have hsuffix : afterInside (c :: s) <:+ '<' :: c :: s :=
      (suffix_afterInside (c :: s)).trans (List.suffix_cons '<' (c :: s))
    split at h
    next =>
      split at h
      next r hr =>
        cases Option.some.inj h
        rw [hr] at hsuffix
        exact htake ((List.suffix_cons '>' rest).trans hsuffix)
      next =>
        cases Option.some.inj h
        exact htake hsuffix
    next => cases h
  next => cases h

theorem flatMap_pieces (s : Text) : (pieces s).flatMap pieceText = s := by
  fun_induction pieces s with
  | case1 => rfl
  | case2 c s piece rest hl ih => rw [List.flatMap_cons, ih, ← eq_of_lead? hl]
  | case3 c s hl ih => rw [List.flatMap_cons, ih]; rfl

end InlineTag

/-- A text in which holes are filled with texts that open no tag. -/
inductive Refilled : Text → Text → Prop where
  | nil : Refilled [] []
  | char (c : Char) {s t : Text} : Refilled s t → Refilled (c :: s) (c :: t)
  | hole (h : Hole) {v s t : Text} (hv : '<' ∉ v) :
      Refilled s t → Refilled (h.written ++ s) (v ++ t)

namespace Refilled

open Placeholder

theorem append {s t u v : Text} (h : Refilled s t) (h' : Refilled u v) :
    Refilled (s ++ u) (t ++ v) := by
  induction h with
  | nil => exact h'
  | char c _ ih => exact .char c ih
  | hole h hv _ ih =>
    rw [List.append_assoc, List.append_assoc]
    exact .hole h hv ih

theorem refl (s : Text) : Refilled s s := by
  induction s with
  | nil => exact .nil
  | cons c s ih => exact .char c ih

theorem fixed_mono {s t : Text} (h : Refilled s t) : fixed s <+: fixed t := by
  induction h with
  | nil => exact List.prefix_rfl
  | char c _ ih =>
    by_cases hc : c = '{'
    · simp [fixed, hc]
    · simpa [fixed, hc] using ih
  | hole h hv _ _ =>
    rw [Hole.written_eq]
    exact List.nil_prefix

theorem sealed {s t : Text} (h : Refilled s t) (hs : Sealed (s.map .inl)) :
    Sealed (t.map .inl) := by
  induction h with
  | nil => trivial
  | char c h ih =>
    have hinert := hs.1
    rw [lead_map_inl] at hinert
    refine ⟨?_, ih hs.2⟩
    rw [lead_map_inl]
    exact hinert.mono ((List.prefix_cons_inj c).mpr h.fixed_mono)
  | hole h hv _ ih =>
    rw [List.map_append] at hs ⊢
    exact (Sealed.text hv).append (ih hs.right)

end Refilled

namespace Filling

theorem fragments_early (ps : List (Char ⊕ Filling)) : fragments true ps = [] := by
  induction ps with
  | nil => rfl
  | cons p ps ih => rcases p with c | s | html | h <;> exact ih

theorem not_mem_inText {r : Resolver} {h : Hole} {s : Text} (hv : inText none r h = .verbatim s) :
    '<' ∉ s := by
  unfold inText at hv
  dsimp only at hv
  split at hv
  next hbody => exact absurd hbody.1 (by simp)
  · split at hv
    · cases hv
    · split at hv
      next hbody => cases hbody
      next => cases hv

theorem refilled {g : Hole → Filling} (hstays : ∀ h h', g h = .stays h' → h' = h)
    (hverbatim : ∀ h s, g h = .verbatim s → '<' ∉ s) (ps : List Hole.Piece) (n : Nat) :
    Refilled (Hole.write ps) (Hole.write (pieces true n (ps.map (Sum.map id g)))) := by
  induction ps generalizing n with
  | nil => exact .nil
  | cons p ps ih =>
    cases p with
    | inl c => exact .char c (ih n)
    | inr h =>
      rw [Hole.write_hole, List.map_cons, Sum.map_inr]
      cases hg : g h with
      | verbatim s =>
        rw [pieces, Hole.write_append, Hole.write_map_inl]
        exact .hole h (hverbatim h s hg) (ih n)
      | fragment html =>
        rw [pieces, if_pos rfl, Hole.write_append, Hole.write_map_inl]
        exact .hole h (Marker.angle_not_mem_shield html) (ih n)
      | stays h' =>
        cases hstays h h' hg
        rw [pieces, Hole.write_hole]
        exact (Refilled.refl _).append (ih n)

end Filling

namespace Rendering

open Placeholder

variable {σ : Type} {frame : Frame σ} {f : Hole → Rendering σ (Option Text)} {g : Hole → Filling}

theorem fillM_early (hearly : frame.pass.isEarly) (hf : ∀ h, f h = place frame (g h))
    (hstays : ∀ h h', g h = .stays h' → h' = h) (hverbatim : ∀ h s, g h = .verbatim s → '<' ∉ s)
    (s : Text) (p : Progress σ) : ∃ t, Hole.fillM f s p = (t, p) ∧ Refilled s t := by
  obtain ⟨out, ho, hflat⟩ := mapM_fillPiece hf hstays (Hole.pieces s) p
  rw [hearly, Filling.fragments_early, Progress.stashAll_nil] at ho
  refine ⟨out.flatten, ?_, ?_⟩
  · rw [fillM_eq]
    simp only [bind, StateT.bind, pure, StateT.pure, ho]
  · have hrefilled := Filling.refilled hstays hverbatim (Hole.pieces s) p.size
    rw [Hole.write_pieces] at hrefilled
    rw [hflat, hearly]
    exact hrefilled

theorem fillTagsM_early (hearly : frame.pass.isEarly) (hf : ∀ h, f h = place frame (g h))
    (hstays : ∀ h h', g h = .stays h' → h' = h) (hverbatim : ∀ h s, g h = .verbatim s → '<' ∉ s)
    (s : Text) (p : Progress σ) : ∃ t, InlineTag.fillM f s p = (t, p) ∧ Refilled s t := by
  have hpieces : ∀ ps : List (Text ⊕ Text), ∃ out, ps.mapM (fillInline f) p = (out, p) ∧
      Refilled (ps.flatMap InlineTag.pieceText) out.flatten := by
    intro ps
    induction ps with
    | nil => exact ⟨[], rfl, .nil⟩
    | cons piece ps ih =>
      obtain ⟨out, ho, hr⟩ := ih
      rw [List.flatMap_cons]
      cases piece with
      | inl t => exact ⟨t :: out, mapM_cons_run rfl ho, (Refilled.refl t).append hr⟩
      | inr tag =>
        obtain ⟨t, ht, htag⟩ := fillM_early hearly hf hstays hverbatim tag p
        exact ⟨t :: out, mapM_cons_run ht ho, htag.append hr⟩
  obtain ⟨out, ho, hr⟩ := hpieces (InlineTag.pieces s)
  rw [InlineTag.flatMap_pieces] at hr
  refine ⟨out.flatten, ?_, hr⟩
  rw [fillTagsM_eq]
  simp only [bind, StateT.bind, pure, StateT.pure, ho]

/-- Filling the holes of a text in the early pass leaves it sealed. -/
theorem interpolate_early (hearly : frame.pass.isEarly) (hbody : frame.body = none) (scope : Scope)
    {s : Text} (hs : Sealed (s.map .inl)) (p : Progress σ) :
    ∃ t, interpolate frame scope s p = (t, p) ∧ Sealed (t.map .inl) := by
  obtain ⟨t, ht, hst⟩ := fillTagsM_early hearly (attributeHole_eq frame (frame.resolver scope))
    Markup.stays_inTag (fun h s hv => by simp [Markup.verbatim_inTag hv]) s p
  have hverbatim : ∀ h s, Filling.inText frame.body (frame.resolver scope) h = .verbatim s →
      '<' ∉ s := by
    rw [hbody]
    exact fun h s => Filling.not_mem_inText
  obtain ⟨u, hu, htu⟩ := fillM_early hearly (textHole_eq frame (frame.resolver scope))
    Markup.stays_inText hverbatim t p
  refine ⟨u, ?_, htu.sealed (hst.sealed hs)⟩
  rw [interpolate]
  simp only [bind, StateT.bind, ht]
  exact hu

end Rendering

namespace Placeholder

/-- The placeholders of a text, in their order. -/
def tagsOf (ps : List Piece) : List Placeholder := ps.filterMap Sum.getRight?

theorem tagsOf_map_inl (s : Text) : tagsOf (s.map .inl) = [] := by
  simp [tagsOf]

theorem tagsOf_append (ps qs : List Piece) : tagsOf (ps ++ qs) = tagsOf ps ++ tagsOf qs :=
  List.filterMap_append

theorem tagsOf_cons (q : Piece) (ps : List Piece) : tagsOf (q :: ps) = tagsOf [q] ++ tagsOf ps :=
  tagsOf_append [q] ps

theorem exists_of_write_append {a b : Text} (ha : '<' ∉ a) {ps : List Piece} (h : Sealed ps)
    (hw : write ps = a ++ b) : ∃ qs, ps = a.map .inl ++ qs ∧ write qs = b := by
  induction a generalizing ps with
  | nil => exact ⟨ps, rfl, hw⟩
  | cons c a ih =>
    obtain ⟨hc, hrest⟩ := List.ne_and_not_mem_of_not_mem_cons ha
    cases ps with
    | nil => cases hw
    | cons p ps =>
      cases p with
      | inl d =>
        obtain ⟨rfl, htail⟩ := List.cons.inj hw
        obtain ⟨qs, rfl, hq⟩ := ih hrest h.2 htail
        exact ⟨qs, rfl, hq⟩
      | inr p =>
        obtain ⟨v, hv, -⟩ := exists_written_tail h.1
        rw [write_placeholder, hv] at hw
        exact absurd (List.cons.inj hw).1.symm hc.symm

/-- A cut at a closing bracket goes between two pieces. -/
theorem exists_of_cut_angle {ps : List Piece} (h : Sealed ps) {a b : Text}
    (hc : Text.cut? ['>'] (write ps) = some (a, b)) :
    ∃ qs q rs, ps = qs ++ q :: rs ∧ IsStop q ∧ a ++ ['>'] = write (qs ++ [q]) ∧ write rs = b := by
  induction ps generalizing a with
  | nil => cases hc
  | cons p ps ih =>
    cases p with
    | inl c =>
      by_cases hangle : c = '>'
      · subst hangle
        have hself : Text.cut? ['>'] ('>' :: write ps) = some ([], write ps) :=
          Text.cut?_append_self (by simp) (write ps)
        cases hself.symm.trans hc
        exact ⟨[], .inl '>', ps, rfl, .inl rfl, rfl, rfl⟩
      · have hstrip : Text.strip? ['>'] (c :: write ps) = none := by
          simp [Text.strip?, Ne.symm hangle]
        rw [write_char, Text.cut?_cons_of_strip? hstrip] at hc
        obtain ⟨⟨a', b'⟩, hc', he⟩ := Option.map_eq_some_iff.mp hc
        cases he
        obtain ⟨qs, q, rs, rfl, hq, ha, hb⟩ := ih h.2 hc'
        exact ⟨.inl c :: qs, q, rs, rfl, hq, congrArg (List.cons c) ha, hb⟩
    | inr p =>
      obtain ⟨v, hv, hchars⟩ := h.1.spelling.shape
      have hmem : '>' ∉ '<' :: v := by
        have : '>' ∉ v := fun hm => (hchars _ hm).2.1 rfl
        simp [this]
      have hself : Text.cut? ['>'] (['>'] ++ write ps) = some ([], write ps) :=
        Text.cut?_append_self (by simp) (write ps)
      rw [write_placeholder, hv, List.append_assoc, Text.cut?_append_of_not_mem hmem, hself] at hc
      cases hc
      exact ⟨[], .inr p, ps, rfl, trivial, by simp [hv], rfl⟩

/-- A cut at closing braces goes between two pieces. -/
theorem exists_of_cut_braces {ps : List Piece} (h : Sealed ps) {a b : Text}
    (hc : Text.cut? ['}', '}'] (write ps) = some (a, b)) :
    ∃ qs q rs, ps = qs ++ q :: rs ∧ IsStop q ∧ a ++ ['}', '}'] = write (qs ++ [q]) ∧
      write rs = b := by
  induction ps generalizing a with
  | nil => cases hc
  | cons p ps ih =>
    cases p with
    | inl c =>
      cases hs : Text.strip? ['}', '}'] (c :: write ps) with
      | some rest =>
        obtain ⟨rfl, hw⟩ := List.cons.inj (Text.strip?_eq_some_iff.mp hs)
        obtain ⟨qs, rfl, hq⟩ := exists_of_write_append (a := ['}']) (by decide) h.2 hw
        have hself : Text.cut? ['}', '}'] ('}' :: '}' :: write qs) = some ([], write qs) :=
          Text.cut?_append_self (by simp) (write qs)
        cases hself.symm.trans hc
        exact ⟨[.inl '}'], .inl '}', qs, rfl, .inr rfl, rfl, rfl⟩
      | none =>
        rw [write_char, Text.cut?_cons_of_strip? hs] at hc
        obtain ⟨⟨a', b'⟩, hc', he⟩ := Option.map_eq_some_iff.mp hc
        cases he
        obtain ⟨qs, q, rs, rfl, hq, ha, hb⟩ := ih h.2 hc'
        exact ⟨.inl c :: qs, q, rs, rfl, hq, congrArg (List.cons c) ha, hb⟩
    | inr p =>
      obtain ⟨v, hv, hchars⟩ := h.1.spelling.shape
      have hmem : '}' ∉ p.written := by
        have : '}' ∉ v := fun hm => (hchars _ hm).2.2 rfl
        simp [hv, this]
      rw [write_placeholder, Text.cut?_append_of_not_mem hmem] at hc
      obtain ⟨⟨a', b'⟩, hc', he⟩ := Option.map_eq_some_iff.mp hc
      cases he
      obtain ⟨qs, q, rs, rfl, hq, ha, hb⟩ := ih h.2 hc'
      refine ⟨.inr p :: qs, q, rs, rfl, hq, ?_, hb⟩
      rw [List.append_assoc, ha]
      rfl

end Placeholder

namespace Loop

open Placeholder

/-- What starts no tag is put in the place of such a text, in front of a rest that is rewritten. -/
theorem sealed_rewrite {a b rest out : Text} {ps : List Piece} (ha : '<' ∉ a) (hb : '<' ∉ b)
    (hrest : ∀ {qs}, Sealed qs → write qs = rest →
      ∃ rs, out = write rs ∧ Sealed rs ∧ tagsOf rs = tagsOf qs)
    (h : Sealed ps) (hs : write ps = a ++ rest) :
    ∃ rs, b ++ out = write rs ∧ Sealed rs ∧ tagsOf rs = tagsOf ps := by
  obtain ⟨qs, rfl, hqs⟩ := exists_of_write_append ha h hs
  obtain ⟨rs, hr, hsealed, htags⟩ := hrest h.right hqs
  refine ⟨b.map .inl ++ rs, ?_, (Sealed.text hb).append hsealed, ?_⟩
  · rw [hr, write_append, write_map_inl]
  · rw [tagsOf_append, tagsOf_append, tagsOf_map_inl, tagsOf_map_inl, htags]

/-- Writing out the shorthand of a loop leaves a text sealed, and its placeholders as they are. -/
theorem sealed_expandAfter {names : List Text} {before : Option Char} {s : Text} {ps : List Piece}
    (h : Sealed ps) (hs : write ps = s) :
    ∃ qs, expandAfter names before s = write qs ∧ Sealed qs ∧ tagsOf qs = tagsOf ps := by
  fun_induction expandAfter names before s generalizing ps with
  | case1 => exact ⟨ps, hs.symm, h, rfl⟩
  | case2 => exact ⟨ps, hs.symm, h, rfl⟩
  | case3 before c s close hskip inside rest hcut hne ih =>
    have hcuts : ∃ qs q rs, ps = qs ++ q :: rs ∧ IsStop q ∧ inside ++ close = write (qs ++ [q]) ∧
        write rs = rest := by
      rw [← hs] at hcut
      unfold skipped? at hskip
      split at hskip
      · cases hskip
        exact exists_of_cut_braces h hcut
      · cases hskip
        exact exists_of_cut_angle h hcut
      · cases hskip
    obtain ⟨qs, q, rs, rfl, hq, hinside, hrest⟩ := hcuts
    have hsplit : Sealed (qs ++ [q] ++ rs) := by simpa using h
    obtain ⟨rs', hr, hsealed, htags⟩ := ih hsplit.right hrest
    refine ⟨qs ++ q :: rs', ?_, h.exchange hq hsealed, ?_⟩
    · rw [hr, hinside, ← write_append, List.append_assoc, List.singleton_append]
    · rw [tagsOf_append, tagsOf_append, tagsOf_cons, htags, ← tagsOf_cons]
  | case4 => exact ⟨ps, hs.symm, h, rfl⟩
  | case5 before c s hskip hc name rest hmem f =>
    rename_i ih
    have hlead : '<' ∉ c :: name ++ f.1 := by simp [hc.1, name, f, not_mem_name, not_mem_fields]
    have hhole : '<' ∉ ['{', '{'] ++ name ++ f.1 ++ ['}', '}'] := by
      simp [name, f, not_mem_name, not_mem_fields]
    have hwhole : write ps = c :: name ++ f.1 ++ f.2 := by
      rw [hs, List.append_assoc, fields_append, List.cons_append, List.takeWhile_append_dropWhile]
    exact sealed_rewrite hlead hhole ih h hwhole
  | case6 before c s hskip hc name rest hmem =>
    rename_i ih
    have hlead : '<' ∉ c :: name := by simp [hc.1, name, not_mem_name]
    have hwhole : write ps = c :: name ++ rest := by
      rw [hs, List.cons_append, List.takeWhile_append_dropWhile]
    exact sealed_rewrite hlead hlead ih h hwhole
  | case7 before c s hskip hc ih =>
    have hlead : '<' ∉ [c] := by
      rintro hm
      rw [← List.mem_singleton.mp hm] at hskip
      simp [skipped?] at hskip
    exact sealed_rewrite hlead hlead ih h hs

theorem sealed_expand (l : Loop) {ps : List Piece} (h : Sealed ps) :
    ∃ qs, l.expand (write ps) = write qs ∧ Sealed qs ∧ tagsOf qs = tagsOf ps :=
  sealed_expandAfter h rfl

end Loop

end Stencil
