import Stencil.Proofs.Mark
import Stencil.Residual

namespace Stencil

/-- Nothing in the text is read as a reference or as the start of a residual block. -/
structure Unambiguous (s : Text) : Prop where
  unread : ∀ lead ∈ [Reference.literal, Reference.kept, Reference.fragment],
    ∀ before rest, s = before ++ rest → Reference.digits? lead rest = none
  blockless : ¬Residual.opening <:+: s

namespace Mark

/-- What stands in a reference before its digits. -/
def kinds : List Text := [['s'], [], ['v']]

/-- What stands in a residual block after its first percent sign. -/
def blockStart : Text := ['!', 'f', 'n', ':']

/-- After a mark stands the label of a reference between exclamation marks, and then another mark;
or the rest of the start of a residual block. -/
def Collides (ms : List Mark) : Prop :=
  ∃ before l after, ms = before ++ sign l :: after ∧
    ((∃ k ∈ kinds, ∃ ds next, Reference.isLabel k (k ++ ds) ∧ Straddles (k ++ ds) next after) ∨
      blockStart.map char <+: after)

/-- A literal brace or angle bracket written as a mark. -/
def shieldedMark : Mark → Mark
  | char c => if c = '{' then sign ['b'] else if c = '<' then sign ['t'] else char c
  | sign l => sign l

def shielded (ms : List Mark) : List Mark := ms.map shieldedMark

variable {ms : List Mark}

theorem shieldedMark_eq_char {m : Mark} {c : Char} (h : shieldedMark m = char c) : m = char c := by
  cases m with
  | sign l => cases h
  | char d =>
    rw [shieldedMark] at h
    split at h
    · cases h
    split at h
    · cases h
    · exact h

theorem settled_shielded (h : Settled ms) : Settled (shielded ms) := by
  have hhead : ∀ {ms : List Mark} {c : Char}, (shielded ms).head? = some (char c) →
      ms.head? = some (char c) := by
    intro ms c hc
    cases ms with
    | nil => cases hc
    | cons m ms => exact congrArg some (shieldedMark_eq_char (Option.some.inj hc))
  induction ms with
  | nil => trivial
  | cons m ms ih =>
    have ih := ih h.tail
    cases hm : shieldedMark m with
    | char c =>
      cases shieldedMark_eq_char hm
      rw [shielded, List.map_cons, hm]
      exact ⟨fun hc hh => h.1 hc (hhead hh), fun hc hh => h.2.1 hc (hhead hh), ih⟩
    | sign l =>
      rw [shielded, List.map_cons, hm]
      refine ⟨?_, ih⟩
      cases m with
      | sign l' =>
        cases hm
        exact h.1
      | char c =>
        rw [shieldedMark] at hm
        split at hm
        · cases hm
          simp [IsLabel]
        split at hm
        · cases hm
          simp [IsLabel]
        · cases hm

theorem markers_shielded (h : ∀ l, sign l ∈ ms → ∃ x ∈ markers, l = [x]) :
    ∀ l, sign l ∈ shielded ms → ∃ x ∈ markers, l = [x] := by
  intro l hl
  obtain ⟨m, hm, he⟩ := List.mem_map.mp hl
  cases m with
  | sign l' =>
    cases he
    exact h l hm
  | char c =>
    rw [shieldedMark] at he
    split at he
    · cases he
      exact ⟨'b', by decide, rfl⟩
    split at he
    · cases he
      exact ⟨'t', by decide, rfl⟩
    · cases he

theorem marker_cases {x : Char} (h : x ∈ markers) : x = 'o' ∨ x = 'c' ∨ x = 'b' ∨ x = 't' := by
  simpa [markers] using h

theorem written_shieldedMark (m : Mark) (h : ∀ l, m = sign l → ∃ x ∈ markers, l = [x]) :
    (shieldedMark m).written = m.written.flatMap Marker.shieldChar := by
  cases m with
  | char c =>
    have hchar : (char c).written.flatMap Marker.shieldChar = Marker.shieldChar c := by
      simp [written]
    rw [hchar, shieldedMark, Marker.shieldChar]
    split
    · rfl
    split <;> rfl
  | sign l =>
    obtain ⟨x, hx, rfl⟩ := h l rfl
    rcases marker_cases hx with rfl | rfl | rfl | rfl <;> rfl

theorem write_shielded (h : ∀ l, sign l ∈ ms → ∃ x ∈ markers, l = [x]) :
    write (shielded ms) = (write ms).flatMap Marker.shieldChar := by
  induction ms with
  | nil => rfl
  | cons m ms ih =>
    have hm := written_shieldedMark m fun l hl => h l (hl ▸ List.mem_cons_self)
    have ih := ih fun l hl => h l (List.mem_cons_of_mem _ hl)
    calc write (shielded (m :: ms)) = (shieldedMark m).written ++ write (shielded ms) := rfl
      _ = (m.written ++ write ms).flatMap Marker.shieldChar := by rw [hm, ih, List.flatMap_append]

theorem decoded_shieldedMark (m : Mark) : decoded (shieldedMark m) = decoded m := by
  cases m with
  | sign l => rfl
  | char c =>
    rw [shieldedMark]
    split
    next h => rw [h]; rfl
    next =>
      split
      next h => rw [h]; rfl
      next => rfl

theorem flatMap_decoded_shielded (ms : List Mark) :
    (shielded ms).flatMap decoded = ms.flatMap decoded := by
  rw [shielded, List.flatMap_map]
  exact congrArg (List.flatMap · ms) (funext decoded_shieldedMark)

/-- The sign that opens a mark stands nowhere but at the start of a mark, and at its end when an
exclamation mark follows. -/
theorem exists_of_write_percent {before rest : Text} (hs : Settled ms)
    (h : write ms = before ++ '%' :: '!' :: rest) :
    ∃ xs l ys, ms = xs ++ sign l :: ys ∧
      ('%' :: '!' :: rest = write (sign l :: ys) ∨ '!' :: rest = write ys) := by
  induction ms generalizing before with
  | nil => simp at h
  | cons m ms ih =>
    have hlater : ∀ {t : Text}, write ms = t ++ '%' :: '!' :: rest →
        ∃ xs l ys, m :: ms = xs ++ sign l :: ys ∧
          ('%' :: '!' :: rest = write (sign l :: ys) ∨ '!' :: rest = write ys) := by
      intro t ht
      obtain ⟨xs, l, ys, rfl, hread⟩ := ih hs.tail ht
      exact ⟨m :: xs, l, ys, rfl, hread⟩
    cases m with
    | char c =>
      cases before with
      | cons b before => exact hlater (List.cons.inj h).2
      | nil =>
        obtain ⟨rfl, hrest⟩ := List.cons.inj h
        have hbang : (write ms).head? = some '!' := congrArg List.head? hrest
        rcases head?_write hbang with hc | hc
        · exact absurd hc (by decide)
        · exact absurd hc (hs.1 rfl)
    | sign l =>
      cases before with
      | nil => exact ⟨[], l, ms, rfl, .inl h.symm⟩
      | cons b before =>
        have hno : '%' ∉ '!' :: (l ++ ['!']) := by
          have hl : '%' ∉ l := fun hm => (hs.1 _ hm).1 rfl
          simp [hl]
        have htail : before ++ '%' :: '!' :: rest = '!' :: (l ++ ['!']) ++ '%' :: write ms := by
          have := (List.cons.inj (h.symm.trans (write_sign l ms))).2
          simpa using this
        rcases List.append_eq_append_iff.mp htail with ⟨t, ht, hp⟩ | ⟨t, rfl, hp⟩
        · cases t with
          | nil => exact ⟨[], l, ms, rfl, .inr (List.cons.inj hp).2⟩
          | cons c t =>
            have hc := (List.cons.inj hp).1
            exact absurd (ht ▸ List.mem_append_right _ (hc ▸ List.mem_cons_self)) hno
        · cases t with
          | nil => exact ⟨[], l, ms, rfl, .inr (List.cons.inj hp).2.symm⟩
          | cons c t => exact hlater (List.cons.inj hp).2

end Mark

open Mark

variable {ms : List Mark}

theorem isKind_of_lead {lead : Text}
    (h : lead ∈ [Reference.literal, Reference.kept, Reference.fragment]) :
    ∃ k ∈ kinds, lead = Marker.opening ++ k := by
  simp only [List.mem_cons, List.not_mem_nil, or_false] at h
  rcases h with rfl | rfl | rfl
  · exact ⟨['s'], by decide, rfl⟩
  · exact ⟨[], by decide, rfl⟩
  · exact ⟨['v'], by decide, rfl⟩

theorem isLead_of_kind {k : Text} (h : k ∈ kinds) :
    Marker.opening ++ k ∈ [Reference.literal, Reference.kept, Reference.fragment] := by
  revert h
  revert k
  decide

theorem isLabel_of_kind {k : Text} (h : k ∈ kinds) : IsLabel k := by
  simp only [kinds, List.mem_cons, List.not_mem_nil, or_false] at h
  rcases h with rfl | rfl | rfl <;> simp [IsLabel]

theorem unread_marker (k : Text) {x : Char} (hx : x ∈ markers) :
    Reference.isLabel k [x] = false := by
  refine Bool.eq_false_iff.mpr fun h => ?_
  obtain ⟨ds, he, hne, hd⟩ := Reference.isLabel_iff.mp h
  have hmem : x ∈ ds := by
    have hlast := congrArg List.getLast? he
    rw [List.getLast?_append_of_ne_nil k hne] at hlast
    exact List.mem_of_getLast? hlast.symm
  have hdigit := hd x hmem
  rcases marker_cases hx with rfl | rfl | rfl | rfl <;> exact absurd hdigit (by decide)

theorem collides_of_read {lead before rest : Text} (hs : Settled ms)
    (hl : ∀ l, sign l ∈ ms → ∃ x ∈ markers, l = [x])
    (hlead : lead ∈ [Reference.literal, Reference.kept, Reference.fragment])
    (hw : write ms = before ++ rest) {r : Text × Text} (h : Reference.digits? lead rest = some r) :
    Collides ms := by
  obtain ⟨ds, after⟩ := r
  obtain ⟨k, hk, rfl⟩ := isKind_of_lead hlead
  have hlabel := isLabel_of_kind hk
  have hrest := (Reference.digits?_eq_some_iff.mp h).1
  rw [hrest] at hw
  obtain ⟨xs, l, ys, rfl, hread⟩ := exists_of_write_percent hs hw
  have hys : Settled (sign l :: ys) := settled_right hs
  rcases hread with hread | hread
  · obtain ⟨x, hx, rfl⟩ := hl l (by simp)
    have hnone := Reference.digits?_of_unread hlabel hys.1 (unread_marker k hx) ys
    rw [← hread, ← hrest, h] at hnone
    cases hnone
  · have hstart : Reference.digits? (Marker.opening ++ k) ('%' :: write ys) = some (ds, after) := by
      rw [← hread, ← hrest, h]
    obtain ⟨hd, next, hnext⟩ := Reference.straddles_of_digits? hlabel hys.2 hstart
    exact ⟨xs, l, ys, rfl, .inl ⟨k, hk, ds, next, hd, hnext⟩⟩

theorem collides_of_block (hs : Settled ms) (hl : ∀ l, sign l ∈ ms → ∃ x ∈ markers, l = [x])
    (h : Residual.opening <:+: write ms) : Collides ms := by
  obtain ⟨before, after, hw⟩ := h
  have hw : write ms = before ++ '%' :: '!' :: ('f' :: 'n' :: ':' :: after) := by
    rw [← hw]
    simp [Residual.opening]
  obtain ⟨xs, l, ys, rfl, hread | hread⟩ := exists_of_write_percent hs hw
  · obtain ⟨x, hx, rfl⟩ := hl l (by simp)
    rw [write_sign] at hread
    obtain ⟨rfl, -⟩ := List.cons.inj (List.cons.inj (List.cons.inj hread).2).2
    exact absurd hx (by decide)
  · have hafter : write ys = blockStart ++ after := hread.symm
    obtain ⟨more, rfl, -⟩ := exists_chars hafter (by decide)
    exact ⟨xs, l, _, rfl, .inr ⟨more, rfl⟩⟩

theorem not_unambiguous (h : Collides ms) : ¬Unambiguous (write ms) := by
  obtain ⟨before, l, after, rfl, ⟨k, hk, ds, next, hd, more, rfl⟩ | ⟨more, rfl⟩⟩ := h
  · intro hu
    have hread := Reference.digits?_straddled hd next more
    have hnone := hu.unread _ (isLead_of_kind hk) (write before ++ '%' :: '!' :: (l ++ ['!']))
      ('%' :: write (('!' :: (k ++ ds ++ ['!'])).map char ++ sign next :: more)) (by simp)
    rw [hnone] at hread
    cases hread
  · intro hu
    refine hu.blockless ⟨write before ++ '%' :: '!' :: (l ++ ['!']), write more, ?_⟩
    simp [Residual.opening, blockStart]

/-- A text holds what reads as one more reference or as a block exactly when two of its marks and
the characters between them look like it. -/
theorem unambiguous_write_iff (hs : Settled ms)
    (hl : ∀ l, sign l ∈ ms → ∃ x ∈ markers, l = [x]) : Unambiguous (write ms) ↔ ¬Collides ms := by
  constructor
  · exact fun h hc => not_unambiguous hc h
  · intro h
    refine ⟨fun lead hlead before rest hw => ?_, fun hb => h (collides_of_block hs hl hb)⟩
    exact Option.eq_none_iff_forall_ne_some.mpr fun r hr =>
      h (collides_of_read hs hl hlead hw hr)

/-- The written form of a text, and the shielded one, are unambiguous exactly when no two of its
marks collide. -/
theorem unambiguous_iff (s : Text) :
    (Unambiguous (Marker.encode s) ↔ ¬Collides (ofText s)) ∧
      (Unambiguous (Marker.shield s) ↔ ¬Collides (shielded (ofText s))) := by
  have hs := settled_ofText s
  have hl : ∀ l, sign l ∈ ofText s → ∃ x ∈ markers, l = [x] := fun l h => Marker.label_ofText h
  constructor
  · rw [← write_ofText]
    exact unambiguous_write_iff hs hl
  · rw [Marker.shield, ← write_ofText, ← write_shielded hl]
    exact unambiguous_write_iff (settled_shielded hs) (markers_shielded hl)

/-- Two signs with the label of a reference between them, and two braces. -/
theorem ambiguous_straddled : ¬Unambiguous (Marker.encode "%!!s0!!%".toList) ∧
    ¬Unambiguous (Marker.shield "\x7b!0!\x7b".toList) ∧
      ¬Unambiguous (Marker.encode "%!!fn:".toList) := by
  refine ⟨fun h => ?_, fun h => ?_, fun h => h.blockless ?_⟩
  · have hread := h.unread Reference.literal (by decide) "%!o!".toList _ rfl
    exact absurd hread (by decide)
  · have hread := h.unread Reference.kept (by decide) "%!b!".toList _ rfl
    exact absurd hread (by decide)
  · exact ⟨"%!o!".toList, [], rfl⟩

namespace Marker

theorem write_shielded_ofText (s : Text) : write (shielded (ofText s)) = shield s := by
  rw [write_shielded fun _ => label_ofText, write_ofText, shield]

theorem ne_of_mem_shieldChar {c d : Char} (h : d ∈ shieldChar c) : d ≠ '{' ∧ d ≠ '<' := by
  unfold shieldChar at h
  split at h
  · exact (by simp [braceMark] : ∀ d ∈ braceMark, d ≠ '{' ∧ d ≠ '<') d h
  split at h
  · exact (by simp [angleMark] : ∀ d ∈ angleMark, d ≠ '{' ∧ d ≠ '<') d h
  next hbrace hangle =>
    rw [List.mem_singleton.mp h]
    exact ⟨hbrace, hangle⟩

/-- A text is read back from its written form and from its shielded one, and the shielded one has no
opening braces and angle brackets. -/
theorem decode_written_forms (s : Text) :
    decode (encode s) = s ∧ decode (shield s) = s ∧ '{' ∉ shield s ∧ '<' ∉ shield s := by
  have hshield : decode (shield s) = s := by
    have hquiet : Quiet (shielded (ofText s)) := quiet_of_settled
      (settled_shielded (settled_ofText s)) (markers_shielded fun _ => label_ofText)
    rw [← write_shielded_ofText, decode_write hquiet, flatMap_decoded_shielded, decoded_ofText]
  have hmem : ∀ d ∈ shield s, d ≠ '{' ∧ d ≠ '<' := by
    intro d hd
    obtain ⟨c, -, hc⟩ := List.mem_flatMap.mp hd
    exact ne_of_mem_shieldChar hc
  exact ⟨decode_encode s, hshield, fun h => (hmem _ h).1 rfl, fun h => (hmem _ h).2 rfl⟩

end Marker

end Stencil
