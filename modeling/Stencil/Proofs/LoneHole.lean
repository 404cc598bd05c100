import Stencil.Proofs.Hole

namespace Stencil.Hole

/-- A hole whose braces are the first that can open it and the first that can close it. -/
structure Tight (h : Hole) : Prop where
  opens : h.raw = false → h.inner.head? ≠ some '{'
  closes : ¬closing h.raw <:+: h.inner ++ (closing h.raw).dropLast

variable {s : Text} {h : Hole}

theorem closing_ne_nil (raw : Bool) : closing raw ≠ [] := by cases raw <;> simp [closing]

theorem pieces_eq_nil_iff : pieces s = [] ↔ s = [] := by
  refine ⟨fun h => ?_, fun h => by rw [h, pieces]⟩
  cases s with
  | nil => rfl
  | cons c s =>
    rw [pieces] at h
    split at h <;> cases h

/-- A hole that is read at the start of a text is tight. -/
theorem tight_of_lead? {rest : Text} (hl : lead? s = some (some (h, rest))) : h.Tight := by
  obtain ⟨inner, hi, hl⟩ := Option.bind_eq_some_iff.mp hl
  split at hl
  next inner' _ =>
    obtain ⟨⟨i, r⟩, hc, he⟩ := Option.map_eq_some_iff.mp (Option.some.inj hl)
    cases he
    exact ⟨nofun, Text.not_infix_of_cut? (closing_ne_nil true) hc⟩
  next hraw =>
    obtain ⟨⟨i, r⟩, hc, he⟩ := Option.map_eq_some_iff.mp (Option.some.inj hl)
    cases he
    refine ⟨fun _ hhead => ?_, Text.not_infix_of_cut? (closing_ne_nil false) hc⟩
    -- a third brace would make the hole a raw one
    obtain ⟨more, rfl⟩ : ∃ more, i = '{' :: more := List.head?_eq_some_iff.mp hhead
    have hs : s = opening true ++ (more ++ closing false ++ rest) := by
      rw [Text.strip?_eq_some_iff.mp hi, Text.eq_of_cut? hc]
      simp [opening]
    rw [Text.strip?_eq_some_iff.mpr hs] at hraw
    cases hraw

theorem tight_iff_cut? {raw : Bool} {inner : Text} : (⟨raw, inner⟩ : Hole).Tight ↔
    (raw = false → inner.head? ≠ some '{') ∧
      Text.cut? (closing raw) (inner ++ closing raw) = some (inner, []) := by
  constructor
  · rintro ⟨hopens, hcloses⟩
    have hcut := Text.cut?_append_of_not_infix (closing_ne_nil raw) hcloses []
    rw [List.append_nil] at hcut
    exact ⟨hopens, hcut⟩
  · rintro ⟨hopens, hcut⟩
    exact ⟨hopens, Text.not_infix_of_cut? (closing_ne_nil raw) hcut⟩

theorem Tight.lead? (ht : h.Tight) (rest : Text) :
    lead? (h.written ++ rest) = some (some (h, rest)) := by
  have hcut := Text.cut?_append_of_not_infix (closing_ne_nil h.raw) ht.closes rest
  exact lead?_written_of_cut? ht.opens hcut

/-- A text has one hole and nothing else exactly if it is the written form of a tight one. -/
theorem pieces_eq_singleton_iff : pieces s = [.inr h] ↔ s = h.written ∧ h.Tight := by
  constructor
  · intro hp
    cases s with
    | nil => simp [pieces] at hp
    | cons c s =>
      rw [pieces] at hp
      split at hp
      next h' rest hl =>
        obtain ⟨hh, hrest⟩ := List.cons.inj hp
        cases hh
        obtain rfl := pieces_eq_nil_iff.mp hrest
        exact ⟨(eq_of_lead? hl).trans (List.append_nil _), tight_of_lead? hl⟩
      next => cases hp
      next => cases hp
  · rintro ⟨rfl, ht⟩
    have hlead := pieces_of_lead? (ht.lead? [])
    rwa [List.append_nil, pieces_eq_nil_iff.mpr rfl] at hlead

/-- A text is read as a hole by its ends, as a raw one if that is possible. -/
theorem ofText?_eq_some_iff : ofText? s = some h ↔
    Text.trim s = h.written ∧ (h.raw = false → ∀ inner, Text.trim s ≠ written ⟨true, inner⟩) := by
  have henclosed : ∀ raw {h : Hole}, ((Text.strip? (opening raw) (Text.trim s)).bind fun inner =>
      (Text.dropEnding? (closing raw) inner).map fun inner => (⟨raw, inner⟩ : Hole)) = some h ↔
        h.raw = raw ∧ Text.trim s = h.written := by
    intro raw h
    rw [Option.bind_eq_some_iff]
    constructor
    · rintro ⟨rest, hrest, hinner⟩
      obtain ⟨inner, hi, rfl⟩ := Option.map_eq_some_iff.mp hinner
      refine ⟨rfl, ?_⟩
      rw [Text.strip?_eq_some_iff.mp hrest, Text.eq_of_dropEnding? hi, written, List.append_assoc]
    · rintro ⟨rfl, hs⟩
      refine ⟨h.inner ++ closing h.raw, ?_, ?_⟩
      · rw [Text.strip?_eq_some_iff, hs, written, List.append_assoc]
      · rw [Text.dropEnding?_append]
        rfl
  simp only [ofText?, Option.or_eq_some_iff, henclosed]
  rcases h with ⟨raw, inner⟩
  cases raw with
  | true => simp
  | false =>
    have hnone : (((Text.strip? (opening true) (Text.trim s)).bind fun inner =>
        (Text.dropEnding? (closing true) inner).map fun inner => (⟨true, inner⟩ : Hole)) = none) ↔
          ∀ inner, Text.trim s ≠ written ⟨true, inner⟩ := by
      rw [Option.eq_none_iff_forall_ne_some]
      refine ⟨fun hn inner hs => hn _ ((henclosed true).mpr ⟨rfl, hs⟩), fun hn h hh => ?_⟩
      obtain ⟨hraw, hs⟩ := (henclosed true).mp hh
      rcases h with ⟨raw, inner⟩
      cases hraw
      exact hn inner hs
    simp [hnone, and_comm]

/-- From left to right a text is found to be one hole exactly if it is read as this hole by its
ends, and the hole is tight. -/
theorem pieces_trim_eq_iff :
    pieces (Text.trim s) = [.inr h] ↔ ofText? s = some h ∧ h.Tight := by
  rw [pieces_eq_singleton_iff, ofText?_eq_some_iff]
  refine ⟨fun ⟨hs, ht⟩ => ⟨⟨hs, fun hraw inner hs' => ht.opens hraw ?_⟩, ht⟩,
    fun ⟨⟨hs, _⟩, ht⟩ => ⟨hs, ht⟩⟩
  have heq : '{' :: (inner ++ closing true) = h.inner ++ closing false := by
    have := hs'.symm.trans hs
    simpa [written, opening, hraw] using this
  cases hi : h.inner with
  | nil => simp [hi, closing] at heq
  | cons c more =>
    rw [hi, List.cons_append] at heq
    rw [(List.cons.inj heq).1, List.head?_cons]

/-- The two readings of a text agree exactly if the hole that it is by its ends, if it is one, is
tight. -/
theorem readings_agree_iff (s : Text) :
    (∀ expr raw, (∃ h, ofText? s = some h ∧ h.expr = expr ∧ h.raw = raw) ↔
      ∃ h, pieces (Text.trim s) = [.inr h] ∧ h.expr = expr ∧ h.raw = raw) ↔
    ∀ h, ofText? s = some h → h.Tight := by
  constructor
  · intro hall h hh
    obtain ⟨h', hp, -⟩ := (hall h.expr h.raw).mp ⟨h, hh, rfl, rfl⟩
    obtain ⟨hh', ht⟩ := pieces_trim_eq_iff.mp hp
    cases hh.symm.trans hh'
    exact ht
  · intro ht expr raw
    refine ⟨fun ⟨h, hh, he⟩ => ⟨h, pieces_trim_eq_iff.mpr ⟨hh, ht h hh⟩, he⟩, fun ⟨h, hp, he⟩ => ?_⟩
    exact ⟨h, (pieces_trim_eq_iff.mp hp).1, he⟩

/-- Two holes in a row are one hole by their ends. -/
theorem readings_differ :
    let s := "\x7b\x7ba\x7d\x7d\x7b\x7bb\x7d\x7d".toList
    ofText? s = some ⟨false, "a\x7d\x7d\x7b\x7bb".toList⟩ ∧
      pieces (Text.trim s) = [.inr ⟨false, ['a']⟩, .inr ⟨false, ['b']⟩] := by
  decide +kernel

end Stencil.Hole
