import Stencil.Normalized
import Stencil.Proofs.Placeholder

namespace Stencil.Tag

theorem hole?_of_head? {s : Text} (h : s.head? ≠ some '{') : hole? s = none := by
  cases s with
  | nil => rfl
  | cons c s =>
    have hc : '{' ≠ c := by
      rintro rfl
      exact h rfl
    simp [hole?, Text.strip?, hc]

/-- A tag ends at the first angle bracket, if there is no brace before it. -/
theorem tailEnd?_plain {w : Text} (hw : ∀ c ∈ w, c ≠ '{' ∧ c ≠ '<' ∧ c ≠ '>') (previous : Char)
    (rest : Text) : tailEnd? false previous (w ++ '>' :: rest) = some (w, rest) := by
  induction w generalizing previous with
  | nil =>
    rw [List.nil_append, tailEnd?]
    split
    next hole rest' hh =>
      rw [hole?_of_head? (by simp)] at hh
      exact absurd hh (by simp)
    next => simp
  | cons c w ih =>
    obtain ⟨hb, hl, hg⟩ := hw c List.mem_cons_self
    rw [List.cons_append, tailEnd?]
    split
    next hole rest' hh =>
      rw [hole?_of_head? (by simpa using hb)] at hh
      exact absurd hh (by simp)
    next => simp [hl, hg, ih fun c hc => hw c (List.mem_cons_of_mem _ hc)]

theorem name_of_body? {closing : Bool} {s rest : Text} {tag : Tag}
    (h : body? closing s = some (tag, rest)) : tag.name = s.takeWhile Placeholder.isNameChar := by
  unfold body? at h
  dsimp only at h
  split at h
  next => simp at h
  next =>
    obtain ⟨⟨tail, r⟩, _, he⟩ := Option.map_eq_some_iff.mp h
    dsimp only at he
    split at he <;> cases he <;> rfl

theorem isNameChar_of_read? {s rest : Text} {tag : Tag} (h : read? s = some (tag, rest)) :
    ∀ c ∈ tag.name, Placeholder.isNameChar c := by
  have hbody : ∀ {closing : Bool} {s : Text}, body? closing s = some (tag, rest) →
      ∀ c ∈ tag.name, Placeholder.isNameChar c := fun h => by
    rw [name_of_body? h]
    exact List.all_eq_true.mp List.all_takeWhile
  unfold read? at h
  split at h
  next => exact hbody h
  next => exact hbody h
  next => simp at h

theorem head?_of_read? {s rest : Text} {tag : Tag} (h : read? s = some (tag, rest)) :
    s.head? = some '<' := by
  unfold read? at h
  split at h
  · rfl
  · rfl
  · simp at h

theorem isConditional_of_colon {name : Text} (h : ':' ∈ name) : isConditional name = false := by
  cases hc : isConditional name with
  | false => rfl
  | true =>
    simp only [isConditional, Bool.or_eq_true, decide_eq_true_eq] at hc
    rcases hc with (rfl | rfl) | rfl <;> exact absurd h (by decide)

theorem isNameChar_of_nameEnds {s : Text} (h : nameEnds s) :
    ∀ c ∈ s.head?, Placeholder.isNameChar c = false := by
  cases s with
  | nil => simp
  | cons c s =>
    have hc : ((((c = '>' ∨ c = '/') ∨ c = ' ') ∨ c = '\t') ∨ c = '\n') ∨ c = '\r' := by
      simpa [nameEnds] using h
    intro d hd
    cases Option.some.inj hd
    rcases hc with ((((rfl | rfl) | rfl) | rfl) | rfl) | rfl <;> decide

theorem body?_label (closing : Bool) {full w : Text} (hf : ∀ c ∈ full, Placeholder.isNameChar c)
    (hne : full ≠ []) (hc : ':' ∈ full) (hw : ∀ c ∈ w, c ≠ '{' ∧ c ≠ '<' ∧ c ≠ '>')
    (hh : nameEnds (w ++ ['>'])) (rest : Text) :
    ∃ tag, body? closing (full ++ (w ++ '>' :: rest)) = some (tag, rest) ∧ tag.name = full := by
  have hends : nameEnds (w ++ '>' :: rest) := by
    cases w with
    | nil => rfl
    | cons => exact hh
  have hstop := isNameChar_of_nameEnds hends
  unfold body?
  rw [Text.takeWhile_append_stop hf hstop, Text.dropWhile_append_stop hf hstop]
  simp only [hends, isConditional_of_colon hc, tailEnd?_plain hw, List.isEmpty_eq_false_iff.mpr hne,
    Bool.not_true, Bool.or_self, Bool.false_eq_true, if_false, Option.map_some]
  split <;> exact ⟨_, rfl, rfl⟩

/-- What is read as a placeholder is a tag of the template language, in any place. -/
theorem exists_read?_of_spelling {p : Placeholder} {w : Text} (h : p.Spelling w) (rest : Text) :
    ∃ tag, read? (w ++ rest) = some (tag, rest) ∧ Placeholder.isSpecialName tag.name := by
  rcases p with ⟨name, depth, attrs, kind⟩
  have hfull : ∀ {full : Text}, Placeholder.nameAndDepth? full = some (name, depth) →
      full ≠ [] ∧ ':' ∈ full ∧ Placeholder.isSpecialName full := by
    intro full hd
    obtain ⟨digits, rfl, hs⟩ := Placeholder.eq_of_nameAndDepth? hd
    exact ⟨by simp, by simp, Placeholder.isSpecialName_append hs _⟩
  cases h with
  | @closer full hf hd =>
    obtain ⟨hne, hc, hs⟩ := hfull hd
    obtain ⟨tag, ht, hn⟩ := body?_label true (w := []) hf hne hc (by simp) rfl rest
    exact ⟨tag, by simpa [read?] using ht, hn ▸ hs⟩
  | @opener full index hf hd hk hi =>
    obtain ⟨hne, hc, hs⟩ := hfull hd
    have hw : ∀ slash : Text, (∀ c ∈ slash, c = '/') → ∀ c ∈ index ++ slash,
        c ≠ '{' ∧ c ≠ '<' ∧ c ≠ '>' := by
      intro slash hslash c hc
      have hx : c = '/' ∨ c = ' ' ∨ c.isDigit := by
        rcases List.mem_append.mp hc with h | h
        · cases hi with
          | absent => simp at h
          | digits hds =>
            rcases List.mem_cons.mp h with h | h
            · exact .inr (.inl h)
            · exact .inr (.inr (hds c h))
        · exact .inl (hslash c h)
      refine ⟨?_, ?_, ?_⟩ <;> rintro rfl <;> exact absurd hx (by decide)
    have hread : ∀ t : Text, read? ('<' :: (full ++ t)) = body? false (full ++ t) := by
      intro t
      obtain ⟨c, f, rfl⟩ := List.exists_cons_of_ne_nil hne
      have hcs : c ≠ '/' := by
        rintro rfl
        exact absurd (hf '/' List.mem_cons_self) (by decide)
      simp [read?, hcs]
    cases kind with
    | closes => exact absurd rfl hk
    | opens =>
      obtain ⟨tag, ht, hn⟩ := body?_label false (w := index) hf hne hc
        (by simpa using hw [] (by simp)) (by cases hi <;> rfl) rest
      exact ⟨tag, by simpa [Placeholder.endText, hread] using ht, hn ▸ hs⟩
    | alone =>
      obtain ⟨tag, ht, hn⟩ := body?_label false (w := index ++ ['/']) hf hne hc
        (hw ['/'] (by simp)) (by cases hi <;> rfl) rest
      exact ⟨tag, by simpa [Placeholder.endText, hread] using ht, hn ▸ hs⟩

end Stencil.Tag
