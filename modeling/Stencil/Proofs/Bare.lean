import Stencil.Block
import Stencil.Proofs.Nesting

namespace Stencil

/-- May this character follow an angle bracket that opens no tag? -/
def isBareAfter (c : Char) : Bool := !(c.isAlpha || c == '_' || c == '/' || c == '!')

theorem isBareAfter_iff {c : Char} :
    isBareAfter c ↔ c.isAlpha = false ∧ c ≠ '_' ∧ c ≠ '/' ∧ c ≠ '!' := by
  simp [isBareAfter, and_assoc]

/-- No tag, comment or marker starts in a text. -/
def Bare : Text → Prop
  | [] => True
  | c :: s => (c = '<' → ∀ d ∈ s.head?, isBareAfter d) ∧ Bare s

namespace Bare

def decidable : (s : Text) → Decidable (Bare s)
  | [] => .isTrue trivial
  | _ :: s =>
    haveI : Decidable (∀ d ∈ s.head?, isBareAfter d) := Option.decidableForallMem _
    @instDecidableAnd _ _ inferInstance (decidable s)

instance : DecidablePred Bare := decidable

theorem right {s t : Text} (h : Bare (s ++ t)) : Bare t := by
  induction s with
  | nil => exact h
  | cons c s ih => exact ih h.2

theorem after {s a b : Text} {c : Char} (h : Bare s) (hs : s = a ++ '<' :: c :: b) :
    isBareAfter c := by
  subst hs
  exact h.right.1 rfl c rfl

theorem read?_eq_none {s : Text} (h : Bare s) : Placeholder.read? s = none := by
  cases s with
  | nil => rfl
  | cons c s =>
    by_cases hc : c = '<'
    · subst hc
      have hd := h.1 rfl
      have hslash : s.head? ≠ some '/' := fun hh => absurd (hd _ hh) (by decide)
      rw [Placeholder.read?_opening hslash]
      have hplain : ∀ d ∈ s.head?, d ≠ '_' ∧ d.isUpper = false := by
        intro d hs
        obtain ⟨halpha, hline, -⟩ := isBareAfter_iff.mp (hd d hs)
        exact ⟨hline, (Bool.or_eq_false_iff.mp halpha).1⟩
      rw [Placeholder.nameAndDepth?_of_head? hplain]
      rfl
    · exact Placeholder.read?_of_ne hc s

theorem next?_eq_none {s : Text} (h : Bare s) : Placeholder.next? s = none := by
  induction s with
  | nil => rfl
  | cons c s ih =>
    rw [Placeholder.next?_cons_of_read? h.read?_eq_none, ih h.2]
    rfl

theorem marker?_eq_none {s : Text} (h : Bare s) : Block.marker? s = none := by
  refine Option.eq_none_iff_forall_ne_some.mpr fun ⟨digits, rest⟩ hm => ?_
  obtain ⟨t, ht, _⟩ := Option.bind_eq_some_iff.mp hm
  have hs : s = "<!_script ".toList ++ t := Text.strip?_eq_some_iff.mp ht
  have := h.after (a := []) (c := '!') (b := "_script ".toList ++ t) (by rw [hs]; rfl)
  exact absurd this (by decide)

theorem blockPieces {s : Text} (h : Bare s) (blocks : List Block) :
    Block.pieces blocks s = s.map .inl := by
  induction s with
  | nil => simp [Block.pieces]
  | cons c s ih =>
    rw [Block.pieces]
    split
    next hm => rw [h.marker?_eq_none] at hm; simp at hm
    next => rw [ih h.2, List.map_cons]

theorem read?_not_rewritten {c : Char} {s rest : Text} {tag : Tag} (h : Bare (c :: s))
    (hr : Tag.read? (c :: s) = some (tag, rest)) : tag.isRewritten = false := by
  have hc : c = '<' := by simpa using Tag.head?_of_read? hr
  subst hc
  have hd := h.1 rfl
  have hname : ∀ d ∈ tag.name.head?, isBareAfter d := by
    cases s with
    | nil => simp [Tag.read?, Tag.body?] at hr
    | cons e s =>
      have he : e ≠ '/' := by
        rintro rfl
        exact absurd (hd _ rfl) (by decide)
      have hbody : Tag.body? false (e :: s) = some (tag, rest) := by simpa [Tag.read?, he] using hr
      rw [Tag.name_of_body? hbody, List.takeWhile_cons]
      split
      · exact hd
      · simp
  cases hn : tag.name with
  | nil =>
    simp [Tag.isRewritten, Tag.isBodyMark, hn, Placeholder.isSpecialName, Text.eqIgnoringCase,
      Text.lowerAscii]
  | cons d name =>
    obtain ⟨halpha, hline, -⟩ := isBareAfter_iff.mp (hname d (by simp [hn]))
    have hup : d.isUpper = false := (Bool.or_eq_false_iff.mp halpha).1
    have hb : d ≠ 'b' := by
      rintro rfl
      exact absurd halpha (by decide)
    have hlower : d.toLower = d := by
      rw [Char.toLower, dif_neg]
      simpa [Char.isUpper] using hup
    simp [Tag.isRewritten, Tag.isBodyMark, hn, Placeholder.isSpecialName, Text.eqIgnoringCase,
      Text.lowerAscii, hup, hline, hlower, hb]

theorem ofText? {s : Text} (h : Bare s) (literals : LiteralTable) :
    Normalized.ofText? literals s = some ⟨s, []⟩ := by
  have hgo : ∀ depth count, Normalized.go? literals depth count s = some ⟨s, []⟩ := by
    induction s with
    | nil => simp [Normalized.go?]
    | cons c s ih =>
      intro depth count
      rw [Normalized.go?_of_not_rewritten fun tag r hr => h.read?_not_rewritten hr, ih h.2]
      rfl
  exact hgo 0 0

theorem sink {s : Text} (h : Bare s) (literals : LiteralTable) :
    Block.sink literals s = (s, []) := by
  have hsink : ∀ n, Block.sinkFrom literals n s = (s, []) := by
    induction s with
    | nil => simp [Block.sinkFrom]
    | cons c s ih =>
      intro n
      have hnone : c = '<' → Block.read? literals s = none := by
        intro hc
        have hd := h.1 hc
        have hname : s.takeWhile Char.isAlpha = [] := by
          cases s with
          | nil => rfl
          | cons d s =>
            simp [(isBareAfter_iff.mp (hd d rfl)).1]
        simp [Block.read?, hname, Block.Kind.ofName?, Text.lowerAscii]
      rw [Block.sinkFrom]
      split
      next hc =>
        split
        next hr =>
          rw [hnone hc] at hr
          simp at hr
        next => rw [ih h.2]
      next => rw [ih h.2]
  exact hsink 0

end Bare

/-- A text in which something else stands in some places, none of which is a tag. -/
inductive Respelled : Text → Text → Prop where
  | nil : Respelled [] []
  | char (c : Char) {s t : Text} : Respelled s t → Respelled (c :: s) (c :: t)
  | other (u : Text) {c : Char} {w s t : Text} (hc : isBareAfter c) (hw : '<' ∉ c :: w) :
      Respelled s t → Respelled (u ++ s) (c :: w ++ t)

namespace Respelled

theorem refl (s : Text) : Respelled s s := by
  induction s with
  | nil => exact .nil
  | cons c s ih => exact .char c ih

theorem append {s t u v : Text} (h : Respelled s t) (h' : Respelled u v) :
    Respelled (s ++ u) (t ++ v) := by
  induction h with
  | nil => exact h'
  | char c _ ih => exact .char c ih
  | other w hc hw _ ih =>
    rw [List.append_assoc, List.append_assoc]
    exact .other w hc hw ih

theorem head? {s t : Text} (h : Respelled s t) :
    ∀ d ∈ t.head?, isBareAfter d ∨ s.head? = some d := by
  cases h with
  | nil => simp
  | char c => exact fun d hd => .inr hd
  | other u hc => exact fun d hd => .inl (Option.some.inj hd ▸ hc)

theorem bare {s t : Text} (h : Respelled s t) (hs : Bare s) : Bare t := by
  induction h with
  | nil => trivial
  | char c h ih =>
    refine ⟨fun hc d hd => ?_, ih hs.2⟩
    rcases h.head? d hd with hb | hb
    · exact hb
    · exact hs.1 hc d hb
  | @other u c w s t hc hw _ ih =>
    have hplain : ∀ {w : Text}, '<' ∉ w → Bare (w ++ t) := fun {w} hw => by
      induction w with
      | nil => exact ih hs.right
      | cons d w ihw =>
        have hd : d ≠ '<' := fun he => hw (he ▸ List.mem_cons_self)
        exact ⟨fun h => absurd h hd, ihw (List.not_mem_of_not_mem_cons hw)⟩
    exact hplain hw

end Respelled

end Stencil
