import Stencil.Proofs.Nesting
import Stencil.Proofs.Sealed

namespace Stencil

open Placeholder

namespace Forest

variable {α : Type}

def append : Forest α → Forest α → Forest α
  | nil, g => g
  | char c rest, g => char c (append rest g)
  | alone name tag rest, g => alone name tag (append rest g)
  | around name tag content rest, g => around name tag content (append rest g)

theorem pieces_append (depth : Nat) (f g : Forest (Option Nat)) :
    (f.append g).pieces depth = f.pieces depth ++ g.pieces depth := by
  induction f with
  | nil => rfl
  | char c rest ih => exact congrArg (List.cons _) ih
  | alone name index rest ih => exact congrArg (List.cons _) ih
  | around name index content rest _ ih => simp [append, pieces, ih]

/-- Written one level deeper and lowered, a forest is as it is written at its level. -/
theorem map_lowerPiece (f : Forest (Option Nat)) (depth : Nat) :
    (f.pieces (depth + 1)).map (lowerPiece 1) = f.pieces depth := by
  induction f generalizing depth with
  | nil => rfl
  | char c rest ih => exact congrArg (List.cons _) (ih depth)
  | alone name index rest ih => exact congrArg (List.cons _) (ih depth)
  | around name index content rest ihc ihr =>
    rw [pieces, List.map_append, List.map_cons, List.map_cons, ihc, ihr]
    rfl

/-- The tags of a forest without the text between them. -/
def skeleton : Forest α → Forest α
  | nil => nil
  | char _ rest => skeleton rest
  | alone name tag rest => alone name tag (skeleton rest)
  | around name tag content rest => around name tag (skeleton content) (skeleton rest)

/-- The tags of a forest, each by itself with the tags that stand in it. -/
def parts : Forest α → List (Forest α)
  | nil => []
  | char _ rest => parts rest
  | alone name tag rest => alone name tag nil :: parts rest
  | around name tag content rest =>
    around name tag (skeleton content) nil :: (parts content ++ parts rest)

theorem skeleton_skeleton (f : Forest α) : f.skeleton.skeleton = f.skeleton := by
  induction f with
  | nil => rfl
  | char c rest ih => exact ih
  | alone name tag rest ih => exact congrArg (alone name tag) ih
  | around name tag content rest ihc ihr => exact congrArg₂ (around name tag) ihc ihr

theorem parts_skeleton (f : Forest α) : f.skeleton.parts = f.parts := by
  induction f with
  | nil => rfl
  | char c rest ih => exact ih
  | alone name tag rest ih => exact congrArg (List.cons _) ih
  | around name tag content rest ihc ihr =>
    rw [skeleton, parts, parts, ihc, ihr, skeleton_skeleton]

theorem parts_append (f g : Forest α) : (f.append g).parts = f.parts ++ g.parts := by
  induction f with
  | nil => rfl
  | char c rest ih => exact ih
  | alone name tag rest ih => exact congrArg (List.cons _) ih
  | around name tag content rest _ ih => simp [append, parts, ih]

theorem tags_skeleton (f : Forest α) : f.skeleton.tags = f.tags := by
  induction f with
  | nil => rfl
  | char c rest ih => exact ih
  | alone name tag rest ih => exact congrArg (List.cons tag) ih
  | around name tag content rest ihc ihr => rw [skeleton, tags, tags, ihc, ihr]

theorem mem_tags_of_mem_parts {f g : Forest α} (hg : g ∈ f.parts) {t : α} (ht : t ∈ g.tags) :
    t ∈ f.tags := by
  induction f with
  | nil => cases hg
  | char c rest ih => exact ih hg
  | alone name tag rest ih =>
    rcases List.mem_cons.mp hg with rfl | hg
    · rw [List.mem_singleton.mp ht]
      exact List.mem_cons_self
    · exact List.mem_cons_of_mem _ (ih hg)
  | around name tag content rest ihc ihr =>
    rw [tags]
    rcases List.mem_cons.mp hg with rfl | hg
    · rw [tags, tags_skeleton] at ht
      exact List.mem_append_left _ (by simpa [tags] using ht)
    · rcases List.mem_append.mp hg with hg | hg
      · exact List.mem_append_left _ (List.mem_cons_of_mem _ (ihc hg))
      · exact List.mem_append_right _ (ihr hg)

theorem pieces_textBefore_nil (depth : Nat) (s : Text) :
    (textBefore s nil : Forest (Option Nat)).pieces depth = s.map .inl := by
  rw [pieces_textBefore]
  exact List.append_nil _

theorem exists_text_of_tagsOf {qs : List Piece} (h : tagsOf qs = []) :
    ∃ s : Text, qs = s.map .inl := by
  induction qs with
  | nil => exact ⟨[], rfl⟩
  | cons q qs ih =>
    cases q with
    | inl c =>
      obtain ⟨s, rfl⟩ := ih h
      exact ⟨c :: s, rfl⟩
    | inr p => cases h

theorem exists_of_tagsOf_cons {qs : List Piece} {p : Placeholder} {ps : List Placeholder}
    (h : tagsOf qs = p :: ps) :
    ∃ (s : Text) (rs : List Piece), qs = s.map .inl ++ .inr p :: rs ∧ tagsOf rs = ps := by
  induction qs with
  | nil => cases h
  | cons q qs ih =>
    cases q with
    | inl c =>
      obtain ⟨s, rs, rfl, hr⟩ := ih h
      exact ⟨c :: s, rs, rfl, hr⟩
    | inr q =>
      obtain ⟨rfl, hr⟩ := List.cons.inj h
      exact ⟨[], qs, rfl, hr⟩

theorem exists_of_tagsOf_append {qs : List Piece} {as bs : List Placeholder}
    (h : tagsOf qs = as ++ bs) : ∃ us vs, qs = us ++ vs ∧ tagsOf us = as ∧ tagsOf vs = bs := by
  induction as generalizing qs with
  | nil => exact ⟨[], qs, rfl, rfl, h⟩
  | cons p as ih =>
    obtain ⟨s, rs, rfl, hr⟩ := exists_of_tagsOf_cons h
    obtain ⟨us, vs, rfl, rfl, rfl⟩ := ih hr
    refine ⟨s.map .inl ++ .inr p :: us, vs, by simp, ?_, rfl⟩
    rw [tagsOf_append, tagsOf_map_inl]
    rfl

/-- Pieces with the placeholders of a written forest are a written forest with the same tags. -/
theorem exists_pieces_of_tagsOf {f : Forest (Option Nat)} {depth : Nat} {qs : List Piece}
    (h : tagsOf qs = tagsOf (f.pieces depth)) :
    ∃ g : Forest (Option Nat), qs = g.pieces depth ∧ g.skeleton = f.skeleton := by
  have htext : ∀ (s : Text) (g : Forest (Option Nat)), (textBefore s g).skeleton = g.skeleton := by
    intro s g
    induction s with
    | nil => rfl
    | cons c s ih => exact ih
  induction f generalizing depth qs with
  | nil =>
    obtain ⟨s, rfl⟩ := exists_text_of_tagsOf h
    exact ⟨textBefore s nil, (pieces_textBefore_nil depth s).symm, htext s nil⟩
  | char c rest ih => exact ih h
  | alone name index rest ih =>
    obtain ⟨s, rs, rfl, hr⟩ := exists_of_tagsOf_cons h
    obtain ⟨g, rfl, hg⟩ := ih hr
    refine ⟨textBefore s (alone name index g), ?_, ?_⟩
    · rw [pieces_textBefore]
      rfl
    · rw [htext, skeleton, hg]
      rfl
  | around name index content rest ihc ihr =>
    have hpieces : tagsOf qs = ⟨name, depth, index, .opens⟩ ::
        (tagsOf (content.pieces (depth + 1)) ++
          ⟨name, depth, none, .closes⟩ :: tagsOf (rest.pieces depth)) := by
      rw [h, pieces, tagsOf_append]
      rfl
    obtain ⟨s, rs, rfl, hr⟩ := exists_of_tagsOf_cons hpieces
    obtain ⟨us, vs, rfl, hu, hv⟩ := exists_of_tagsOf_append hr
    obtain ⟨t, ws, rfl, hw⟩ := exists_of_tagsOf_cons hv
    have hut : tagsOf (us ++ t.map .inl) = tagsOf (content.pieces (depth + 1)) := by
      rw [tagsOf_append, tagsOf_map_inl, List.append_nil, hu]
    obtain ⟨g, hg, hgs⟩ := ihc hut
    obtain ⟨k, rfl, hks⟩ := ihr hw
    refine ⟨textBefore s (around name index g k), ?_, ?_⟩
    · rw [pieces_textBefore, pieces, ← hg]
      simp
    · rw [htext, skeleton, hgs, hks]
      rfl

end Forest

end Stencil
