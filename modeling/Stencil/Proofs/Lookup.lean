import Stencil.Expression.Lookup

namespace Stencil.Resolver

mutual

theorem alternative_found {r : Resolver} (hr : r.pre = false) :
    ∀ a, ∃ v, r.alternative a = .found v
  | .literal v => ⟨v, by rw [alternative]⟩
  | .path root steps => by
    rw [alternative]
    split
    next v _ => exact follow_found hr v steps
    next => exact ⟨.null, by simp [hr]⟩

theorem follow_found {r : Resolver} (hr : r.pre = false) (v : Value) :
    ∀ steps, ∃ w, r.follow v steps = .found w
  | [] => ⟨v, by rw [follow]⟩
  | .name name :: steps => by
    rw [follow]
    split
    next w _ => exact follow_found hr w steps
    next => exact ⟨.null, rfl⟩
  | .index alternatives :: steps => by
    obtain ⟨key, hk⟩ := firstPresent_found hr .null alternatives
    rw [follow, hk]
    dsimp only
    split
    next w _ => exact follow_found hr w steps
    next => exact ⟨.null, rfl⟩
  | .nowhere :: _ => ⟨.null, by rw [follow]⟩

theorem firstPresent_found {r : Resolver} (hr : r.pre = false) (last : Value) :
    ∀ alternatives, ∃ v, r.firstPresent last alternatives = .found v
  | [] => ⟨last, by rw [firstPresent]⟩
  | a :: more => by
    obtain ⟨v, hv⟩ := alternative_found hr a
    rw [firstPresent, hv]
    dsimp only
    split
    · exact firstPresent_found hr v more
    · exact ⟨v, rfl⟩

end

theorem firstText_isSome {r : Resolver} (hr : r.pre = false) (e : Expression) :
    (r.firstText e).isSome := by
  induction e with
  | nil => rfl
  | cons a more ih =>
    obtain ⟨v, hv⟩ := alternative_found hr a
    rw [firstText, hv]
    dsimp only
    split
    · rfl
    · exact ih

theorem text?_isSome {r : Resolver} (hr : r.pre = false) (expr : Text) : (r.text? expr).isSome :=
  firstText_isSome hr _

end Stencil.Resolver
