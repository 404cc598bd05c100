import Stencil.Hole

namespace Stencil.InlineTag

/-- Leaves out a hole at the start of a text, with all the braces after it. -/
def afterHole (s : Text) : Text :=
  match Text.cut? ['}', '}'] s with
  | some (_, rest) => rest.dropWhile (· == '}')
  | none => []

theorem length_afterHole (s : Text) : (afterHole s).length ≤ s.length := by
  unfold afterHole
  split
  next rest h =>
    have := Text.length_of_cut? h
    have := Text.length_dropWhile_le (· == '}') rest
    omega
  next => simp

/-- What follows the inside of a tag: from an angle bracket outside holes on. -/
def afterInside : Text → Text
  | [] => []
  | c :: s =>
    if c = '<' ∨ c = '>' then c :: s
    else if c = '{' ∧ s.head? = some '{' then afterInside (afterHole s)
    else afterInside s
termination_by s => s.length
decreasing_by
  · have := length_afterHole s
    simp only [List.length_cons]
    omega
  · simp

theorem length_afterInside (s : Text) : (afterInside s).length ≤ s.length := by
  fun_induction afterInside s with
  | case1 => simp
  | case2 => simp
  | case3 c s _ _ ih =>
    have := length_afterHole s
    simp only [List.length_cons]
    omega
  | case4 => simp only [List.length_cons]; omega

/-- Reads the tag at the start of a text, and gives what follows it; if there is no end to it, the
part of the text that is no tag is given as such. -/
def lead? (s : Text) : Option ((Text ⊕ Text) × Text) :=
  match s with
  | '<' :: c :: s =>
    if c.isAlpha then
      match afterInside (c :: s) with
      | '>' :: rest => some (.inr (('<' :: c :: s).take (s.length + 2 - rest.length)), rest)
      | rest => some (.inl (('<' :: c :: s).take (s.length + 2 - rest.length)), rest)
    else none
  | _ => none

theorem length_of_lead? {s rest : Text} {p : Text ⊕ Text} (h : lead? s = some (p, rest)) :
    rest.length < s.length := by
  unfold lead? at h
  split at h
  next c s =>
    have hl := length_afterInside (c :: s)
    split at h
    next =>
      split at h
      next r hr =>
        cases Option.some.inj h
        rw [hr] at hl
        simp only [List.length_cons] at hl ⊢
        omega
      next =>
        cases Option.some.inj h
        simp only [List.length_cons] at hl ⊢
        omega
    next => simp at h
  next => simp at h

/-- A text as running text, on the left, and tags, on the right. -/
def pieces : Text → List (Text ⊕ Text)
  | [] => []
  | c :: s =>
    match _h : lead? (c :: s) with
    | some (piece, rest) => piece :: pieces rest
    | none => .inl [c] :: pieces s
termination_by s => s.length
decreasing_by
  · exact length_of_lead? _h
  · simp

/-- Fills the holes inside tags, left to right, with an effect. A hole for which nothing is given
stays. -/
def fillM {m : Type → Type} [Monad m] (f : Hole → m (Option Text)) (s : Text) : m Text :=
  return (← (pieces s).mapM fun
    | .inl t => pure t
    | .inr tag => Hole.fillM f tag).flatten

end Stencil.InlineTag
