import Stencil.Placeholder
import Stencil.Render.Basic

namespace Stencil.Static

variable {σ : Type}

/-- The function that a tag can call before there is any data. -/
def function? (functions : Registry) (p : Placeholder) : Option TagFunction :=
  if p.kind = .closes ∨ p.name.head? ≠ some '_' ∨ (Text.strip? ['_', ':'] p.name).isSome then none
  else (functions.find? p.name).filter TagFunction.early

/-- The content of a tag that is followed by a text, and what follows the whole tag. -/
def extent? (p : Placeholder) (after : Text) : Option (Option Text × Text) :=
  if p.kind = .alone then some (none, after)
  else (Placeholder.cutCloser? p.name p.depth after).map fun (content, rest) => (some content, rest)

theorem length_of_extent? {p : Placeholder} {after rest : Text} {content : Option Text}
    (h : extent? p after = some (content, rest)) : rest.length ≤ after.length := by
  unfold extent? at h
  split at h
  · cases Option.some.inj h
    exact Nat.le_refl _
  · obtain ⟨⟨inside, r⟩, hc, he⟩ := Option.map_eq_some_iff.mp h
    cases he
    have := Text.length_of_cut? hc
    omega

/-- The call of a tag without any data. -/
def call (host : Host) (attrs : List Attributes) (literals : LiteralTable) (p : Placeholder)
    (content : Option Text) : Call :=
  ⟨TagFunction.name p.name, (p.attrs.bind fun n => attrs[n]?).getD .empty, content,
    ⟨[], literals, true⟩, host.assets, host.videos⟩

/-- What a function answers to a call that has no holes. -/
def answer (f : TagFunction) (c : Call) : StateM (World σ) (Option Text) := do
  if c.isStatic then return (← World.draw (f.call c)).join else return none

def expand (host : Host) (attrs : List Attributes) (literals : LiteralTable) (s : Text) :
    StateM (World σ) Text :=
  match _h : Placeholder.next? s with
  | none => return s
  | some f =>
    let keep : StateM (World σ) Text := do
      return f.before ++ f.source ++ (← expand host attrs literals f.after)
    match function? host.functions f.placeholder with
    | none => keep
    | some function =>
      match _e : extent? f.placeholder f.after with
      | none => keep
      | some (content, rest) => do
        match ← answer function (call host attrs literals f.placeholder content) with
        | some out =>
          return f.before ++ Marker.encode out ++ (← expand host attrs literals rest)
        | none => keep
termination_by s.length
decreasing_by
  · exact Placeholder.length_of_next? _h
  · exact Nat.lt_of_le_of_lt (length_of_extent? _e) (Placeholder.length_of_next? _h)

end Stencil.Static
