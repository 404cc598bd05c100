import Stencil.Reference

namespace Stencil

/-- The fragments of one rendering, in the order in which they were finished. While a page is
rendered, a reference stands in it for every value and component that was inserted, so that nothing
inserted is ever read as template text. -/
structure Fragments where
  items : Array Text
deriving Repr, DecidableEq

namespace Fragments

def empty : Fragments := ⟨#[]⟩

/-- Adds a fragment, and gives the reference that stands for it. -/
def stash (f : Fragments) (fragment : Text) : Text × Fragments :=
  (Reference.write Reference.fragment f.items.size, ⟨f.items.push fragment⟩)

/-- Replaces the references to fragments below a limit, in a text and in those fragments. A
fragment refers only to fragments before it, so the limit of what it may refer to is its own number.
Other references are left out. -/
def expand (f : Fragments) (limit : Nat) (s : Text) : Text :=
  Reference.substitute Reference.fragment
    (fun digits => some <|
      match Text.toIndex? digits with
      | none => []
      | some n => if _h : n < limit then expand f n (f.items[n]?.getD []) else []) s
termination_by limit

/-- Replaces every reference to a fragment in a text. -/
def assemble (f : Fragments) (s : Text) : Text := expand f f.items.size s

end Fragments

end Stencil
