import Stencil.Expression.Basic

namespace Stencil

/-- What an expression resolves to: a value, or nothing yet. -/
inductive Lookup where
  | found (v : Value)
  | unknown

/-- What expressions are resolved with: a scope, the literals of the source, and whether the
template is being precompiled. In that pass only constant data is in scope: a path is unknown if the
scope does not have its first name, unless this starts with a dollar sign. Such names are constants,
and a missing one is null. -/
structure Resolver where
  scope : Scope
  literals : LiteralTable
  pre : Bool

namespace Resolver

mutual

def alternative (r : Resolver) : Alternative → Lookup
  | .literal v => .found v
  | .path root steps =>
    match Dictionary.get? r.scope root with
    | some v => follow r v steps
    | none => if r.pre && root.head? ≠ some '$' then .unknown else .found .null

def follow (r : Resolver) (v : Value) : List PathStep → Lookup
  | [] => .found v
  | .name name :: steps =>
    match v.index? (.str name) with
    | some w => follow r w steps
    | none => .found .null
  | .index alternatives :: steps =>
    match firstPresent r .null alternatives with
    | .found key =>
      match v.index? key with
      | some w => follow r w steps
      | none => .found .null
    | .unknown => .unknown
  | .nowhere :: _ => .found .null

/-- The first value that is neither null nor false; if there is none, the last value, or the given
one. -/
def firstPresent (r : Resolver) (last : Value) : List Alternative → Lookup
  | [] => .found last
  | a :: more =>
    match alternative r a with
    | .found v => if v.isNull || v.isFalse then firstPresent r v more else .found v
    | .unknown => .unknown

end

/-- The first text of a value that is a scalar and neither null nor false; if there is none, no
text. -/
def firstText (r : Resolver) : List Alternative → Option Text
  | [] => some []
  | a :: more =>
    match alternative r a with
    | .found v =>
      if v.isScalar && !v.isNull && !v.isFalse then some v.text else firstText r more
    | .unknown => none

def value (r : Resolver) (expr : Text) : Lookup :=
  firstPresent r .null (Expression.read r.literals expr)

/-- The text of an expression; it has none as long as it is unknown. -/
def text? (r : Resolver) (expr : Text) : Option Text :=
  firstText r (Expression.read r.literals expr)

/-- The value of an expression that is taken as one alternative. -/
def atom (r : Resolver) (expr : Text) : Lookup :=
  let atom := Text.trim expr
  match Expression.literal? r.literals atom with
  | some v => .found v
  | none =>
    alternative r (.path (atom.takeWhile fun c => !Expression.startsStep c)
      (Expression.readSteps r.literals (atom.dropWhile fun c => !Expression.startsStep c)))

end Resolver

end Stencil
