import Stencil.Condition.Parser
import Stencil.Expression.Lookup

namespace Stencil

/-- What a condition evaluates to: true or false, or what is left of it. While a template is
precompiled, what depends on request data is left over, and everything known in it is a literal. -/
inductive Outcome where
  | known (b : Bool)
  | residual (c : Condition)

/-- What an operand evaluates to: a value, or what is left of it. -/
inductive Operand where
  | known (v : Value)
  | unknown (c : Condition)

namespace Operand

/-- The operand of a residual comparison: a scalar in its place, or what is left of it. A value that
is no scalar stays as it was written. -/
def fold (written : Condition) : Operand → Condition
  | known v => if v.isScalar then .literal v else written
  | unknown c => c

def compare (op : Comparison) (left right : Condition) (a b : Operand) : Outcome :=
  match a, b with
  | known x, known y => .known (op.holds x y)
  | a, b => .residual (.compare op (a.fold left) (b.fold right))

end Operand

namespace Outcome

def not : Outcome → Outcome
  | known b => known (!b)
  | residual c => residual (.not c)

def and : Outcome → Outcome → Outcome
  | known false, _ => known false
  | known true, b => b
  | residual _, known false => known false
  | residual a, known true => residual a
  | residual a, residual b => residual (.and a b)

def or : Outcome → Outcome → Outcome
  | known true, _ => known true
  | known false, b => b
  | residual _, known true => known true
  | residual a, known false => residual a
  | residual a, residual b => residual (.or a b)

def xor : Outcome → Outcome → Outcome
  | known a, known b => known (a != b)
  | known a, residual c | residual c, known a => residual (if a then .not c else c)
  | residual a, residual b => residual (.xor a b)

def operand : Outcome → Operand
  | known b => .known (.bool b)
  | residual c => .unknown c

end Outcome

namespace Condition

mutual

def eval (r : Resolver) : Condition → Outcome
  | atom expr =>
    match r.value expr with
    | .found v => .known v.isTruthy
    | .unknown => .residual (.atom expr)
  | literal v => .known v.isTruthy
  | not c => (eval r c).not
  | and a b => (eval r a).and (eval r b)
  | or a b => (eval r a).or (eval r b)
  | xor a b => (eval r a).xor (eval r b)
  | compare op a b => Operand.compare op a b (evalOperand r a) (evalOperand r b)

def evalOperand (r : Resolver) : Condition → Operand
  | atom expr =>
    match r.value expr with
    | .found v => .known v
    | .unknown => .unknown (.atom expr)
  | literal v => .known v
  | not c => (eval r c).not.operand
  | and a b => ((eval r a).and (eval r b)).operand
  | or a b => ((eval r a).or (eval r b)).operand
  | xor a b => ((eval r a).xor (eval r b)).operand
  | compare op a b =>
    (Operand.compare op a b (evalOperand r a) (evalOperand r b)).operand

end

def evalTokens (r : Resolver) (ts : List Text) : Outcome := (ofTokens ts).eval r

end Condition

end Stencil
