import Stencil.Expression.Basic
import Stencil.Regex.Parser

namespace Stencil

/-- The ways to compare two values. -/
inductive Comparison where
  | eq
  | ne
  | lt
  | gt
  | le
  | ge
  | like
deriving Repr, DecidableEq

namespace Comparison

def ofToken? (t : Text) : Option Comparison :=
  if t = ['='] ∨ t = ['=', '='] then some eq
  else if t = ['!', '='] ∨ t = ['!'] then some ne
  else if t = ['<'] then some lt
  else if t = ['>'] then some gt
  else if t = ['<', '='] then some le
  else if t = ['>', '='] then some ge
  else if t = ['~'] then some like
  else none

def token : Comparison → Text
  | eq => ['=']
  | ne => ['!', '=']
  | lt => ['<']
  | gt => ['>']
  | le => ['<', '=']
  | ge => ['>', '=']
  | like => ['~']

/-- Does a comparison hold between two values? The last one asks whether the text of the first value
matches the second as a pattern. -/
def holds (c : Comparison) (a b : Value) : Bool :=
  match c with
  | eq => a.looselyEqual b
  | ne => !a.looselyEqual b
  | lt => a.order? b == some .lt
  | gt => a.order? b == some .gt
  | le => a.order? b == some .lt || a.order? b == some .eq
  | ge => a.order? b == some .gt || a.order? b == some .eq
  | like => Regex.search b.text a.text

end Comparison

/-- A condition. -/
inductive Condition where
  | atom (expr : Text)
  | literal (v : Value)
  | not (c : Condition)
  | and (a b : Condition)
  | or (a b : Condition)
  | xor (a b : Condition)
  | compare (op : Comparison) (a b : Condition)
deriving Inhabited

namespace Condition

/-- The tokens of a condition, with brackets around every part that has an operator. -/
def tokens : Condition → List Text
  | atom expr => [expr]
  | literal v => [v.token]
  | not c => [['!'], ['(']] ++ c.tokens ++ [[')']]
  | and a b => [['(']] ++ a.tokens ++ [['&']] ++ b.tokens ++ [[')']]
  | or a b => [['(']] ++ a.tokens ++ [['|']] ++ b.tokens ++ [[')']]
  | xor a b => [['(']] ++ a.tokens ++ [['^']] ++ b.tokens ++ [[')']]
  | compare op a b => a.tokens ++ [op.token] ++ b.tokens

end Condition

end Stencil
