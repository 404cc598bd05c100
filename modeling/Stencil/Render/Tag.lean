import Stencil.Condition.Evaluation
import Stencil.Loop.Item
import Stencil.Loop.Shorthand
import Stencil.Node
import Stencil.Render.Basic
import Stencil.Residual

namespace Stencil

/-- What a tag does, by its name. -/
inductive TagRole where
  | condition
  | loop
  | imports (name : Text)
  | component (name : Text)
  | assignment
  | randomWord
  | function (name : Text)
deriving Repr, DecidableEq

namespace TagRole

def loopNames : List Text :=
  ["_each".toList, "_for".toList, "_foreach".toList, "_for_each".toList]

/-- The role of a tag with a name. The case of letters counts only in names of templates. -/
def ofName (name : Text) : TagRole :=
  let lower := Text.lowerAscii name
  if lower = "_if".toList then condition
  else if loopNames.contains lower then loop
  else
    match Text.strip? ['_', ':'] name with
    | some name => imports name
    | none =>
      if name.head? ≠ some '_' then component name
      else if lower = "_set".toList then assignment
      else if lower = "_rand".toList then randomWord
      else function lower

end TagRole

/-- What a condition comes to: the body of a branch that is chosen, or the branches that are left,
of which the last one may need no condition. -/
inductive Selection where
  | chosen (body : Text)
  | left (branches : List (Option Condition × Text))

namespace Selection

/-- The outcome of a branch. The attributes of its condition are found with the given function. -/
def outcome (r : Resolver) (attrs : Option Nat → Attributes) (b : Branch) : Outcome :=
  match b.condition with
  | none => .known true
  | some index => Condition.evalTokens r (attrs index).args

/-- The branches that are left after one that is undecided. -/
def remaining (outcome : Branch → Outcome) : List Branch → List (Option Condition × Text)
  | [] => []
  | b :: more =>
    match outcome b with
    | .known true => [(none, b.body)]
    | .known false => remaining outcome more
    | .residual c => (some c, b.body) :: remaining outcome more

/-- Selects among branches: the first one that is true, if those before it are false. -/
def ofBranches (outcome : Branch → Outcome) : List Branch → Selection
  | [] => left []
  | b :: more =>
    match outcome b with
    | .known true => chosen b.body
    | .known false => ofBranches outcome more
    | .residual c => left ((some c, b.body) :: remaining outcome more)

end Selection

namespace Rendering

variable {σ : Type}

/-- Renders content that takes the place of its tag. In a template its tags rise by one level. -/
def inPlace (frame : Frame σ) (child : Text → Scope → Rendering σ Output) (content : Text)
    (scope : Scope) : Rendering σ Output := do
  let (out, scope) ← child content scope
  put scope (if frame.pass.isEarly then Placeholder.lowerDepth out 1 else out)

/-- The tag that opens a branch: the first one of a condition, or one after it. -/
def branchTag (level : Nat) (isFirst : Bool) (index : Option Nat) : Placeholder :=
  if isFirst then ⟨"_if".toList, level, index, .opens⟩
  else
    match index with
    | some _ => ⟨"_elif".toList, level + 1, index, .alone⟩
    | none => ⟨"_else".toList, level + 1, none, .alone⟩

/-- Writes branches that are left. What is bound already is filled in. -/
def writeBranches (frame : Frame σ) (child : Text → Scope → Rendering σ Output) (level : Nat)
    (scope : Scope) : Bool → List (Option Condition × Text) → Rendering σ Text
  | _, [] => return []
  | isFirst, (condition, body) :: more => do
    let index ← condition.mapM fun c => addAttributes frame (Attributes.positional c.tokens)
    let (out, _) ← child body scope
    let rest ← writeBranches frame child level scope false more
    return (branchTag level isFirst index).written ++ out ++ rest

def condition (frame : Frame σ) (child : Text → Scope → Rendering σ Output) (p : Placeholder)
    (content : Text) (level : Nat) (scope : Scope) : Rendering σ Output := do
  let branches := Branch.list (level + 1) p.attrs content
  match Selection.ofBranches (Selection.outcome (frame.resolver scope) frame.template.attributes)
      branches with
  | .chosen body => inPlace frame child body scope
  | .left [] => put scope []
  | .left left =>
    let out ← writeBranches frame child level scope true left
    put scope (out ++ Placeholder.closer "_if".toList level)

/-- The tags that the content of a loop may have for the loop to be run in the early pass. -/
def earlyTags : List Text :=
  ["_if".toList, "_elif".toList, "_else".toList] ++ TagRole.loopNames ++
    ["_lorem".toList, "_youtube".toList, "_yt".toList]

def isEarlyContent (content : Text) : Bool :=
  !Text.has Residual.opening content &&
    (Placeholder.pieces content).all fun
      | .inl _ => true
      | .inr p => earlyTags.contains (Text.lowerAscii p.name)

/-- Renders a loop. One whose items are unknown is kept as it is. -/
def loop (frame : Frame σ) (child : Text → Scope → Rendering σ Output) (attrs : Attributes)
    (content source : Text) (scope : Scope) : Rendering σ Output :=
  match Loop.ofArgs? attrs.args with
  | none => put scope []
  | some l =>
    match l.items? (frame.resolver scope) with
    | none => put scope source
    | some items =>
      if frame.pass.isEarly && !isEarlyContent content then put scope source
      else do
        let body := l.expand content
        let outs ← items.mapM fun item => inPlace frame child body (l.bind scope item)
        put scope (outs.map Prod.fst).flatten

def isVariable (name : Text) : Bool :=
  !name.isEmpty && name.all fun c => isWordCharacter c || c == '-' || c == '$'

/-- The value of an attribute: that of a hole, a literal, or what is found under its name. A name
under which there is nothing stands for itself. -/
def attributeValue (r : Resolver) (raw : Text) : Value :=
  match Hole.ofText? raw with
  | some h => (r.value (Expression.binding h.expr).2).value
  | none =>
    match Expression.literal? r.literals raw with
    | some v => v
    | none =>
      match r.value raw with
      | .found v => if v.isNull then .str raw else v
      | .unknown => .str raw

def assignment (frame : Frame σ) (attrs : Attributes) (source : Text) (scope : Scope) :
    Rendering σ Output :=
  if frame.pass.isEarly then put scope (Residual.write source)
  else
    let r := frame.resolver scope
    let values := (attrs.named.filter fun e => isVariable e.1).map fun e =>
      (e.1, attributeValue r e.2)
    put (Dictionary.insertAll scope values) []

/-- The length of random words, if none is given. -/
def defaultLength : Nat := 64

def wordCharacters : Text :=
  "0123456789abcdefghijklmnopqrstuvwxyzABCDEFGHIJKLMNOPQRSTUVWXYZ".toList

/-- A random word of a length, without some characters. -/
def word (length : Nat) (without : Text) : Random Text := do
  let pool := wordCharacters.filter fun c => !without.contains c
  if pool.isEmpty then return []
  else return (← Random.many length (Random.choose? pool)).filterMap id

def wordLength (attrs : Attributes) : Nat :=
  match (attrs.get? "size".toList).bind Text.toIndex? with
  | some (n + 1) => n + 1
  | _ => defaultLength

def excluded (literals : LiteralTable) (attrs : Attributes) : Text :=
  match attrs.get? "exclude".toList with
  | some raw => ((Expression.literal? literals raw).map Value.text).getD raw
  | none => []

/-- Binds a name to a random word. In the early pass only names with a dollar sign are bound. -/
def randomWord (frame : Frame σ) (attrs : Attributes) (source : Text) (scope : Scope) :
    Rendering σ Output := do
  match (attrs.get? ['0']).filter isVariable with
  | none => put scope []
  | some name =>
    if frame.pass.isEarly && name.head? ≠ some '$' then put scope (Residual.write source)
    else
      let lead := ((attrs.get? ['1']).filter isVariable).getD []
      let w ← draw (word (wordLength attrs) (excluded frame.template.literals attrs))
      put (Dictionary.insert scope name (.str (lead ++ w.getD []))) []

def function (frame : Frame σ) (name : Text) (attrs : Attributes) (content : Option Text)
    (source : Text) (scope : Scope) : Rendering σ Output := do
  let early := frame.pass.isEarly
  let kept := if early then Residual.write source else []
  match frame.site.functions.find? name with
  | none => put scope kept
  | some f =>
    if early && !f.early then put scope kept
    else
      let call : Call := ⟨TagFunction.name name, attrs, content, frame.resolver scope,
        frame.site.assets, frame.site.videos⟩
      match (← draw (f.call call)).join with
      | some html => put scope (← emit frame html)
      | none => put scope kept

end Rendering

end Stencil
