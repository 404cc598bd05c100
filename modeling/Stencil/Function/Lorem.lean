import Stencil.Function.Call
import Stencil.Random

namespace Stencil.Lorem

/-- The kinds of filler text. -/
inductive Kind where
  | paragraph
  | sentence
  | word
  | host
  | email
  | url
deriving Repr, DecidableEq

def Kind.ofText? (s : Text) : Option Kind :=
  match s.head?.map Char.toLower with
  | some 'p' => some paragraph
  | some 's' => some sentence
  | some 'w' => some word
  | some 'h' => some host
  | some 'e' => some email
  | some 'u' => some url
  | _ => none

/-- The least and the greatest count of a kind if none are given. -/
def Kind.range : Kind → Nat × Nat
  | paragraph => (2, 5)
  | sentence => (4, 12)
  | _ => (3, 10)

/-- What to write: a kind, the least and the greatest count, and how often. -/
structure Spec where
  kind : Kind
  least : Nat
  greatest : Nat
  repetitions : Nat
deriving Repr, DecidableEq

def maxCount : Nat := 100

def maxRepetitions : Nat := 50

def count? (s : Text) : Option Nat := Text.toIndex? (Text.trim s)

def readArgs (args : List Text) : Option Kind × List Nat :=
  args.foldl (fun (kind, counts) arg =>
    match count? arg with
    | some n => (kind, counts ++ [n])
    | none => (kind.or (Kind.ofText? arg), counts)) (none, [])

/-- A count given by name: unknown, or there or not. -/
def named? (c : Call) (key : String) : Option (Option Nat) :=
  match c.word key.toList with
  | .unknown => none
  | .absent => some none
  | .word t => some (count? t)

/-- The kind given by name, or else the one given before: unknown, or there or not. -/
def kind? (c : Call) (given : Option Kind) : Option (Option Kind) :=
  match c.word "type".toList with
  | .unknown => none
  | .absent => some given
  | .word t => some ((Kind.ofText? t).or given)

/-- Reads the arguments of a call. There is no answer yet if one of them is unknown. -/
def spec? (c : Call) : Option Spec := do
  let (given, counts) := readArgs c.attrs.args
  let kind := (← kind? c given).getD .paragraph
  let least := (← named? c "min").or counts[0]?
  let greatest := ((← named? c "max").or counts[1]?).or least
  let repetitions := (← named? c "rep").getD 1
  let a := min (least.getD kind.range.1) maxCount
  let b := min (greatest.getD kind.range.2) maxCount
  return ⟨kind, min a b, max a b, min repetitions maxRepetitions⟩

def vocabulary : List String := [
  "lorem", "ipsum", "dolor", "sit", "amet", "consectetur", "adipiscing", "elit", "sed", "do",
  "eiusmod", "tempor", "incididunt", "ut", "labore", "et", "dolore", "magna", "aliqua", "enim",
  "ad", "minim", "veniam", "quis", "nostrud", "exercitation", "ullamco", "laboris", "nisi",
  "aliquip", "ex", "ea", "commodo", "consequat", "duis", "aute", "irure", "in",
  "reprehenderit", "voluptate", "velit", "esse", "cillum", "fugiat", "nulla", "pariatur",
  "excepteur", "sint", "occaecat", "cupidatat", "non", "proident", "sunt", "culpa", "qui",
  "officia", "deserunt", "mollit", "anim", "id", "est", "laborum", "porta", "nibh", "venenatis",
  "cras", "semper", "auctor", "neque", "vitae", "tempus", "quam", "pellentesque", "nec", "nam",
  "aliquam", "faucibus", "purus", "viverra", "accumsan", "lacus", "vel", "facilisis"]

def domains : List String := ["com", "net", "org", "io", "dev"]

/-- A word of a length between two bounds, or any word if there is none. -/
def word (least greatest : Nat) : Random Text := do
  let fitting := vocabulary.filter fun w => least ≤ w.length && w.length ≤ greatest
  match ← Random.choose? fitting with
  | some w => return w.toList
  | none => return (((← Random.choose? vocabulary).getD "lorem").toList)

/-- A text with its first letter in upper case. -/
def capitalize : Text → Text
  | [] => []
  | c :: s => c.toUpper :: s

/-- A sentence of words. -/
def sentenceOf : List Text → Text
  | [] => ['.']
  | w :: ws => Text.join [' '] (capitalize w :: ws) ++ ['.']

/-- A sentence, with a way to draw a number from a range. -/
def sentence (draw : Nat → Nat → Random Nat) (least greatest : Nat) : Random Text := do
  let n ← draw (max least 1) (max greatest 1)
  return sentenceOf (← Random.many n (word 1 20))

def paragraph (draw : Nat → Nat → Random Nat) (least greatest : Nat) : Random Text := do
  let n ← draw (max least 1) (max greatest 1)
  let sentences ← Random.many n (sentence draw 4 12)
  return "<p>".toList ++ Text.join [' '] sentences ++ "</p>".toList

def host : Random Text := do
  let a ← word 3 8
  let b ← word 3 8
  let d ← Random.choose? domains
  return a ++ ['-'] ++ b ++ ['.'] ++ (d.getD "com").toList

/-- The texts that a spec asks for, with a way to draw a number from a range. -/
def Spec.generateBy (draw : Nat → Nat → Random Nat) (s : Spec) : Random Text := do
  let n := max s.repetitions 1
  match s.kind with
  | .paragraph =>
    return Text.join ['\n', '\n'] (← Random.many n (paragraph draw s.least s.greatest))
  | .sentence => return Text.join [' '] (← Random.many n (sentence draw s.least s.greatest))
  | .word => return Text.join [' '] (← Random.many n (word s.least s.greatest))
  | .host => host
  | .email =>
    let name ← word 3 10
    return name ++ ['@'] ++ (← host)
  | .url =>
    let h ← host
    return "https://".toList ++ h ++ ['/'] ++ (← word 3 10)

def Spec.generate (halves : Random.Halves) (s : Spec) : Random Text :=
  s.generateBy (Random.between halves)

end Stencil.Lorem
