import Stencil.Text.Basic

namespace Stencil

/-- A computation that takes random words from a supply. -/
abbrev Random := StateT (List UInt32) Option

namespace Random

/-- The greatest low part that a product may have, for numbers below `n` out of so many bits. -/
def zone (bits n : Nat) : Nat := (n <<< (bits - 1 - n.log2)) % Nat.pow 2 bits - 1

/-- A number below `n` from the first word that gives one: the high part of the word times `n`.
Words whose product has too high a low part are passed over, so that all numbers are equally likely.
-/
def belowFrom? (n : Nat) : List UInt32 → Option (Nat × List UInt32)
  | [] => none
  | w :: ws =>
    let product := w.toNat * n
    if product % Nat.pow 2 32 ≤ zone 32 n then some (product / Nat.pow 2 32, ws)
    else belowFrom? n ws

/-- Which half of a word of 64 bits a supply gives first. -/
inductive Halves where
  | highFirst
  | lowFirst
deriving Repr, DecidableEq

/-- The word of 64 bits that two words of a supply are. -/
def Halves.wide (halves : Halves) (first second : UInt32) : Nat :=
  match halves with
  | highFirst => first.toNat * Nat.pow 2 32 + second.toNat
  | lowFirst => second.toNat * Nat.pow 2 32 + first.toNat

/-- A number below `n` from the first two words that give one. -/
def wideBelowFrom? (halves : Halves) (n : Nat) : List UInt32 → Option (Nat × List UInt32)
  | first :: second :: ws =>
    let product := halves.wide first second * n
    if product % Nat.pow 2 64 ≤ zone 64 n then some (product / Nat.pow 2 64, ws)
    else wideBelowFrom? halves n ws
  | _ => none

def below (n : Nat) : Random Nat := belowFrom? n

def between (halves : Halves) (lo hi : Nat) : Random Nat := do
  let n ← wideBelowFrom? halves (hi - lo + 1)
  return lo + n

/-- One of the items of a list that is not empty. -/
def choose? {α : Type} (items : List α) : Random (Option α) :=
  if items.isEmpty then return none
  else do
    let n ← below items.length
    return items[n]?

def many {α : Type} (n : Nat) (r : Random α) : Random (List α) :=
  (List.replicate n ()).mapM fun _ => r

end Random

end Stencil
