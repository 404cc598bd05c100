import Stencil.Proofs.Lookup
import Stencil.Proofs.Ordered
import Stencil.Proofs.Termination

namespace Stencil

namespace Loop

section Integers

end Integers

namespace Word

variable {a b : Int64}

theorem toInt_succ (h : a < b) : (a + 1).toInt = a.toInt + 1 := by
  have hlow := a.le_toInt
  have hhigh := b.toInt_lt
  have hlt := Int64.lt_iff_toInt_lt.mp h
  rw [Int64.toInt_add, Int64.toInt_one]
  exact Int.bmod_eq_of_le (by omega) (by omega)

theorem toInt_pred (h : b < a) : (a - 1).toInt = a.toInt - 1 := by
  have hlow := b.le_toInt
  have hhigh := a.toInt_lt
  have hlt := Int64.lt_iff_toInt_lt.mp h
  rw [Int64.toInt_sub, Int64.toInt_one]
  exact Int.bmod_eq_of_le (by omega) (by omega)

/-- The words from one up to a later one. Like all that is reckoned in words, the next one wraps
around after the greatest. -/
def up (a b : Int64) : List Int64 :=
  if _h : a < b then a :: up (a + 1) b else [a]
termination_by (b.toInt - a.toInt).toNat
decreasing_by
  have hsucc := toInt_succ _h
  have hlt := Int64.lt_iff_toInt_lt.mp _h
  omega

/-- The words from one down to an earlier one. -/
def down (a b : Int64) : List Int64 :=
  if _h : b < a then a :: down (a - 1) b else [a]
termination_by (a.toInt - b.toInt).toNat
decreasing_by
  have hpred := toInt_pred _h
  have hlt := Int64.lt_iff_toInt_lt.mp _h
  omega

def range (a b : Int64) : List Int64 := if a ≤ b then up a b else down a b

def count (n : Int64) : List Int64 :=
  if n = 0 then [] else if 0 < n then range 0 (n - 1) else range 0 (n + 1)

end Word

section Items

namespace Item

end Item

variable {l : Loop} {r : Resolver} {items : List Item}

/-- Are the key and the value of an item in order? -/
def Item.Ordered (item : Item) : Prop := item.key.Ordered ∧ item.value.Ordered

end Items

end Loop

namespace Rendering

variable {σ : Type} {frame : Frame σ}

end Rendering

end Stencil
