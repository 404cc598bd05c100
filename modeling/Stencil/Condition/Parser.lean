import Stencil.Condition.Basic

namespace Stencil.Condition

def isOperator (t : Text) : Bool :=
  (Comparison.ofToken? t).isSome || t = ['&'] || t = ['&', '&'] || t = ['|'] || t = ['|', '|'] ||
    t = ['^'] || t = ['('] || t = [')']

/-- What was read from tokens, and the tokens left over, which are no more than before. -/
abbrev Read (ts : List Text) := { r : Condition × List Text // r.2.length ≤ ts.length }

def operand (ts : List Text) : Read ts :=
  match ts with
  | t :: rest =>
    if isOperator t then ⟨(.literal .null, t :: rest), by simp⟩ else ⟨(.atom t, rest), by simp⟩
  | [] => ⟨(.literal .null, []), by simp⟩

/-- Reads an operand, and a comparison with another one if there is one. -/
def comparison (ts : List Text) : Read ts :=
  let left := operand ts
  match _h : left.val.2 with
  | t :: rest =>
    match Comparison.ofToken? t with
    | some op =>
      let right := operand rest
      ⟨(.compare op left.val.1 right.val.1, right.val.2), by
        have h1 := left.property
        have h2 := right.property
        rw [_h] at h1
        simp only [List.length_cons] at h1
        dsimp only
        omega⟩
    | none => left
  | [] => left

/-- Joins two conditions by an operator of a level: `&`, `^` and `|` from the closest on. -/
def join? (level : Nat) (t : Text) : Option (Condition → Condition → Condition) :=
  match level with
  | 1 => if t = ['&'] ∨ t = ['&', '&'] then some .and else none
  | 2 => if t = ['^'] then some .xor else none
  | 3 => if t = ['|'] ∨ t = ['|', '|'] then some .or else none
  | _ => none

def afterBracket (ts : List Text) : List Text :=
  match ts with
  | t :: rest => if t = [')'] then rest else t :: rest
  | [] => []

theorem length_afterBracket_le (ts : List Text) : (afterBracket ts).length ≤ ts.length := by
  unfold afterBracket
  split
  · split <;> simp
  · simp

mutual

def read (level : Nat) (ts : List Text) : Read ts :=
  match level with
  | 0 =>
    match ts with
    | t :: rest =>
      if t = ['!'] then
        let c := read 0 rest
        ⟨(.not c.val.1, c.val.2), Nat.le_succ_of_le c.property⟩
      else if t = ['('] then
        let c := read 3 rest
        ⟨(c.val.1, afterBracket c.val.2),
          Nat.le_succ_of_le (Nat.le_trans (length_afterBracket_le _) c.property)⟩
      else comparison (t :: rest)
    | [] => comparison []
  | level + 1 =>
    match read level ts with
    | ⟨left, hl⟩ =>
      let all := readMore level left.1 left.2
      ⟨all.val, Nat.le_trans all.property hl⟩
termination_by (ts.length, 2 * level)
decreasing_by
  · exact Prod.Lex.left _ _ (by simp)
  · exact Prod.Lex.left _ _ (by simp)
  · exact Prod.Lex.right _ (by omega)
  · rcases Nat.lt_or_eq_of_le hl with h | h
    · exact Prod.Lex.left _ _ h
    · rw [h]
      exact Prod.Lex.right _ (by omega)

/-- Reads more conditions of a level that are joined to one by operators of the next level. -/
def readMore (level : Nat) (left : Condition) (ts : List Text) : Read ts :=
  match ts with
  | [] => ⟨(left, []), by simp⟩
  | t :: rest =>
    match join? (level + 1) t with
    | none => ⟨(left, t :: rest), by simp⟩
    | some join =>
      match read level rest with
      | ⟨right, hr⟩ =>
        let all := readMore level (join left right.1) right.2
        ⟨all.val, Nat.le_succ_of_le (Nat.le_trans all.property hr)⟩
termination_by (ts.length, 2 * level + 1)
decreasing_by
  · exact Prod.Lex.left _ _ (by simp)
  · exact Prod.Lex.left _ _ (Nat.lt_succ_of_le hr)

end

/-- The condition that tokens make up. Comparisons bind closest, then `!` and brackets, then `&`,
`^` and `|`. A missing operand is null, and what does not belong to the condition is left over. -/
def ofTokens (ts : List Text) : Condition :=
  if ts.isEmpty then .literal .null else (read 3 ts).val.1

end Stencil.Condition
