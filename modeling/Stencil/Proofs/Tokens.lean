import Stencil.Proofs.Decimal
import Stencil.Proofs.PartialEvaluation

namespace Stencil

namespace Condition

/-- A condition after it was written as tokens and read again: its literals are operands. -/
def reread : Condition → Condition
  | atom expr => .atom expr
  | literal v => .atom v.token
  | not c => .not c.reread
  | and a b => .and a.reread b.reread
  | or a b => .or a.reread b.reread
  | xor a b => .xor a.reread b.reread
  | compare op a b => .compare op a.reread b.reread

/-- The expressions of a condition, literals apart. -/
def atoms : Condition → List Text
  | atom expr => [expr]
  | literal _ => []
  | not c => c.atoms
  | and a b | or a b | xor a b | compare _ a b => a.atoms ++ b.atoms

/-- The conditions that are told by their tokens: only terms are compared, and no expression is an
operator. -/
structure Readable (c : Condition) : Prop where
  flat : c.Flat
  atoms : ∀ t ∈ c.atoms, isOperator t = false

namespace Readable

variable {a b : Condition}

theorem not (ha : a.Readable) : (Condition.not a).Readable := ⟨.not ha.flat, ha.atoms⟩

theorem and (ha : a.Readable) (hb : b.Readable) : (Condition.and a b).Readable :=
  ⟨.and ha.flat hb.flat, List.forall_mem_append.mpr ⟨ha.atoms, hb.atoms⟩⟩

theorem or (ha : a.Readable) (hb : b.Readable) : (Condition.or a b).Readable :=
  ⟨.or ha.flat hb.flat, List.forall_mem_append.mpr ⟨ha.atoms, hb.atoms⟩⟩

theorem xor (ha : a.Readable) (hb : b.Readable) : (Condition.xor a b).Readable :=
  ⟨.xor ha.flat hb.flat, List.forall_mem_append.mpr ⟨ha.atoms, hb.atoms⟩⟩

end Readable

section Signs

/-- Operators have no other characters than these. -/
theorem isOperator_of_mem {t : Text} {c : Char} (h : c ∈ t)
    (hc : c ∉ ['=', '!', '<', '>', '~', '&', '|', '^', '(', ')']) : isOperator t = false := by
  have hne : ∀ s : Text, s ⊆ ['=', '!', '<', '>', '~', '&', '|', '^', '(', ')'] → t ≠ s := by
    rintro s hs rfl
    exact hc (hs h)
  simp (disch := decide) [isOperator, Comparison.ofToken?, hne]

theorem isOperator_of_digit {t : Text} {c : Char} (h : c ∈ t) (hc : c.isDigit) :
    isOperator t = false := by
  refine isOperator_of_mem h fun hm => ?_
  have hnone : ['=', '!', '<', '>', '~', '&', '|', '^', '(', ')'].any Char.isDigit = false := rfl
  exact absurd (List.any_eq_true.mpr ⟨c, hm, hc⟩) (by rw [hnone]; decide)

theorem isOperator_boolText (b : Bool) : isOperator (Value.boolText b) = false := by
  cases b <;> rfl

theorem isOperator_ofNat (n : Nat) (s u : Text) :
    isOperator (s ++ (Text.ofNat n ++ u)) = false := by
  obtain ⟨c, t, ht, hc⟩ := Text.exists_digit_ofNat n
  exact isOperator_of_digit (by simp [ht]) hc

theorem isOperator_write (f : Binary64.Format) (negative : Bool) (m : Nat) (q : Int) :
    isOperator (Binary64.write f negative m q) = false := by
  have hdigit : ∃ c ∈ Binary64.write f negative m q, c.isDigit := by
    unfold Binary64.write
    split
    · exact ⟨'0', by split <;> simp, by decide⟩
    · dsimp only
      split
      · obtain ⟨c, t, ht, hc⟩ := Binary64.exists_digit_positional f.point
          (Binary64.shortest f.tieUp m q)
        exact ⟨c, by simp [ht], hc⟩
      · obtain ⟨c, t, ht, hc⟩ := Binary64.exists_digit_scientific (Binary64.shortest f.tieUp m q)
        exact ⟨c, by simp [ht], hc⟩
  obtain ⟨c, hmem, hc⟩ := hdigit
  exact isOperator_of_digit hmem hc

/-- The token of a value is no operator. -/
theorem isOperator_token (v : Value) : isOperator v.token = false := by
  cases v with
  | null => rfl
  | bool b => exact isOperator_boolText b
  | int i =>
    rw [Value.token, Text.ofInt]
    split
    · exact List.append_nil (Text.ofNat _) ▸ isOperator_ofNat i.natAbs ['-'] []
    · exact List.append_nil (Text.ofNat _) ▸ isOperator_ofNat i.natAbs [] []
  | float x =>
    cases x with
    | nan => rfl
    | infinite negative => cases negative <;> rfl
    | finite negative m q =>
      rw [Value.token, Binary64.wholeText?]
      dsimp only
      split
      · rw [Option.getD_some, List.append_assoc]
        exact isOperator_ofNat _ _ _
      · exact isOperator_write _ _ _ _
  | str s => exact isOperator_of_mem (c := '\'') List.mem_cons_self (by decide)
  | array items => exact isOperator_boolText _
  | map entries => exact isOperator_boolText _

end Signs

section Operands

/-- An operand that is one token. -/
def IsOperand (c : Condition) : Prop :=
  ∃ t, isOperator t = false ∧ c.tokens = [t] ∧ c.reread = .atom t

theorem isOperand_of_isTerm {c : Condition} (hc : c.isTerm)
    (h : ∀ t ∈ c.atoms, isOperator t = false) : IsOperand c := by
  cases c with
  | atom expr => exact ⟨expr, h expr List.mem_cons_self, rfl, rfl⟩
  | literal v => exact ⟨v.token, isOperator_token v, rfl, rfl⟩
  | _ => cases hc

end Operands

section Reading

theorem operand_of_not_isOperator {t : Text} (h : isOperator t = false) (rest : List Text) :
    (operand (t :: rest)).val = (.atom t, rest) := by
  simp [operand, h]

/-- No comparison follows. What follows a part of a longer condition is a connective or a bracket,
and neither compares anything. -/
def Ends (rest : List Text) : Prop := ∀ t ∈ rest.head?, Comparison.ofToken? t = none

theorem comparison_of_ends {t : Text} (h : isOperator t = false) {rest : List Text}
    (hr : Ends rest) : (comparison (t :: rest)).val = (.atom t, rest) := by
  have hleft := operand_of_not_isOperator h rest
  unfold comparison
  dsimp only
  split
  next u more hu =>
    rw [hleft] at hu
    obtain rfl : rest = u :: more := hu
    have hnone := hr u rfl
    split
    next op hop =>
      rw [hnone] at hop
      cases hop
    next => exact hleft
  next => exact hleft

theorem ofToken?_token (op : Comparison) : Comparison.ofToken? op.token = some op := by
  cases op <;> rfl

theorem comparison_compare {t u : Text} (ht : isOperator t = false) (hu : isOperator u = false)
    (op : Comparison) (rest : List Text) :
    (comparison (t :: op.token :: u :: rest)).val = (.compare op (.atom t) (.atom u), rest) := by
  have hleft := operand_of_not_isOperator ht (op.token :: u :: rest)
  have hright := operand_of_not_isOperator hu rest
  unfold comparison
  dsimp only
  split
  next w more hw =>
    rw [hleft] at hw
    cases hw
    split
    next op' hop =>
      rw [ofToken?_token] at hop
      cases hop
      dsimp only
      rw [hleft, hright]
    next hnone =>
      rw [ofToken?_token] at hnone
      cases hnone
  next hnil =>
    rw [hleft] at hnil
    cases hnil

theorem read_zero {t : Text} (h : isOperator t = false) (rest : List Text) :
    (read 0 (t :: rest)).val = (comparison (t :: rest)).val := by
  have hnot : t ≠ ['!'] := by
    rintro rfl
    exact absurd h (by decide)
  have hopen : t ≠ ['('] := by
    rintro rfl
    exact absurd h (by decide)
  rw [read]
  simp [hnot, hopen]

theorem read_succ (level : Nat) (ts : List Text) :
    (read (level + 1) ts).val =
      (readMore level (read level ts).val.1 (read level ts).val.2).val := by
  rw [read]

theorem readMore_stop {level : Nat} {rest : List Text}
    (h : ∀ t ∈ rest.head?, join? (level + 1) t = none) (left : Condition) :
    (readMore level left rest).val = (left, rest) := by
  cases rest with
  | nil => rw [readMore]
  | cons t rest =>
    rw [readMore]
    simp only [h t rfl]

theorem readMore_join {level : Nat} {t : Text} {join : Condition → Condition → Condition}
    (h : join? (level + 1) t = some join) (left : Condition) (rest : List Text) :
    (readMore level left (t :: rest)).val =
      (readMore level (join left (read level rest).val.1) (read level rest).val.2).val := by
  rw [readMore]
  split
  next hnone =>
    rw [h] at hnone
    cases hnone
  next join' hjoin =>
    rw [h] at hjoin
    cases hjoin
    rfl

theorem read_not (rest : List Text) :
    (read 0 (['!'] :: rest)).val = (.not (read 0 rest).val.1, (read 0 rest).val.2) := by
  rw [read]
  simp

theorem read_open (rest : List Text) :
    (read 0 (['('] :: rest)).val = ((read 3 rest).val.1, afterBracket (read 3 rest).val.2) := by
  rw [read]
  simp

/-- What is read at a level is what is read at a higher one, if no join of the levels between
follows. -/
theorem read_higher {k n : Nat} (hkn : k ≤ n) {ts rest : List Text} {c : Condition}
    (h : (read k ts).val = (c, rest))
    (hr : ∀ t ∈ rest.head?, ∀ j, k < j → j ≤ n → join? j t = none) :
    (read n ts).val = (c, rest) := by
  induction n, hkn using Nat.le_induction with
  | base => exact h
  | succ n hkn ih =>
    have hn := ih fun t ht j hj hjn => hr t ht j hj (Nat.le_succ_of_le hjn)
    rw [read_succ, hn]
    exact readMore_stop (fun t ht => hr t ht (n + 1) (Nat.lt_succ_of_le hkn) (Nat.le_refl _)) c

theorem ends_close (rest : List Text) : Ends ([')'] :: rest) := by
  rintro t ⟨⟩
  rfl

theorem join?_close (level : Nat) : join? level [')'] = none := by
  unfold join?
  split <;> rfl

theorem read_bracket {ts rest : List Text} {c : Condition}
    (h : (read 3 (ts ++ [')'] :: rest)).val = (c, [')'] :: rest)) :
    (read 0 (['('] :: (ts ++ [')'] :: rest))).val = (c, rest) := by
  rw [read_open, h]
  rfl

/-- Two conditions in brackets, with a join between them. -/
theorem read_joined {level : Nat} (hlevel : level ≤ 2) {t : Text}
    {join : Condition → Condition → Condition} (hjoin : join? (level + 1) t = some join)
    (hlower : ∀ j, j ≤ level → join? j t = none) (ht : Comparison.ofToken? t = none)
    {as bs : List Text} {a b : Condition}
    (ha : ∀ rest, Ends rest → (read 0 (as ++ rest)).val = (a, rest))
    (hb : ∀ rest, Ends rest → (read 0 (bs ++ rest)).val = (b, rest)) (rest : List Text) :
    (read 0 ([['(']] ++ as ++ [t] ++ bs ++ [[')']] ++ rest)).val = (join a b, rest) := by
  have hends : Ends (t :: (bs ++ [')'] :: rest)) := by
    rintro u ⟨⟩
    exact ht
  have hleft : (read level (as ++ t :: (bs ++ [')'] :: rest))).val =
      (a, t :: (bs ++ [')'] :: rest)) := by
    refine read_higher (Nat.zero_le level) (ha _ hends) ?_
    rintro u ⟨⟩ j - hj
    exact hlower j hj
  have hright : (read level (bs ++ [')'] :: rest)).val = (b, [')'] :: rest) := by
    refine read_higher (Nat.zero_le level) (hb _ (ends_close rest)) ?_
    rintro u ⟨⟩ j - -
    exact join?_close j
  have hjoined : (read (level + 1) (as ++ t :: (bs ++ [')'] :: rest))).val =
      (join a b, [')'] :: rest) := by
    rw [read_succ, hleft, readMore_join hjoin, hright]
    refine readMore_stop ?_ _
    rintro u ⟨⟩
    exact join?_close _
  have hinner : (read 3 ((as ++ t :: bs) ++ [')'] :: rest)).val = (join a b, [')'] :: rest) := by
    rw [List.append_assoc, List.cons_append]
    refine read_higher (by omega) hjoined ?_
    rintro u ⟨⟩ j - -
    exact join?_close j
  have hlist : [['(']] ++ as ++ [t] ++ bs ++ [[')']] ++ rest =
      ['('] :: ((as ++ t :: bs) ++ [')'] :: rest) := by simp
  rw [hlist]
  exact read_bracket hinner

/-- An operand is read from its token, if no comparison follows. -/
theorem read_operand {c : Condition} (hc : IsOperand c) {rest : List Text} (hr : Ends rest) :
    (read 0 (c.tokens ++ rest)).val = (c.reread, rest) := by
  obtain ⟨t, ht, htokens, hreread⟩ := hc
  rw [htokens, hreread, List.singleton_append, read_zero ht, comparison_of_ends ht hr]

/-- A condition is read from its tokens, whatever follows but a comparison. -/
theorem read_tokens {c : Condition} (hc : c.Readable) :
    ∀ rest, Ends rest → (read 0 (c.tokens ++ rest)).val = (c.reread, rest) := by
  obtain ⟨hflat, hatoms⟩ := hc
  induction hflat with
  | term ha => exact fun rest hr => read_operand (isOperand_of_isTerm ha hatoms) hr
  | @not c _ ih =>
    intro rest _
    have hinner : (read 3 (c.tokens ++ [')'] :: rest)).val = (c.reread, [')'] :: rest) := by
      refine read_higher (Nat.zero_le 3) (ih hatoms _ (ends_close rest)) ?_
      rintro u ⟨⟩ j - -
      exact join?_close j
    have hlist : (Condition.not c).tokens ++ rest =
        ['!'] :: ['('] :: (c.tokens ++ [')'] :: rest) := by simp [tokens]
    rw [hlist, read_not, read_bracket hinner]
    rfl
  | and _ _ iha ihb =>
    intro rest _
    obtain ⟨ha, hb⟩ := List.forall_mem_append.mp hatoms
    have hlower : ∀ j, j ≤ 0 → join? j ['&'] = none := fun j hj => by interval_cases j; rfl
    exact read_joined (Nat.zero_le 2) rfl hlower rfl (iha ha) (ihb hb) rest
  | or _ _ iha ihb =>
    intro rest _
    obtain ⟨ha, hb⟩ := List.forall_mem_append.mp hatoms
    have hlower : ∀ j, j ≤ 2 → join? j ['|'] = none := fun j hj => by interval_cases j <;> rfl
    exact read_joined (Nat.le_refl 2) rfl hlower rfl (iha ha) (ihb hb) rest
  | xor _ _ iha ihb =>
    intro rest _
    obtain ⟨ha, hb⟩ := List.forall_mem_append.mp hatoms
    have hlower : ∀ j, j ≤ 1 → join? j ['^'] = none := fun j hj => by interval_cases j <;> rfl
    exact read_joined (by decide : 1 ≤ 2) rfl hlower rfl (iha ha) (ihb hb) rest
  | @compare op a b hta htb =>
    intro rest _
    obtain ⟨ha, hb⟩ := List.forall_mem_append.mp hatoms
    obtain ⟨t, ht, hat, har⟩ := isOperand_of_isTerm hta ha
    obtain ⟨u, hu, hbt, hbr⟩ := isOperand_of_isTerm htb hb
    have hlist : (Condition.compare op a b).tokens ++ rest = t :: op.token :: u :: rest := by
      simp [tokens, hat, hbt]
    rw [hlist, read_zero ht, comparison_compare ht hu, reread, har, hbr]

/-- All tokens of a condition are read. -/
theorem read_all_tokens {c : Condition} (hc : c.Readable) :
    (read 3 c.tokens).val = (c.reread, []) := by
  have hzero := read_tokens hc [] (by rintro t ⟨⟩)
  rw [List.append_nil] at hzero
  exact read_higher (Nat.zero_le 3) hzero (by rintro t ⟨⟩)

theorem tokens_ne_nil (c : Condition) : c.tokens ≠ [] := by
  cases c <;> simp [tokens]

theorem ofTokens_tokens {c : Condition} (hc : c.Readable) : ofTokens c.tokens = c.reread := by
  have hempty : c.tokens.isEmpty = false := by simpa using tokens_ne_nil c
  rw [ofTokens, hempty, if_neg (by decide), read_all_tokens hc]

/-- A condition is read back from its tokens, and none of them is left over. -/
theorem read_back {c : Condition} (hc : c.Readable) :
    (read 3 c.tokens).val = (c.reread, []) ∧ ofTokens c.tokens = c.reread :=
  ⟨read_all_tokens hc, ofTokens_tokens hc⟩

theorem read_back_owner :
    let isOwner := Condition.compare .ne (.atom "user.role".toList)
    let c := Condition.or (.not (isOwner (.literal (.str "it's".toList))))
      (.xor (.atom "draft".toList) (.literal (.int (-3))))
    let back := Condition.or (.not (isOwner (.atom "'it\\'s'".toList)))
      (.xor (.atom "draft".toList) (.atom "-3".toList))
    c.Readable ∧ (read 3 c.tokens).val = (back, []) ∧ ofTokens c.tokens = back := by
  intro isOwner c back
  have hreadable : c.Readable := by
    refine ⟨.or (.not (.compare .ne rfl rfl)) (.xor (.term rfl) (.term rfl)), fun t ht => ?_⟩
    have hatoms : c.atoms = ["user.role".toList, "draft".toList] := rfl
    rw [hatoms] at ht
    fin_cases ht <;> rfl
  exact ⟨hreadable, read_back hreadable⟩

theorem ofTokens_compare {t u : Text} (ht : isOperator t = false) (hu : isOperator u = false)
    (op : Comparison) : ofTokens [t, op.token, u] = .compare op (.atom t) (.atom u) := by
  have hzero : (read 0 [t, op.token, u]).val = (.compare op (.atom t) (.atom u), []) := by
    rw [read_zero ht, comparison_compare ht hu]
  rw [ofTokens, List.isEmpty_cons, if_neg (by decide),
    read_higher (Nat.zero_le 3) hzero (by rintro _ ⟨⟩)]

end Reading

end Condition

end Stencil
