import Stencil.Condition.Basic
import Stencil.Proofs.Dictionary

namespace Stencil

namespace Binary64

theorem order?_swap (x y : Binary64) : (x.order? y).map Ordering.swap = y.order? x := by
  cases x with
  | nan => cases y <;> rfl
  | infinite a =>
    cases y with
    | nan => rfl
    | infinite b => exact congrArg some (Nat.compare_swap _ _)
    | finite b n r => cases a <;> rfl
  | finite a m q =>
    cases y with
    | nan => rfl
    | infinite b => cases b <;> rfl
    | finite b n r =>
      rw [order?, order?, Int.min_comm r q]
      exact congrArg some (Int.compare_swap _ _)

/-- A number that is not NaN has an order with itself, as equal. -/
theorem order?_self (x : Binary64) : x = nan ∨ x.order? x = some .eq := by
  cases x with
  | nan => exact .inl rfl
  | infinite a => exact .inr (by simp [order?])
  | finite a m q => exact .inr (by simp [order?])

end Binary64

namespace Value

variable {a b : Value}

/-- Two strings that read as one number, written in two ways. -/
def SameNumber (a b : Value) : Prop :=
  ∃ s t x y, a = str s ∧ b = str t ∧ s ≠ t ∧ Binary64.ofText? (Text.trim s) = some x ∧
    Binary64.ofText? (Text.trim t) = some y ∧ x.eq y

/-- Values of kinds that can be equal and have no order. -/
inductive Incomparable : Value → Value → Prop where
  | null : Incomparable null null
  | array (as bs : List Value) : Incomparable (array as) (array bs)
  | map (es fs : List (Text × Value)) : Incomparable (map es) (map fs)
  | name (b : Bool) : Incomparable (bool b) (str (boolText b))
  | named (b : Bool) : Incomparable (str (boolText b)) (bool b)
  | nan {s : Text} (h : Binary64.ofText? (Text.trim s) = some .nan) : Incomparable (str s) (str s)

theorem order?_numbers (h : a.isNumeric || b.isNumeric) :
    a.order? b = a.number?.bind fun x => b.number?.bind fun y => x.order? y := by
  have hor : a.isNumeric = true ∨ b.isNumeric = true := by simpa using h
  unfold order?
  split
  · simp [isNumeric] at hor
  · simp [isNumeric] at hor
  · cases a.number? with
    | none => rfl
    | some x => cases b.number? <;> rfl

/-- Beside a number, the values that are equal are those that are ordered as equal. -/
theorem looselyEqual_numbers (h : a.isNumeric || b.isNumeric) :
    a.looselyEqual b = (a.order? b == some .eq) := by
  rw [order?_numbers h, looselyEqual, if_pos h]
  cases ha : a.number? with
  | none =>
    cases a <;> cases b <;> simp_all [isNumeric, number?, plainlyEqual, same]
  | some x =>
    cases hb : b.number? with
    | none => cases a <;> cases b <;> simp_all [isNumeric, number?, plainlyEqual, same]
    | some y => rfl

theorem looselyEqual_strings (s t : Text) : (str s).looselyEqual (str t) = (s == t) := rfl

/-- Strings are ordered as the numbers that both read as, or else by their characters. -/
theorem order?_strings (s t : Text) : (str s).order? (str t) =
    match Binary64.ofText? (Text.trim s), Binary64.ofText? (Text.trim t) with
    | some x, some y => x.order? y
    | _, _ => some (Text.order s t) := rfl

/-- Two values have an order if one is a number, if both are strings or if both are booleans. -/
theorem order?_cases (a b : Value) :
    (a.isNumeric || b.isNumeric) = true ∨ (∃ s t, a = str s ∧ b = str t) ∨
      (∃ p q, a = bool p ∧ b = bool q) ∨ a.order? b = none ∧ b.order? a = none := by
  cases a <;> cases b <;> simp [isNumeric, order?, number?]

theorem order?_swap (a b : Value) : (a.order? b).map Ordering.swap = b.order? a := by
  obtain h | ⟨s, t, rfl, rfl⟩ | ⟨p, q, rfl, rfl⟩ | ⟨h, h'⟩ := order?_cases a b
  · rw [order?_numbers h, order?_numbers (Bool.or_comm .. ▸ h)]
    cases a.number? with
    | none => cases b.number? <;> rfl
    | some x =>
      cases b.number? with
      | none => rfl
      | some y => exact Binary64.order?_swap x y
  · rw [order?_strings, order?_strings]
    cases Binary64.ofText? (Text.trim s) with
    | none => cases Binary64.ofText? (Text.trim t) <;> exact congrArg some (Text.order_swap s t)
    | some x =>
      cases Binary64.ofText? (Text.trim t) with
      | none => exact congrArg some (Text.order_swap s t)
      | some y => exact Binary64.order?_swap x y
  · exact congrArg some (Nat.compare_swap _ _)
  · rw [h, h']
    rfl

/-- Equal values are ordered as equal, if they have an order. -/
theorem order?_of_looselyEqual (h : a.looselyEqual b) :
    a.order? b = some .eq ∨ Incomparable a b := by
  by_cases hn : (a.isNumeric || b.isNumeric) = true
  · rw [looselyEqual_numbers hn] at h
    exact .inl (by simpa using h)
  · rw [looselyEqual, if_neg hn] at h
    cases a with
    | null =>
      cases b with
      | null => exact .inr .null
      | _ => cases h
    | bool p =>
      cases b with
      | bool q =>
        have hpq : p = q := by simpa [plainlyEqual, same] using h
        exact .inl (by simp [order?, hpq])
      | str t =>
        have ht : t = boolText p := by simpa [plainlyEqual] using h
        exact .inr (ht ▸ .name p)
      | _ => cases h
    | int i => exact absurd rfl hn
    | float x => exact absurd rfl hn
    | str s =>
      cases b with
      | bool q =>
        have hs : s = boolText q := by simpa [plainlyEqual] using h
        exact .inr (hs ▸ .named q)
      | str t =>
        have hst : s = t := by simpa [plainlyEqual] using h
        subst hst
        rw [order?_strings]
        cases hx : Binary64.ofText? (Text.trim s) with
        | none => exact .inl (congrArg some (Text.order_eq_iff.mpr rfl))
        | some x =>
          rcases Binary64.order?_self x with rfl | he
          · exact .inr (.nan hx)
          · exact .inl he
      | _ => cases h
    | array as =>
      cases b with
      | array bs => exact .inr (.array as bs)
      | _ => cases h
    | map es =>
      cases b with
      | map fs => exact .inr (.map es fs)
      | _ => cases h

/-- Values that are ordered as equal are equal, if they are not two ways to write a number. -/
theorem looselyEqual_of_order? (h : a.order? b = some .eq) :
    a.looselyEqual b ∨ SameNumber a b := by
  obtain hn | ⟨s, t, rfl, rfl⟩ | ⟨p, q, rfl, rfl⟩ | ⟨h', -⟩ := order?_cases a b
  · exact .inl (by rw [looselyEqual_numbers hn, h]; rfl)
  · by_cases hst : s = t
    · exact .inl (by rw [looselyEqual_strings, hst, beq_self_eq_true])
    · rw [order?_strings] at h
      split at h
      next x y hx hy =>
        exact .inr ⟨s, t, x, y, rfl, rfl, hst, hx, hy, by rw [Binary64.eq, h]; rfl⟩
      next => exact absurd (Text.order_eq_iff.mp (Option.some.inj h)) hst
  · have hpq : p.toNat = q.toNat := Nat.compare_eq_eq.mp (Option.some.inj h)
    have hpq : p = q := by
      cases p <;> cases q <;> simp_all
    exact .inl (by simp [looselyEqual, plainlyEqual, same, isNumeric, hpq])
  · rw [h'] at h
    cases h

theorem Incomparable.order? (h : Incomparable a b) : a.order? b = none := by
  cases h with
  | null => rfl
  | array as bs => rfl
  | map es fs => rfl
  | name b => rfl
  | named b => simp [Value.order?, number?]
  | nan h =>
    rw [order?_strings, h]
    rfl

theorem SameNumber.order? (h : SameNumber a b) : a.order? b = some .eq := by
  obtain ⟨s, t, x, y, rfl, rfl, -, hx, hy, he⟩ := h
  rw [order?_strings, hx, hy]
  exact eq_of_beq he

/-- Values are ordered as equal if they are equal and have an order, or are two ways to write a
number. -/
theorem order?_eq_iff :
    a.order? b = some .eq ↔ (a.looselyEqual b ∧ ¬Incomparable a b) ∨ SameNumber a b := by
  constructor
  · intro h
    have hi : ¬Incomparable a b := fun hi => by rw [hi.order?] at h; cases h
    exact (looselyEqual_of_order? h).imp_left fun he => ⟨he, hi⟩
  · rintro (⟨he, hi⟩ | hs)
    · exact (order?_of_looselyEqual he).resolve_right hi
    · exact hs.order?

end Value

namespace Comparison

variable (a b : Value)

theorem holds_lt_iff : holds .lt a b ↔ a.order? b = some .lt := by simp [holds]

theorem holds_gt_iff : holds .gt a b ↔ a.order? b = some .gt := by simp [holds]

theorem holds_converse : holds .lt a b ↔ holds .gt b a := by
  rw [holds_lt_iff, holds_gt_iff, ← Value.order?_swap a b]
  cases a.order? b with
  | none => simp
  | some o => cases o <;> simp

/-- Equal values are ordered neither as less nor as greater. -/
theorem not_equal_of_order? {o : Ordering} (ho : o ≠ .eq) (h : a.order? b = some o) :
    ¬holds .eq a b := by
  intro he
  rcases Value.order?_of_looselyEqual he with h' | hi
  · rw [h'] at h
    exact ho (Option.some.inj h).symm
  · rw [hi.order?] at h
    cases h

/-- The comparisons of any two values agree: `!=` is the negation of `=`, `<` and `>` exchange their
sides, at most one of `<`, `=` and `>` holds, and `<=` is `<` or the equality of values that have an
order, where two strings that read as one number count as equal; `>=` likewise. -/
theorem comparisons_agree :
    (holds .ne a b ↔ ¬holds .eq a b) ∧ (holds .lt a b ↔ holds .gt b a) ∧
      (¬(holds .lt a b ∧ holds .eq a b) ∧ ¬(holds .eq a b ∧ holds .gt a b) ∧
        ¬(holds .lt a b ∧ holds .gt a b)) ∧
      (holds .le a b ↔ holds .lt a b ∨ (holds .eq a b ∧ ¬Value.Incomparable a b) ∨
        Value.SameNumber a b) ∧
      (holds .ge a b ↔ holds .gt a b ∨ (holds .eq a b ∧ ¬Value.Incomparable a b) ∨
        Value.SameNumber a b) := by
  have hle : holds .le a b ↔ holds .lt a b ∨ a.order? b = some .eq := by simp [holds]
  have hge : holds .ge a b ↔ holds .gt a b ∨ a.order? b = some .eq := by simp [holds]
  refine ⟨by simp [holds], holds_converse a b, ⟨?_, ?_, ?_⟩, ?_, ?_⟩
  · rintro ⟨hl, he⟩
    exact not_equal_of_order? a b (by decide) ((holds_lt_iff a b).mp hl) he
  · rintro ⟨he, hg⟩
    exact not_equal_of_order? a b (by decide) ((holds_gt_iff a b).mp hg) he
  · rintro ⟨hl, hg⟩
    have := ((holds_lt_iff a b).mp hl).symm.trans ((holds_gt_iff a b).mp hg)
    cases this
  · exact hle.trans (or_congr_right Value.order?_eq_iff)
  · exact hge.trans (or_congr_right Value.order?_eq_iff)

/-- The strings `5` and `5.0` are ordered as one number and are not equal; a null is equal to a null
and has no order. -/
theorem comparisons_disagree :
    (holds .le (.str "5".toList) (.str "5.0".toList) ∧
      ¬(holds .lt (.str "5".toList) (.str "5.0".toList) ∨
        holds .eq (.str "5".toList) (.str "5.0".toList))) ∧
      ¬holds .le .null .null ∧ (holds .lt .null .null ∨ holds .eq .null .null) := by
  decide +kernel

end Comparison

end Stencil
