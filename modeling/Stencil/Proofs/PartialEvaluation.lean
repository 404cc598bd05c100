import Stencil.Condition.Evaluation
import Stencil.Proofs.Completion
import Stencil.Proofs.Literal

namespace Stencil

namespace Condition

/-- A relation of values to conditions that follows the connectives. Both passes follow the same
connectives, so it is enough that what is left over of parts may be put together like the parts. -/
structure Composes (has : Bool → Condition → Prop) : Prop where
  not : ∀ {a c}, has a c → has (!a) (.not c)
  and : ∀ {a b c d}, has a c → has b d → has (a && b) (.and c d)
  or : ∀ {a b c d}, has a c → has b d → has (a || b) (.or c d)
  xor : ∀ {a b c d}, has a c → has b d → has (a != b) (.xor c d)

end Condition

namespace Outcome

/-- Does an outcome stand for a value: is it known, or has what is left over this value? -/
def Means (has : Bool → Condition → Prop) (b : Bool) : Outcome → Prop
  | known c => c = b
  | residual c => has b c

namespace Means

variable {has : Bool → Condition → Prop} {o p : Outcome} {a b : Bool}

theorem not (hc : Condition.Composes has) (ho : o.Means has a) : o.not.Means has (!a) := by
  cases o with
  | known c => exact congrArg Bool.not ho
  | residual c => exact hc.not ho

theorem and (hc : Condition.Composes has) (ho : o.Means has a) (hp : p.Means has b) :
    (o.and p).Means has (a && b) := by
  cases o with
  | known c =>
    obtain rfl : c = a := ho
    cases c with
    | false => exact rfl
    | true => exact hp
  | residual c =>
    cases p with
    | known d =>
      obtain rfl : d = b := hp
      cases d with
      | false => exact (Bool.and_false a).symm
      | true =>
        rw [Bool.and_true]
        exact ho
    | residual d => exact hc.and ho hp

theorem or (hc : Condition.Composes has) (ho : o.Means has a) (hp : p.Means has b) :
    (o.or p).Means has (a || b) := by
  cases o with
  | known c =>
    obtain rfl : c = a := ho
    cases c with
    | false => exact hp
    | true => exact rfl
  | residual c =>
    cases p with
    | known d =>
      obtain rfl : d = b := hp
      cases d with
      | false =>
        rw [Bool.or_false]
        exact ho
      | true => exact (Bool.or_true a).symm
    | residual d => exact hc.or ho hp

theorem flip (hc : Condition.Composes has) {c : Condition} (hb : has b c) (flip : Bool) :
    has (flip != b) (if flip then .not c else c) := by
  cases flip with
  | false => simpa using hb
  | true =>
    rw [Bool.true_bne]
    exact hc.not hb

theorem xor (hc : Condition.Composes has) (ho : o.Means has a) (hp : p.Means has b) :
    (o.xor p).Means has (a != b) := by
  cases o with
  | known c =>
    obtain rfl : c = a := ho
    cases p with
    | known d =>
      obtain rfl : d = b := hp
      exact rfl
    | residual d => exact flip hc hp c
  | residual c =>
    cases p with
    | known d =>
      obtain rfl : d = b := hp
      rw [bne_comm]
      exact flip hc ho d
    | residual d => exact hc.xor ho hp

end Means

end Outcome

namespace Condition

/-- Is a condition an expression as it was written, or a value? -/
def isTerm : Condition → Bool
  | atom _ | literal _ => true
  | _ => false

/-- The conditions that are made of certain terms, which alone are compared. -/
inductive MadeOf (T : Condition → Prop) : Condition → Prop
  | term {c : Condition} (h : T c) : MadeOf T c
  | not {c : Condition} (h : MadeOf T c) : MadeOf T (.not c)
  | and {a b : Condition} (ha : MadeOf T a) (hb : MadeOf T b) : MadeOf T (.and a b)
  | or {a b : Condition} (ha : MadeOf T a) (hb : MadeOf T b) : MadeOf T (.or a b)
  | xor {a b : Condition} (ha : MadeOf T a) (hb : MadeOf T b) : MadeOf T (.xor a b)
  | compare (op : Comparison) {a b : Condition} (ha : T a) (hb : T b) :
    MadeOf T (.compare op a b)

theorem MadeOf.mono {T U : Condition → Prop} (h : ∀ a, T a → U a) {c : Condition}
    (hc : MadeOf T c) : MadeOf U c := by
  induction hc with
  | term ha => exact .term (h _ ha)
  | not _ ih => exact .not ih
  | and _ _ iha ihb => exact .and iha ihb
  | or _ _ iha ihb => exact .or iha ihb
  | xor _ _ iha ihb => exact .xor iha ihb
  | compare op ha hb => exact .compare op (h _ ha) (h _ hb)

/-- The conditions in which only expressions and values are compared. -/
def Flat (c : Condition) : Prop := MadeOf (fun a => a.isTerm) c

variable {early late : Resolver}

section Terms

variable {a : Condition}

/-- In the late pass every term has a value. -/
theorem evalOperand_late (hr : late.pre = false) (ha : a.isTerm) :
    ∃ v, a.evalOperand late = .known v := by
  cases a with
  | atom expr =>
    obtain ⟨v, hv⟩ := Resolver.firstPresent_found hr .null (Expression.read late.literals expr)
    exact ⟨v, by rw [evalOperand, Resolver.value, hv]⟩
  | literal v => exact ⟨v, by rw [evalOperand]⟩
  | _ => cases ha

/-- A term that is known early is known late, with the same value. -/
theorem evalOperand_later (h : late.Completes early) (ha : a.isTerm) {v : Value}
    (hv : a.evalOperand early = .known v) : a.evalOperand late = .known v := by
  cases a with
  | atom expr =>
    rw [evalOperand] at hv ⊢
    cases hw : early.value expr with
    | found w =>
      rw [hw] at hv
      cases hv
      rw [Resolver.value_later h hw]
    | unknown =>
      rw [hw] at hv
      cases hv
  | literal w =>
    rw [evalOperand] at hv ⊢
    exact hv
  | _ => cases ha

/-- A term that is not known early is left as it is. -/
theorem eq_of_evalOperand_unknown (ha : a.isTerm) {c : Condition}
    (hc : a.evalOperand early = .unknown c) : c = a := by
  cases a with
  | atom expr =>
    rw [evalOperand] at hc
    split at hc
    next => cases hc
    next =>
      cases hc
      rfl
  | literal w =>
    rw [evalOperand] at hc
    cases hc
  | _ => cases ha

/-- What is left of a term, a value or the term itself, has late the value of the term. -/
theorem evalOperand_fold (h : late.Completes early) (ha : a.isTerm) :
    ((a.evalOperand early).fold a).evalOperand late = a.evalOperand late := by
  cases hv : a.evalOperand early with
  | known v =>
    rw [Operand.fold]
    split
    · rw [evalOperand, evalOperand_later h ha hv]
    · rfl
  | unknown c =>
    rw [Operand.fold, eq_of_evalOperand_unknown ha hv]

/-- A term is as true as its value. -/
theorem eval_of_isTerm {r : Resolver} (ha : a.isTerm) : a.eval r = match a.evalOperand r with
    | .known v => .known v.isTruthy
    | .unknown c => .residual c := by
  cases a with
  | atom expr =>
    rw [eval, evalOperand]
    cases r.value expr <;> rfl
  | literal v => rw [eval, evalOperand]
  | _ => cases ha

end Terms

theorem composes_eval (r : Resolver) : Composes fun b c => c.eval r = .known b where
  not ha := by
    rw [eval, ha]
    rfl
  and {a _ _ _} ha hb := by
    rw [eval, ha, hb]
    cases a <;> rfl
  or {a _ _ _} ha hb := by
    rw [eval, ha, hb]
    cases a <;> rfl
  xor ha hb := by
    rw [eval, ha, hb]
    rfl

/-- A relation of values to conditions that holds of terms with the values that they have late, and
of what is left over of their comparisons. The operands of a comparison are terms: of a condition
with connectives in the place of an operand something could be left over whose value as an operand
is no boolean. -/
structure Keeps (early late : Resolver) (T : Condition → Prop) (has : Bool → Condition → Prop) :
    Prop extends Composes has where
  isTerm : ∀ {a}, T a → a.isTerm
  term : ∀ {a v}, T a → a.evalOperand late = .known v → has v.isTruthy a
  compare : ∀ (op : Comparison) {a b v w}, T a → T b → a.evalOperand late = .known v →
    b.evalOperand late = .known w →
      has (op.holds v w) (.compare op ((a.evalOperand early).fold a) ((b.evalOperand early).fold b))

section Passes

variable {T : Condition → Prop} {has : Bool → Condition → Prop}

theorem Keeps.means_term (hk : Keeps early late T has) (h : late.Completes early) {a : Condition}
    (ha : T a) : ∃ b, a.eval late = .known b ∧ (a.eval early).Means has b := by
  have hterm := hk.isTerm ha
  obtain ⟨v, hv⟩ := evalOperand_late h.isLate hterm
  refine ⟨v.isTruthy, by rw [eval_of_isTerm hterm, hv], ?_⟩
  rw [eval_of_isTerm hterm]
  cases hw : a.evalOperand early with
  | known w =>
    cases (evalOperand_later h hterm hw).symm.trans hv
    exact rfl
  | unknown c =>
    obtain rfl := eq_of_evalOperand_unknown hterm hw
    exact hk.term ha hv

/-- A comparison of terms that are both known has its value early; else it is left over. -/
theorem Keeps.means_compare (hk : Keeps early late T has) (h : late.Completes early)
    (op : Comparison) {x y : Condition} (hx : T x) (hy : T y) :
    ∃ b, (Condition.compare op x y).eval late = .known b ∧
      ((Condition.compare op x y).eval early).Means has b := by
  obtain ⟨v, hv⟩ := evalOperand_late h.isLate (hk.isTerm hx)
  obtain ⟨w, hw⟩ := evalOperand_late h.isLate (hk.isTerm hy)
  have hleft := hk.compare op hx hy hv hw
  refine ⟨op.holds v w, by rw [eval, hv, hw]; rfl, ?_⟩
  rw [eval]
  cases hxe : x.evalOperand early with
  | known v' =>
    cases hye : y.evalOperand early with
    | known w' =>
      cases (evalOperand_later h (hk.isTerm hx) hxe).symm.trans hv
      cases (evalOperand_later h (hk.isTerm hy) hye).symm.trans hw
      exact rfl
    | unknown d =>
      rw [hxe, hye] at hleft
      exact hleft
  | unknown c =>
    rw [hxe] at hleft
    exact hleft

theorem Keeps.means_eval (hk : Keeps early late T has) (h : late.Completes early) {c : Condition}
    (hc : MadeOf T c) : ∃ b, c.eval late = .known b ∧ (c.eval early).Means has b := by
  have hcomposes := hk.toComposes
  have hlate := composes_eval late
  induction hc with
  | term ha => exact hk.means_term h ha
  | not _ ih =>
    obtain ⟨b, hb, hmeans⟩ := ih
    exact ⟨!b, hlate.not hb, by rw [eval]; exact hmeans.not hcomposes⟩
  | and _ _ iha ihb =>
    obtain ⟨a, ha, hma⟩ := iha
    obtain ⟨b, hb, hmb⟩ := ihb
    exact ⟨a && b, hlate.and ha hb, by rw [eval]; exact hma.and hcomposes hmb⟩
  | or _ _ iha ihb =>
    obtain ⟨a, ha, hma⟩ := iha
    obtain ⟨b, hb, hmb⟩ := ihb
    exact ⟨a || b, hlate.or ha hb, by rw [eval]; exact hma.or hcomposes hmb⟩
  | xor _ _ iha ihb =>
    obtain ⟨a, ha, hma⟩ := iha
    obtain ⟨b, hb, hmb⟩ := ihb
    exact ⟨a != b, hlate.xor ha hb, by rw [eval]; exact hma.xor hcomposes hmb⟩
  | compare op ha hb => exact hk.means_compare h op ha hb

end Passes

/-- What is left over has late the value of the whole. -/
theorem keeps_eval (h : late.Completes early) :
    Keeps early late (fun a => a.isTerm) fun b c => c.eval late = .known b where
  toComposes := composes_eval late
  isTerm ha := ha
  term {a v} ha hv := by rw [eval_of_isTerm ha, hv]
  compare op {a b v w} ha hb hv hw := by
    rw [eval, evalOperand_fold h ha, evalOperand_fold h hb, hv, hw]
    rfl

/-- What the early pass knows of a condition is its value in the late one; what it leaves over has
there the value of the whole condition, and nothing is left over there. -/
theorem eval_later (h : late.Completes early) {c : Condition} (hc : c.Flat) :
    (∀ b, c.eval early = .known b → c.eval late = .known b) ∧
      (∀ d, c.eval early = .residual d →
        ∃ b, d.eval late = .known b ∧ c.eval late = .known b) ∧
      ∃ b, c.eval late = .known b := by
  obtain ⟨b, hb, hmeans⟩ := (keeps_eval h).means_eval h hc
  refine ⟨fun a ha => ?_, fun d hd => ?_, b, hb⟩
  · rw [ha] at hmeans
    obtain rfl : a = b := hmeans
    exact hb
  · rw [hd] at hmeans
    exact ⟨b, hmeans, hb⟩

theorem eval_later_count :
    let early : Resolver := ⟨[("$min".toList, .int 3)], [], true⟩
    let late : Resolver := ⟨early.scope ++ [("count".toList, .int 7)], [], false⟩
    let enough := Condition.compare .ge (.atom "count".toList)
    let c := Condition.and (.not (.atom "$closed".toList)) (enough (.atom "$min".toList))
    late.Completes early ∧ c.Flat ∧ c.eval early = .residual (enough (.literal (.int 3))) ∧
      ∃ b, (enough (.literal (.int 3))).eval late = .known b ∧ c.eval late = .known b := by
  intro early late enough c
  have hcompletes : late.Completes early := by
    refine Resolver.completes_append early.scope [] fun e he => ?_
    rw [List.mem_singleton.mp he]
    decide
  have hflat : c.Flat := .and (.not (.term rfl)) (.compare .ge rfl rfl)
  have hclosed : early.value "$closed".toList = .found .null :=
    Resolver.value_name rfl (by decide) rfl rfl
  have hcount : early.value "count".toList = .unknown :=
    Resolver.value_name rfl (by decide) rfl rfl
  have hmin : early.value "$min".toList = .found (.int 3) :=
    Resolver.value_name rfl (by decide) rfl rfl
  have hleft : c.eval early = .residual (enough (.literal (.int 3))) := by
    rw [eval, eval, eval, eval, evalOperand, evalOperand, hclosed, hcount, hmin]
    rfl
  exact ⟨hcompletes, hflat, hleft, (eval_later hcompletes hflat).2.1 _ hleft⟩

end Condition

end Stencil
