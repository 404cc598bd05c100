import Stencil.Constants
import Stencil.Proofs.Ordered

namespace Stencil.Constants

variable {scope : Scope} {name : Text} {v : Value}

/-- Has a name with a dollar sign a value of its own, and another one under `const`? -/
def Contested (scope : Scope) (name : Text) : Prop :=
  name.head? = some '$' ∧ ∃ v w, Dictionary.get? scope name = some v ∧
    Dictionary.get? (shared scope) name = some w ∧ v ≠ w

theorem ascending_shared (h : (Value.map scope).Ordered) : (shared scope).Ascending := by
  unfold shared
  split
  next entries hget => exact (h.of_get? hget).ascending
  next => exact .nil

theorem get?_dollar (scope : Scope) (name : Text) : Dictionary.get? (dollar scope) name =
    if name.head? = some '$' then Dictionary.get? scope name else none := by
  have := Dictionary.get?_filter scope (fun name => decide (name.head? = some '$')) name
  simpa [dollar] using this

/-- To fold, the value of a name with a dollar sign is its own, if it has one. -/
theorem get?_ofScope (h : (Value.map scope).Ordered) (name : Text) :
    Dictionary.get? (ofScope scope) name =
      (if name.head? = some '$' then Dictionary.get? scope name else none).or
        (Dictionary.get? (shared scope) name) := by
  have hdollar : (dollar scope).Ascending := h.ascending.sublist List.filter_sublist
  rw [ofScope, Dictionary.get?_insertAll hdollar, get?_dollar,
    Dictionary.get?_ofList (ascending_shared h)]

/-- To render, the value of a name is the one under `const`, if there is one. -/
theorem get?_expose (h : (Value.map scope).Ordered) (name : Text) :
    Dictionary.get? (expose scope) name =
      (Dictionary.get? (shared scope) name).or (Dictionary.get? scope name) :=
  Dictionary.get?_insertAll (ascending_shared h) scope name

/-- A constant has the value in the page that it has in the fold, unless it is contested. -/
theorem get?_expose_iff (h : (Value.map scope).Ordered)
    (hv : Dictionary.get? (ofScope scope) name = some v) :
    Dictionary.get? (expose scope) name = some v ↔ ¬Contested scope name := by
  rw [get?_ofScope h] at hv
  rw [get?_expose h]
  by_cases hname : name.head? = some '$'
  · rw [if_pos hname] at hv
    cases hown : Dictionary.get? scope name with
    | none =>
      rw [hown, Option.none_or] at hv
      simp [Contested, hown, hv]
    | some own =>
      rw [hown, Option.some_or] at hv
      cases hv
      cases hshared : Dictionary.get? (shared scope) name with
      | none => simp [Contested, hshared]
      | some w => simp [Contested, hname, hown, hshared, eq_comm]
  · rw [if_neg hname, Option.none_or] at hv
    simp [Contested, hname, hv]

/-- The page is rendered with the constants against which its template was folded exactly if no name
with a dollar sign has two values. The fold prefers the value of its own, the rendering the one
under `const`. -/
theorem agree_iff (h : (Value.map scope).Ordered) :
    (∀ name v, Dictionary.get? (ofScope scope) name = some v →
      Dictionary.get? (expose scope) name = some v) ↔ ∀ name, ¬Contested scope name := by
  refine ⟨fun hall name => ?_, fun hc name v hv => (get?_expose_iff h hv).mpr (hc name)⟩
  by_cases hname : name.head? = some '$'
  · cases hown : Dictionary.get? scope name with
    | none => simp [Contested, hown]
    | some v =>
      have hv : Dictionary.get? (ofScope scope) name = some v := by
        rw [get?_ofScope h, if_pos hname, hown, Option.some_or]
      exact (get?_expose_iff h hv).mp (hall name v hv)
  · exact fun hc => hname hc.1

/-- The data of a request, as they come. -/
def shop : Text := ("\x7b\"lang\":\"de\",\"$shop\":\"A\"," ++
  "\"const\":\x7b\"$shop\":\"A\",\"lang\":\"en\"\x7d\x7d").toList

/-- Names that have a value of their own and one under `const`, with a dollar sign and without. -/
theorem agree_iff_shop :
    let scope : Scope := [("$shop".toList, .str "A".toList), ("const".toList,
      .map [("$shop".toList, .str "A".toList), ("lang".toList, .str "en".toList)]),
      ("lang".toList, .str "de".toList)]
    Json.read? shop = some (.map scope) ∧
      ∀ name v, Dictionary.get? (ofScope scope) name = some v →
        Dictionary.get? (expose scope) name = some v := by
  intro scope
  have hread : Json.read? shop = some (.map scope) := by rfl
  refine ⟨hread, (agree_iff (Json.ordered_read? hread)).mpr ?_⟩
  rintro name ⟨hname, v, w, hv, hw, hne⟩
  have hname : name = "$shop".toList := by
    have := Dictionary.mem_of_get? hv
    simp only [scope, List.mem_cons, Prod.mk.injEq, List.not_mem_nil, or_false] at this
    rcases this with ⟨rfl, -⟩ | ⟨rfl, -⟩ | ⟨rfl, -⟩
    · rfl
    · cases hname
    · cases hname
  subst hname
  cases hv
  cases hw
  exact hne rfl

/-- A name with a dollar sign that has two values: the template is folded against one of them, and
the page is rendered with the other. -/
theorem not_agree :
    let scope : Scope := [("$x".toList, .int 1), ("const".toList, .map [("$x".toList, .int 2)])]
    Json.read? "\x7b\"$x\":1,\"const\":\x7b\"$x\":2\x7d\x7d".toList = some (.map scope) ∧
      Dictionary.get? (ofScope scope) "$x".toList = some (.int 1) ∧
      Dictionary.get? (expose scope) "$x".toList = some (.int 2) := ⟨by rfl, rfl, rfl⟩

end Stencil.Constants
