import Stencil.Proofs.Dictionary
import Stencil.Proofs.Lookup

namespace Stencil

namespace Resolver

/-- All data of a request, in which the constant data of the early pass have the values that they
had there, and there are no constants besides. -/
structure Completes (late early : Resolver) : Prop where
  isEarly : early.pre = true
  isLate : late.pre = false
  literals : late.literals = early.literals
  agrees : ∀ name v, Dictionary.get? early.scope name = some v →
    Dictionary.get? late.scope name = some v
  constants : ∀ name, name.head? = some '$' → Dictionary.get? early.scope name = none →
    Dictionary.get? late.scope name = none

variable {early late : Resolver}

mutual

theorem alternative_later (h : late.Completes early) :
    ∀ {a v}, early.alternative a = .found v → late.alternative a = .found v
  | .literal w, v, hv => by
    rw [alternative] at hv ⊢
    exact hv
  | .path root steps, v, hv => by
    rw [alternative] at hv ⊢
    split at hv
    next w hw =>
      rw [h.agrees root w hw]
      exact follow_later h hv
    next hnone =>
      rw [h.isEarly] at hv
      split at hv
      · cases hv
      · next hdollar =>
        have hname : root.head? = some '$' := by simpa using hdollar
        rw [h.constants root hname hnone]
        simpa [h.isLate] using hv

theorem follow_later (h : late.Completes early) :
    ∀ {steps v w}, early.follow v steps = .found w → late.follow v steps = .found w
  | [], v, w, hw => by
    rw [follow] at hw ⊢
    exact hw
  | .name name :: steps, v, w, hw => by
    rw [follow] at hw ⊢
    split at hw
    next => exact follow_later h hw
    next => exact hw
  | .index alternatives :: steps, v, w, hw => by
    rw [follow] at hw ⊢
    split at hw
    next key hkey =>
      rw [firstPresent_later h hkey]
      dsimp only
      split at hw
      next => exact follow_later h hw
      next => exact hw
    next => cases hw
  | .nowhere :: steps, v, w, hw => by
    rw [follow] at hw ⊢
    exact hw

theorem firstPresent_later (h : late.Completes early) :
    ∀ {alternatives last v}, early.firstPresent last alternatives = .found v →
      late.firstPresent last alternatives = .found v
  | [], last, v, hv => by
    rw [firstPresent] at hv ⊢
    exact hv
  | a :: more, last, v, hv => by
    rw [firstPresent] at hv ⊢
    split at hv
    next w hw =>
      rw [alternative_later h hw]
      dsimp only
      split at hv
      next hc =>
        rw [if_pos hc]
        exact firstPresent_later h hv
      next hc =>
        rw [if_neg hc]
        exact hv
    next => cases hv

end

/-- What is known early does not change. -/
theorem value_later (h : late.Completes early) {expr : Text} {v : Value}
    (hv : early.value expr = .found v) : late.value expr = .found v := by
  unfold value at hv ⊢
  rw [h.literals]
  exact firstPresent_later h hv

/-- Data that come with constants, none of them a constant. -/
theorem completes_append (constants : Scope) {rest : Scope} (literals : LiteralTable)
    (h : ∀ e ∈ rest, e.1.head? ≠ some '$') :
    (⟨constants ++ rest, literals, false⟩ : Resolver).Completes ⟨constants, literals, true⟩ where
  isEarly := rfl
  isLate := rfl
  literals := rfl
  agrees name v hv := by
    rw [Dictionary.get?_append, hv]
    rfl
  constants name hname hnone := by
    rw [Dictionary.get?_append, hnone, Option.none_or]
    cases hv : Dictionary.get? rest name with
    | none => rfl
    | some v => exact absurd hname (h _ (Dictionary.mem_of_get? hv))

theorem firstText_later (h : late.Completes early) {e : Expression} {s : Text}
    (hs : early.firstText e = some s) : late.firstText e = some s := by
  induction e with
  | nil => exact hs
  | cons a more ih =>
    rw [firstText] at hs ⊢
    split at hs
    next v hv =>
      rw [alternative_later h hv]
      dsimp only
      split at hs
      next hc =>
        rw [if_pos hc]
        exact hs
      next hc =>
        rw [if_neg hc]
        exact ih hs
    next => cases hs

/-- What is known early of an expression, its value or its text, is so late, and late both are
known. -/
theorem known_later (h : late.Completes early) (expr : Text) :
    (∀ v, early.value expr = .found v → late.value expr = .found v) ∧
      (∀ s, early.text? expr = some s → late.text? expr = some s) ∧
      (∃ v, late.value expr = .found v) ∧ ∃ s, late.text? expr = some s := by
  refine ⟨fun v => value_later h, fun s hs => ?_, ?_, ?_⟩
  · unfold text? at hs ⊢
    rw [h.literals]
    exact firstText_later h hs
  · exact firstPresent_found h.isLate .null _
  · exact Option.isSome_iff_exists.mp (text?_isSome h.isLate expr)

theorem known_later_labels :
    let labels : Value := .map [("de".toList, .str "Hallo".toList), ("en".toList, .str "Hi".toList)]
    let early : Resolver :=
      ⟨[("$lang".toList, .str "en".toList), ("labels".toList, labels)], [], true⟩
    let late : Resolver := ⟨early.scope ++ [("name".toList, .str "Ada".toList)], [], false⟩
    late.Completes early ∧ early.text? "labels[$none|$lang]|name".toList = some "Hi".toList ∧
      late.text? "labels[$none|$lang]|name".toList = some "Hi".toList ∧
      early.text? "labels[name]".toList = none ∧ late.text? "labels[name]".toList = some [] := by
  intro labels early late
  have hcompletes : late.Completes early := by
    refine completes_append early.scope [] fun e he => ?_
    rw [List.mem_singleton.mp he]
    decide
  have hknown : early.text? "labels[$none|$lang]|name".toList = some "Hi".toList := by
    decide +kernel
  exact ⟨hcompletes, hknown, (known_later hcompletes _).2.1 _ hknown, by decide +kernel,
    by decide +kernel⟩

end Resolver

end Stencil
