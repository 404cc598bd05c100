import Mathlib
import Stencil.Random

namespace Stencil.Random

variable {α β : Type} {r : Random α} {P : α → Prop} {Q : β → Prop} {n lo hi k : Nat}
  {halves : Halves}

/-- Does a computation that comes to its end always give something of a kind? -/
def Gives (r : Random α) (P : α → Prop) : Prop :=
  ∀ supply x rest, r supply = some (x, rest) → P x

theorem gives_pure {x : α} (h : P x) : Gives (pure x) P := by
  intro supply y rest hr
  cases hr
  exact h

theorem Gives.bind {f : α → Random β} (hr : r.Gives P) (hf : ∀ x, P x → (f x).Gives Q) :
    Gives (r >>= f) Q := by
  intro supply y rest h
  obtain ⟨⟨x, supply'⟩, hx, hy⟩ := Option.bind_eq_some_iff.mp h
  exact hf x (hr supply x supply' hx) supply' y rest hy

theorem Gives.mono {P' : α → Prop} (hr : r.Gives P) (h : ∀ x, P x → P' x) : r.Gives P' :=
  fun supply x rest hx => h x (hr supply x rest hx)

/-- The high part of a product with a word is below the other factor. -/
theorem div_lt_of_word {bits word : Nat} (hword : word < Nat.pow 2 bits) (hn : 0 < n) :
    word * n / Nat.pow 2 bits < n := by
  refine Nat.div_lt_of_lt_mul ?_
  exact Nat.mul_lt_mul_of_pos_right hword hn

theorem belowFrom?_lt (hn : 0 < n) {supply rest : List UInt32}
    (h : belowFrom? n supply = some (k, rest)) : k < n := by
  fun_induction belowFrom? n supply with
  | case1 => cases h
  | case2 w supply product hzone =>
    cases h
    exact div_lt_of_word w.toNat_lt hn
  | case3 w supply product hzone ih => exact ih h

theorem Halves.wide_lt (halves : Halves) (first second : UInt32) :
    halves.wide first second < Nat.pow 2 64 := by
  have hfirst : first.toNat < 4294967296 := first.toNat_lt
  have hsecond : second.toNat < 4294967296 := second.toNat_lt
  cases halves with
  | highFirst =>
    change first.toNat * 4294967296 + second.toNat < 18446744073709551616
    omega
  | lowFirst =>
    change second.toNat * 4294967296 + first.toNat < 18446744073709551616
    omega

theorem wideBelowFrom?_lt (hn : 0 < n) {supply rest : List UInt32}
    (h : wideBelowFrom? halves n supply = some (k, rest)) : k < n := by
  fun_induction wideBelowFrom? halves n supply with
  | case1 first second supply product hzone =>
    cases h
    exact div_lt_of_word (halves.wide_lt first second) hn
  | case2 first second supply product hzone ih => exact ih h
  | case3 => cases h

/-- A number that is drawn from a range is in it, if there is one. -/
theorem gives_between (h : lo ≤ hi) : (between halves lo hi).Gives fun n => lo ≤ n ∧ n ≤ hi := by
  have hdraw : Gives (wideBelowFrom? halves (hi - lo + 1)) fun k => k < hi - lo + 1 :=
    fun supply k rest hk => wideBelowFrom?_lt (Nat.succ_pos _) hk
  refine hdraw.bind fun k hk => gives_pure ?_
  omega

/-- What is chosen of a list is one of its items, or nothing of an empty list. -/
theorem gives_choose? (items : List α) :
    (choose? items).Gives fun o => (∃ x ∈ items, o = some x) ∨ o = none ∧ items = [] := by
  unfold choose?
  split
  next hempty => exact gives_pure (.inr ⟨rfl, List.isEmpty_iff.mp hempty⟩)
  next hempty =>
    have hpos : 0 < items.length := List.length_pos_iff.mpr fun he => hempty (by simp [he])
    have hdraw : (below items.length).Gives fun k => k < items.length :=
      fun supply k rest hk => belowFrom?_lt hpos hk
    refine hdraw.bind fun k hk => gives_pure (.inl ⟨items[k], List.getElem_mem hk, ?_⟩)
    exact List.getElem?_eq_getElem hk

/-- A computation that is repeated gives so many results, all of them of the kind of one. -/
theorem gives_many (h : r.Gives P) (n : Nat) :
    (many n r).Gives fun xs => xs.length = n ∧ ∀ x ∈ xs, P x := by
  unfold many
  induction n with
  | zero => exact gives_pure ⟨rfl, List.forall_mem_nil _⟩
  | succ n ih =>
    rw [List.replicate_succ, List.mapM_cons]
    refine h.bind fun x hx => ih.bind fun xs hxs => gives_pure ⟨?_, ?_⟩
    · rw [List.length_cons, hxs.1]
    · exact List.forall_mem_cons.mpr ⟨hx, hxs.2⟩

/-- Does a computation come to its end after some zeros, and leave what follows them? -/
def Ends (r : Random α) : Prop :=
  ∃ n x, ∀ rest, r (List.replicate n 0 ++ rest) = some (x, rest)

theorem ends_pure (x : α) : Ends (pure x) := ⟨0, x, fun _ => rfl⟩

theorem Ends.bind {f : α → Random β} (hr : r.Ends) (hf : ∀ x, (f x).Ends) : Ends (r >>= f) := by
  obtain ⟨n, x, hx⟩ := hr
  obtain ⟨m, y, hy⟩ := hf x
  refine ⟨n + m, y, fun rest => ?_⟩
  rw [List.replicate_add, List.append_assoc]
  exact Option.bind_eq_some_iff.mpr ⟨(x, List.replicate m 0 ++ rest), hx _, hy rest⟩

theorem ends_between (halves : Halves) (lo hi : Nat) : (between halves lo hi).Ends := by
  have hdraw : Ends (wideBelowFrom? halves (hi - lo + 1)) :=
    ⟨2, 0, fun rest => by cases halves <;> simp [List.replicate, wideBelowFrom?, Halves.wide]⟩
  exact hdraw.bind fun k => ends_pure _

theorem ends_choose? (items : List α) : (choose? items).Ends := by
  have hdraw : Ends (below items.length) :=
    ⟨1, 0, fun rest => by simp [List.replicate, below, belowFrom?]⟩
  unfold choose?
  split
  · exact ends_pure none
  · exact hdraw.bind fun k => ends_pure _

theorem ends_many (h : r.Ends) (n : Nat) : (many n r).Ends := by
  unfold many
  induction n with
  | zero => exact ends_pure []
  | succ n ih =>
    rw [List.replicate_succ, List.mapM_cons]
    exact h.bind fun x => ih.bind fun xs => ends_pure _

end Stencil.Random
