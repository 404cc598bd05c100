import Stencil.Dictionary
import Stencil.Proofs.Text

namespace Stencil

theorem Text.order_eq_iff {s t : Text} : order s t = .eq ↔ s = t := by
  induction s generalizing t with
  | nil => cases t <;> simp [order]
  | cons a s ih =>
    cases t with
    | nil => simp [order]
    | cons b t =>
      simp [order, Ordering.then_eq_eq, ih, Char.toNat_inj]

theorem Text.order_swap (s t : Text) : (order s t).swap = order t s := by
  induction s generalizing t with
  | nil => cases t <;> rfl
  | cons a s ih =>
    cases t with
    | nil => rfl
    | cons b t => rw [order, order, Ordering.swap_then, ih, Nat.compare_swap]

theorem Text.order_trans {s t u : Text} (h : order s t = .lt) (h' : order t u = .lt) :
    order s u = .lt := by
  induction s generalizing t u with
  | nil =>
    cases t with
    | nil => cases h
    | cons b t =>
      cases u with
      | nil => cases h'
      | cons c u => rfl
  | cons a s ih =>
    cases t with
    | nil => cases h
    | cons b t =>
      cases u with
      | nil => cases h'
      | cons c u =>
        simp only [order, Ordering.then_eq_lt, Nat.compare_eq_lt, Nat.compare_eq_eq] at h h' ⊢
        rcases h with h | ⟨h, hst⟩
        · exact .inl (by omega)
        · rcases h' with h' | ⟨h', htu⟩
          · exact .inl (by omega)
          · exact .inr ⟨h.trans h', ih hst htu⟩

namespace Dictionary

variable {α : Type} {d : Dictionary α} {name : Text} {value : α}

/-- Do the names ascend? Then each is there once. -/
def Ascending (d : Dictionary α) : Prop := d.Pairwise fun a b => Text.order a.1 b.1 = .lt

instance (d : Dictionary α) : Decidable d.Ascending :=
  inferInstanceAs (Decidable (d.Pairwise fun a b => Text.order a.1 b.1 = .lt))

theorem mem_of_mem_insert {e : Text × α} (h : e ∈ insert d name value) :
    e = (name, value) ∨ e ∈ d := by
  induction d with
  | nil => exact .inl (List.mem_singleton.mp h)
  | cons first rest ih =>
    unfold insert at h
    split at h
    · exact List.mem_cons.mp h
    · exact (List.mem_cons.mp h).imp id (List.mem_cons_of_mem _)
    · rcases List.mem_cons.mp h with rfl | h
      · exact .inr List.mem_cons_self
      · exact (ih h).imp id (List.mem_cons_of_mem _)

theorem mem_of_mem_insertAll {pairs : List (Text × α)} {e : Text × α}
    (h : e ∈ insertAll d pairs) : e ∈ pairs ∨ e ∈ d := by
  induction pairs generalizing d with
  | nil => exact .inr h
  | cons p pairs ih =>
    rcases ih h with h | h
    · exact .inl (List.mem_cons_of_mem _ h)
    · rcases mem_of_mem_insert h with rfl | h
      · exact .inl List.mem_cons_self
      · exact .inr h

theorem mem_of_mem_ofList {pairs : List (Text × α)} {e : Text × α} (h : e ∈ ofList pairs) :
    e ∈ pairs :=
  (mem_of_mem_insertAll h).resolve_right List.not_mem_nil

theorem mem_of_get? (h : get? d name = some value) : (name, value) ∈ d := by
  obtain ⟨e, he, rfl⟩ := Option.map_eq_some_iff.mp h
  have hname : e.1 = name := by simpa using List.find?_some he
  exact hname ▸ List.mem_of_find?_eq_some he

theorem get?_cons (e : Text × α) (d : Dictionary α) (name : Text) :
    get? (e :: d) name = if e.1 = name then some e.2 else get? d name := by
  unfold get?
  rw [List.find?_cons]
  split <;> simp_all

theorem get?_append (d e : Dictionary α) (name : Text) :
    get? (d ++ e) name = (get? d name).or (get? e name) := by
  rw [get?, List.find?_append, Option.map_or]
  rfl

theorem get?_insert (d : Dictionary α) (name : Text) (value : α) (other : Text) :
    get? (insert d name value) other = if name = other then some value else get? d other := by
  induction d with
  | nil => rw [insert, get?_cons]
  | cons e rest ih =>
    unfold insert
    split
    · rw [get?_cons]
    next h =>
      rw [get?_cons, get?_cons, ← Text.order_eq_iff.mp h]
      split <;> rfl
    next h =>
      rw [get?_cons, get?_cons, ih]
      split_ifs with he hn
      · have : Text.order name e.1 = .eq := Text.order_eq_iff.mpr (hn.trans he.symm)
        rw [this] at h
        cases h
      all_goals rfl

theorem get?_filter (d : Dictionary α) (p : Text → Bool) (name : Text) :
    get? (d.filter fun e => p e.1) name = if p name then get? d name else none := by
  induction d with
  | nil => simp [get?]
  | cons e rest ih =>
    rw [List.filter_cons, get?_cons]
    by_cases he : e.1 = name
    · by_cases hp : p name <;> simp [he, hp, get?_cons, ih]
    · by_cases hp : p e.1 <;> simp [he, hp, get?_cons, ih]

theorem get?_eq_none_of_head {e : Text × α} (h : Ascending (e :: d)) : get? d e.1 = none := by
  rw [get?, Option.map_eq_none_iff, List.find?_eq_none]
  intro f hf
  have hlt := (List.pairwise_cons.mp h).1 f hf
  have hne : f.1 ≠ e.1 := fun he => by
    rw [he, Text.order_eq_iff.mpr rfl] at hlt
    cases hlt
  simpa using hne

/-- A name that is among the pairs has the value paired with it, another one what it had. -/
theorem get?_insertAll {pairs : Dictionary α} (h : pairs.Ascending) (d : Dictionary α)
    (name : Text) : get? (insertAll d pairs) name = (get? pairs name).or (get? d name) := by
  induction pairs generalizing d with
  | nil => rfl
  | cons e rest ih =>
    have hrest : get? (insertAll d (e :: rest)) name =
        (get? rest name).or (get? (insert d e.1 e.2) name) := ih (List.pairwise_cons.mp h).2 _
    rw [hrest, get?_insert, get?_cons]
    split
    next he =>
      rw [← he, get?_eq_none_of_head h]
      rfl
    next => rfl

theorem get?_ofList {pairs : Dictionary α} (h : pairs.Ascending) (name : Text) :
    get? (ofList pairs) name = get? pairs name := by
  rw [ofList, get?_insertAll h]
  exact Option.or_none

theorem ascending_insert (h : d.Ascending) (name : Text) (value : α) :
    (insert d name value).Ascending := by
  induction d with
  | nil => exact List.pairwise_singleton _ _
  | cons e rest ih =>
    obtain ⟨hhead, hrest⟩ := List.pairwise_cons.mp h
    unfold insert
    split
    next hlt =>
      refine List.pairwise_cons.mpr ⟨fun f hf => ?_, h⟩
      rcases List.mem_cons.mp hf with rfl | hf
      · exact hlt
      · exact Text.order_trans hlt (hhead f hf)
    next heq =>
      obtain rfl := Text.order_eq_iff.mp heq
      exact List.pairwise_cons.mpr ⟨hhead, hrest⟩
    next hgt =>
      refine List.pairwise_cons.mpr ⟨fun f hf => ?_, ih hrest⟩
      rcases mem_of_mem_insert hf with rfl | hf
      · rw [← Text.order_swap, hgt]
        rfl
      · exact hhead f hf

theorem ascending_insertAll (h : d.Ascending) (pairs : List (Text × α)) :
    (insertAll d pairs).Ascending := by
  induction pairs generalizing d with
  | nil => exact h
  | cons e rest ih => exact ih (ascending_insert h e.1 e.2)

theorem ascending_ofList (pairs : List (Text × α)) : (ofList pairs).Ascending :=
  ascending_insertAll .nil pairs

theorem get?_erase (d : Dictionary α) (name : Text) : get? (erase d name) name = none := by
  rw [get?, Option.map_eq_none_iff, List.find?_eq_none]
  intro e he
  simpa using (List.mem_filter.mp he).2

end Dictionary

end Stencil
