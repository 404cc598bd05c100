import Stencil.Tag.Attributes
import Stencil.Proofs.Mark

namespace Stencil

namespace Attributes

variable {a : Attributes} {key value : Text}

/-- The entries of a set with another value for a key. -/
theorem find?_map_replace (entries : List (Text × Text)) (key value other : Text) :
    ((entries.map fun e => if e.1 = key then (key, value) else e).find? (·.1 = other)).map
        Prod.snd =
      if key = other ∧ entries.any (·.1 = key) then some value
      else (entries.find? (·.1 = other)).map Prod.snd := by
  induction entries with
  | nil => simp
  | cons e entries ih =>
    rw [List.map_cons, List.find?_cons, List.find?_cons, List.any_cons]
    by_cases he : e.1 = key
    · by_cases ho : key = other
      · simp only [he, ho, if_true, decide_true, Bool.true_or, and_self, Option.map_some]
      · simp only [he, ho, if_true, decide_false, false_and, if_false] at ih ⊢
        exact ih
    · by_cases ho : e.1 = other
      · have hne : ¬key = other := fun h => he (ho.trans h.symm)
        rw [if_neg he, if_neg fun h => hne h.1]
        simp only [ho, decide_true]
      · simp only [he, ho, if_false, decide_false, Bool.false_or]
        exact ih

theorem get?_insert (a : Attributes) (key value other : Text) :
    (a.insert key value).get? other = if key = other then some value else a.get? other := by
  unfold insert
  split
  next h =>
    rw [get?, find?_map_replace]
    simp only [h, and_true]
    rfl
  next h =>
    have hnew : ∀ e ∈ a.entries, ¬decide (e.1 = key) = true := fun e he hk =>
      h (List.any_eq_true.mpr ⟨e, he, hk⟩)
    rw [get?, List.find?_append]
    by_cases ho : key = other
    · subst ho
      have hnone : a.entries.find? (·.1 = key) = none := List.find?_eq_none.mpr hnew
      simp [hnone]
    · cases hf : a.entries.find? (·.1 = other) with
      | none => simp [ho, get?, hf]
      | some e => simp [ho, get?, hf]

theorem contains_insert (a : Attributes) (key value other : Text) :
    (a.insert key value).contains other = (decide (key = other) || a.contains other) := by
  rw [contains, get?_insert, contains]
  by_cases h : key = other
  · simp [h]
  · simp [h]

theorem size_le_insert (a : Attributes) (key value : Text) :
    a.size ≤ (a.insert key value).size := by
  unfold insert
  split
  · simp [size]
  · simp [size]

theorem size_insert_of_get? (h : a.get? key = none) (value : Text) :
    (a.insert key value).size = a.size + 1 := by
  have hnew : ¬a.entries.any (·.1 = key) := by
    intro hany
    obtain ⟨e, he, hk⟩ := List.any_eq_true.mp hany
    have hnone : a.entries.find? (·.1 = key) = none := Option.map_eq_none_iff.mp h
    exact List.find?_eq_none.mp hnone e he hk
  rw [insert, if_neg hnew]
  simp [size]

theorem position_inj {m n : Nat} (h : position m = position n) : m = n := by
  have hvalue := congrArg Text.digitsValue h
  rwa [position, position, Text.digitsValue_ofNat, Text.digitsValue_ofNat] at hvalue

theorem args_go_eq {values : List Text} (h : ∀ n, a.get? (position n) = values[n]?) {fuel n : Nat}
    (hfuel : values.length ≤ n + fuel) : args.go a fuel n = values.drop n := by
  induction fuel generalizing n with
  | zero => exact (List.drop_eq_nil_of_le hfuel).symm
  | succ fuel ih =>
    rw [args.go, h n]
    by_cases hn : n < values.length
    · rw [List.getElem?_eq_getElem hn, List.drop_eq_getElem_cons hn]
      exact congrArg (values[n] :: ·) (ih (by omega))
    · rw [List.getElem?_eq_none (by omega), List.drop_eq_nil_of_le (by omega)]

/-- If a set has these values at the first positions, and nothing at others, they are its
arguments. -/
theorem args_eq {values : List Text} (h : ∀ n, a.get? (position n) = values[n]?)
    (hsize : values.length ≤ a.size) : a.args = values := by
  have hgo : args.go a a.size 0 = values.drop 0 := args_go_eq h (by omega)
  rwa [List.drop_zero] at hgo

end Attributes

namespace Hole

theorem ofText?_of_ne {c : Char} (s : Text)
    (hspace : isWhiteSpace c = false) (hc : c ≠ '{') : ofText? (c :: s) = none := by
  obtain ⟨t, ht⟩ : ∃ t, Text.trim (c :: s) = c :: t := by
    have hstart : Text.trimStart (c :: s) = c :: s := by
      rw [Text.trimStart, List.dropWhile_cons, if_neg (by simp [hspace])]
    rw [Text.trim, hstart, Text.trimEnd, Text.dropEndWhile, List.reverse_cons,
      List.dropWhile_append]
    split
    · rw [List.dropWhile_cons, if_neg (by simp [hspace])]
      exact ⟨[], rfl⟩
    · rw [List.reverse_append]
      exact ⟨_, rfl⟩
  have hstrip : ∀ raw, Text.strip? (opening raw) (c :: t) = none := by
    intro raw
    cases raw with
    | true => simp [opening, Text.strip?, hc.symm]
    | false => simp [opening, Text.strip?, hc.symm]
  simp only [ofText?, ht, hstrip]
  rfl

end Hole

namespace Tag

variable {literals : LiteralTable} {r : Reading} {token key : Text}

/-- The key that a token of a tag gives an attribute, if it is no hole and has an equals sign. -/
def writtenKey? (literals : LiteralTable) (token : Text) : Option Text :=
  if (Hole.ofText? token).isSome then none
  else
    (Text.cut? ['='] token).map fun (key, value) =>
      if key.isEmpty then derivedKey (storedValue literals value) else literals.unquote key

/-- The argument that a token of a tag stands for, if it is no hole and has no equals sign. -/
def argument? (literals : LiteralTable) (token : Text) : Option Text :=
  if (Hole.ofText? token).isSome ∨ (Text.cut? ['='] token).isSome then none
  else some (storedValue literals token)

/-- A reading of a tag has counted its arguments, and no other attribute is at a position. -/
structure Reading.Counted (r : Reading) (args : List Text) : Prop where
  positions : r.positions = args.length
  get? : ∀ n, r.attrs.get? (Attributes.position n) = args[n]?
  size : args.length ≤ r.attrs.size

/-- An attribute that is not named by a position. -/
theorem Reading.Counted.insert {args : List Text} (h : r.Counted args) {value : Text} {holes : Nat}
    (hkey : ∀ n, key ≠ Attributes.position n) :
    Reading.Counted ⟨r.positions, holes, r.attrs.insert key value⟩ args where
  positions := h.positions
  get? n := by
    rw [Attributes.get?_insert, if_neg (hkey n), h.get? n]
  size := h.size.trans (Attributes.size_le_insert _ _ _)

theorem Reading.Counted.argument {args : List Text} (h : r.Counted args) (value : Text) :
    Reading.Counted ⟨r.positions + 1, r.holes,
      r.attrs.insert (Attributes.position r.positions) value⟩ (args ++ [value]) where
  positions := by simp [h.positions]
  get? n := by
    rw [Attributes.get?_insert, h.positions]
    by_cases hn : args.length = n
    · subst hn
      simp
    · rw [if_neg fun he => hn (Attributes.position_inj he), h.get? n]
      by_cases hlt : n < args.length
      · rw [List.getElem?_append_left hlt]
      · rw [List.getElem?_eq_none (by omega), List.getElem?_eq_none]
        simp only [List.length_append, List.length_singleton]
        omega
  size := by
    have hnone : r.attrs.get? (Attributes.position r.positions) = none := by
      rw [h.get?, h.positions, List.getElem?_eq_none (Nat.le_refl _)]
    rw [Attributes.size_insert_of_get? hnone, List.length_append, List.length_singleton]
    exact Nat.succ_le_succ h.size

theorem position_ne_hole (m n : Nat) : '-' :: Text.ofNat m ≠ Attributes.position n := by
  intro h
  have hmem : '-' ∈ Text.ofNat n := by
    rw [← show '-' :: Text.ofNat m = Text.ofNat n from h]
    exact List.mem_cons_self
  exact Text.not_mem_ofNat (by decide) n hmem

/-- A token adds its argument, if it stands for one and names no attribute by a position. -/
theorem Reading.Counted.add {args : List Text} (h : r.Counted args)
    (hkey : ∀ key ∈ writtenKey? literals token, ∀ n, key ≠ Attributes.position n) :
    (r.add literals token).Counted (args ++ (argument? literals token).toList) := by
  unfold Reading.add
  by_cases hhole : (Hole.ofText? token).isSome
  · rw [if_pos hhole, argument?, if_pos (.inl hhole), Option.toList_none, List.append_nil]
    exact h.insert (position_ne_hole _)
  · rw [if_neg hhole]
    cases hcut : Text.cut? ['='] token with
    | none =>
      rw [argument?, if_neg (by simp [hhole, hcut])]
      exact h.argument _
    | some parts =>
      obtain ⟨key, value⟩ := parts
      rw [argument?, if_pos (by simp [hcut]), Option.toList_none, List.append_nil]
      exact h.insert (hkey _ (by simp [writtenKey?, hhole, hcut]))

theorem counted_read {tokens : List Text} (h : ∀ token ∈ tokens,
    ∀ key ∈ writtenKey? literals token, ∀ n, key ≠ Attributes.position n) :
    (tokens.foldl (Reading.add literals) ⟨0, 0, Attributes.empty⟩).Counted
      (tokens.filterMap (argument? literals)) := by
  induction tokens using List.reverseRecOn with
  | nil => exact ⟨rfl, fun _ => rfl, Nat.le_refl _⟩
  | append_singleton tokens token ih =>
    have hbefore := ih fun t ht => h t (List.mem_append_left _ ht)
    have hadd := hbefore.add (h token (by simp))
    rw [List.foldl_append, List.filterMap_append]
    have hlast : [token].filterMap (argument? literals) = (argument? literals token).toList := by
      cases ha : argument? literals token <;> simp [ha]
    rw [hlast]
    exact hadd

/-- The arguments of a tag that names no attribute by a position are those that stand bare in it, in
order. -/
theorem args_attributes? {name tail : Text} {attrs : Attributes}
    (hname : isConditional name = false) (h : attributes? literals name tail = some attrs)
    (hkeys : ∀ token ∈ attributeTokens [] [] tail, ∀ key ∈ writtenKey? literals token, ∀ n,
      key ≠ Attributes.position n) :
    attrs.args = (attributeTokens [] [] tail).filterMap (argument? literals) := by
  rw [attributes?, if_neg (by simp [hname])] at h
  cases Option.some.inj h
  have hcounted := counted_read hkeys
  exact Attributes.args_eq hcounted.get? hcounted.size

theorem contains_add {key : Text} (h : r.attrs.contains key) (token : Text) :
    (r.add literals token).attrs.contains key := by
  unfold Reading.add
  split
  · rw [Attributes.contains_insert, h, Bool.or_true]
  · split
    · rw [Attributes.contains_insert, h, Bool.or_true]
    · rw [Attributes.contains_insert, h, Bool.or_true]

theorem contains_add_writtenKey (h : key ∈ writtenKey? literals token) :
    (r.add literals token).attrs.contains key := by
  unfold writtenKey? at h
  split at h
  · cases h
  next hhole =>
    obtain ⟨parts, hcut, rfl⟩ := Option.map_eq_some_iff.mp h
    rw [Reading.add, if_neg hhole, hcut]
    rw [Attributes.contains_insert, decide_eq_true rfl, Bool.true_or]

/-- A tag has the attributes that its tokens name. -/
theorem contains_attributes? {name tail : Text} {attrs : Attributes}
    (hname : isConditional name = false) (h : attributes? literals name tail = some attrs)
    (htoken : token ∈ attributeTokens [] [] tail) (hkey : key ∈ writtenKey? literals token) :
    attrs.contains key := by
  rw [attributes?, if_neg (by simp [hname])] at h
  cases Option.some.inj h
  generalize attributeTokens [] [] tail = tokens at htoken
  induction tokens using List.reverseRecOn with
  | nil => cases htoken
  | append_singleton tokens last ih =>
    rw [List.foldl_append]
    rcases List.mem_append.mp htoken with hbefore | hlast
    · exact contains_add (ih hbefore) last
    · rw [← List.mem_singleton.mp hlast]
      exact contains_add_writtenKey hkey

end Tag

end Stencil
