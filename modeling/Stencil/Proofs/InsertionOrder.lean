import Stencil.Proofs.Argument

namespace Stencil.Attributes

open Text

variable {a : Attributes} {key value : Text} {h pairs : List (Text × Text)}

/-- The keys of a set, in order. -/
def keys (a : Attributes) : List Text := a.entries.map Prod.fst

theorem mem_keys_iff : key ∈ a.keys ↔ a.contains key := by
  rw [contains, get?, Option.isSome_map, List.find?_isSome]
  simp [keys]

theorem keys_insert (a : Attributes) (key value : Text) :
    (a.insert key value).keys = if key ∈ a.keys then a.keys else a.keys ++ [key] := by
  have hany : a.entries.any (·.1 = key) = true ↔ key ∈ a.keys := by
    simp [keys]
  unfold insert
  by_cases hk : key ∈ a.keys
  · rw [if_pos (hany.mpr hk), if_pos hk, keys, keys, List.map_map]
    refine List.map_congr_left fun e _ => ?_
    rw [Function.comp_apply]
    split
    next he => exact he.symm
    next => rfl
  · rw [if_neg fun h => hk (hany.mp h), if_neg hk, keys, keys, List.map_append]
    rfl

theorem nodup_keys_insert (h : a.keys.Nodup) (key value : Text) :
    (a.insert key value).keys.Nodup := by
  rw [keys_insert]
  split
  · exact h
  next hk => simpa using List.Nodup.concat hk h

theorem insertAll_concat (a : Attributes) (h : List (Text × Text)) (e : Text × Text) :
    a.insertAll (h ++ [e]) = (a.insertAll h).insert e.1 e.2 :=
  List.foldl_concat ..

theorem nodup_keys_insertAll (h : List (Text × Text)) : (empty.insertAll h).keys.Nodup := by
  induction h using List.reverseRecOn with
  | nil => exact List.nodup_nil
  | append_singleton h e ih =>
    rw [insertAll_concat]
    exact nodup_keys_insert ih e.1 e.2

theorem eraseDups_concat (names : List Text) (name : Text) : (names ++ [name]).eraseDups =
    if name ∈ names then names.eraseDups else names.eraseDups ++ [name] := by
  rw [List.eraseDups_append]
  by_cases hn : name ∈ names
  · simp [hn, List.removeAll]
  · simp [hn, List.removeAll, List.eraseDups_cons]

/-- The keys of a set are those that were inserted, by their first insertion. -/
theorem keys_insertAll (h : List (Text × Text)) :
    (empty.insertAll h).keys = (h.map Prod.fst).eraseDups := by
  induction h using List.reverseRecOn with
  | nil => rfl
  | append_singleton h e ih =>
    rw [insertAll_concat, keys_insert, ih, List.map_append, List.map_singleton, eraseDups_concat]
    simp only [List.mem_eraseDups]

/-- Each key has the value that was inserted last. -/
theorem get?_insertAll (h : List (Text × Text)) (key : Text) :
    (empty.insertAll h).get? key = h.reverse.lookup key := by
  induction h using List.reverseRecOn with
  | nil => rfl
  | append_singleton h e ih =>
    rw [insertAll_concat, get?_insert, ih, List.reverse_append, List.reverse_singleton,
      List.singleton_append, List.lookup_cons]
    by_cases he : e.1 = key
    · simp [he]
    · have hne : (key == e.1) = false := by simpa using Ne.symm he
      simp [he, hne]

theorem size_eq_card (h : a.keys.Nodup) : a.size = a.keys.toFinset.card := by
  rw [List.toFinset_card_of_nodup h, keys, List.length_map]
  rfl

theorem get?_of_mem (h : a.keys.Nodup) {e : Text × Text} (he : e ∈ a.entries) :
    a.get? e.1 = some e.2 := by
  have hheld : a.contains e.1 := mem_keys_iff.mp (List.mem_map_of_mem he)
  rw [contains, get?, Option.isSome_map] at hheld
  obtain ⟨f, hf⟩ := Option.isSome_iff_exists.mp hheld
  have hkey : f.1 = e.1 := by simpa using List.find?_some hf
  have hfe : f = e := List.inj_on_of_nodup_map h (List.mem_of_find?_eq_some hf) he hkey
  rw [get?, hf, hfe]
  rfl

/-- A set that has each key once is its keys with their values. -/
theorem entries_eq (h : a.keys.Nodup) :
    a.entries = a.keys.filterMap fun key => (a.get? key).map fun value => (key, value) := by
  rw [keys, List.filterMap_map]
  calc a.entries
      = a.entries.filterMap some := List.filterMap_some.symm
    _ = _ := List.filterMap_congr fun e he => by
      rw [Function.comp_apply, get?_of_mem h he]
      rfl

theorem length_le_size {n : Nat} (h : ∀ i < n, (a.get? (position i)).isSome) : n ≤ a.size := by
  have hnodup : ((List.range n).map position).Nodup :=
    List.Nodup.map (fun _ _ => position_inj) List.nodup_range
  have hsub : (List.range n).map position ⊆ a.keys := by
    intro key hkey
    obtain ⟨i, hi, rfl⟩ := List.mem_map.mp hkey
    exact mem_keys_iff.mpr (h i (List.mem_range.mp hi))
  have hlength := (List.subperm_of_subset hnodup hsub).length_le
  simpa [keys, size] using hlength

/-- What is read from a position on are the values at the positions from it, for as many as may be
read or up to one that is no key. -/
theorem args_go_run (a : Attributes) (fuel n : Nat) :
    (∀ i < (args.go a fuel n).length, a.get? (position (n + i)) = (args.go a fuel n)[i]?) ∧
      ((args.go a fuel n).length = fuel ∨
        a.get? (position (n + (args.go a fuel n).length)) = none) := by
  induction fuel generalizing n with
  | zero => exact ⟨by simp [args.go], .inl rfl⟩
  | succ fuel ih =>
    unfold args.go
    split
    next value hvalue =>
      obtain ⟨hrun, hend⟩ := ih (n + 1)
      refine ⟨fun i hi => ?_, ?_⟩
      · cases i with
        | zero => exact hvalue
        | succ i =>
          have hi' := hrun i (Nat.lt_of_succ_lt_succ hi)
          rw [show n + 1 + i = n + (i + 1) by omega] at hi'
          exact hi'
      · have hnext : n + ((args.go a fuel (n + 1)).length + 1) =
            n + 1 + (args.go a fuel (n + 1)).length := by omega
        rw [List.length_cons, hnext]
        exact hend.imp_left (congrArg (· + 1))
    next hnone => exact ⟨by simp, .inr hnone⟩

/-- Are these the values at the positions from zero on, up to the first that is no key? -/
structure IsRun (a : Attributes) (values : List Text) : Prop where
  held : ∀ i < values.length, a.get? (position i) = values[i]?
  stops : a.get? (position values.length) = none

theorem isRun_args (a : Attributes) : a.IsRun a.args := by
  have hgo := args_go_run a a.size 0
  simp only [Nat.zero_add] at hgo
  obtain ⟨hheld, hend⟩ := hgo
  refine ⟨hheld, hend.elim (fun hlength => ?_) fun hnone => hnone⟩
  -- a run as long as the set takes up all its keys
  by_contra hsome
  have hall : ∀ i < a.size + 1, (a.get? (position i)).isSome := by
    intro i hi
    rcases Nat.lt_succ_iff_lt_or_eq.mp hi with hi | rfl
    · rw [hheld i (by omega), List.getElem?_eq_getElem (by omega)]
      rfl
    · rw [show a.args.length = a.size from hlength] at hsome
      exact Option.ne_none_iff_isSome.mp hsome
  have := length_le_size hall
  omega

/-- Is a text a number below a bound, in digits and perhaps with a plus sign? -/
def IsUnsigned (bound : Nat) (s : Text) : Prop :=
  ∃ digits, (s = digits ∨ s = '+' :: digits) ∧ digits ≠ [] ∧ (∀ c ∈ digits, c.isDigit) ∧
    digitsValue digits < bound

/-- Is a key that of a position or a hole: a number of 64 bits, with a sign or none? -/
def IsNumber (key : Text) : Prop :=
  IsUnsigned int64Bound key ∨
    ∃ digits, key = '-' :: digits ∧ digits.head? ≠ some '+' ∧ IsUnsigned (int64Bound + 1) digits

/-- Is a key that of a hole: a minus sign before a number of 64 bits? -/
def IsHoleKey (key : Text) : Prop := ∃ digits, key = '-' :: digits ∧ IsUnsigned indexBound digits

theorem toNatBelow?_plus {bound : Nat} {digits : Text} (hne : digits ≠ [])
    (hd : ∀ c ∈ digits, c.isDigit) : toNatBelow? bound ('+' :: digits) =
      if digitsValue digits < bound then some (digitsValue digits) else none := by
  have hall : digits.all Char.isDigit = true := List.all_eq_true.mpr hd
  simp [toNatBelow?, hne, hall]

theorem isUnsigned_digits {bound : Nat} {s digits : Text} (hs : s = digits ∨ s = '+' :: digits)
    (h : (if digits.isEmpty || !digits.all Char.isDigit then none
      else if digitsValue digits < bound then some (digitsValue digits) else none).isSome) :
    IsUnsigned bound s := by
  split at h
  next => cases h
  next hdigits =>
    obtain ⟨hne, hall⟩ : digits ≠ [] ∧ ∀ c ∈ digits, c.isDigit := by simpa using hdigits
    split at h
    next hlt => exact ⟨digits, hs, hne, hall, hlt⟩
    next => cases h

theorem isSome_toNatBelow? {bound : Nat} {s : Text} :
    (toNatBelow? bound s).isSome ↔ IsUnsigned bound s := by
  constructor
  · intro h
    unfold toNatBelow? at h
    dsimp only at h
    cases s with
    | nil => cases h
    | cons c rest =>
      by_cases hc : c = '+'
      · subst hc
        exact isUnsigned_digits (.inr rfl) h
      · exact isUnsigned_digits (.inl rfl) (by simpa [hc] using h)
  · rintro ⟨digits, rfl | rfl, hne, hall, hlt⟩
    · rw [toNatBelow?_digits hne hall, if_pos hlt]
      rfl
    · rw [toNatBelow?_plus hne hall, if_pos hlt]
      rfl

theorem isSome_toInt64? : (toInt64? key).isSome ↔ IsNumber key := by
  unfold toInt64? IsNumber
  split
  next digits =>
    have hunsigned : ¬IsUnsigned int64Bound ('-' :: digits) := by
      rintro ⟨ds, hs | hs, -, hall, -⟩
      · exact absurd (hall '-' (hs ▸ List.mem_cons_self)) (by decide)
      · cases hs
    split
    next hplus => simp [hunsigned, hplus]
    next hplus =>
      have hread : (toNatBelow? (int64Bound + 1) digits).isSome ↔
          IsUnsigned (int64Bound + 1) digits := isSome_toNatBelow?
      cases h : toNatBelow? (int64Bound + 1) digits with
      | none => simpa [hunsigned, hplus, h] using hread
      | some n => simpa [hunsigned, hplus, h] using hread
  next hne =>
    have hminus : ∀ digits, key ≠ '-' :: digits := hne
    rw [Option.isSome_map, isSome_toNatBelow?]
    simp [hminus]

theorem isSpreadKey_iff : isSpreadKey key ↔ IsHoleKey key := by
  unfold isSpreadKey IsHoleKey
  split
  next digits => simp [toIndex?, isSome_toNatBelow?]
  next hne =>
    have hminus : ∀ digits, key ≠ '-' :: digits := hne
    simp [hminus]

/-- A set in two tables: the value of each key, and the keys in the order in which they came. -/
structure Indexed where
  values : Std.HashMap Text Text
  order : List Text

namespace Indexed

variable {t : Indexed}

def empty : Indexed := ⟨∅, []⟩

def insert (t : Indexed) (key value : Text) : Indexed where
  order := if t.values.contains key then t.order else t.order ++ [key]
  values := t.values.insert key value

def insertAll (t : Indexed) (pairs : List (Text × Text)) : Indexed :=
  pairs.foldl (fun t e => t.insert e.1 e.2) t

/-- The keys in order, each with the value that is found for it. -/
def entries (t : Indexed) : List (Text × Text) :=
  t.order.filterMap fun key => t.values[key]?.map fun value => (key, value)

/-- Do the tables hold what a set holds? -/
structure Holds (t : Indexed) (a : Attributes) : Prop where
  order : t.order = a.keys
  values : ∀ key, t.values[key]? = a.get? key
  size : t.values.size = t.order.length

theorem holds_empty : empty.Holds .empty where
  order := rfl
  values _ := Std.HashMap.getElem?_empty
  size := Std.HashMap.size_empty

theorem Holds.contains (h : t.Holds a) (key : Text) : t.values.contains key = a.contains key := by
  rw [Std.HashMap.contains_eq_isSome_getElem?, h.values, Attributes.contains]

theorem Holds.insert (h : t.Holds a) (key value : Text) :
    (t.insert key value).Holds (a.insert key value) where
  order := by
    rw [keys_insert]
    simp only [Indexed.insert, h.contains, h.order, mem_keys_iff]
  values other := by
    rw [Indexed.insert, Std.HashMap.getElem?_insert, h.values, get?_insert]
    simp only [beq_iff_eq]
  size := by
    simp only [Indexed.insert, Std.HashMap.size_insert, h.size, Std.HashMap.mem_iff_contains]
    split
    · rfl
    · rw [List.length_append]
      rfl

theorem Holds.insertAll (h : t.Holds a) (pairs : List (Text × Text)) :
    (t.insertAll pairs).Holds (a.insertAll pairs) := by
  induction pairs generalizing t a with
  | nil => exact h
  | cons e pairs ih => exact ih (h.insert e.1 e.2)

/-- Do the tables hold what a set holds, and does each have the keys of the other once? -/
structure InStep (t : Indexed) (a : Attributes) : Prop extends Holds t a where
  once : t.order.Nodup
  mem_order : ∀ key, key ∈ t.order ↔ key ∈ t.values
  entries : t.entries = a.entries

theorem Holds.inStep (h : t.Holds a) (hkeys : a.keys.Nodup) : t.InStep a where
  toHolds := h
  once := h.order ▸ hkeys
  mem_order key := by rw [h.order, mem_keys_iff, ← h.contains, Std.HashMap.mem_iff_contains]
  entries := by
    simp only [Indexed.entries, h.order, h.values]
    exact (entries_eq hkeys).symm

end Indexed

/-- Is a set what a history of insertions gives: each key by its first insertion, with its last
value? Then its size, its arguments and the parts of its entries are those of such a map. -/
structure IsOrderedMap (h : List (Text × Text)) (a : Attributes) : Prop where
  keys : a.keys = (h.map Prod.fst).eraseDups
  once : a.keys.Nodup
  mem_keys : ∀ key, key ∈ a.keys ↔ a.contains key
  get? : ∀ key, a.get? key = h.reverse.lookup key
  size : a.size = (h.map Prod.fst).toFinset.card
  entries : a.entries = (h.map Prod.fst).eraseDups.filterMap fun key =>
    (h.reverse.lookup key).map fun value => (key, value)
  args : a.IsRun a.args
  named : a.named.Sublist a.entries ∧ ∀ e, e ∈ a.named ↔ e ∈ a.entries ∧ ¬IsNumber e.1
  spreads : ∃ holes : List (Text × Text), a.spreads = holes.map Prod.snd ∧ holes.Sublist a.entries ∧
    ∀ e, e ∈ holes ↔ e ∈ a.entries ∧ IsHoleKey e.1

theorem isOrderedMap (h : List (Text × Text)) : IsOrderedMap h (empty.insertAll h) where
  keys := keys_insertAll h
  once := nodup_keys_insertAll h
  mem_keys _ := mem_keys_iff
  get? := get?_insertAll h
  size := by
    rw [size_eq_card (nodup_keys_insertAll h), keys_insertAll]
    refine congrArg Finset.card (Finset.ext fun key => ?_)
    simp only [List.mem_toFinset, List.mem_eraseDups]
  entries := by
    rw [entries_eq (nodup_keys_insertAll h), keys_insertAll]
    simp only [get?_insertAll]
  args := isRun_args _
  named := by
    refine ⟨List.filter_sublist, fun e => ?_⟩
    rw [named, List.mem_filter, ← isSome_toInt64?, Bool.not_eq_true, Option.isSome_eq_false_iff]
  spreads := by
    refine ⟨_, rfl, List.filter_sublist, fun e => ?_⟩
    rw [List.mem_filter, isSpreadKey_iff]

/-- The arguments of a set of positions, each with its position. -/
def numbered (values : List Text) : List (Text × Text) :=
  (List.range values.length).map position |>.zip values

/-- After any insertions into a set of positions the set is an ordered map of what was inserted, and
the tables of its values and of its order are in step. -/
theorem insertions_ordered (values : List Text) (pairs : List (Text × Text)) :
    IsOrderedMap (numbered values ++ pairs) ((positional values).insertAll pairs) ∧
      (Indexed.empty.insertAll (numbered values ++ pairs)).InStep
        ((positional values).insertAll pairs) := by
  have hall : (positional values).insertAll pairs = empty.insertAll (numbered values ++ pairs) :=
    List.foldl_append.symm
  have hmap := isOrderedMap (numbered values ++ pairs)
  rw [hall]
  exact ⟨hmap, (Indexed.holds_empty.insertAll _).inStep hmap.once⟩

end Stencil.Attributes
