import Stencil.Proofs.Mark
import Stencil.Proofs.Marked
import Stencil.Proofs.Wordwise
import Stencil.Tag.Attributes

namespace Stencil

open Text

/-- The blanks that are not characters of ASCII. -/
def lateBlanks : List Nat :=
  [0x85, 0xA0, 0x1680, 0x2000, 0x2001, 0x2002, 0x2003, 0x2004, 0x2005, 0x2006, 0x2007, 0x2008,
    0x2009, 0x200A, 0x2028, 0x2029, 0x202F, 0x205F, 0x3000]

theorem all_lateBlanks : lateBlanks.all fun n => !Category.decimalNumber.has n := by
  unfold Category.decimalNumber CharRange.ofHex
  rw [String.toList_ofList]
  decide +kernel

theorem isDecimalDigit_of_isWhiteSpace {c : Char} (h : isWhiteSpace c) :
    isDecimalDigit c = false := by
  have hcases : c.toNat < 48 ∨ c.toNat ∈ lateBlanks := by
    simp only [isWhiteSpace, Bool.or_eq_true, Bool.and_eq_true, decide_eq_true_eq, beq_iff_eq] at h
    simp only [lateBlanks, List.mem_cons, List.not_mem_nil, or_false]
    omega
  have hdigit : c.isDigit = decide (48 ≤ c.toNat ∧ c.toNat ≤ 57) := by
    simp [Char.isDigit, UInt32.le_iff_toNat_le]
  rcases hcases with hlow | hlate
  · have hearly : ¬128 ≤ c.toNat := by omega
    simp [isDecimalDigit, hdigit, hearly]
    omega
  · have hhas : Category.decimalNumber.has c.toNat = false := by
      simpa using List.all_eq_true.mp all_lateBlanks c.toNat hlate
    have hhigh : 57 < c.toNat := by
      simp only [lateBlanks, List.mem_cons, List.not_mem_nil, or_false] at hlate
      omega
    simp [isDecimalDigit, hdigit, hhas]
    omega

namespace Reference

variable {k : Text} {meaning : Text → Option Text}

/-- Can this character not stand in a reference? -/
def isOutside (c : Char) : Bool := isBreak c && !isDecimalDigit c

theorem isOutside_of_isWhiteSpace {c : Char} (h : isWhiteSpace c) : isOutside c := by
  simp [isOutside, isBreak_of_isWhiteSpace h, isDecimalDigit_of_isWhiteSpace h]

/-- A reference before a character that can stand in none is read by itself. -/
theorem digits?_append_outside (hk : IsWord isOutside k) {a b : Text} {c : Char}
    (hc : isOutside c) : digits? (Marker.opening ++ k) (a ++ c :: b) =
      (digits? (Marker.opening ++ k) a).map fun r => (r.1, r.2 ++ c :: b) := by
  cases h : digits? (Marker.opening ++ k) a with
  | some r => exact digits?_append h
  | none =>
    refine Option.eq_none_iff_forall_ne_some.mpr fun ⟨ds, rest⟩ hs => ?_
    obtain ⟨he, hne, hd⟩ := digits?_eq_some_iff.mp hs
    have hword : c ∉ '%' :: '!' :: (k ++ ds ++ ['!', '%']) := by
      have hds : c ∉ ds := fun hm => by simp [isOutside, hd c hm] at hc
      obtain ⟨h1, h2, -⟩ := isBreak_iff.mp (Bool.and_eq_true_iff.mp hc).1
      simp [hk.not_mem hc, hds, h1, h2]
    have he : a ++ c :: b = ('%' :: '!' :: (k ++ ds ++ ['!', '%'])) ++ rest := by simpa using he
    have hread : ∀ u, digits? (Marker.opening ++ k)
        (('%' :: '!' :: (k ++ ds ++ ['!', '%'])) ++ u) = some (ds, u) := fun u =>
      digits?_eq_some_iff.mpr ⟨by simp, hne, hd⟩
    rcases List.append_eq_append_iff.mp he with ⟨u, hu, hcb⟩ | ⟨u, rfl, -⟩
    · cases u with
      | nil =>
        have hself := hread []
        rw [List.append_nil] at hu hself
        rw [← hu, hself] at h
        cases h
      | cons d u =>
        rw [(List.cons.inj hcb).1, hu] at hword
        exact hword (by simp)
    · rw [hread u] at h
      cases h

theorem isWord_opening : IsWord isOutside Marker.opening := by
  simp [IsWord, Marker.opening, isOutside, isBreak]

theorem isWord_closing : IsWord isOutside Marker.closing := by
  simp [IsWord, Marker.closing, isOutside, isBreak]

theorem isWord_digits {ds : Text} (hd : ∀ c ∈ ds, isDecimalDigit c) : IsWord isOutside ds :=
  fun c hc => by simp [isOutside, hd c hc]

theorem isWord_write (hk : IsWord isOutside k) {ds : Text} (hd : ∀ c ∈ ds, isDecimalDigit c) :
    IsWord isOutside (Marker.opening ++ k ++ ds ++ Marker.closing) :=
  ((isWord_opening.append hk).append (isWord_digits hd)).append isWord_closing

section Substitute

variable (hk : IsWord isOutside k) (hm : ∀ ds t, (∀ c ∈ ds, isDecimalDigit c) →
  meaning ds = some t → t ≠ [] ∧ IsWord isOutside t)

include hk hm

/-- What stands in the place of a reference is a word. -/
theorem isWord_meaning {s ds rest : Text} (h : digits? (Marker.opening ++ k) s = some (ds, rest)) :
    (meaning ds).getD (Marker.opening ++ k ++ ds ++ Marker.closing) ≠ [] ∧
      IsWord isOutside ((meaning ds).getD (Marker.opening ++ k ++ ds ++ Marker.closing)) := by
  obtain ⟨-, -, hd⟩ := digits?_eq_some_iff.mp h
  cases hds : meaning ds with
  | some t => exact hm ds t hd hds
  | none => exact ⟨by simp [Marker.opening], isWord_write hk hd⟩

theorem isWord_substitute {w : Text} (hw : IsWord isOutside w) :
    IsWord isOutside (substitute (Marker.opening ++ k) meaning w) := by
  induction hn : w.length using Nat.strongRecOn generalizing w with
  | ind n ih =>
    cases w with
    | nil =>
      rw [substitute]
      exact hw
    | cons c w =>
      cases hd : digits? (Marker.opening ++ k) (c :: w) with
      | none =>
        have ih := ih w.length (by simp [← hn]) hw.tail rfl
        rw [substitute_cons_of_none hd]
        intro d hm
        rcases List.mem_cons.mp hm with rfl | hm
        · exact hw d List.mem_cons_self
        · exact ih d hm
      | some r =>
        have he := eq_of_digits? hd
        have hlength : r.2.length < n := hn ▸ length_of_digits? hd
        have hrest : IsWord isOutside r.2 := fun d hm => hw d (by rw [he]; simp [hm])
        rw [substitute_of_some hd]
        exact (isWord_meaning hk hm hd).2.append (ih r.2.length hlength hrest rfl)

/-- Writing something else in the place of references works word by word. -/
theorem wordwise_substitute : Wordwise isOutside (substitute (Marker.opening ++ k) meaning) where
  nil := by rw [substitute]
  append := by
    intro c hc a b
    induction hn : a.length using Nat.strongRecOn generalizing a with
    | ind n ih =>
      cases a with
      | nil =>
        have hne : c ≠ '%' := (isBreak_iff.mp (Bool.and_eq_true_iff.mp hc).1).1
        rw [List.nil_append, substitute_cons_of_none (digits?_of_ne hne), substitute]
        rfl
      | cons d a =>
        have happend := digits?_append_outside hk (a := d :: a) (b := b) hc
        cases hd : digits? (Marker.opening ++ k) (d :: a) with
        | none =>
          have ih := ih a.length (by simp [← hn]) a rfl
          rw [hd, Option.map_none] at happend
          rw [List.cons_append] at happend ⊢
          rw [substitute_cons_of_none happend, substitute_cons_of_none hd, ih, List.cons_append]
        | some r =>
          have ih := ih r.2.length (hn ▸ length_of_digits? hd) r.2 rfl
          rw [hd, Option.map_some] at happend
          rw [substitute_of_some happend, substitute_of_some hd, ih]
          exact (List.append_assoc ..).symm
  word := by
    intro w hn hw
    refine ⟨?_, isWord_substitute hk hm hw⟩
    obtain ⟨c, w, rfl⟩ := List.exists_cons_of_ne_nil hn
    cases hd : digits? (Marker.opening ++ k) (c :: w) with
    | none =>
      rw [substitute_cons_of_none hd]
      exact List.cons_ne_nil _ _
    | some r =>
      rw [substitute_of_some hd]
      exact List.append_ne_nil_of_left_ne_nil (isWord_meaning hk hm hd).1 _

end Substitute

end Reference

namespace Expression

variable {stop : Char → Bool} {f : Text → Text}

/-- The binding of an expression after a map that works word by word and keeps keys apart from other
texts. -/
theorem binding_map (h : Wordwise stop f) (hblank : ∀ c, isWhiteSpace c → stop c)
    (hequals : stop '=') (hkey : ∀ s, s.all isBindingChar → f s = s)
    (hother : ∀ s, (f s).all isBindingChar = s.all isBindingChar) (s : Text) :
    binding (f s) = ((binding s).1, f (binding s).2) := by
  unfold binding
  rw [h.cut?_map (by simpa using hequals) (by simp)]
  cases cut? ['='] s with
  | none => simp [h.trim_map hblank]
  | some r =>
    obtain ⟨before, after⟩ := r
    have hafter : ((f after).head? ≠ some '=') = (after.head? ≠ some '=') :=
      propext (not_congr (h.head?_map hequals after))
    simp only [Option.map_some, h.trim_map hblank, h.isEmpty_map, hother, hafter]
    split
    next hc =>
      simp only [Bool.and_eq_true] at hc
      rw [hkey _ hc.1.2]
    next => rfl

end Expression

namespace Hole

variable {stop : Char → Bool} {f : Text → Text}

/-- A hole after a map that works word by word. -/
theorem ofText?_map (h : Wordwise stop f) (hblank : ∀ c, isWhiteSpace c → stop c)
    (hbraces : stop '{' ∧ stop '}') (s : Text) :
    ofText? (f s) = (ofText? s).map fun hole => ⟨hole.raw, f hole.inner⟩ := by
  have hopening : ∀ raw, ∀ c ∈ opening raw, stop c := by
    intro raw c hc
    cases raw <;> simp [opening] at hc <;> exact hc ▸ hbraces.1
  have hclosing : ∀ raw, ∀ c ∈ closing raw, stop c := by
    intro raw c hc
    cases raw <;> simp [closing] at hc <;> exact hc ▸ hbraces.2
  have henclosed : ∀ raw, ((strip? (opening raw) (trim (f s))).bind fun inner =>
        (dropEnding? (closing raw) inner).map fun inner => (⟨raw, inner⟩ : Hole)) =
      (((strip? (opening raw) (trim s)).bind fun inner =>
        (dropEnding? (closing raw) inner).map fun inner => (⟨raw, inner⟩ : Hole))).map
          fun hole => ⟨hole.raw, f hole.inner⟩ := by
    intro raw
    rw [h.trim_map hblank, h.strip?_map (hopening raw)]
    cases strip? (opening raw) (trim s) with
    | none => rfl
    | some inner =>
      simp only [Option.map_some, Option.bind_some, h.dropEnding?_map (hclosing raw)]
      cases dropEnding? (closing raw) inner with
      | none => rfl
      | some t => rfl
  simp only [ofText?, henclosed, Option.map_or]

end Hole

namespace LiteralTable

variable (table : LiteralTable)

theorem wordwise_keep : Wordwise Reference.isOutside table.keep := by
  have hlabel : IsWord Reference.isOutside ['s'] := by
    simp [IsWord, Reference.isOutside, isBreak]
  refine Reference.wordwise_substitute (k := ['s']) hlabel fun ds t hd hds => ?_
  obtain ⟨q, -, rfl⟩ := Option.map_eq_some_iff.mp hds
  refine ⟨by simp [Reference.kept], ?_⟩
  have hword := Reference.isWord_write (k := []) (fun c hc => absurd hc (by simp)) hd
  simpa [Reference.kept, Marker.opening] using hword

/-- Text without a percent sign is left as it is. -/
theorem keep_of_not_mem {s : Text} (h : '%' ∉ s) : table.keep s = s := by
  have happend : table.keep (s ++ []) = s ++ table.keep [] :=
    Reference.substitute_append_of_not_mem (k := ['s']) h []
  rwa [List.append_nil, LiteralTable.keep, Reference.substitute, List.append_nil] at happend

theorem mem_keep {s : Text} (h : '%' ∈ s) : '%' ∈ table.keep s := by
  induction s with
  | nil => cases h
  | cons c s ih =>
    unfold keep at ih ⊢
    cases hd : Reference.digits? Reference.literal (c :: s) with
    | none =>
      rw [Reference.substitute_cons_of_none hd]
      rcases List.mem_cons.mp h with rfl | h
      · exact List.mem_cons_self
      · exact List.mem_cons_of_mem c (ih h)
    | some r =>
      -- A reference in the place of another one starts with a percent sign too.
      rw [Reference.substitute_of_some hd]
      cases table.find? r.1 with
      | none => simp [Reference.literal]
      | some q => simp [Reference.kept]

theorem isBindingChar_percent : Expression.isBindingChar '%' = false := by decide

theorem all_keep (s : Text) :
    (table.keep s).all Expression.isBindingChar = s.all Expression.isBindingChar := by
  by_cases h : '%' ∈ s
  · have hnone : ∀ {t : Text}, '%' ∈ t → t.all Expression.isBindingChar = false := by
      intro t ht
      exact List.all_eq_false.mpr ⟨'%', ht, by simp [isBindingChar_percent]⟩
    rw [hnone h, hnone (table.mem_keep h)]
  · rw [table.keep_of_not_mem h]

theorem binding_keep (s : Text) : Expression.binding (table.keep s) =
    ((Expression.binding s).1, table.keep (Expression.binding s).2) := by
  refine Expression.binding_map table.wordwise_keep
    (fun _ => Reference.isOutside_of_isWhiteSpace) (by decide) (fun s hs => ?_) table.all_keep s
  refine table.keep_of_not_mem fun hm => ?_
  have hpercent := List.all_eq_true.mp hs '%' hm
  rw [isBindingChar_percent] at hpercent
  cases hpercent

theorem parts_keep (s : Text) :
    Expression.parts '|' (table.keep s) = (Expression.parts '|' s).map table.keep :=
  Expression.parts_map table.wordwise_keep (by decide)
    (List.all_eq_true.mp (by decide : Expression.nestingChars.all Reference.isOutside)) s

theorem trim_keep (s : Text) : trim (table.keep s) = table.keep (trim s) :=
  table.wordwise_keep.trim_map (fun _ => Reference.isOutside_of_isWhiteSpace) s

theorem ofText?_keep (s : Text) : Hole.ofText? (table.keep s) =
    (Hole.ofText? s).map fun hole => ⟨hole.raw, table.keep hole.inner⟩ :=
  Hole.ofText?_map table.wordwise_keep (fun _ => Reference.isOutside_of_isWhiteSpace)
    ⟨by decide, by decide⟩ s

end LiteralTable

end Stencil
