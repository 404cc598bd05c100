import Stencil.Engine
import Stencil.Proofs.Argument
import Stencil.Proofs.Condition
import Stencil.Proofs.Encoding
import Stencil.Proofs.Keeping

namespace Stencil

open Text

namespace Reference

variable {lead : Text} {n : Nat}

/-- Does this open references? It begins with an opening sign, and what follows can stand in
them. -/
def IsLead (lead : Text) : Prop := ∃ k, lead = Marker.opening ++ k ∧ IsWord isOutside k

theorem isLead_literal : IsLead literal := ⟨['s'], rfl, by simp [IsWord, isOutside, isBreak]⟩

theorem isLead_kept : IsLead kept := ⟨[], rfl, by simp [IsWord]⟩

theorem index?_write (lead : Text) (hn : n < indexBound) : index? lead (write lead n) = some n := by
  simp only [index?, write, List.append_assoc, Option.bind_eq_bind]
  rw [strip?_append, Option.bind_some, dropEnding?_append, Option.bind_some, toIndex?_ofNat hn]

theorem trim_write (h : IsLead lead) (n : Nat) : trim (write lead n) = write lead n := by
  obtain ⟨k, rfl, -⟩ := h
  have hlast : (write (Marker.opening ++ k) n).getLast? = some '%' := by
    simp [write, Marker.closing]
  refine trim_eq_self (fun c hc => ?_) fun c hc => ?_
  · cases Option.some.inj hc
    decide
  · rw [hlast] at hc
    cases Option.some.inj hc
    decide

/-- What cannot stand in a reference does not. -/
theorem not_mem_write (h : IsLead lead) (n : Nat) {c : Char} (hc : isOutside c) :
    c ∉ write lead n := by
  obtain ⟨k, rfl, hk⟩ := h
  refine IsWord.not_mem (isWord_write hk fun c hc => ?_) hc
  simp [isDecimalDigit, isDigit_of_mem_ofNat hc]

theorem parts_write (h : IsLead lead) (n : Nat) :
    Expression.parts '|' (write lead n) = [write lead n] := by
  rw [Expression.parts, Expression.partsFrom_of_not_mem (not_mem_write h n (by decide))]

theorem binding_write (h : IsLead lead) (n : Nat) :
    Expression.binding (write lead n) = (none, write lead n) := by
  rw [Expression.binding, cut?_of_not_mem (not_mem_write h n (by decide)), trim_write h]

end Reference

namespace LiteralTable

variable {table : LiteralTable} {n : Nat} {q : Quoted}

/-- The reference to a literal of the table is marked as kept. -/
theorem keep_write (hn : n < indexBound) (hq : table[n]? = some q) :
    table.keep (Reference.write Reference.literal n) = Reference.write Reference.kept n := by
  have hread := Reference.digits?_write ['s'] n []
  rw [List.append_nil] at hread
  have hkeep : table.keep (Reference.write Reference.literal n) =
      ((table.find? (ofNat n)).map fun _ => Reference.kept ++ ofNat n ++ Marker.closing).getD
        (Reference.literal ++ ofNat n ++ Marker.closing) ++ table.keep [] :=
    Reference.substitute_of_some hread
  rw [hkeep, find?_ofNat hn hq, LiteralTable.keep, Reference.substitute, List.append_nil]
  rfl

/-- A reference that is kept is read as the value of its literal. -/
theorem literal?_kept (hn : n < indexBound) (hq : table[n]? = some q) :
    Expression.literal? table (Reference.write Reference.kept n) = some (.str q.value) := by
  rw [Expression.literal?, Reference.trim_write Reference.isLead_kept,
    Reference.index?_write Reference.kept hn]
  dsimp only
  rw [hq]
  rfl

end LiteralTable

namespace Expression

variable {table : LiteralTable} {n : Nat} {q : Quoted}

/-- An alternative that is a reference is, when it is kept, read as the value of its literal. -/
theorem readPart_keep (hn : n < indexBound) (hq : table[n]? = some q) {part : Text}
    (hp : trim part = Reference.write Reference.literal n) :
    readPart table (table.keep part) = .literal (.str q.value) := by
  rw [readPart, table.trim_keep, hp, LiteralTable.keep_write hn hq,
    LiteralTable.literal?_kept hn hq]

/-- A kept expression has the values of literals where the expression has references to them. -/
theorem read_keep (hn : n < indexBound) (hq : table[n]? = some q) {s part : Text} {i : Nat}
    (hi : (parts '|' (binding s).2)[i]? = some part)
    (hp : trim part = Reference.write Reference.literal n) :
    (read table (binding (table.keep s)).2)[i]? = some (.literal (.str q.value)) := by
  rw [table.binding_keep, read_eq, table.parts_keep, List.map_map, List.getElem?_map, hi,
    Option.map_some]
  exact congrArg some (readPart_keep hn hq hp)

end Expression

/-- The value of a reference that is kept. -/
theorem Resolver.value_kept {r : Resolver} {n : Nat} {q : Quoted} (hn : n < indexBound)
    (hq : r.literals[n]? = some q) :
    r.value (Reference.write Reference.kept n) = .found (.str q.value) :=
  value_of_read (Expression.read_of_literal (Reference.parts_write Reference.isLead_kept n)
    (Reference.trim_write Reference.isLead_kept n) (LiteralTable.literal?_kept hn hq))

namespace Hole

/-- What ends with something else than a brace is no hole. -/
theorem ofText?_of_last {c : Char} (hblank : isWhiteSpace c = false) (hc : c ≠ '}') (s : Text) :
    ofText? (s ++ [c]) = none := by
  obtain ⟨u, hu⟩ : ∃ u, trim (s ++ [c]) = u ++ [c] := by
    have hstart : ∃ u, trimStart (s ++ [c]) = u ++ [c] := by
      rw [trimStart, List.dropWhile_append]
      split
      · exact ⟨[], by simp [hblank]⟩
      · exact ⟨_, rfl⟩
    obtain ⟨u, hu⟩ := hstart
    refine ⟨u, ?_⟩
    rw [trim, hu, trimEnd, dropEndWhile, List.reverse_append, List.reverse_singleton,
      List.singleton_append, List.dropWhile_cons_of_neg (by simp [hblank]), List.reverse_cons,
      List.reverse_reverse]
  have hnone : ∀ raw, ((strip? (opening raw) (trim (s ++ [c]))).bind fun inner =>
      (dropEnding? (closing raw) inner).map fun inner => (⟨raw, inner⟩ : Hole)) = none := by
    intro raw
    refine Option.eq_none_iff_forall_ne_some.mpr fun hole hh => ?_
    obtain ⟨inner, hi, hh⟩ := Option.bind_eq_some_iff.mp hh
    obtain ⟨t, ht, -⟩ := Option.map_eq_some_iff.mp hh
    have hwhole := strip?_eq_some_iff.mp hi
    rw [hu, eq_of_dropEnding? ht] at hwhole
    have hlast := congrArg List.getLast? hwhole
    cases raw <;> simp [closing] at hlast <;> exact hc hlast
  simp only [ofText?, hnone]
  rfl

end Hole

namespace Attributes

theorem positional_concat (values : List Text) (v : Text) :
    positional (values ++ [v]) = (positional values).insert (position values.length) v := by
  have hlength : ((List.range values.length).map position).length = values.length := by simp
  rw [positional, positional, List.length_append, List.length_singleton, List.range_succ,
    List.map_append, List.zip_append hlength, insertAll, List.foldl_append]
  rfl

theorem get?_positional (values : List Text) (n : Nat) :
    (positional values).get? (position n) = values[n]? := by
  induction values using List.reverseRecOn with
  | nil => rfl
  | append_singleton values v ih =>
    rw [positional_concat, get?_insert]
    by_cases hn : n = values.length
    · subst hn
      simp
    · have hne : position values.length ≠ position n := fun h => hn (position_inj h).symm
      rw [if_neg hne, ih]
      rcases Nat.lt_or_gt_of_ne hn with h | h
      · rw [List.getElem?_append_left h]
      · rw [List.getElem?_eq_none (by omega), List.getElem?_eq_none (by simp; omega)]

/-- The arguments of a set of values without names are the values. -/
theorem args_positional (values : List Text) : (positional values).args = values := by
  refine args_eq (get?_positional values) ?_
  induction values using List.reverseRecOn with
  | nil => simp
  | append_singleton values v ih =>
    have hnone : (positional values).get? (position values.length) = none := by
      rw [get?_positional, List.getElem?_eq_none (Nat.le_refl _)]
    rw [positional_concat, size_insert_of_get? hnone, List.length_append, List.length_singleton]
    exact Nat.succ_le_succ ih

end Attributes

/-- Is what is stored of an attribute worth a text, to components and assignments, and to
functions? -/
structure Tag.Worth (table : LiteralTable) (raw v : Text) : Prop where
  value : ∀ r : Resolver, r.literals = table → Rendering.attributeValue r raw = .str v
  call : ∀ (c : Call) (key : Text), c.resolver.literals = table →
    c.attrs.get? key = some raw → c.value key = .found (.str v) ∧ c.word key = .word v

/-- What is read as an operand at a place in the tokens of a condition. -/
def Tag.operandAt (attrs : Attributes) (i : Nat) : Condition :=
  (Condition.operand (attrs.args.drop i)).val.1

/-- The text that a literal of a table denotes wherever a template uses it as a value. The reference
to it is what the source has in its place. -/
structure LiteralTable.Denotes (table : LiteralTable) (n : Nat) (v : Text) : Prop where
  /-- As an operand of a condition, also when it is left over in the early pass and read again. -/
  operand : ∀ {name tail : Text} {tokens : List Text} {i : Nat},
    Tag.isConditional name → Tag.conditionTokens? tail = some tokens →
    tokens[i]? = some (Reference.write Reference.literal n) →
    ∃ attrs, Tag.attributes? table name tail = some attrs ∧ ∀ r : Resolver, r.literals = table →
      Condition.evalOperand r (Tag.operandAt attrs i) = .known (.str v) ∧
      ∃ t, ((Condition.evalOperand r (Tag.operandAt attrs i)).fold
          (Tag.operandAt attrs i)).tokens = [t] ∧
        ∀ late, Condition.evalOperand late (Condition.operand [t]).val.1 = .known (.str v)
  /-- As an alternative in a hole of the page. -/
  alternative : ∀ {hole : Hole} {i : Nat} {part : Text},
    (Expression.parts '|' (Expression.binding hole.expr).2)[i]? = some part →
    trim part = Reference.write Reference.literal n →
    (Expression.read table (Expression.binding
      (⟨hole.raw, table.keep hole.expr⟩ : Hole).expr).2)[i]? =
        some (Alternative.literal (.str v))
  /-- As an alternative in a hole that is the value of an attribute. -/
  value : ∀ {value : Text} {hole : Hole} {i : Nat} {part : Text},
    Hole.ofText? value = some hole →
    (Expression.parts '|' (Expression.binding hole.expr).2)[i]? = some part →
    trim part = Reference.write Reference.literal n →
    ∃ stored, Hole.ofText? (Tag.storedValue table value) = some stored ∧
      (Expression.read table (Expression.binding stored.expr).2)[i]? =
        some (Alternative.literal (.str v))
  /-- As the value of an attribute, if it is no hole itself. -/
  named : ∀ (r : Tag.Reading) {key : Text}, '=' ∉ key →
    (∀ q, table[n]? = some q → Hole.ofText? q.body = none) →
    ∃ raw, (r.add table (key ++ '=' :: Reference.write Reference.literal n)).attrs.get?
        (if key.isEmpty then Tag.derivedKey raw else table.unquote key) = some raw ∧
      Tag.Worth table raw v
  /-- As an argument without a name, if it is no hole itself. -/
  positional : ∀ (r : Tag.Reading), (∀ q, table[n]? = some q → Hole.ofText? q.body = none) →
    ∃ raw, (r.add table (Reference.write Reference.literal n)).attrs.get?
        (Attributes.position r.positions) = some raw ∧ Tag.Worth table raw v

namespace Tag

variable {table : LiteralTable} {n : Nat} {q : Quoted}

theorem isOperator_write (n : Nat) :
    Condition.isOperator (Reference.write Reference.kept n) = false :=
  Condition.isOperator_of_mem List.mem_cons_self (by decide)

theorem ofText?_write (n : Nat) : Hole.ofText? (Reference.write Reference.kept n) = none :=
  Hole.ofText?_of_ne _ (by decide) (by decide)

/-- The stored form of a literal that is no hole is a reference that is kept. -/
theorem storedValue_write (hn : n < indexBound) (hq : table[n]? = some q)
    (hh : Hole.ofText? q.body = none) :
    storedValue table (Reference.write Reference.literal n) = Reference.write Reference.kept n := by
  rw [storedValue, Reference.index?_write Reference.literal hn, Option.bind_some, hq]
  dsimp only
  rw [hh, if_neg (by simp), LiteralTable.keep_write hn hq]

theorem worth_write (hn : n < indexBound) (hq : table[n]? = some q) :
    Worth table (Reference.write Reference.kept n) q.value where
  value := by
    rintro r rfl
    rw [Rendering.attributeValue, ofText?_write]
    dsimp only
    rw [LiteralTable.literal?_kept hn hq]
  call := by
    rintro c key rfl hkey
    constructor
    · rw [Call.value, hkey]
      dsimp only
      rw [Call.resolve, ofText?_write]
      exact Resolver.value_kept hn hq
    · have hquoted : Call.isQuoted (Reference.write Reference.kept n) = true := by
        rw [Call.isQuoted, Reference.index?_write Reference.kept hn]
        rfl
      rw [Call.word, hkey]
      dsimp only
      rw [ofText?_write, LiteralTable.literal?_kept hn hq]
      dsimp only
      rw [if_neg (by simp), if_pos hquoted]
      rfl

end Tag

namespace LiteralTable

variable {table : LiteralTable} {n : Nat} {q : Quoted}

theorem evalOperand_kept {r : Resolver} (hn : n < indexBound) (hq : r.literals[n]? = some q) :
    Condition.evalOperand r (.atom (Reference.write Reference.kept n)) = .known (.str q.value) := by
  rw [Condition.evalOperand, Resolver.value_kept hn hq]

theorem operandAt_write {tokens : List Text} {i : Nat} (hn : n < indexBound)
    (hq : table[n]? = some q) (hi : tokens[i]? = some (Reference.write Reference.literal n)) :
    Tag.operandAt (.positional (tokens.map table.keep)) i =
      .atom (Reference.write Reference.kept n) := by
  have hdrop : (tokens.map table.keep).drop i =
      Reference.write Reference.kept n :: (tokens.map table.keep).drop (i + 1) := by
    rw [List.drop_eq_getElem?_toList_append, List.getElem?_map, hi, Option.map_some,
      keep_write hn hq]
    rfl
  rw [Tag.operandAt, Attributes.args_positional, hdrop,
    Condition.operand_of_not_isOperator (Tag.isOperator_write n)]

/-- A literal of the table denotes its value. -/
theorem denotes (hn : n < indexBound) (hq : table[n]? = some q) : table.Denotes n q.value where
  operand := by
    intro name tail tokens i hname htokens hi
    refine ⟨.positional (tokens.map table.keep), ?_, ?_⟩
    · rw [Tag.attributes?, if_pos hname, htokens]
      rfl
    · rintro r rfl
      rw [operandAt_write hn hq hi, evalOperand_kept hn hq]
      refine ⟨rfl, (Value.str q.value).token, rfl, fun late => ?_⟩
      rw [Condition.operand_of_not_isOperator (Condition.isOperator_token _), Condition.evalOperand,
        Resolver.value_token (.str q.value) rfl fun x hx => by cases hx]
  alternative := by
    intro hole i part hi hp
    have hexpr : (⟨hole.raw, table.keep hole.expr⟩ : Hole).expr = table.keep hole.expr := by
      rw [Hole.expr, trim_keep, Hole.expr, trim_trim]
    rw [hexpr]
    exact Expression.read_keep hn hq hi hp
  value := by
    intro value hole i part hvalue hi hp
    have hindex : Reference.index? Reference.literal value = none := by
      refine Option.eq_none_iff_forall_ne_some.mpr fun m hm => ?_
      obtain ⟨inner, hinner, -⟩ := Option.bind_eq_some_iff.mp hm
      rw [strip?_eq_some_iff.mp hinner] at hvalue
      have hnone := Hole.ofText?_of_ne ('!' :: 's' :: inner) (c := '%') (by decide) (by decide)
      cases hnone.symm.trans hvalue
    refine ⟨⟨hole.raw, table.keep hole.inner⟩, ?_, ?_⟩
    · rw [Tag.storedValue, hindex, Option.bind_none]
      dsimp only
      rw [ofText?_keep, hvalue]
      rfl
    · rw [Hole.expr, trim_keep]
      exact Expression.read_keep hn hq hi hp
  named := by
    intro r key hkey hh
    refine ⟨Reference.write Reference.kept n, ?_, Tag.worth_write hn hq⟩
    have hhole := Hole.ofText?_of_last (c := '%') (by decide) (by decide)
      (key ++ '=' :: (Reference.literal ++ ofNat n ++ ['!']))
    have htoken : key ++ '=' :: (Reference.literal ++ ofNat n ++ ['!']) ++ ['%'] =
        key ++ '=' :: Reference.write Reference.literal n := by
      simp [Reference.write, Marker.closing]
    rw [htoken] at hhole
    rw [Tag.Reading.add, hhole, cut?_append_cons hkey, if_neg (by simp)]
    dsimp only
    rw [Tag.storedValue_write hn hq (hh q hq), Attributes.get?_insert, if_pos rfl]
  positional := by
    intro r hh
    refine ⟨Reference.write Reference.kept n, ?_, Tag.worth_write hn hq⟩
    have hhole := Hole.ofText?_of_ne ('!' :: 's' :: (ofNat n ++ Marker.closing)) (c := '%')
      (by decide) (by decide)
    change Hole.ofText? (Reference.write Reference.literal n) = none at hhole
    have hcut : cut? ['='] (Reference.write Reference.literal n) = none :=
      cut?_of_not_mem (Reference.not_mem_write Reference.isLead_literal n (by decide))
    rw [Tag.Reading.add, hhole, hcut, if_neg (by simp)]
    dsimp only
    rw [Tag.storedValue_write hn hq (hh q hq), Attributes.get?_insert, if_pos rfl]

/-- A literal denotes one text: that of a hole with nothing but a reference to it. -/
theorem Denotes.unique {v w : Text} (hv : table.Denotes n v) (hw : table.Denotes n w) : v = w := by
  have htrim := Reference.trim_write Reference.isLead_literal n
  have hpart : (Expression.parts '|' (Expression.binding
      (⟨false, Reference.write Reference.literal n⟩ : Hole).expr).2)[0]? =
        some (Reference.write Reference.literal n) := by
    rw [Hole.expr, htrim, Reference.binding_write Reference.isLead_literal,
      Reference.parts_write Reference.isLead_literal]
    rfl
  have hread := (hv.alternative hpart htrim).symm.trans (hw.alternative hpart htrim)
  simpa using hread

end LiteralTable

namespace Engine

theorem literals_build {σ : Type} {host : Host} {options : Options} {key source : Text}
    {world : World σ} {template : Template}
    (h : (build host options key source world).1 = .ok template) :
    template.literals = (LiteralTable.extract (Marker.encode source)).2 := by
  rw [build] at h
  dsimp only at h
  cases hn : Normalized.ofText? (LiteralTable.extract (Marker.encode source)).2
      (Block.sink (LiteralTable.extract (Marker.encode source)).2
        (LiteralTable.extract (Marker.encode source)).1).1 with
  | none =>
    rw [hn] at h
    cases h
  | some normalized =>
    rw [hn] at h
    rw [← Except.ok.inj h]

/-- The literals of a template denote what is written between their quotes, wherever the template
uses them as values, just if no sign stands there. -/
theorem denotes_iff {σ : Type} {host : Host} {options : Options} {key source : Text}
    {world : World σ} {template : Template}
    (hbuild : (build host options key source world).1 = .ok template)
    (hsource : ∀ seg ∈ Segment.segments [] source, ¬seg.BeginsWithSign) {n : Nat} {q : Quoted}
    (hn : n < indexBound) (hq : (LiteralTable.extract source).2[n]? = some q) :
    template.literals.Denotes n q.value ↔
      ¬Marker.opening <:+: q.body ∧ ¬Marker.closing <:+: q.body := by
  have hentry : template.literals[n]? = some q.encode := by
    rw [literals_build hbuild, LiteralTable.extract_encode hsource, List.getElem?_map, hq]
    rfl
  have hdenotes := LiteralTable.denotes hn hentry
  rw [← Quoted.value_encode_iff]
  constructor
  · intro h
    exact hdenotes.unique h
  · intro h
    exact h ▸ hdenotes

/-- A condition with a literal that has a quote in it. -/
def conditional : Text := "<_if x = 'it\\'s'>yes</_if>".toList

theorem denotes_iff_conditional : ∃ template,
    (build ⟨[], .none, none, [], 1⟩ (.ofStore []) "index".toList conditional
      (⟨(), []⟩ : World Unit)).1 = .ok template ∧
    (∀ seg ∈ Segment.segments [] conditional, ¬seg.BeginsWithSign) ∧ 0 < indexBound ∧
    (LiteralTable.extract conditional).2[0]? = some ⟨"it\\'s".toList, '\''⟩ ∧
    template.literals.Denotes 0 "it's".toList := by
  have hnormalized : (Normalized.ofText? (LiteralTable.extract (Marker.encode conditional)).2
      (Block.sink (LiteralTable.extract (Marker.encode conditional)).2
        (LiteralTable.extract (Marker.encode conditional)).1).1).isSome := by decide +kernel
  have hsource : ∀ seg ∈ Segment.segments [] conditional, ¬seg.BeginsWithSign := by
    have hcomments : (Segment.segments [] conditional).all fun seg => !seg.isComment := by
      decide +kernel
    rintro seg hseg ⟨text, rfl⟩
    exact absurd (List.all_eq_true.mp hcomments _ hseg) (by simp [Segment.isComment])
  have hbound : 0 < indexBound := by decide
  have hq : (LiteralTable.extract conditional).2[0]? = some ⟨"it\\'s".toList, '\''⟩ := by
    decide +kernel
  have hsigns : ¬Marker.opening <:+: "it\\'s".toList ∧ ¬Marker.closing <:+: "it\\'s".toList := by
    decide +kernel
  obtain ⟨normalized, hn⟩ := Option.isSome_iff_exists.mp hnormalized
  obtain ⟨template, hbuild⟩ : ∃ template, (build ⟨[], .none, none, [], 1⟩ (.ofStore [])
      "index".toList conditional (⟨(), []⟩ : World Unit)).1 = .ok template := by
    rw [build]
    dsimp only
    rw [hn]
    exact ⟨_, rfl⟩
  exact ⟨template, hbuild, hsource, hbound, hq,
    (denotes_iff hbuild hsource hbound hq).mpr hsigns⟩

/-- A component is called with a hole that stands alone, which binds a literal. -/
def standing : Engine := .ofSources 1 fun _ path =>
  .ok ⟨path, if path = "index.xhtml".toList then "<Card \x7b\x7b title='x' \x7d\x7d/>".toList
    else "[\x7b\x7btitle\x7d\x7d]".toList⟩

/-- The literal is lost there, and in a page the sign of a literal is printed as its marker. -/
theorem page_standing :
    (standing.compile "index".toList [] (⟨.ofCapacity 1, []⟩ : World Cache)).1.toOption =
        some "[]".toList ∧
      page? "\x7b\x7b'50%! off'\x7d\x7d".toList [] = some "50%!o!% off".toList := by
  decide +kernel

end Engine

end Stencil
