import Stencil.Proofs.Tokens

namespace Stencil

namespace Condition

/-- An operand that was read: a token, or null where there is none. -/
inductive ReadOperand (ts : List Text) : Condition → Prop
  | atom {t : Text} (h : t ∈ ts) (ho : isOperator t = false) : ReadOperand ts (.atom t)
  | missing : ReadOperand ts (.literal .null)

/-- The conditions that are read from tokens. -/
abbrev IsRead (ts : List Text) : Condition → Prop := MadeOf (ReadOperand ts)

section Parsing

variable {ts : List Text}

theorem isRead_join {level : Nat} {t : Text} {join : Condition → Condition → Condition}
    (h : join? level t = some join) {a b : Condition} (ha : IsRead ts a) (hb : IsRead ts b) :
    IsRead ts (join a b) := by
  unfold join? at h
  split at h
  · split_ifs at h
    cases h
    exact .and ha hb
  · split_ifs at h
    cases h
    exact .xor ha hb
  · split_ifs at h
    cases h
    exact .or ha hb
  · cases h

theorem readOperand_operand {us : List Text} (h : us ⊆ ts) :
    ReadOperand ts (operand us).val.1 ∧ (operand us).val.2 ⊆ ts := by
  cases us with
  | nil => exact ⟨.missing, h⟩
  | cons t us =>
    cases ho : isOperator t with
    | true =>
      have hval : (operand (t :: us)).val = (.literal .null, t :: us) := by simp [operand, ho]
      rw [hval]
      exact ⟨.missing, h⟩
    | false =>
      rw [operand_of_not_isOperator ho]
      exact ⟨.atom (h List.mem_cons_self) ho, fun u hu => h (List.mem_cons_of_mem _ hu)⟩

theorem isRead_comparison {us : List Text} (h : us ⊆ ts) :
    IsRead ts (comparison us).val.1 ∧ (comparison us).val.2 ⊆ ts := by
  obtain ⟨hleft, hrest⟩ := readOperand_operand h
  unfold comparison
  dsimp only
  split
  next t more hmore =>
    split
    next op _ =>
      rw [hmore] at hrest
      obtain ⟨hright, hrest'⟩ := readOperand_operand fun u hu => hrest (List.mem_cons_of_mem _ hu)
      exact ⟨.compare op hleft hright, hrest'⟩
    next => exact ⟨.term hleft, hrest⟩
  next => exact ⟨.term hleft, hrest⟩

theorem afterBracket_subset {us : List Text} (h : us ⊆ ts) : afterBracket us ⊆ ts := by
  unfold afterBracket
  split
  · split
    · exact fun u hu => h (List.mem_cons_of_mem _ hu)
    · exact h
  · exact h

mutual

theorem isRead_read (level : Nat) {us : List Text} (h : us ⊆ ts) :
    IsRead ts (read level us).val.1 ∧ (read level us).val.2 ⊆ ts := by
  match level, us with
  | 0, [] =>
    rw [read]
    exact isRead_comparison h
  | 0, t :: rest =>
    have htail : rest ⊆ ts := fun u hu => h (List.mem_cons_of_mem _ hu)
    by_cases hnot : t = ['!']
    · subst hnot
      obtain ⟨hc, hr⟩ := isRead_read 0 htail
      rw [read_not]
      exact ⟨.not hc, hr⟩
    · by_cases hopen : t = ['(']
      · subst hopen
        obtain ⟨hc, hr⟩ := isRead_read 3 htail
        rw [read_open]
        exact ⟨hc, afterBracket_subset hr⟩
      · have hzero : (read 0 (t :: rest)).val = (comparison (t :: rest)).val := by
          rw [read]
          simp [hnot, hopen]
        rw [hzero]
        exact isRead_comparison h
  | level + 1, us =>
    obtain ⟨hc, hr⟩ := isRead_read level h
    rw [read_succ]
    exact isRead_readMore level hc hr
termination_by (us.length, 2 * level)
decreasing_by
  · exact Prod.Lex.left _ _ (by simp)
  · exact Prod.Lex.left _ _ (by simp)
  · exact Prod.Lex.right _ (by omega)
  · rcases Nat.lt_or_eq_of_le (read level us).property with h | h
    · exact Prod.Lex.left _ _ h
    · rw [h]
      exact Prod.Lex.right _ (by omega)

theorem isRead_readMore (level : Nat) {left : Condition} (hl : IsRead ts left) {us : List Text}
    (h : us ⊆ ts) :
    IsRead ts (readMore level left us).val.1 ∧ (readMore level left us).val.2 ⊆ ts := by
  match us with
  | [] =>
    rw [readMore]
    exact ⟨hl, h⟩
  | t :: rest =>
    cases hjoin : join? (level + 1) t with
    | none =>
      have hstop : (readMore level left (t :: rest)).val = (left, t :: rest) :=
        readMore_stop (by rintro u ⟨⟩; exact hjoin) left
      rw [hstop]
      exact ⟨hl, h⟩
    | some join =>
      obtain ⟨hc, hr⟩ := isRead_read level fun u hu => h (List.mem_cons_of_mem t hu)
      rw [readMore_join hjoin]
      exact isRead_readMore level (isRead_join hjoin hl hc) hr
termination_by (us.length, 2 * level + 1)
decreasing_by
  · exact Prod.Lex.left _ _ (by simp)
  · exact Prod.Lex.left _ _ (Nat.lt_succ_of_le (read level rest).property)

end

theorem isRead_ofTokens (ts : List Text) : IsRead ts (ofTokens ts) := by
  unfold ofTokens
  split
  · exact .term .missing
  · exact (isRead_read 3 (List.Subset.refl ts)).1

end Parsing

section Passes

variable {early late : Resolver} {ts : List Text}

theorem ReadOperand.isTerm {c : Condition} (h : ReadOperand ts c) : c.isTerm := by
  cases h <;> rfl

/-- Whatever tokens a condition is read from, only expressions and values are compared in it. -/
theorem flat_ofTokens (ts : List Text) : (ofTokens ts).Flat :=
  (isRead_ofTokens ts).mono fun _ => ReadOperand.isTerm

theorem ReadOperand.readable {c : Condition} (h : ReadOperand ts c) : c.Readable := by
  cases h with
  | @atom t _ ho => exact ⟨.term rfl, fun u hu => List.mem_singleton.mp hu ▸ ho⟩
  | missing => exact ⟨.term rfl, List.forall_mem_nil _⟩

/-- The scope of the early pass has only values that there are, and no operand is known there as a
float that is no number or infinite. -/
structure Literal (early : Resolver) (ts : List Text) : Prop where
  scope : ∀ e ∈ early.scope, e.2.Valid
  finite : ∀ t ∈ ts, isOperator t = false → ∀ x, early.value t = .found (.float x) → x.isFinite

/-- An operand of a comparison that is left over has the value that it had before. -/
theorem fold_later (h : late.Completes early) (hl : Literal early ts) {a : Condition}
    (ha : ReadOperand ts a) :
    ((a.evalOperand early).fold a).isTerm ∧ ((a.evalOperand early).fold a).Readable ∧
      ((a.evalOperand early).fold a).reread.evalOperand late = a.evalOperand late := by
  have hliteral : ∀ v : Value, v.Valid → v.isScalar → (∀ x, v = .float x → x.isFinite) →
      (Condition.literal v).reread.evalOperand late = .known v := by
    intro v hv hs hf
    rw [reread, evalOperand, Resolver.value_token hv hs hf]
  cases ha with
  | missing =>
    have hmissing : ReadOperand ts (.literal .null) := .missing
    exact ⟨rfl, hmissing.readable, hliteral .null .null rfl (by rintro x ⟨⟩)⟩
  | @atom t ht ho =>
    have hwritten : (Condition.atom t).Readable := (ReadOperand.atom ht ho).readable
    cases hw : early.value t with
    | unknown =>
      have hearly : (Condition.atom t).evalOperand early = .unknown (.atom t) := by
        rw [evalOperand, hw]
      rw [hearly]
      exact ⟨rfl, hwritten, rfl⟩
    | found v =>
      have hearly : (Condition.atom t).evalOperand early = .known v := by rw [evalOperand, hw]
      have hlate := evalOperand_later h rfl hearly
      rw [hearly, hlate, Operand.fold]
      split
      next hs =>
        refine ⟨rfl, ⟨.term rfl, List.forall_mem_nil _⟩, ?_⟩
        refine hliteral v (Resolver.valid_of_value hl.scope hw) hs ?_
        rintro x rfl
        exact hl.finite t ht ho x hw
      next => exact ⟨rfl, hwritten, hlate⟩

/-- A condition that is read back from its tokens, and has then a certain value. -/
def Leads (late : Resolver) (b : Bool) (c : Condition) : Prop :=
  c.Readable ∧ c.reread.eval late = .known b

theorem composes_leads (late : Resolver) : Composes (Leads late) where
  not ha := ⟨ha.1.not, (composes_eval late).not ha.2⟩
  and ha hb := ⟨ha.1.and hb.1, (composes_eval late).and ha.2 hb.2⟩
  or ha hb := ⟨ha.1.or hb.1, (composes_eval late).or ha.2 hb.2⟩
  xor ha hb := ⟨ha.1.xor hb.1, (composes_eval late).xor ha.2 hb.2⟩

theorem ReadOperand.evalOperand_reread (r : Resolver) {a : Condition} (ha : ReadOperand ts a) :
    a.reread.evalOperand r = a.evalOperand r := by
  cases ha with
  | atom => rfl
  | missing =>
    rw [reread, evalOperand, Resolver.value_token .null rfl (by rintro x ⟨⟩), evalOperand]

theorem keeps_leads (h : late.Completes early) (hl : Literal early ts) :
    Keeps early late (ReadOperand ts) (Leads late) where
  toComposes := composes_leads late
  isTerm ha := ha.isTerm
  term {a v} ha hv := by
    refine ⟨ha.readable, ?_⟩
    have hterm : a.reread.isTerm := by cases ha <;> rfl
    rw [eval_of_isTerm hterm, ha.evalOperand_reread, hv]
  compare op {a b v w} ha hb hv hw := by
    obtain ⟨hta, hra, hva⟩ := fold_later h hl ha
    obtain ⟨htb, hrb, hvb⟩ := fold_later h hl hb
    refine ⟨⟨.compare op hta htb, List.forall_mem_append.mpr ⟨hra.atoms, hrb.atoms⟩⟩, ?_⟩
    rw [reread, eval, hva, hvb, hv, hw]
    rfl

/-- What is left of a condition in the early pass has in the last one, read again from its tokens,
the value that the whole condition has. Everything that is known stands in the tokens as a literal,
so it has to be read back. The one kind of scalar that is not is a float that is no number or
infinite: its token is a name. -/
theorem evalTokens_residual (h : late.Completes early) (hl : Literal early ts) {c : Condition}
    (hc : evalTokens early ts = .residual c) :
    ∃ b, evalTokens late c.tokens = .known b ∧ evalTokens late ts = .known b := by
  obtain ⟨b, hb, hleads⟩ := (keeps_leads h hl).means_eval h (isRead_ofTokens ts)
  have hearly : (ofTokens ts).eval early = .residual c := hc
  rw [hearly] at hleads
  obtain ⟨hresidual, hagain⟩ := hleads
  refine ⟨b, ?_, hb⟩
  rw [evalTokens, ofTokens_tokens hresidual]
  exact hagain

theorem evalTokens_residual_count :
    let early : Resolver := ⟨[("$min".toList, .int 3)], [], true⟩
    let late : Resolver := ⟨[("$min".toList, .int 3), ("count".toList, .int 7)], [], false⟩
    let ts := ["count".toList, ">=".toList, "$min".toList]
    let left := Condition.compare .ge (.atom "count".toList) (.literal (.int 3))
    evalTokens early ts = .residual left ∧
      ∃ b, evalTokens late left.tokens = .known b ∧ evalTokens late ts = .known b := by
  intro early late ts left
  have hread : ofTokens ts = .compare .ge (.atom "count".toList) (.atom "$min".toList) :=
    ofTokens_compare rfl rfl .ge
  have hcount : early.value "count".toList = .unknown :=
    Resolver.value_name rfl (by decide) rfl rfl
  have hmin : early.value "$min".toList = .found (.int 3) :=
    Resolver.value_name rfl (by decide) rfl rfl
  have hleft : evalTokens early ts = .residual left := by
    rw [evalTokens, hread, eval, evalOperand, evalOperand, hcount, hmin]
    rfl
  have hcompletes : late.Completes early := by
    have hearly : ∀ name, Dictionary.get? early.scope name =
        if "$min".toList = name then some (.int 3) else none := fun name =>
      Dictionary.get?_cons _ _ _
    have hlate : ∀ name, Dictionary.get? late.scope name = if "$min".toList = name then
        some (.int 3) else if "count".toList = name then some (.int 7) else none := fun name =>
      (Dictionary.get?_cons _ _ _).trans (by rw [Dictionary.get?_cons]; rfl)
    refine ⟨rfl, rfl, rfl, fun name v hv => ?_, fun name hdollar hnone => ?_⟩
    · rw [hearly] at hv
      rw [hlate]
      split_ifs at hv with hname
      rw [if_pos hname]
      exact hv
    · rw [hearly] at hnone
      rw [hlate]
      split_ifs at hnone with hname
      rw [if_neg hname, if_neg]
      rintro rfl
      exact absurd hdollar (by decide)
  have hliteral : Literal early ts := by
    refine ⟨?_, ?_⟩
    · rintro e he
      obtain rfl := List.mem_singleton.mp he
      exact .int (by decide) (by decide)
    · rintro t ht ho x hx
      simp only [ts, List.mem_cons, List.not_mem_nil, or_false] at ht
      rcases ht with rfl | rfl | rfl
      · rw [hcount] at hx
        cases hx
      · cases ho
      · rw [hmin] at hx
        cases hx
  exact ⟨hleft, evalTokens_residual hcompletes hliteral hleft⟩

theorem value_infinite (r : Resolver) :
    r.value "1e999".toList = .found (.float (.infinite false)) := by
  have hfloat : Binary64.ofText? "1e999".toList = some (.infinite false) := by decide +kernel
  have hinteger : Text.toInt64? "1e999".toList = none := by decide
  have hnumber : Expression.number? "1e999".toList = some (.float (.infinite false)) := by
    rw [Expression.number?, if_pos (by decide), hinteger, hfloat]
    rfl
  have hall : ∀ c ∈ ['1', 'e', '9', '9', '9'], Binary64.IsNumeral c := by
    simp [Binary64.IsNumeral]
  exact Resolver.value_of_read (Expression.read_numeral ⟨false, '1', _, rfl, rfl⟩ hall hnumber _)

/-- The token of an infinity is a name: a condition that asks for it asks for the value of this name
when it is read again. -/
theorem evalTokens_infinite :
    let early : Resolver := ⟨[], [], true⟩
    let late : Resolver := ⟨[("x".toList, .str "inf".toList)], [], false⟩
    let ts := ["x".toList, "=".toList, "1e999".toList]
    ∃ c, evalTokens early ts = .residual c ∧ evalTokens late c.tokens = .known false ∧
      evalTokens late ts = .known true := by
  intro early late ts
  have hread : ofTokens ts = .compare .eq (.atom "x".toList) (.atom "1e999".toList) :=
    ofTokens_compare rfl rfl .eq
  have hreread : ofTokens ["x".toList, "=".toList, "inf".toList] =
      .compare .eq (.atom "x".toList) (.atom "inf".toList) := ofTokens_compare rfl rfl .eq
  have hearly : early.value "x".toList = .unknown :=
    Resolver.value_name rfl (by decide) rfl rfl
  have hlate : late.value "x".toList = .found (.str "inf".toList) :=
    Resolver.value_name rfl (by decide) rfl rfl
  have hname : late.value "inf".toList = .found .null :=
    Resolver.value_name rfl (by decide) rfl rfl
  refine ⟨.compare .eq (.atom "x".toList) (.literal (.float (.infinite false))), ?_, ?_, ?_⟩
  · rw [evalTokens, hread, eval, evalOperand, evalOperand, hearly, value_infinite]
    rfl
  · change (ofTokens ["x".toList, "=".toList, "inf".toList]).eval late = _
    rw [hreread, eval, evalOperand, evalOperand, hlate, hname]
    rfl
  · have hequal : Comparison.eq.holds (.str "inf".toList) (.float (.infinite false)) = true := by
      decide +kernel
    rw [evalTokens, hread, eval, evalOperand, evalOperand, hlate, value_infinite]
    exact congrArg Outcome.known hequal

end Passes

end Condition

end Stencil
