import Stencil.Expression.Lookup
import Stencil.Proofs.Json

namespace Stencil

namespace Text

theorem toNatBelow?_ofNat {bound n : Nat} (h : n < bound) :
    toNatBelow? bound (ofNat n) = some n := by
  rw [toNatBelow?_digits (ofNat_ne_nil n) fun c hc => isDigit_of_mem_ofNat hc, digitsValue_ofNat,
    if_pos h]

theorem exists_digit_ofNat (n : Nat) : ∃ c s, ofNat n = c :: s ∧ c.isDigit := by
  obtain ⟨c, s, h⟩ := List.exists_cons_of_ne_nil (ofNat_ne_nil n)
  have hc : c ∈ ofNat n := by
    rw [h]
    exact List.mem_cons_self
  exact ⟨c, s, h, isDigit_of_mem_ofNat hc⟩

/-- An integer of 64 bits is read back. -/
theorem toInt64?_ofInt {i : Int} (hlow : -(int64Bound : Int) ≤ i) (hhigh : i < int64Bound) :
    toInt64? (ofInt i) = some i := by
  obtain ⟨c, s, hs, hc⟩ := exists_digit_ofNat i.natAbs
  have hplus : c ≠ '+' := by
    rintro rfl
    exact absurd hc (by decide)
  have hminus : c ≠ '-' := by
    rintro rfl
    exact absurd hc (by decide)
  unfold ofInt
  split
  next hneg =>
    have hread : toNatBelow? (int64Bound + 1) (ofNat i.natAbs) = some i.natAbs :=
      toNatBelow?_ofNat (by omega)
    have hhead : (ofNat i.natAbs).head? ≠ some '+' := by simpa [hs] using hplus
    change (if (ofNat i.natAbs).head? = some '+' then none else
      (toNatBelow? (int64Bound + 1) (ofNat i.natAbs)).map fun n => -(n : Int)) = some i
    rw [if_neg hhead, hread]
    exact congrArg some (by dsimp only; omega)
  next hpos =>
    have hread : toNatBelow? int64Bound (ofNat i.natAbs) = some i.natAbs :=
      toNatBelow?_ofNat (by omega)
    unfold toInt64?
    split
    next digits hd =>
      rw [hs] at hd
      exact absurd (List.cons.inj hd).1 hminus
    next =>
      rw [hread]
      simp only [Option.map_some, Int.ofNat_eq_natCast, Option.some.injEq]
      omega

theorem lt_of_toNatBelow? {bound n : Nat} {s : Text} (h : toNatBelow? bound s = some n) :
    n < bound := by
  unfold toNatBelow? at h
  dsimp only at h
  split_ifs at h
  cases h
  assumption

theorem toInt64?_bounds {s : Text} {i : Int} (h : toInt64? s = some i) :
    -(int64Bound : Int) ≤ i ∧ i < int64Bound := by
  have hbound : 0 < int64Bound := by decide
  unfold toInt64? at h
  split at h
  · split_ifs at h
    obtain ⟨_, hread, rfl⟩ := Option.map_eq_some_iff.mp h
    obtain ⟨n, hn, hcast⟩ := Option.bind_eq_some_iff.mp hread
    obtain rfl := Option.some.inj hcast
    have := lt_of_toNatBelow? hn
    omega
  · obtain ⟨n, hn, rfl⟩ := Option.map_eq_some_iff.mp h
    have := lt_of_toNatBelow? hn
    rw [Int.ofNat_eq_natCast]
    omega

theorem toInt64?_of_point {s : Text} (h : '.' ∈ s) : toInt64? s = none := by
  have hnone : ∀ bound (t : Text), '.' ∈ t → toNatBelow? bound t = none := by
    intro bound t ht
    have hall : ∀ u : Text, '.' ∈ u → (u.isEmpty || !u.all Char.isDigit) = true := by
      intro u hu
      have hu' : u.all Char.isDigit = false := by
        rw [List.all_eq_false]
        exact ⟨'.', hu, by decide⟩
      simp [hu']
    unfold toNatBelow?
    dsimp only
    split
    next rest => rw [if_pos (hall rest (by simpa using ht))]
    next => rw [if_pos (hall t ht)]
  unfold toInt64?
  split
  next digits =>
    rw [hnone _ digits (by simpa using h)]
    simp
  next => rw [hnone _ s h, Option.map_none]

end Text

namespace Binary64

open Text

theorem roundQuotient_one (n : Nat) : roundQuotient n 1 = n := by
  simpa using roundQuotient_mul Nat.one_pos n

theorem wholePart_of_dvd {m : Nat} {q : Int} (h : 2 ^ (-q).toNat ∣ m) :
    (wholePart m q).2 = true := by
  unfold wholePart
  split
  · rfl
  · have hmod : m % Nat.pow 2 (-q).toNat = 0 := Nat.mod_eq_zero_of_dvd h
    exact beq_iff_eq.mpr hmod

/-- A natural number is rounded to a whole number. -/
theorem wholePart_ofRatio_one {negative : Bool} {n m : Nat} {q : Int}
    (h : ofRatio negative n 1 = finite negative m q) : (wholePart m q).2 = true := by
  by_cases hn : n = 0
  · simp only [ofRatio, hn, if_true, zero, finite.injEq, true_and] at h
    obtain ⟨rfl, rfl⟩ := h
    exact wholePart_of_dvd (dvd_zero _)
  have hlog : log2Quotient n 1 = n.log2 := by
    refine log2Quotient_eq one_ne_zero ?_ ?_
    · exact_mod_cast (by simpa using Nat.log2_self_le hn)
    · exact_mod_cast (by simpa using (Nat.lt_log2_self : n < 2 ^ (n.log2 + 1)))
  simp only [ofRatio, hn, if_false, hlog] at h
  generalize hq : max ((n.log2 : Int) - 52) minExponent = r at h
  have hr : -52 ≤ r := by
    have := le_max_left ((n.log2 : Int) - 52) minExponent
    omega
  have hwhole : 2 ^ (-r).toNat ∣
      roundQuotient (n * Nat.pow 2 (-r).toNat) (1 * Nat.pow 2 r.toNat) := by
    by_cases hpos : 0 ≤ r
    · have hzero : (-r).toNat = 0 := by omega
      rw [hzero]
      exact one_dvd _
    · have hzero : r.toNat = 0 := by omega
      have hone : 1 * Nat.pow 2 r.toNat = 1 := by rw [hzero]
      rw [hone, roundQuotient_one]
      exact Dvd.intro_left n rfl
  split_ifs at h with hfull hlarge hlarge
  all_goals simp only [finite.injEq, true_and] at h
  · obtain ⟨rfl, rfl⟩ := h
    exact wholePart_of_dvd (pow_dvd_pow 2 (by omega))
  · obtain ⟨rfl, rfl⟩ := h
    exact wholePart_of_dvd hwhole

/-- A number that is not whole is written with a point. -/
theorem mem_point_text {negative : Bool} {m : Nat} {q : Int}
    (hc : (finite negative m q).Canonical) (hw : (finite negative m q).wholeText? = none) :
    '.' ∈ (finite negative m q).text := by
  have hpart : (wholePart m q).2 = false := by
    simp only [wholeText?] at hw
    by_contra h
    simp [h] at hw
  have hm : m ≠ 0 := by
    rintro rfl
    rw [wholePart_of_dvd (dvd_zero _)] at hpart
    cases hpart
  have hvalue := value_shortest true hm (q := q) hc
  generalize hd : shortest true m q = d at hvalue
  have hexponent : d.exponent < 0 := by
    by_contra hpos
    have hden : Nat.pow 10 (-d.exponent).toNat = 1 := by
      have : (-d.exponent).toNat = 0 := by omega
      rw [this]
    unfold Decimal.value ofDecimal at hvalue
    split_ifs at hvalue with hzero
    · simp only [zero, finite.injEq, true_and] at hvalue
      exact hm hvalue.1.symm
    · dsimp only at hvalue
      split_ifs at hvalue with hlarge hsmall
      · simp only [zero, finite.injEq, true_and] at hvalue
        exact hm hvalue.1.symm
      · rw [hden] at hvalue
        rw [wholePart_ofRatio_one hvalue] at hpart
        cases hpart
  have hpoint : '.' ∈ positional false d := by
    unfold positional
    dsimp only
    rw [if_neg (by omega)]
    split <;> simp
  simp only [text, write, hm, if_false, pageFormat, Option.all_none, Bool.and_self, if_true, hd]
  exact List.mem_append_right _ hpoint

theorem wholePart_eq {m : Nat} {q : Int} (h : (wholePart m q).2 = true) :
    ((wholePart m q).1 : ℚ) = m * 2 ^ q := by
  unfold wholePart at h ⊢
  split at h
  next hq =>
    obtain ⟨k, rfl⟩ := Int.eq_ofNat_of_zero_le hq
    simp only [hq, if_true]
    exact_mod_cast rfl
  next hq =>
    obtain ⟨k, hk⟩ := Int.eq_ofNat_of_zero_le (show 0 ≤ -q by omega)
    obtain rfl : q = -(k : Int) := by omega
    have htoNat : (-(-(k : Int))).toNat = k := by omega
    rw [htoNat] at h
    obtain ⟨n, rfl⟩ := Nat.dvd_of_mod_eq_zero (beq_iff_eq.mp h)
    have hpow : 0 < 2 ^ k := Nat.pow_pos (by decide)
    simp only [if_neg hq, htoNat]
    rw [zpow_neg, zpow_natCast]
    change (((2 ^ k * n) / 2 ^ k : Nat) : ℚ) = ((2 ^ k * n : Nat) : ℚ) * (2 ^ k)⁻¹
    rw [Nat.mul_div_cancel_left n hpow]
    push_cast
    field_simp

/-- A whole number is read back. -/
theorem ofText?_wholeText {x : Binary64} (hc : x.Canonical) {s : Text}
    (h : x.wholeText? = some s) : ofText? s = some x ∧ '.' ∈ s := by
  cases x with
  | nan => simp [wholeText?] at h
  | infinite negative => simp [wholeText?] at h
  | finite negative m q =>
    simp only [wholeText?] at h
    split at h
    next hpart =>
      cases h
      generalize hn : (wholePart m q).1 = n
      refine ⟨?_, by simp⟩
      obtain ⟨c, t, ht, hdigit⟩ := exists_digit_ofNat n
      have hread : magnitude? (ofNat n ++ ['.', '0']) =
          some (n * 10 ^ 1, (0 : Int) - (1 : Nat)) := by
        have hdigits : ∀ c ∈ ofNat n, c.isDigit := fun c hc => isDigit_of_mem_ofNat hc
        have hzeros : ∀ c ∈ ['0'], c.isDigit := by simp
        have hpoint := magnitude?_point [] hdigits hzeros (ofNat_ne_nil n) (by simp) (e := 0) rfl
        rw [digitsValue_concat, digitsValue_ofNat] at hpoint
        simpa [Nat.mul_comm] using hpoint
      rw [List.append_assoc,
        ofText?_sign ⟨c, t ++ ['.', '0'], by rw [ht, List.cons_append], hdigit⟩ hread,
        ofDecimal_scale]
      by_cases hm : m = 0
      · subst hm
        obtain ⟨-, -, -, hleast⟩ := hc
        obtain rfl : q = minExponent := hleast.resolve_left (by decide)
        have hzero : n = 0 := by
          rw [← hn]
          exact Nat.zero_div _
        simp only [ofDecimal, hzero, if_true, zero]
      · rw [ofDecimal_exact hm hc]
        rw [zpow_zero, mul_one, ← hn, wholePart_eq hpart]
    next => cases h

end Binary64

namespace Binary64

theorem canonical_ofText? {s : Text} {x : Binary64} (h : ofText? s = some x) : x.Canonical := by
  unfold ofText? at h
  dsimp only at h
  split at h
  all_goals
    split_ifs at h
    · cases h
      trivial
    · cases h
      trivial
    · obtain ⟨⟨n, e⟩, -, rfl⟩ := Option.map_eq_some_iff.mp h
      exact canonical_ofDecimal _ n e

end Binary64

/-- Is this a value that there is? Integers are those of 64 bits, and floats are in the form in
which they are represented. -/
inductive Value.Valid : Value → Prop
  | null : Valid .null
  | bool (b : Bool) : Valid (.bool b)
  | int {i : Int} (hlow : -(Text.int64Bound : Int) ≤ i) (hhigh : i < Text.int64Bound) :
    Valid (.int i)
  | float {x : Binary64} (hc : x.Canonical) : Valid (.float x)
  | str (s : Text) : Valid (.str s)
  | array {items : List Value} (h : ∀ v ∈ items, Valid v) : Valid (.array items)
  | map {entries : List (Text × Value)} (h : ∀ e ∈ entries, Valid e.2) : Valid (.map entries)

/-- A property of values that null has, and with a value all that stands in it. -/
structure Value.Inherited (P : Value → Prop) : Prop where
  null : P .null
  index? : ∀ {v key w : Value}, P v → v.index? key = some w → P w

theorem Value.Valid.index? {v key w : Value} (hv : v.Valid) (h : v.index? key = some w) :
    w.Valid := by
  cases hv with
  | array hitems =>
    obtain ⟨i, -, hi⟩ := Option.bind_eq_some_iff.mp h
    split_ifs at hi
    exact hitems w (List.mem_of_getElem? hi)
  | map hentries => exact hentries _ (Dictionary.mem_of_get? h)
  | _ => cases h

theorem Value.Valid.inherited : Value.Inherited Value.Valid where
  null := .null
  index? := .index?

theorem Value.quoteChar_cases (c : Char) :
    (c = '\\' ∨ c = '\'') ∧ quoteChar c = ['\\', c] ∨
      (c ≠ '\\' ∧ c ≠ '\'') ∧ quoteChar c = [c] := by
  unfold quoteChar
  split
  next h => exact .inl ⟨h, rfl⟩
  next h => exact .inr ⟨not_or.mp h, rfl⟩

namespace Quoted

theorem unescape_cons {c : Char} (h : c ≠ '\\') (s : Text) :
    unescape (c :: s) = c :: unescape s := by
  rw [unescape]
  · rintro rfl
    exact absurd rfl h
  · rintro d t rfl
    exact absurd rfl h

theorem unescape_quoteChar (s : Text) : unescape (s.flatMap Value.quoteChar) = s := by
  induction s with
  | nil => rfl
  | cons c s ih =>
    rw [List.flatMap_cons]
    rcases Value.quoteChar_cases c with ⟨hc, h⟩ | ⟨hc, h⟩
    · have hplain : c ≠ 'n' ∧ c ≠ 't' := by
        rcases hc with rfl | rfl <;> decide
      rw [h, List.cons_append, List.singleton_append, unescape, if_neg hplain.1,
        if_neg hplain.2, ih]
    · rw [h, List.singleton_append, unescape_cons hc.1, ih]

end Quoted

namespace Expression

theorem partsFrom_of_not_mem {sep : Char} {s : Text} (h : sep ∉ s) (n : Nesting) :
    partsFrom sep n s = (s, []) := by
  induction s generalizing n with
  | nil => rfl
  | cons c s ih =>
    have hc : ¬(c = sep ∧ n.isTop = true) := fun he => h (he.1 ▸ List.mem_cons_self)
    unfold partsFrom
    rw [ih fun hs => h (List.mem_cons_of_mem _ hs)]
    dsimp only
    rw [if_neg hc]

theorem partsFrom_cons_of_quote (sep : Char) {n : Nesting} (h : n.quote.isSome) (c : Char)
    (s : Text) : partsFrom sep n (c :: s) =
      (c :: (partsFrom sep (n.after c) s).1, (partsFrom sep (n.after c) s).2) := by
  have htop : n.isTop = false := by
    simp [Nesting.isTop, Option.isNone_eq_false_iff.mpr h]
  rw [partsFrom]
  simp [htop]

/-- Within quotes nothing is cut. -/
theorem partsFrom_quoted (sep : Char) (s : Text) :
    partsFrom sep ⟨0, some '\'', false⟩ (s.flatMap Value.quoteChar ++ ['\'']) =
      (s.flatMap Value.quoteChar ++ ['\''], []) := by
  induction s with
  | nil =>
    rw [List.flatMap_nil, List.nil_append, partsFrom_cons_of_quote sep rfl]
    rfl
  | cons c s ih =>
    rw [List.flatMap_cons]
    rcases Value.quoteChar_cases c with ⟨hc, h⟩ | ⟨hc, h⟩
    · have hback : (Nesting.mk 0 (some '\'') false).after '\\' = ⟨0, some '\'', true⟩ := rfl
      have hnext : (Nesting.mk 0 (some '\'') true).after c = ⟨0, some '\'', false⟩ := rfl
      rw [h, List.cons_append, List.cons_append, partsFrom_cons_of_quote sep rfl, hback,
        List.singleton_append, List.cons_append, partsFrom_cons_of_quote sep rfl, hnext, ih]
    · have hnext : (Nesting.mk 0 (some '\'') false).after c = ⟨0, some '\'', false⟩ := by
        simp [Nesting.after, hc]
      rw [h, List.singleton_append, List.cons_append, partsFrom_cons_of_quote sep rfl, hnext, ih]

/-- What is read of an alternative. -/
def readPart (table : LiteralTable) (part : Text) : Alternative :=
  match literal? table (Text.trim part) with
  | some v => .literal v
  | none =>
    .path ((Text.trim part).takeWhile fun c => !startsStep c)
      (readSteps table ((Text.trim part).dropWhile fun c => !startsStep c))

theorem read_eq (table : LiteralTable) (s : Text) :
    read table s = (parts '|' s).map (readPart table) := by
  rw [read]
  conv_rhs => rw [← List.attach_map_subtype_val (parts '|' s), List.map_map]
  rfl

theorem read_of_literal {table : LiteralTable} {s : Text} {v : Value} (hp : parts '|' s = [s])
    (ht : Text.trim s = s) (hv : literal? table s = some v) : read table s = [.literal v] := by
  rw [read_eq, hp, List.map_singleton, readPart, ht, hv]

theorem isWhiteSpace_of_isNumeral {c : Char} (h : Binary64.IsNumeral c) :
    isWhiteSpace c = false := by
  rcases h with h | rfl | rfl | rfl | rfl
  · have hlow : 48 ≤ c.toNat ∧ c.toNat ≤ 57 := by
      simpa [Char.isDigit, UInt32.le_iff_toNat_le] using h
    simp only [isWhiteSpace, Bool.or_eq_false_iff, Bool.and_eq_false_iff, decide_eq_false_iff_not,
      beq_eq_false_iff_ne]
    omega
  all_goals decide

section Number

variable {s : Text} (hs : ∃ negative c t, s = Binary64.sign negative ++ c :: t ∧ c.isDigit)
  (hall : ∀ c ∈ s, Binary64.IsNumeral c)

include hs in
theorem startsNumber_of_digit : startsNumber s = true := by
  obtain ⟨negative, c, t, rfl, hc⟩ := hs
  have hpoint : c ≠ '.' := by
    rintro rfl
    exact absurd hc (by decide)
  have hminus : '-' ≠ c := by
    rintro rfl
    exact absurd hc (by decide)
  have hstrip : (Text.strip? ['-'] (Binary64.sign negative ++ c :: t)).getD
      (Binary64.sign negative ++ c :: t) = c :: t := by
    cases negative with
    | true => simp [Binary64.sign, Text.strip?]
    | false => simp [Binary64.sign, Text.strip?, hminus]
  unfold startsNumber
  rw [hstrip]
  dsimp only
  split
  next h => exact absurd (List.cons.inj h).1 hpoint
  next h =>
    cases h
    exact hc
  next h => cases h

include hall in
theorem trim_numeral : Text.trim s = s :=
  Text.trim_eq_self (fun c hc => isWhiteSpace_of_isNumeral (hall c (List.mem_of_head? hc)))
    fun c hc => isWhiteSpace_of_isNumeral (hall c (List.mem_of_getLast? hc))

include hs hall in
/-- The token of a number is read as the number. -/
theorem read_numeral {v : Value} (hv : number? s = some v) (table : LiteralTable) :
    read table s = [.literal v] := by
  have hout : ∀ c : Char, ¬Binary64.IsNumeral c → c ∉ s := fun c hc hm => hc (hall c hm)
  have hnotin : ∀ (c : Char) (w : Text), ¬Binary64.IsNumeral c → c ∈ w → s ≠ w := by
    rintro c w hc hw rfl
    exact hout c hc hw
  obtain ⟨c, t, hct⟩ : ∃ c t, s = c :: t := by
    obtain ⟨negative, c, t, rfl, -⟩ := hs
    cases negative <;> exact ⟨_, _, rfl⟩
  have hhead : ∀ d, ¬Binary64.IsNumeral d → c ≠ d := by
    rintro d hd rfl
    exact hout c hd (hct ▸ List.mem_cons_self)
  have hindex : Reference.index? Reference.kept s = none := by
    have hne : '%' ≠ c := (hhead '%' (by simp [Binary64.IsNumeral])).symm
    simp [Reference.index?, Reference.kept, hct, Text.strip?, hne]
  have hquoted : quoted? s = none := by
    have hq : ¬(c = '\'' ∨ c = '"' ∨ c = '\x60') := by
      rintro (rfl | rfl | rfl)
      · exact hhead _ (by simp [Binary64.IsNumeral]) rfl
      · exact hhead _ (by simp [Binary64.IsNumeral]) rfl
      · exact hhead _ (by simp [Binary64.IsNumeral]) rfl
    simp [quoted?, hct, hq]
  have hnamed : named? s = none := by
    have htrue := hnotin 't' "true".toList (by simp [Binary64.IsNumeral]) (by decide)
    have hfalse := hnotin 'f' "false".toList (by simp [Binary64.IsNumeral]) (by decide)
    have hnull := hnotin 'n' "null".toList (by simp [Binary64.IsNumeral]) (by decide)
    have hnil := hnotin 'n' "nil".toList (by simp [Binary64.IsNumeral]) (by decide)
    simp only [named?, htrue, hfalse, hnull, hnil, if_false, or_self]
  have hparts : parts '|' s = [s] := by
    rw [parts, partsFrom_of_not_mem (hout '|' (by simp [Binary64.IsNumeral]))]
  have hempty : s.isEmpty = false := by simp [hct]
  refine read_of_literal hparts (trim_numeral hall) ?_
  unfold literal?
  dsimp only
  rw [trim_numeral hall, hempty, if_neg (by decide), hindex]
  rw [hquoted, hnamed, hv]
  rfl

end Number

theorem read_name {v : Value} {s : Text}
    (h : (s, v) ∈ [("null".toList, Value.null), ("true".toList, .bool true),
      ("false".toList, .bool false)]) (table : LiteralTable) : read table s = [.literal v] := by
  simp only [List.mem_cons, Prod.mk.injEq, List.not_mem_nil, or_false] at h
  rcases h with ⟨rfl, rfl⟩ | ⟨rfl, rfl⟩ | ⟨rfl, rfl⟩ <;>
    exact read_of_literal (by decide) (by decide) rfl

/-- A quoted text is read as what is quoted. -/
theorem read_quoted (s : Text) (table : LiteralTable) :
    read table (Value.str s).token = [.literal (.str s)] := by
  have htoken : (Value.str s).token = '\'' :: (s.flatMap Value.quoteChar ++ ['\'']) := rfl
  have hparts : parts '|' (Value.str s).token = [(Value.str s).token] := by
    have hstart : Nesting.start.after '\'' = ⟨0, some '\'', false⟩ := rfl
    rw [htoken, parts, partsFrom, hstart, partsFrom_quoted]
    simp
  have htrim : Text.trim (Value.str s).token = (Value.str s).token := by
    have hends : ∀ c, c = '\'' → isWhiteSpace c = false := by
      rintro c rfl
      decide
    have hfirst : ∀ c ∈ (Value.str s).token.head?, isWhiteSpace c = false := fun c hc =>
      hends c (Option.some.inj hc).symm
    have hlast : ∀ c ∈ (Value.str s).token.getLast?, isWhiteSpace c = false := fun c hc => by
      rw [htoken, ← List.cons_append, List.getLast?_concat] at hc
      exact hends c (Option.some.inj hc).symm
    exact Text.trim_eq_self hfirst hlast
  refine read_of_literal hparts htrim ?_
  have hlast : (s.flatMap Value.quoteChar ++ ['\'']).getLast? = some '\'' := by simp
  have hquoted : quoted? (Value.str s).token = some (.str s) := by
    rw [htoken, quoted?, if_pos ⟨.inl rfl, hlast⟩, List.dropLast_concat, Quoted.unescape_quoteChar]
  unfold literal?
  dsimp only
  rw [htrim, hquoted, htoken]
  rfl

/-- The token of a float: a sign or none, and digits with a point among them. -/
theorem token_float {x : Binary64} (hc : x.Canonical) (hf : x.isFinite) :
    (∃ negative c t, (Value.float x).token = Binary64.sign negative ++ c :: t ∧ c.isDigit) ∧
      (∀ c ∈ (Value.float x).token, Binary64.IsNumeral c) ∧ '.' ∈ (Value.float x).token ∧
        Binary64.ofText? (Value.float x).token = some x := by
  obtain ⟨negative, m, q, rfl⟩ : ∃ negative m q, x = .finite negative m q := by
    cases x with
    | finite negative m q => exact ⟨negative, m, q, rfl⟩
    | nan => cases hf
    | infinite negative => cases hf
  have hsign : ∀ c ∈ Binary64.sign negative, Binary64.IsNumeral c := by
    intro c hc
    cases negative with
    | true => exact .inr (.inr (.inr (.inr (List.mem_singleton.mp hc))))
    | false => cases hc
  cases hw : (Binary64.finite negative m q).wholeText? with
  | some s =>
    obtain ⟨hread, hpoint⟩ := Binary64.ofText?_wholeText hc hw
    have htoken : (Value.float (.finite negative m q)).token = s := by rw [Value.token, hw]; rfl
    obtain ⟨n, rfl⟩ : ∃ n, s = Binary64.sign negative ++ Text.ofNat n ++ ['.', '0'] := by
      simp only [Binary64.wholeText?] at hw
      split_ifs at hw
      exact ⟨_, (Option.some.inj hw).symm⟩
    rw [htoken]
    obtain ⟨c, t, hct, hc⟩ := Text.exists_digit_ofNat n
    refine ⟨⟨negative, c, t ++ ['.', '0'], by simp [hct], hc⟩, fun c hc => ?_, hpoint, hread⟩
    rcases List.mem_append.mp hc with hc | hc
    · rcases List.mem_append.mp hc with hc | hc
      · exact hsign c hc
      · exact .inl (Text.isDigit_of_mem_ofNat hc)
    · have hlast : c = '.' ∨ c = '0' := by simpa using hc
      rcases hlast with rfl | rfl
      · exact .inr (.inl rfl)
      · exact .inl (by decide)
  | none =>
    have htoken : (Value.float (.finite negative m q)).token =
        Binary64.text (.finite negative m q) := by rw [Value.token, hw]; rfl
    rw [htoken]
    have hpoint := Binary64.mem_point_text hc hw
    have hread := Binary64.ofText?_write Binary64.pageFormat hc
    have hm : m ≠ 0 := by
      rintro rfl
      simp [Binary64.wholeText?, Binary64.wholePart_of_dvd (dvd_zero _)] at hw
    have htext : Binary64.text (.finite negative m q) = Binary64.sign negative ++
        Binary64.positional false (Binary64.shortest true m q) := by
      simp only [Binary64.text, Binary64.write, hm, if_false, Binary64.pageFormat, Option.all_none,
        Bool.and_self, if_true]
    obtain ⟨c, t, hct, hdigit⟩ :=
      Binary64.exists_digit_positional false (Binary64.shortest true m q)
    refine ⟨⟨negative, c, t, by rw [htext, hct], hdigit⟩, fun c hc => ?_, hpoint, hread⟩
    rw [htext] at hc
    rcases List.mem_append.mp hc with hc | hc
    · exact hsign c hc
    · exact Binary64.isNumeral_positional _ _ c hc

theorem exists_digit_ofInt (i : Int) :
    ∃ negative c t, Text.ofInt i = Binary64.sign negative ++ c :: t ∧ c.isDigit := by
  obtain ⟨c, t, hct, hc⟩ := Text.exists_digit_ofNat i.natAbs
  unfold Text.ofInt
  rw [hct]
  split
  · exact ⟨true, c, t, rfl, hc⟩
  · exact ⟨false, c, t, rfl, hc⟩

theorem read_ofInt {i : Int} (hlow : -(Text.int64Bound : Int) ≤ i) (hhigh : i < Text.int64Bound)
    (table : LiteralTable) : read table (Text.ofInt i) = [.literal (.int i)] := by
  have hs := exists_digit_ofInt i
  have hv : number? (Text.ofInt i) = some (.int i) := by
    rw [number?, if_pos (startsNumber_of_digit hs), Text.toInt64?_ofInt hlow hhigh]
    rfl
  exact read_numeral hs (Json.isNumeral_ofInt i) hv table

theorem read_float {x : Binary64} (hc : x.Canonical) (hf : x.isFinite) (table : LiteralTable) :
    read table (Value.float x).token = [.literal (.float x)] := by
  obtain ⟨hs, hall, hpoint, hread⟩ := token_float hc hf
  refine read_numeral hs hall ?_ table
  rw [number?, if_pos (startsNumber_of_digit hs), Text.toInt64?_of_point hpoint, hread]
  rfl

/-- The token of a scalar is read as the scalar. -/
theorem read_token {v : Value} (hv : v.Valid) (hs : v.isScalar)
    (hf : ∀ x, v = .float x → x.isFinite) (table : LiteralTable) :
    read table v.token = [.literal v] := by
  cases hv with
  | null => exact read_name (by simp [Value.token]) table
  | bool b => cases b <;> exact read_name (by simp [Value.token, Value.boolText]) table
  | int hlow hhigh => exact read_ofInt hlow hhigh table
  | float hc => exact read_float hc (hf _ rfl) table
  | str s => exact read_quoted s table
  | array => cases hs
  | map => cases hs

/-- A literal is a value that there is, and a scalar. -/
theorem valid_scalar_of_literal? {table : LiteralTable} {s : Text} {v : Value}
    (h : literal? table s = some v) : v.Valid ∧ v.isScalar := by
  unfold literal? at h
  dsimp only at h
  split at h
  · cases h
    exact ⟨.null, rfl⟩
  · split at h
    · cases h
      exact ⟨.str _, rfl⟩
    · have hquoted : ∀ t, quoted? t = some v → v.Valid ∧ v.isScalar := by
        intro t h
        unfold quoted? at h
        split at h
        · split_ifs at h
          cases h
          exact ⟨.str _, rfl⟩
        · cases h
      have hnamed : ∀ t, named? t = some v → v.Valid ∧ v.isScalar := by
        intro t h
        unfold named? at h
        split_ifs at h <;> cases h
        · exact ⟨.bool _, rfl⟩
        · exact ⟨.bool _, rfl⟩
        · exact ⟨.null, rfl⟩
      have hnumber : ∀ t, number? t = some v → v.Valid ∧ v.isScalar := by
        intro t h
        unfold number? at h
        split at h
        · rcases Option.or_eq_some_iff.mp h with h | ⟨-, h⟩
          · obtain ⟨i, hi, rfl⟩ := Option.map_eq_some_iff.mp h
            exact ⟨.int (Text.toInt64?_bounds hi).1 (Text.toInt64?_bounds hi).2, rfl⟩
          · obtain ⟨x, hx, rfl⟩ := Option.map_eq_some_iff.mp h
            exact ⟨.float (Binary64.canonical_ofText? hx), rfl⟩
        · cases h
      cases hq : quoted? (Text.trim s) with
      | some w =>
        rw [hq] at h
        exact hquoted _ (hq.trans h)
      | none =>
        rw [hq] at h
        cases hn : named? (Text.trim s) with
        | some w =>
          rw [hn] at h
          exact hnamed _ (hn.trans h)
        | none =>
          rw [hn] at h
          exact hnumber _ h

/-- A name that is no literal is read as itself. -/
theorem read_bare {table : LiteralTable} {name : Text} (hp : parts '|' name = [name])
    (ht : Text.trim name = name) (hl : (literal? table name).isNone)
    (hs : name.all fun c => !startsStep c) : read table name = [.path name []] := by
  have hwhole : (name.takeWhile fun c => !startsStep c) = name :=
    List.takeWhile_eq_self_iff.mpr (List.all_eq_true.mp hs)
  have hrest : (name.dropWhile fun c => !startsStep c) = [] :=
    Text.dropWhile_of_all (List.all_eq_true.mp hs)
  rw [read_eq, hp, List.map_singleton, readPart, ht, Option.isNone_iff_eq_none.mp hl, hwhole,
    hrest, readSteps]

end Expression

namespace Resolver

variable {r : Resolver}

theorem value_of_read {expr : Text} {v : Value}
    (h : Expression.read r.literals expr = [.literal v]) : r.value expr = .found v := by
  rw [value, h, firstPresent, alternative]
  dsimp only
  split
  · rw [firstPresent]
  · rfl

/-- The value of a name that is no literal: what it has in scope. -/
theorem value_name {name : Text} (hp : Expression.parts '|' name = [name])
    (ht : Text.trim name = name) (hl : (Expression.literal? r.literals name).isNone)
    (hs : name.all fun c => !Expression.startsStep c) :
    r.value name = match Dictionary.get? r.scope name with
      | some v => .found v
      | none => if r.pre && name.head? ≠ some '$' then .unknown else .found .null := by
  rw [value, Expression.read_bare hp ht hl hs, firstPresent, alternative]
  cases Dictionary.get? r.scope name with
  | some v =>
    dsimp only
    rw [follow]
    dsimp only
    split
    · rw [firstPresent]
    · rfl
  | none =>
    dsimp only
    by_cases h : (r.pre && decide (name.head? ≠ some '$')) = true
    · rw [if_pos h]
    · rw [if_neg h]
      dsimp only
      split
      · rw [firstPresent]
      · rfl

/-- The token of a scalar has the scalar as its value, whatever is in scope. -/
theorem value_token {v : Value} (hv : v.Valid) (hs : v.isScalar)
    (hf : ∀ x, v = .float x → x.isFinite) : r.value v.token = .found v :=
  value_of_read (Expression.read_token hv hs hf _)

section Inherited

variable {P : Value → Prop} (hp : Value.Inherited P)
include hp

theorem of_follow {steps : List PathStep} {v w : Value} (hv : P v)
    (h : r.follow v steps = .found w) : P w := by
  induction steps generalizing v with
  | nil =>
    rw [follow] at h
    cases h
    exact hv
  | cons step steps ih =>
    cases step with
    | name name =>
      rw [follow] at h
      split at h
      next u hu => exact ih (hp.index? hv hu) h
      next =>
        cases h
        exact hp.null
    | index alternatives =>
      rw [follow] at h
      split at h
      next key =>
        split at h
        next u hu => exact ih (hp.index? hv hu) h
        next =>
          cases h
          exact hp.null
      next => cases h
    | nowhere =>
      rw [follow] at h
      cases h
      exact hp.null

theorem of_firstPresent (hscope : ∀ e ∈ r.scope, P e.2) {alternatives : List Alternative}
    {last w : Value} (hlast : P last) (ha : ∀ v, .literal v ∈ alternatives → P v)
    (h : r.firstPresent last alternatives = .found w) : P w := by
  induction alternatives generalizing last with
  | nil =>
    rw [firstPresent] at h
    cases h
    exact hlast
  | cons a more ih =>
    have hfirst : ∀ v, r.alternative a = .found v → P v := by
      intro v hv
      cases a with
      | literal u =>
        rw [alternative] at hv
        cases hv
        exact ha _ List.mem_cons_self
      | path root steps =>
        rw [alternative] at hv
        split at hv
        next u hu => exact of_follow hp (hscope _ (Dictionary.mem_of_get? hu)) hv
        next =>
          split_ifs at hv
          cases hv
          exact hp.null
    rw [firstPresent] at h
    split at h
    next v hv =>
      split_ifs at h
      · exact ih (hfirst v hv) (fun u hu => ha u (List.mem_cons_of_mem _ hu)) h
      · cases h
        exact hfirst _ hv
    next => cases h

/-- What the values in scope have, and the literals, an expression has. -/
theorem of_value (hscope : ∀ e ∈ r.scope, P e.2)
    (hliteral : ∀ v : Value, v.Valid → v.isScalar → P v) {expr : Text} {v : Value}
    (h : r.value expr = .found v) : P v := by
  refine of_firstPresent hp hscope hp.null (fun u hu => ?_) h
  rw [Expression.read_eq] at hu
  obtain ⟨part, -, hpart⟩ := List.mem_map.mp hu
  unfold Expression.readPart at hpart
  split at hpart
  next w hw =>
    cases hpart
    obtain ⟨hvalid, hscalar⟩ := Expression.valid_scalar_of_literal? hw
    exact hliteral _ hvalid hscalar
  next => cases hpart

end Inherited

/-- An expression has values that there are, if there are no others in scope. -/
theorem valid_of_value (hscope : ∀ e ∈ r.scope, e.2.Valid) {expr : Text} {v : Value}
    (h : r.value expr = .found v) : v.Valid :=
  of_value Value.Valid.inherited hscope (fun _ hv _ => hv) h

end Resolver

end Stencil
