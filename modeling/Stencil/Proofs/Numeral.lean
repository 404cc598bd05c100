import Stencil.Proofs.Json

namespace Stencil

namespace Text

/-- Digits, at least one. -/
def IsDigits (s : Text) : Prop := s ≠ [] ∧ ∀ c ∈ s, c.isDigit

/-- Is a zero only at the start of a text if it is the whole text? -/
def Unpadded (s : Text) : Prop := ∀ more, s = '0' :: more → more = []

theorem isDigits_ofNat (n : Nat) : IsDigits (ofNat n) :=
  ⟨ofNat_ne_nil n, fun _ => isDigit_of_mem_ofNat⟩

theorem IsDigits.append_left {s t : Text} (hs : IsDigits s) (ht : ∀ c ∈ t, c.isDigit) :
    IsDigits (s ++ t) :=
  ⟨List.append_ne_nil_of_left_ne_nil hs.1 t, List.forall_mem_append.mpr ⟨hs.2, ht⟩⟩

theorem IsDigits.append_right {s t : Text} (hs : ∀ c ∈ s, c.isDigit) (ht : IsDigits t) :
    IsDigits (s ++ t) :=
  ⟨List.append_ne_nil_of_right_ne_nil s ht.1, List.forall_mem_append.mpr ⟨hs, ht.2⟩⟩

theorem unpadded_of_head? {s : Text} (h : s.head? ≠ some '0') : Unpadded s := by
  rintro more rfl
  exact absurd rfl h

/-- Only the number zero starts with a zero. -/
theorem head?_ofNat {n : Nat} (hn : n ≠ 0) : (ofNat n).head? ≠ some '0' := by
  induction n using Nat.strongRecOn with
  | ind n ih =>
    by_cases h : n < 10
    · rw [ofNat_lt_ten h]
      have hdigit : ∀ d < 10, d ≠ 0 → d.digitChar ≠ '0' := by decide
      simpa using hdigit n h hn
    · have hdiv : n / 10 ≠ 0 := by omega
      have hform : ofNat n = ofNat (n / 10) ++ [(n % 10).digitChar] := by
        rw [← ofNat_ten_mul hdiv (Nat.mod_lt n (by decide)), Nat.div_add_mod]
      rw [hform, List.head?_append_of_ne_nil _ (ofNat_ne_nil _)]
      exact ih (n / 10) (by omega) hdiv

theorem unpadded_ofNat (n : Nat) : Unpadded (ofNat n) := by
  by_cases hn : n = 0
  · subst hn
    rintro more h
    exact (List.cons.inj h).2.symm
  · exact unpadded_of_head? (head?_ofNat hn)

end Text

open Text

namespace Binary64

theorem Decimal.digits_normalize_ne_zero {d : Decimal} (h : d.digits ≠ 0) :
    d.normalize.digits ≠ 0 := by
  have hgo : ∀ (fuel : Nat) (d : Decimal), d.digits ≠ 0 → (normalize.go fuel d).digits ≠ 0 := by
    intro fuel
    induction fuel with
    | zero => exact fun d h => h
    | succ fuel ih =>
      intro d h
      unfold normalize.go
      split
      next ht => exact ih _ (by dsimp only; omega)
      next => exact h
  exact hgo _ d h

theorem digits_onGrid?_ne_zero {tieUp : Bool} {m : Nat} {q exponent : Int} {d : Decimal}
    (h : onGrid? tieUp m q exponent = some d) : d.digits ≠ 0 := by
  unfold onGrid? at h
  dsimp only at h
  split at h
  next hbelow =>
    split at h
    next =>
      cases h
      exact Nat.succ_ne_zero _
    next =>
      cases h
      exact hbelow.1
  next =>
    split at h
    next =>
      cases h
      exact Nat.succ_ne_zero _
    next => cases h

theorem digits_exactDecimal_ne_zero {m : Nat} (hm : m ≠ 0) (q : Int) :
    (exactDecimal m q).digits ≠ 0 := by
  unfold exactDecimal
  split
  · exact Nat.mul_ne_zero hm (by simp)
  · exact Nat.mul_ne_zero hm (by simp)

theorem digits_shortest_ne_zero (tieUp : Bool) {m : Nat} (hm : m ≠ 0) (q : Int) :
    (shortest tieUp m q).digits ≠ 0 := by
  unfold shortest
  dsimp only
  refine Decimal.digits_normalize_ne_zero ?_
  cases hf : (List.range 17).findSome? fun (n : Nat) =>
      onGrid? tieUp m q (decimalPoint (ratio m q).1 (ratio m q).2 - ((n : Int) + 1)) with
  | none => exact digits_exactDecimal_ne_zero hm q
  | some d =>
    obtain ⟨n, -, hd⟩ := List.exists_of_findSome?_eq_some hf
    exact digits_onGrid?_ne_zero hd

end Binary64

namespace Json

open Binary64

namespace Numeral

/-- Is this a number that JSON has? -/
structure Valid (n : Numeral) : Prop where
  whole : IsDigits n.whole
  unpadded : Unpadded n.whole
  fraction : ∀ ds ∈ n.fraction, IsDigits ds
  exponent : ∀ e ∈ n.exponent, IsDigits e.2

def spelledFraction : Option Text → Text
  | none => []
  | some ds => '.' :: ds

def spelledExponent : Option (Bool × Text) → Text
  | none => []
  | some (negative, ds) => 'e' :: (if negative then '-' else '+') :: ds

/-- A numeral with a small letter before the exponent and always a sign after it. -/
def spelled (n : Numeral) : Text :=
  sign n.negative ++ n.whole ++ spelledFraction n.fraction ++ spelledExponent n.exponent

end Numeral

variable {s rest : Text}

/-- What follows a number is not a part of it. -/
def Stops (s : Text) : Prop :=
  ∀ c ∈ s.head?, c.isDigit = false ∧ c ≠ '.' ∧ c ≠ 'e' ∧ c ≠ 'E'

theorem whole?_append {ds : Text} (hds : IsDigits ds) (hz : Unpadded ds)
    (hs : ∀ c ∈ s.head?, c.isDigit = false) : whole? (ds ++ s) = some (ds, s) := by
  rw [whole?, takeWhile_append_stop hds.2 hs, dropWhile_append_stop hds.2 hs]
  split
  next => exact absurd rfl hds.1
  next c more => cases hz _ rfl
  next => rfl

theorem fraction?_append {f : Option Text} (hf : ∀ ds ∈ f, IsDigits ds)
    (hs : ∀ c ∈ s.head?, c.isDigit = false ∧ c ≠ '.') :
    fraction? (Numeral.spelledFraction f ++ s) = some (f, s) := by
  cases f with
  | none =>
    unfold fraction?
    split
    next t ht =>
      rw [Numeral.spelledFraction, List.nil_append] at ht
      exact absurd rfl (hs '.' (by rw [ht]; rfl)).2
    next => rfl
  | some ds =>
    obtain ⟨hne, hds⟩ := hf ds rfl
    have hstop : ∀ c ∈ s.head?, c.isDigit = false := fun c hc => (hs c hc).1
    simp only [Numeral.spelledFraction, List.cons_append, fraction?,
      takeWhile_append_stop hds hstop, dropWhile_append_stop hds hstop, List.isEmpty_iff, hne,
      if_false]

theorem exponent?_append {e : Option (Bool × Text)} (he : ∀ d ∈ e, IsDigits d.2) (hs : Stops s) :
    exponent? (Numeral.spelledExponent e ++ s) = some (e, s) := by
  cases e with
  | none =>
    cases s with
    | nil => rfl
    | cons c s =>
      obtain ⟨-, -, hsmall, hlarge⟩ := hs c rfl
      simp [Numeral.spelledExponent, exponent?, hsmall, hlarge]
  | some e =>
    obtain ⟨negative, ds⟩ := e
    obtain ⟨hne, hds⟩ := he _ rfl
    have hstop : ∀ c ∈ s.head?, c.isDigit = false := fun c hc => (hs c hc).1
    have hdigits : exponentDigits? negative (ds ++ s) = some (some (negative, ds), s) := by
      simp only [exponentDigits?, takeWhile_append_stop hds hstop, dropWhile_append_stop hds hstop,
        List.isEmpty_iff, hne, if_false]
    cases negative with
    | true => exact hdigits
    | false => exact hdigits

/-- The spelled exponent, with what follows the number, starts with no digit and no point. -/
theorem head?_spelledExponent (e : Option (Bool × Text)) (hs : Stops s) :
    ∀ c ∈ (Numeral.spelledExponent e ++ s).head?, c.isDigit = false ∧ c ≠ '.' := by
  cases e with
  | none => exact fun c hc => ⟨(hs c hc).1, (hs c hc).2.1⟩
  | some e =>
    intro c hc
    cases hc
    decide

theorem head?_spelledFraction (f : Option Text) (e : Option (Bool × Text)) (hs : Stops s) :
    ∀ c ∈ (Numeral.spelledFraction f ++ (Numeral.spelledExponent e ++ s)).head?,
      c.isDigit = false := by
  cases f with
  | none => exact fun c hc => (head?_spelledExponent e hs c hc).1
  | some ds =>
    intro c hc
    cases hc
    decide

/-- A numeral is read as it is spelled. -/
theorem numeral?_spelled {n : Numeral} (hn : n.Valid) (hs : Stops rest) :
    numeral? (n.spelled ++ rest) = some (n, rest) := by
  obtain ⟨negative, whole, fraction, exponent⟩ := n
  have hwhole := whole?_append hn.whole hn.unpadded (head?_spelledFraction fraction exponent hs)
  have hfraction := fraction?_append hn.fraction (head?_spelledExponent exponent hs)
  have hexponent := exponent?_append hn.exponent hs
  rw [Numeral.spelled, List.append_assoc, List.append_assoc, List.append_assoc]
  cases negative with
  | true => simp [sign, numeral?, hwhole, hfraction, hexponent]
  | false =>
    obtain ⟨c, ds, rfl⟩ := List.exists_cons_of_ne_nil hn.whole.1
    have hminus : c ≠ '-' := by
      rintro rfl
      exact absurd (hn.whole.2 '-' List.mem_cons_self) (by decide)
    rw [List.cons_append] at hwhole
    simp [sign, numeral?, hminus, hwhole, hfraction, hexponent]

theorem Numeral.Valid.isNumeral {n : Numeral} (hn : n.Valid) : ∀ c ∈ n.spelled, IsNumeral c := by
  have hdigits : ∀ {ds : Text}, IsDigits ds → ∀ c ∈ ds, IsNumeral c := fun hds c hc =>
    .inl (hds.2 c hc)
  obtain ⟨negative, whole, fraction, exponent⟩ := n
  unfold Numeral.spelled
  refine List.forall_mem_append.mpr ⟨List.forall_mem_append.mpr ⟨List.forall_mem_append.mpr
    ⟨?_, hdigits hn.whole⟩, ?_⟩, ?_⟩
  · cases negative <;> simp [sign, IsNumeral]
  · cases fraction with
    | none => exact List.forall_mem_nil _
    | some ds => exact List.forall_mem_cons.mpr ⟨by simp [IsNumeral], hdigits (hn.fraction ds rfl)⟩
  · cases exponent with
    | none => exact List.forall_mem_nil _
    | some e =>
      obtain ⟨negative, ds⟩ := e
      refine List.forall_mem_cons.mpr ⟨by simp [IsNumeral], List.forall_mem_cons.mpr ⟨?_, ?_⟩⟩
      · cases negative <;> simp [IsNumeral]
      · exact hdigits (hn.exponent _ rfl)

/-- Is this text one number? -/
def IsNumber (s : Text) : Prop := ∃ n : Numeral, n.Valid ∧ n.spelled = s

theorem isNumber_ofInt (i : Int) : IsNumber (Text.ofInt i) := by
  refine ⟨⟨i < 0, ofNat i.natAbs, none, none⟩,
    ⟨isDigits_ofNat _, unpadded_ofNat _, by simp, by simp⟩, ?_⟩
  unfold Text.ofInt
  split <;> simp [Numeral.spelled, sign, Numeral.spelledFraction, Numeral.spelledExponent, *]

theorem isNumber_point (negative : Bool) {whole fraction : Text} (hwhole : IsDigits whole)
    (hunpadded : Unpadded whole) (hfraction : IsDigits fraction) :
    IsNumber (sign negative ++ (whole ++ '.' :: fraction)) :=
  ⟨⟨negative, whole, some fraction, none⟩,
    ⟨hwhole, hunpadded, by simpa using hfraction, by simp⟩,
    by simp [Numeral.spelled, Numeral.spelledFraction, Numeral.spelledExponent]⟩

theorem isNumber_positional (negative : Bool) {d : Decimal} (hd : d.digits ≠ 0) :
    IsNumber (sign negative ++ positional true d) := by
  have hdigits : IsDigits (Nat.toDigits 10 d.digits) := isDigits_ofNat _
  have hhead : (Nat.toDigits 10 d.digits).head? ≠ some '0' := head?_ofNat hd
  have hzeros : ∀ k, ∀ c ∈ List.replicate k '0', c.isDigit := fun k c => isDigit_of_mem_zeros
  have hzero : IsDigits ['0'] := isDigits_ofNat 0
  unfold positional
  dsimp only
  split
  next =>
    have hunpadded : Unpadded (Nat.toDigits 10 d.digits ++ List.replicate d.exponent.toNat '0') :=
      unpadded_of_head? (by rwa [List.head?_append_of_ne_nil _ hdigits.1])
    have hnumber := isNumber_point negative (hdigits.append_left (hzeros _)) hunpadded hzero
    simpa using hnumber
  next hexponent =>
    split
    next hplace =>
      generalize hat : (((Nat.toDigits 10 d.digits).length : Int) + d.exponent).toNat = place
      have hparts : 0 < place ∧ place < (Nat.toDigits 10 d.digits).length := by omega
      have hwhole : IsDigits ((Nat.toDigits 10 d.digits).take place) :=
        ⟨by simp [hparts.1.ne', hdigits.1], fun c hc => hdigits.2 c (List.mem_of_mem_take hc)⟩
      have hfraction : IsDigits ((Nat.toDigits 10 d.digits).drop place) :=
        ⟨by simp [hparts.2], fun c hc => hdigits.2 c (List.mem_of_mem_drop hc)⟩
      have hunpadded : Unpadded ((Nat.toDigits 10 d.digits).take place) := by
        refine unpadded_of_head? ?_
        rwa [List.head?_take, if_neg hparts.1.ne']
      have hnumber := isNumber_point negative hwhole hunpadded hfraction
      simpa using hnumber
    next =>
      have hnumber := isNumber_point negative hzero (unpadded_ofNat 0) (hdigits.append_right
        (hzeros (-(((Nat.toDigits 10 d.digits).length : Int) + d.exponent)).toNat))
      simpa using hnumber

theorem isNumber_scientific (negative : Bool) {d : Decimal} (hd : d.digits ≠ 0) :
    IsNumber (sign negative ++ scientific d) := by
  have hdigits : IsDigits (Nat.toDigits 10 d.digits) := isDigits_ofNat _
  have hhead : (Nat.toDigits 10 d.digits).head? ≠ some '0' := head?_ofNat hd
  unfold scientific
  dsimp only
  generalize ((Nat.toDigits 10 d.digits).length : Int) + d.exponent - 1 = e
  generalize Nat.toDigits 10 d.digits = ds at hdigits hhead
  have hexponent :
      'e' :: (if e < 0 then '-' :: Text.ofNat e.natAbs else '+' :: Text.ofNat e.natAbs) =
        Numeral.spelledExponent (some (e < 0, Text.ofNat e.natAbs)) := by
    unfold Numeral.spelledExponent
    split <;> simp [*]
  have hvalid : ∀ e' ∈ some (decide (e < 0), Text.ofNat e.natAbs), IsDigits e'.2 := by
    simpa using isDigits_ofNat _
  obtain ⟨c, ds, rfl⟩ := List.exists_cons_of_ne_nil hdigits.1
  have hc : IsDigits [c] := ⟨by simp, by simpa using hdigits.2 c List.mem_cons_self⟩
  have hz : Unpadded [c] := unpadded_of_head? hhead
  cases ds with
  | nil =>
    refine ⟨⟨negative, [c], none, some (e < 0, Text.ofNat e.natAbs)⟩, ⟨hc, hz, by simp, hvalid⟩, ?_⟩
    simp [Numeral.spelled, Numeral.spelledFraction, ← hexponent]
  | cons b ds =>
    have hmore : IsDigits (b :: ds) :=
      ⟨by simp, fun a ha => hdigits.2 a (List.mem_cons_of_mem c ha)⟩
    refine ⟨⟨negative, [c], some (b :: ds), some (e < 0, Text.ofNat e.natAbs)⟩,
      ⟨hc, hz, by simpa using hmore, hvalid⟩, ?_⟩
    simp [Numeral.spelled, Numeral.spelledFraction, ← hexponent]

theorem isNumber_write (negative : Bool) (m : Nat) (q : Int) :
    IsNumber (write jsonFormat negative m q) := by
  unfold write
  split
  · have hzero : IsDigits ['0'] := isDigits_ofNat 0
    refine ⟨⟨negative, ['0'], some ['0'], none⟩,
      ⟨hzero, unpadded_ofNat 0, by simpa using hzero, by simp⟩, ?_⟩
    simp [Numeral.spelled, Numeral.spelledFraction, Numeral.spelledExponent, jsonFormat]
  next hm =>
    have hd := digits_shortest_ne_zero jsonFormat.tieUp hm q
    dsimp only
    split
    · exact isNumber_positional negative hd
    · exact isNumber_scientific negative hd

end Json

end Stencil
