import Stencil.Number.Decimal
import Stencil.Proofs.Binary64

namespace Stencil

namespace Text

theorem ofNat_lt_ten {d : Nat} (h : d < 10) : ofNat d = [d.digitChar] := by
  rw [ofNat, Nat.toDigits_eq_if (by decide), if_pos h]

theorem ofNat_ten_mul {n : Nat} (hn : n ≠ 0) {d : Nat} (hd : d < 10) :
    ofNat (10 * n + d) = ofNat n ++ [d.digitChar] := by
  rw [ofNat, Nat.toDigits_eq_if (by decide), if_neg (by omega), ofNat]
  congr 2
  · omega
  · congr 1
    omega

/-- A number with so many digits is between two powers of ten. -/
theorem length_ofNat_bounds {n : Nat} (hn : n ≠ 0) :
    10 ^ ((ofNat n).length - 1) ≤ n ∧ n < 10 ^ (ofNat n).length := by
  induction n using Nat.strongRecOn with
  | ind n ih =>
    by_cases h : n < 10
    · rw [ofNat_lt_ten h]
      simp only [List.length_singleton, Nat.sub_self, pow_zero, pow_one]
      omega
    · have hdiv : n / 10 ≠ 0 := by omega
      obtain ⟨h1, h2⟩ := ih (n / 10) (by omega) hdiv
      have hform : ofNat n = ofNat (n / 10) ++ [(n % 10).digitChar] := by
        rw [← ofNat_ten_mul hdiv (Nat.mod_lt n (by decide)), Nat.div_add_mod]
      have hpos : 0 < (ofNat (n / 10)).length := List.length_pos_iff.mpr (ofNat_ne_nil _)
      rw [hform, List.length_append, List.length_singleton, Nat.add_sub_cancel]
      have hpow : 10 ^ (ofNat (n / 10)).length = 10 * 10 ^ ((ofNat (n / 10)).length - 1) := by
        rw [← pow_succ']
        congr 1
        omega
      rw [pow_succ]
      omega

theorem length_ofNat_mul_pow {n : Nat} (hn : n ≠ 0) (k : Nat) :
    (ofNat (n * 10 ^ k)).length = (ofNat n).length + k := by
  induction k with
  | zero => simp
  | succ k ih =>
    have hne : n * 10 ^ k ≠ 0 := Nat.mul_ne_zero hn (by positivity)
    have hstep : n * 10 ^ (k + 1) = 10 * (n * 10 ^ k) + 0 := by ring
    rw [hstep, ofNat_ten_mul hne (by decide), List.length_append, ih]
    rfl

theorem digitsValue_append (a b : Text) :
    digitsValue (a ++ b) = digitsValue a * 10 ^ b.length + digitsValue b := by
  induction b using List.reverseRecOn with
  | nil => simp [digitsValue]
  | append_singleton b c ih =>
    rw [← List.append_assoc, digitsValue_concat, digitsValue_concat, ih, List.length_append,
      List.length_singleton, pow_succ]
    ring

theorem digitsValue_zeros (k : Nat) : digitsValue (List.replicate k '0') = 0 := by
  induction k with
  | zero => rfl
  | succ k ih =>
    rw [List.replicate_succ', digitsValue_concat, ih]
    rfl

end Text

namespace Binary64

open Text

theorem ofRatio_sign {num den m : Nat} {q : Int} (h : ofRatio false num den = finite false m q)
    (negative : Bool) : ofRatio negative num den = finite negative m q := by
  by_cases hn : num = 0
  · simp only [ofRatio, hn, if_true, zero, finite.injEq, true_and] at h ⊢
    exact h
  simp only [ofRatio, hn, if_false] at h ⊢
  generalize (ite (_ = Nat.pow 2 53) _ _ : Nat × Int) = rounded at h ⊢
  by_cases hq : maxExponent < rounded.2
  · simp [hq] at h
  · simp only [hq, if_false, finite.injEq, true_and] at h ⊢
    exact h

theorem ofDecimal_sign {n m : Nat} {e q : Int} (h : ofDecimal false n e = finite false m q)
    (negative : Bool) : ofDecimal negative n e = finite negative m q := by
  unfold ofDecimal at h ⊢
  split at h
  next hn =>
    cases h
    rw [if_pos hn]
    rfl
  next hn =>
    rw [if_neg hn]
    dsimp only at h ⊢
    split at h
    next => simp at h
    next h1 =>
      rw [if_neg h1]
      split at h
      next h2 =>
        cases h
        rw [if_pos h2]
        rfl
      next h2 =>
        rw [if_neg h2]
        exact ofRatio_sign h negative

theorem canonical_ofDecimal (negative : Bool) (n : Nat) (e : Int) :
    (ofDecimal negative n e).Canonical := by
  unfold ofDecimal
  split
  · exact canonical_zero negative
  · dsimp only
    split
    · trivial
    · split
      · exact canonical_zero negative
      · exact canonical_ofRatio negative _ (Nat.pow_pos (by decide))

/-- Digits that are zeros at the end do not matter, if the exponent is lower by their number. -/
theorem ofDecimal_scale (negative : Bool) (n : Nat) (e : Int) (k : Nat) :
    ofDecimal negative (n * 10 ^ k) (e - k) = ofDecimal negative n e := by
  by_cases hn : n = 0
  · simp [ofDecimal, hn]
  have hnk : n * 10 ^ k ≠ 0 := Nat.mul_ne_zero hn (by positivity)
  have hsize : ((Nat.toDigits 10 (n * 10 ^ k)).length : Int) + (e - k) =
      (Nat.toDigits 10 n).length + e := by
    have := length_ofNat_mul_pow hn k
    unfold ofNat at this
    omega
  have hratio : ofRatio negative (n * 10 ^ k * Nat.pow 10 (e - k).toNat)
      (Nat.pow 10 (-(e - k)).toNat) =
      ofRatio negative (n * Nat.pow 10 e.toNat) (Nat.pow 10 (-e).toNat) := by
    refine ofRatio_congr (Nat.pow_pos (by decide)) (Nat.pow_pos (by decide)) ?_ negative
    have hexp : k + (e - k).toNat + (-e).toNat = e.toNat + (-(e - k)).toNat := by omega
    calc n * 10 ^ k * 10 ^ (e - k).toNat * 10 ^ (-e).toNat
        = n * 10 ^ (k + (e - k).toNat + (-e).toNat) := by rw [pow_add, pow_add]; ring
      _ = n * 10 ^ e.toNat * 10 ^ (-(e - k)).toNat := by rw [hexp, pow_add]; ring
  simp only [ofDecimal, hn, hnk, if_false, hsize, hratio]

/-- A decimal number that is a binary64 number is read as this number. -/
theorem ofDecimal_exact {n m : Nat} {e q : Int} {negative : Bool} (hm : m ≠ 0)
    (hc : (finite negative m q).Canonical) (h : (n : ℚ) * 10 ^ e = m * 2 ^ q) :
    ofDecimal negative n e = finite negative m q := by
  have hmpos : (1 : ℚ) ≤ m := by exact_mod_cast Nat.pos_of_ne_zero hm
  have hn : n ≠ 0 := by
    rintro rfl
    have : (0 : ℚ) < m * 2 ^ q := by positivity
    simp only [Nat.cast_zero, zero_mul] at h
    exact absurd h (ne_of_lt this)
  obtain ⟨h1, h2⟩ := length_ofNat_bounds hn
  have hlen : 0 < (ofNat n).length := List.length_pos_iff.mpr (ofNat_ne_nil n)
  obtain ⟨hlt, hmin, hmax, _⟩ := id hc
  -- the greatest binary64 number has 309 digits before the point, the least one 323 zeros after it
  have hhigh : ((ofNat n).length : Int) + e ≤ 310 := by
    have hlow : (10 : ℚ) ^ (((ofNat n).length - 1 : Nat) + e) ≤ n * 10 ^ e := by
      rw [zpow_add₀ (by norm_num), zpow_natCast]
      gcongr
      exact_mod_cast h1
    have hbig : (m : ℚ) * 2 ^ q < 10 ^ (310 : Int) := by
      calc (m : ℚ) * 2 ^ q ≤ 2 ^ 53 * 2 ^ (971 : Int) := by
            have : (m : ℚ) ≤ 2 ^ 53 := by exact_mod_cast hlt.le
            have : (2 : ℚ) ^ q ≤ 2 ^ (971 : Int) := zpow_le_zpow_right₀ (by norm_num) hmax
            gcongr
        _ < 10 ^ (310 : Int) := by
          rw [← zpow_natCast, ← zpow_add₀ (by norm_num)]
          exact_mod_cast (by decide +kernel : 2 ^ (53 + 971) < 10 ^ 310)
    have := (zpow_lt_zpow_iff_right₀ (by norm_num : (1 : ℚ) < 10)).mp
      (lt_of_le_of_lt (h ▸ hlow) hbig)
    omega
  have hsmall : -330 ≤ ((ofNat n).length : Int) + e := by
    have hup : (n : ℚ) * 10 ^ e < 10 ^ (((ofNat n).length : Int) + e) := by
      rw [zpow_add₀ (by norm_num), zpow_natCast]
      gcongr
      exact_mod_cast h2
    have hleast : (10 : ℚ) ^ (-330 : Int) < m * 2 ^ q := by
      calc (10 : ℚ) ^ (-330 : Int) < 1 * 2 ^ (-1074 : Int) := by
            rw [one_mul, zpow_neg, zpow_neg]
            gcongr
            exact_mod_cast (by decide +kernel : 2 ^ 1074 < 10 ^ 330)
        _ ≤ m * 2 ^ q := by
          have : (2 : ℚ) ^ (-1074 : Int) ≤ 2 ^ q := zpow_le_zpow_right₀ (by norm_num) hmin
          gcongr
    have := (zpow_lt_zpow_iff_right₀ (by norm_num : (1 : ℚ) < 10)).mp
      (lt_trans hleast (h ▸ hup))
    omega
  have hratio : ofRatio negative (n * Nat.pow 10 e.toNat) (Nat.pow 10 (-e).toNat) =
      finite negative m q := by
    refine ofRatio_exact (Nat.pow_pos (by decide)) hm hc ?_
    have hz : (10 : ℚ) ^ e * 10 ^ (-e).toNat = 10 ^ e.toNat := by
      rw [zpow_eq_div 10 (by norm_num), div_mul_cancel₀ _ (by positivity)]
    have : (n : ℚ) * 10 ^ e.toNat = m * 2 ^ q * 10 ^ (-e).toNat := by
      rw [← hz, ← h]
      ring
    exact_mod_cast this
  unfold ofNat at hhigh hsmall
  simp only [ofDecimal, hn, if_false, hratio, not_lt.mpr hhigh, not_lt.mpr hsmall]

namespace Decimal

/-- The number that a decimal number reads as. -/
def value (d : Decimal) : Binary64 := ofDecimal false d.digits d.exponent

theorem readsAs_iff {d : Decimal} {m : Nat} {q : Int} :
    d.readsAs m q ↔ d.value = finite false m q := by
  simp [readsAs, value]

theorem value_go (fuel : Nat) (d : Decimal) : (normalize.go fuel d).value = d.value := by
  induction fuel generalizing d with
  | zero => rfl
  | succ fuel ih =>
    unfold normalize.go
    split
    next h =>
      have hdigits : d.digits = d.digits / 10 * 10 ^ 1 := by omega
      have := ofDecimal_scale false (d.digits / 10) (d.exponent + 1) 1
      rw [← hdigits, Nat.cast_one, add_sub_cancel_right] at this
      rw [ih]
      exact this.symm
    next => rfl

theorem value_normalize (d : Decimal) : d.normalize.value = d.value := value_go _ d

end Decimal

theorem value_of_onGrid? {tieUp : Bool} {m : Nat} {q exponent : Int} {d : Decimal}
    (h : onGrid? tieUp m q exponent = some d) : d.value = finite false m q := by
  refine Decimal.readsAs_iff.mp ?_
  unfold onGrid? at h
  dsimp only at h
  split at h
  next hb =>
    split at h
    next ha =>
      cases h
      exact (Bool.and_eq_true_iff.mp ha).2
    next =>
      cases h
      exact hb.2
  next =>
    split at h
    next ha =>
      cases h
      exact ha
    next => simp at h

theorem value_exactDecimal {m : Nat} {q : Int} (hm : m ≠ 0) (hc : (finite false m q).Canonical) :
    (exactDecimal m q).value = finite false m q := by
  refine ofDecimal_exact hm hc ?_
  unfold exactDecimal
  split
  next hq =>
    lift q to Nat using hq
    simp
  next hq =>
    obtain ⟨k, rfl⟩ : ∃ k : Nat, q = -k := ⟨(-q).toNat, by omega⟩
    have : (10 : ℚ) ^ (-(k : Int)) = 5 ^ (-(k : Int)) * 2 ^ (-(k : Int)) := by
      rw [← mul_zpow]
      norm_num
    simp only [neg_neg, Int.toNat_natCast, this, zpow_neg, zpow_natCast, Nat.pow_eq]
    push_cast
    field_simp

/-- The shortest form reads back. -/
theorem value_shortest (tieUp : Bool) {m : Nat} {q : Int} (hm : m ≠ 0)
    (hc : (finite false m q).Canonical) : (shortest tieUp m q).value = finite false m q := by
  unfold shortest
  dsimp only
  rw [Decimal.value_normalize]
  cases hf : (List.range 17).findSome? fun (n : Nat) =>
      onGrid? tieUp m q (decimalPoint (ratio m q).1 (ratio m q).2 - ((n : Int) + 1)) with
  | none => exact value_exactDecimal hm hc
  | some d =>
    obtain ⟨n, _, hd⟩ := List.exists_of_findSome?_eq_some hf
    exact value_of_onGrid? hd

section Reading

variable {ds fs : Text} (rest : Text)

/-- What the text after the digits of a magnitude says of its exponent. -/
def exponentPart? : Text → Option Int
  | [] => some 0
  | c :: s => if c == 'e' || c == 'E' then exponent? s else none

theorem magnitude?_point (hd : ∀ c ∈ ds, c.isDigit) (hf : ∀ c ∈ fs, c.isDigit) (hne : ds ≠ [])
    (hr : ∀ c ∈ rest.head?, c.isDigit = false) {e : Int} (he : exponentPart? rest = some e) :
    magnitude? (ds ++ '.' :: (fs ++ rest)) = some (digitsValue (ds ++ fs), e - fs.length) := by
  have hpoint : ∀ c ∈ ('.' :: (fs ++ rest)).head?, c.isDigit = false := by
    simp only [List.head?_cons, Option.mem_some_iff, forall_eq']
    decide
  have hempty : ds.isEmpty = false := by simpa using hne
  simp only [magnitude?, takeWhile_append_stop hd hpoint, dropWhile_append_stop hd hpoint,
    takeWhile_append_stop hf hr, dropWhile_append_stop hf hr, hempty, Bool.false_and,
    Bool.false_eq_true, if_false]
  cases rest with
  | nil => cases he; rfl
  | cons c s =>
    unfold exponentPart? at he
    by_cases hc : (c == 'e' || c == 'E') = true
    · simp only [hc, if_true] at he
      simp [hc, he]
    · simp [hc] at he

theorem magnitude?_whole (hd : ∀ c ∈ ds, c.isDigit) (hne : ds ≠ [])
    (hr : ∀ c ∈ rest.head?, c.isDigit = false ∧ c ≠ '.') {e : Int}
    (he : exponentPart? rest = some e) : magnitude? (ds ++ rest) = some (digitsValue ds, e) := by
  have hr' : ∀ c ∈ rest.head?, c.isDigit = false := fun c hc => (hr c hc).1
  have hempty : ds.isEmpty = false := by simpa using hne
  simp only [magnitude?, takeWhile_append_stop hd hr', dropWhile_append_stop hd hr']
  cases rest with
  | nil =>
    cases he
    simp [hempty]
  | cons c s =>
    have hc : c ≠ '.' := (hr c rfl).2
    unfold exponentPart? at he
    split
    next h => exact absurd (List.cons.inj h).1 hc
    next =>
      by_cases hce : (c == 'e' || c == 'E') = true
      · simp only [hce, if_true] at he
        simp [hempty, hce, he]
      · simp [hce] at he

theorem exponent?_written (e : Int) :
    exponent? (if e < 0 then '-' :: ofNat e.natAbs else '+' :: ofNat e.natAbs) = some e := by
  have hne : (ofNat e.natAbs).isEmpty = false := by simpa using ofNat_ne_nil e.natAbs
  have hall : (ofNat e.natAbs).all Char.isDigit = true :=
    List.all_eq_true.mpr fun c hc => isDigit_of_mem_ofNat hc
  split
  · simp only [exponent?, hne, hall, digitsValue_ofNat, Bool.not_true, Bool.or_self,
      Bool.false_eq_true, if_false, if_true, Option.some.injEq]
    omega
  · simp only [exponent?, hne, hall, digitsValue_ofNat, Bool.not_true, Bool.or_self,
      Bool.false_eq_true, if_false, Option.some.injEq]
    omega

end Reading

theorem isDigit_of_mem_toDigits {n : Nat} {c : Char} (h : c ∈ Nat.toDigits 10 n) : c.isDigit :=
  isDigit_of_mem_ofNat h

theorem isDigit_of_mem_zeros {k : Nat} {c : Char} (h : c ∈ List.replicate k '0') : c.isDigit := by
  rw [List.eq_of_mem_replicate h]
  decide

section Positional

variable {digits : Nat}

theorem isDigit_zero : ∀ c ∈ ['0'], c.isDigit := by
  simp only [List.mem_singleton, forall_eq]
  decide

/-- The digits of a whole number are all in front of the point, with zeros behind them. -/
theorem magnitude?_scaled (point : Bool) (digits zeros : Nat) : ∃ k : Nat,
    magnitude? (Nat.toDigits 10 digits ++ List.replicate zeros '0' ++
      if point then ['.', '0'] else []) = some (digits * 10 ^ k, (zeros : Int) - k) := by
  have hall : ∀ c ∈ Nat.toDigits 10 digits ++ List.replicate zeros '0', c.isDigit := fun c hc =>
    (List.mem_append.mp hc).elim isDigit_of_mem_toDigits isDigit_of_mem_zeros
  have hne : Nat.toDigits 10 digits ++ List.replicate zeros '0' ≠ [] :=
    List.append_ne_nil_of_left_ne_nil (ofNat_ne_nil digits) _
  have hscaled : digitsValue (Nat.toDigits 10 digits ++ List.replicate zeros '0') =
      digits * 10 ^ zeros := by
    rw [digitsValue_append, digitsValue_zeros, List.length_replicate, Nat.add_zero]
    exact congrArg (· * 10 ^ zeros) (digitsValue_ofNat digits)
  cases point with
  | false =>
    refine ⟨zeros, ?_⟩
    have hread := magnitude?_whole [] hall hne (by simp) rfl
    simp only [List.append_nil, hscaled] at hread
    simp [hread]
  | true =>
    refine ⟨zeros + 1, ?_⟩
    have hread := magnitude?_point [] hall isDigit_zero hne (by simp) rfl
    rw [digitsValue_append, hscaled, show digitsValue ['0'] = 0 from rfl] at hread
    refine hread.trans ?_
    simp only [List.length_singleton, Option.some.injEq, Prod.mk.injEq]
    exact ⟨by ring, by omega⟩

/-- The point of a number can stand between its digits. -/
theorem magnitude?_parted {place : Nat} (h : 0 < place) : magnitude?
      ((Nat.toDigits 10 digits).take place ++ ['.'] ++ (Nat.toDigits 10 digits).drop place) =
    some (digits, -(((Nat.toDigits 10 digits).length - place : Nat) : Int)) := by
  have hne : (Nat.toDigits 10 digits).take place ≠ [] := by
    simp only [ne_eq, List.take_eq_nil_iff, not_or]
    exact ⟨h.ne', ofNat_ne_nil digits⟩
  have htake : ∀ c ∈ (Nat.toDigits 10 digits).take place, c.isDigit := fun c hc =>
    isDigit_of_mem_toDigits (List.mem_of_mem_take hc)
  have hdrop : ∀ c ∈ (Nat.toDigits 10 digits).drop place, c.isDigit := fun c hc =>
    isDigit_of_mem_toDigits (List.mem_of_mem_drop hc)
  have hread := magnitude?_point [] htake hdrop hne (by simp) rfl
  have hvalue : digitsValue (Nat.toDigits 10 digits) = digits := digitsValue_ofNat digits
  rw [List.take_append_drop, hvalue, List.append_nil, List.length_drop] at hread
  rw [List.append_assoc, List.singleton_append, hread, Int.zero_sub]

/-- The point of a number can stand in front of its digits, with zeros between. -/
theorem magnitude?_fraction (digits zeros : Nat) :
    magnitude? (['0', '.'] ++ List.replicate zeros '0' ++ Nat.toDigits 10 digits) =
      some (digits, -((zeros + (Nat.toDigits 10 digits).length : Nat) : Int)) := by
  have hall : ∀ c ∈ List.replicate zeros '0' ++ Nat.toDigits 10 digits, c.isDigit := fun c hc =>
    (List.mem_append.mp hc).elim isDigit_of_mem_zeros isDigit_of_mem_toDigits
  have hread := magnitude?_point [] isDigit_zero hall (by simp) (by simp) rfl
  have hvalue : digitsValue (Nat.toDigits 10 digits) = digits := digitsValue_ofNat digits
  rw [List.append_nil, digitsValue_append, digitsValue_append, hvalue, digitsValue_zeros,
    List.length_append, List.length_replicate, show digitsValue ['0'] = 0 from rfl, Nat.zero_mul,
    Nat.zero_mul, Nat.zero_add, Nat.zero_add, Int.zero_sub] at hread
  exact hread

/-- A decimal number with its digits in their places is read with as many digits more as it has
zeros at its end. -/
theorem magnitude?_positional (point : Bool) (d : Decimal) :
    ∃ k : Nat, magnitude? (positional point d) = some (d.digits * 10 ^ k, d.exponent - k) := by
  unfold positional
  dsimp only
  split
  next he =>
    obtain ⟨k, hk⟩ := magnitude?_scaled point d.digits d.exponent.toNat
    exact ⟨k, by rw [hk, Int.toNat_of_nonneg he]⟩
  next he =>
    split
    next hplace =>
      refine ⟨0, (magnitude?_parted (by omega)).trans ?_⟩
      simp only [pow_zero, Nat.mul_one, Option.some.injEq, Prod.mk.injEq, true_and]
      omega
    next hplace =>
      refine ⟨0, (magnitude?_fraction d.digits _).trans ?_⟩
      simp only [pow_zero, Nat.mul_one, Option.some.injEq, Prod.mk.injEq, true_and]
      omega

end Positional

theorem magnitude?_scientific (d : Decimal) :
    magnitude? (scientific d) = some (d.digits, d.exponent) := by
  have hvalue : digitsValue (Nat.toDigits 10 d.digits) = d.digits := digitsValue_ofNat d.digits
  have hdigits : ∀ c ∈ Nat.toDigits 10 d.digits, c.isDigit := fun c => isDigit_of_mem_toDigits
  have hne : Nat.toDigits 10 d.digits ≠ [] := ofNat_ne_nil d.digits
  unfold scientific
  dsimp only
  generalize he : ((Nat.toDigits 10 d.digits).length : Int) + d.exponent - 1 = e
  have hpart := exponent?_written e
  generalize (if e < 0 then '-' :: ofNat e.natAbs else '+' :: ofNat e.natAbs) = written at hpart
  have hexp : exponentPart? ('e' :: written) = some e := hpart
  generalize Nat.toDigits 10 d.digits = ds at *
  cases ds with
  | nil => exact absurd rfl hne
  | cons c more =>
    cases more with
    | nil =>
      have := magnitude?_whole ('e' :: written) hdigits hne
        (by simp only [List.head?_cons, Option.mem_some_iff, forall_eq']; decide) hexp
      refine this.trans ?_
      simp only [hvalue, Option.some.injEq, Prod.mk.injEq, true_and]
      simp only [List.length_singleton] at he
      omega
    | cons c' more =>
      have hfirst : ∀ x ∈ [c], x.isDigit := fun x hx => hdigits x (by simp_all)
      have := magnitude?_point ('e' :: written) hfirst
        (fun x hx => hdigits x (List.mem_cons_of_mem _ hx))
        (by simp) (by simp only [List.head?_cons, Option.mem_some_iff, forall_eq']; decide) hexp
      simp only [List.singleton_append, hvalue] at this
      refine (congrArg magnitude? ?_).trans (this.trans ?_)
      · simp
      · simp only [Option.some.injEq, Prod.mk.injEq, true_and]
        simp only [List.length_cons] at he ⊢
        omega

theorem toLower_of_isDigit {c : Char} (h : c.isDigit) : c.toLower = c := by
  refine Char.toLower_eq_of_not_isUpper fun hu => ?_
  simp only [Char.isDigit, Char.isUpper, Bool.and_eq_true, decide_eq_true_eq, ge_iff_le,
    UInt32.le_iff_toNat_le] at h hu
  have : '9'.val.toNat < 'A'.val.toNat := by decide
  omega

/-- A text that starts with a digit is none of the names of numbers. -/
theorem eqIgnoringCase_digit {c d : Char} (hc : c.isDigit) (hd : d.toLower.isDigit = false)
    (s w : Text) : eqIgnoringCase (c :: s) (d :: w) = false := by
  simp only [eqIgnoringCase, lowerAscii, List.map_cons, toLower_of_isDigit hc, beq_eq_false_iff_ne,
    ne_eq, List.cons.injEq, not_and]
  rintro rfl
  rw [hc] at hd
  exact absurd hd (by decide)

/-- A text that starts with a digit, after a sign or without one, is read as its magnitude. -/
theorem ofText?_sign {s : Text} {n : Nat} {e : Int} (hs : ∃ c t, s = c :: t ∧ c.isDigit)
    (hm : magnitude? s = some (n, e)) (negative : Bool) :
    ofText? (sign negative ++ s) = some (ofDecimal negative n e) := by
  obtain ⟨c, t, rfl, hc⟩ := hs
  have hminus : c ≠ '-' := by
    rintro rfl
    exact absurd hc (by decide)
  have hplus : c ≠ '+' := by
    rintro rfl
    exact absurd hc (by decide)
  have hinf : eqIgnoringCase (c :: t) "inf".toList = false :=
    eqIgnoringCase_digit hc (by decide) _ _
  have hinfinity : eqIgnoringCase (c :: t) "infinity".toList = false :=
    eqIgnoringCase_digit hc (by decide) _ _
  have hnan : eqIgnoringCase (c :: t) "nan".toList = false :=
    eqIgnoringCase_digit hc (by decide) _ _
  cases negative with
  | true =>
    simp only [sign, if_true, List.singleton_append, ofText?, hinf, hinfinity, hnan, hm,
      Bool.or_self, Bool.false_eq_true, if_false, Option.map_some]
  | false =>
    simp only [sign, Bool.false_eq_true, if_false, List.nil_append]
    unfold ofText?
    split
    next negative s hsplit =>
      split at hsplit
      next h => exact absurd (List.cons.inj h).1 hminus
      next h => exact absurd (List.cons.inj h).1 hplus
      next =>
        cases hsplit
        simp only [hinf, hinfinity, hnan, hm, Bool.or_self, Bool.false_eq_true, if_false,
          Option.map_some]

theorem exists_digit_positional (point : Bool) (d : Decimal) :
    ∃ c t, positional point d = c :: t ∧ c.isDigit := by
  obtain ⟨c, more, hds⟩ := List.exists_cons_of_ne_nil (ofNat_ne_nil d.digits)
  have hc : c.isDigit := isDigit_of_mem_ofNat (n := d.digits) (by rw [hds]; simp)
  unfold ofNat at hds
  unfold positional
  dsimp only
  rw [hds]
  split
  next => exact ⟨c, _, rfl, hc⟩
  next =>
    split
    next hp =>
      generalize hplace : (((c :: more).length : Int) + d.exponent).toNat = place
      obtain ⟨k, rfl⟩ : ∃ k, place = k + 1 := ⟨place - 1, by omega⟩
      exact ⟨c, _, rfl, hc⟩
    next => exact ⟨'0', _, rfl, by decide⟩

theorem exists_digit_scientific (d : Decimal) :
    ∃ c t, scientific d = c :: t ∧ c.isDigit := by
  obtain ⟨c, more, hds⟩ := List.exists_cons_of_ne_nil (ofNat_ne_nil d.digits)
  have hc : c.isDigit := isDigit_of_mem_ofNat (n := d.digits) (by rw [hds]; simp)
  unfold ofNat at hds
  unfold scientific
  dsimp only
  rw [hds]
  cases more with
  | nil => exact ⟨c, _, rfl, hc⟩
  | cons c' more => exact ⟨c, _, rfl, hc⟩

/-- A finite number that is written in whatever format is read back. -/
theorem ofText?_write (f : Format) {negative : Bool} {m : Nat} {q : Int}
    (hc : (finite negative m q).Canonical) :
    ofText? (write f negative m q) = some (finite negative m q) := by
  by_cases hm : m = 0
  · subst hm
    have hq : q = minExponent := by
      obtain ⟨_, _, _, h⟩ := hc
      exact h.resolve_left (by decide)
    subst hq
    unfold write
    rw [if_pos rfl]
    cases f.point with
    | true => exact ofText?_sign (n := 0) (e := -1) ⟨'0', _, rfl, by decide⟩ rfl negative
    | false => exact ofText?_sign (n := 0) (e := 0) ⟨'0', _, rfl, by decide⟩ rfl negative
  have hvalue := value_shortest f.tieUp hm (q := q) hc
  have hread := ofDecimal_sign hvalue negative
  unfold write
  rw [if_neg hm]
  dsimp only
  split
  · obtain ⟨k, hk⟩ := magnitude?_positional f.point (shortest f.tieUp m q)
    rw [ofText?_sign (exists_digit_positional _ _) hk, ofDecimal_scale, hread]
  · rw [ofText?_sign (exists_digit_scientific _) (magnitude?_scientific _), hread]

end Binary64

end Stencil
