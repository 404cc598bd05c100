import Stencil.Number.Binary64
import Stencil.Proofs.Text

namespace Stencil.Binary64

/-- Is this the form in which a binary64 number is represented? Its significand has 53 bits, or
fewer if its exponent is the least one. -/
def Canonical : Binary64 → Prop
  | nan | infinite _ => True
  | finite _ m q =>
    m < 2 ^ 53 ∧ minExponent ≤ q ∧ q ≤ maxExponent ∧ (2 ^ 52 ≤ m ∨ q = minExponent)

instance (x : Binary64) : Decidable x.Canonical :=
  match x with
  | nan | infinite _ => .isTrue trivial
  | finite _ m q => inferInstanceAs (Decidable
      (m < 2 ^ 53 ∧ minExponent ≤ q ∧ q ≤ maxExponent ∧ (2 ^ 52 ≤ m ∨ q = minExponent)))

def isFinite : Binary64 → Bool
  | finite .. => true
  | _ => false

theorem canonical_zero (negative : Bool) : (zero negative).Canonical := by
  cases negative <;> decide

theorem zpow_eq_div (b : ℚ) (hb : b ≠ 0) (e : Int) : b ^ e = b ^ e.toNat / b ^ (-e).toNat := by
  rw [eq_div_iff (pow_ne_zero _ hb), ← zpow_natCast, ← zpow_natCast, ← zpow_add₀ hb]
  congr 1
  omega

/-- Bounds of a quotient by a power of two, in natural numbers and in rational ones. -/
theorem le_scaled_iff {num den : Nat} (e : Int) :
    den * 2 ^ e.toNat ≤ num * 2 ^ (-e).toNat ↔ (2 : ℚ) ^ e * den ≤ num := by
  have hpos : (0 : ℚ) < 2 ^ (-e).toNat := by positivity
  rw [zpow_eq_div 2 (by norm_num), div_mul_eq_mul_div, div_le_iff₀ hpos]
  exact_mod_cast by rw [Nat.mul_comm den]

theorem log2Quotient_spec {num den : Nat} (hn : num ≠ 0) (hd : den ≠ 0) :
    (2 : ℚ) ^ log2Quotient num den * den ≤ num ∧
      (num : ℚ) < 2 ^ (log2Quotient num den + 1) * den := by
  have hn1 : (2 : ℚ) ^ num.log2 ≤ num := by exact_mod_cast Nat.log2_self_le hn
  have hn2 : (num : ℚ) < 2 ^ (num.log2 + 1) := by exact_mod_cast Nat.lt_log2_self
  have hd1 : (2 : ℚ) ^ den.log2 ≤ den := by exact_mod_cast Nat.log2_self_le hd
  have hd2 : (den : ℚ) < 2 ^ (den.log2 + 1) := by exact_mod_cast Nat.lt_log2_self
  have hlow : (2 : ℚ) ^ ((num.log2 : Int) - den.log2 - 1) * den ≤ num := by
    calc (2 : ℚ) ^ ((num.log2 : Int) - den.log2 - 1) * den
        ≤ 2 ^ ((num.log2 : Int) - den.log2 - 1) * 2 ^ (den.log2 + 1) := by gcongr
      _ = 2 ^ num.log2 := by
        rw [← zpow_natCast, ← zpow_add₀ (by norm_num), ← zpow_natCast]
        congr 1
        push_cast
        ring
      _ ≤ num := hn1
  have hhigh : (num : ℚ) < 2 ^ ((num.log2 : Int) - den.log2 + 1) * den := by
    calc (num : ℚ) < 2 ^ (num.log2 + 1) := hn2
      _ = 2 ^ ((num.log2 : Int) - den.log2 + 1) * 2 ^ den.log2 := by
        rw [← zpow_natCast, ← zpow_natCast, ← zpow_add₀ (by norm_num)]
        congr 1
        push_cast
        ring
      _ ≤ 2 ^ ((num.log2 : Int) - den.log2 + 1) * den := by gcongr
  unfold log2Quotient
  dsimp only
  split
  next h =>
    have hlt : ¬(2 : ℚ) ^ ((num.log2 : Int) - den.log2) * den ≤ num := fun hle =>
      absurd ((le_scaled_iff _).mpr hle) (Nat.not_le_of_lt h)
    refine ⟨hlow, ?_⟩
    rw [sub_add_cancel]
    exact lt_of_not_ge hlt
  next h => exact ⟨(le_scaled_iff _).mp (Nat.le_of_not_lt h), hhigh⟩

/-- Only one power of two is below a number by less than a factor of two. -/
theorem log2Quotient_eq {num den : Nat} {l : Int} (hd : den ≠ 0)
    (h1 : (2 : ℚ) ^ l * den ≤ num) (h2 : (num : ℚ) < 2 ^ (l + 1) * den) :
    log2Quotient num den = l := by
  have hden : (0 : ℚ) < den := by exact_mod_cast Nat.pos_of_ne_zero hd
  have hn : num ≠ 0 := by
    rintro rfl
    have : (0 : ℚ) < 2 ^ l * den := by positivity
    exact absurd h1 (by push_cast; exact not_le_of_gt this)
  obtain ⟨h3, h4⟩ := log2Quotient_spec hn hd
  have hle : (2 : ℚ) ^ l < 2 ^ (log2Quotient num den + 1) :=
    lt_of_mul_lt_mul_right (lt_of_le_of_lt h1 h4) (le_of_lt hden)
  have hge : (2 : ℚ) ^ log2Quotient num den < 2 ^ (l + 1) :=
    lt_of_mul_lt_mul_right (lt_of_le_of_lt h3 h2) (le_of_lt hden)
  have := (zpow_lt_zpow_iff_right₀ (by norm_num : (1 : ℚ) < 2)).mp hle
  have := (zpow_lt_zpow_iff_right₀ (by norm_num : (1 : ℚ) < 2)).mp hge
  omega

theorem log2Quotient_congr {num den num' den' : Nat} (hn : num ≠ 0) (hd : den ≠ 0) (hd' : den' ≠ 0)
    (h : num * den' = num' * den) : log2Quotient num' den' = log2Quotient num den := by
  obtain ⟨h1, h2⟩ := log2Quotient_spec hn hd
  have hden : (0 : ℚ) < den := by exact_mod_cast Nat.pos_of_ne_zero hd
  have hden' : (0 : ℚ) < den' := by exact_mod_cast Nat.pos_of_ne_zero hd'
  have hq : (num : ℚ) * den' = num' * den := by exact_mod_cast h
  refine log2Quotient_eq hd' ?_ ?_
  · refine le_of_mul_le_mul_right ?_ hden
    calc (2 : ℚ) ^ log2Quotient num den * den' * den
        = 2 ^ log2Quotient num den * den * den' := by ring
      _ ≤ num * den' := by gcongr
      _ = num' * den := hq
  · refine lt_of_mul_lt_mul_right ?_ (le_of_lt hden)
    calc (num' : ℚ) * den = num * den' := hq.symm
      _ < 2 ^ (log2Quotient num den + 1) * den * den' := by gcongr
      _ = 2 ^ (log2Quotient num den + 1) * den' * den := by ring

theorem roundQuotient_scale {k : Nat} (hk : 0 < k) (num den : Nat) :
    roundQuotient (k * num) (k * den) = roundQuotient num den := by
  have htwice : 2 * (k * num % (k * den)) = k * (2 * (num % den)) := by
    rw [Nat.mul_mod_mul_left]
    ring
  simp only [roundQuotient, htwice, Nat.mul_div_mul_left _ _ hk, Nat.mul_lt_mul_left hk,
    Nat.mul_left_cancel_iff hk]

theorem roundQuotient_congr {num den num' den' : Nat} (hd : 0 < den) (hd' : 0 < den')
    (h : num * den' = num' * den) : roundQuotient num den = roundQuotient num' den' := by
  rw [← roundQuotient_scale hd' num den, ← roundQuotient_scale hd num' den', Nat.mul_comm den' num,
    h, Nat.mul_comm num' den, Nat.mul_comm den' den]

/-- A quotient that is a whole number is rounded to it. -/
theorem roundQuotient_mul {den : Nat} (hd : 0 < den) (m : Nat) :
    roundQuotient (m * den) den = m := by
  simp [roundQuotient, Nat.mul_div_cancel m hd, hd]

theorem le_roundQuotient {num den a : Nat} (hd : 0 < den) (h : a * den ≤ num) :
    a ≤ roundQuotient num den := by
  have := (Nat.le_div_iff_mul_le hd).mpr h
  unfold roundQuotient
  dsimp only
  split <;> omega

theorem roundQuotient_le {num den b : Nat} (hd : 0 < den) (h : num ≤ b * den) :
    roundQuotient num den ≤ b := by
  have hdiv : num / den ≤ b := Nat.div_le_of_le_mul (by rwa [Nat.mul_comm])
  rcases Nat.lt_or_eq_of_le hdiv with hlt | heq
  · unfold roundQuotient
    dsimp only
    split <;> omega
  · have hexact : num = b * den := by
      have := Nat.div_add_mod num den
      rw [heq, Nat.mul_comm] at this
      omega
    rw [hexact, roundQuotient_mul hd]

theorem ofRatio_congr {num den num' den' : Nat} (hd : 0 < den) (hd' : 0 < den')
    (h : num * den' = num' * den) (negative : Bool) :
    ofRatio negative num den = ofRatio negative num' den' := by
  by_cases hn : num = 0
  · subst hn
    have hn' : num' = 0 := by
      have : num' * den = 0 := by omega
      exact (Nat.mul_eq_zero.mp this).resolve_right (by omega)
    simp [ofRatio, hn']
  · have hn' : num' ≠ 0 := by
      rintro rfl
      have : num * den' = 0 := by omega
      exact hn ((Nat.mul_eq_zero.mp this).resolve_right (by omega))
    have hlog := log2Quotient_congr hn hd.ne' hd'.ne' h
    have hround : ∀ a b : Nat, roundQuotient (num * Nat.pow 2 a) (den * Nat.pow 2 b) =
        roundQuotient (num' * Nat.pow 2 a) (den' * Nat.pow 2 b) := fun a b => by
      refine roundQuotient_congr (Nat.mul_pos hd (Nat.two_pow_pos b))
        (Nat.mul_pos hd' (Nat.two_pow_pos b)) ?_
      calc num * Nat.pow 2 a * (den' * Nat.pow 2 b)
          = num * den' * (Nat.pow 2 a * Nat.pow 2 b) := by ring
        _ = num' * den * (Nat.pow 2 a * Nat.pow 2 b) := by rw [h]
        _ = num' * Nat.pow 2 a * (den * Nat.pow 2 b) := by ring
    simp only [ofRatio, hn, hn', if_false, hlog, hround]

/-- A quotient that is a binary64 number is rounded to this number. -/
theorem ofRatio_exact {num den m : Nat} {q : Int} {negative : Bool} (hd : 0 < den) (hm : m ≠ 0)
    (hc : (finite negative m q).Canonical) (h : (num : ℚ) = m * 2 ^ q * den) :
    ofRatio negative num den = finite negative m q := by
  obtain ⟨hlt, hmin, hmax, hfull⟩ := hc
  have hden : (0 : ℚ) < den := by exact_mod_cast hd
  have hpow : (0 : ℚ) < 2 ^ q := by positivity
  have hm1 : (2 : ℚ) ^ m.log2 ≤ m := by exact_mod_cast Nat.log2_self_le hm
  have hm2 : (m : ℚ) < 2 ^ (m.log2 + 1) := by exact_mod_cast Nat.lt_log2_self
  have hn : num ≠ 0 := by
    rintro rfl
    have : (0 : ℚ) < m * 2 ^ q * den := by
      have : (0 : ℚ) < m := by exact_mod_cast Nat.pos_of_ne_zero hm
      positivity
    exact absurd h (by push_cast; exact ne_of_lt this)
  have hlog : log2Quotient num den = m.log2 + q := by
    refine log2Quotient_eq hd.ne' ?_ ?_
    · rw [h, zpow_add₀ (by norm_num), zpow_natCast]
      gcongr
    · rw [h, show (m.log2 : Int) + q + 1 = (m.log2 + 1 : Nat) + q by push_cast; ring,
        zpow_add₀ (by norm_num), zpow_natCast]
      gcongr
  have hq : max (log2Quotient num den - 52) minExponent = q := by
    rw [hlog]
    have hlog52 : m.log2 ≤ 52 := by
      have := (Nat.log2_lt hm).mpr hlt
      omega
    rcases hfull with hfull | rfl
    · have : 52 ≤ m.log2 := (Nat.le_log2 hm).mpr hfull
      omega
    · omega
  have hround : roundQuotient (num * Nat.pow 2 (-q).toNat) (den * Nat.pow 2 q.toNat) = m := by
    have hnum : num * Nat.pow 2 (-q).toNat = m * (den * Nat.pow 2 q.toNat) := by
      have hz : (2 : ℚ) ^ q * 2 ^ (-q).toNat = 2 ^ q.toNat := by
        rw [zpow_eq_div 2 (by norm_num), div_mul_cancel₀ _ (by positivity)]
      have : (num : ℚ) * 2 ^ (-q).toNat = m * (den * 2 ^ q.toNat) := by
        rw [h, ← hz]
        ring
      exact_mod_cast this
    exact hnum ▸ roundQuotient_mul (Nat.mul_pos hd (Nat.two_pow_pos _)) m
  have hne : m ≠ Nat.pow 2 53 := fun he => absurd hlt (by rw [he]; decide)
  simp only [ofRatio, hn, if_false, hq, hround, hne, not_lt.mpr hmax]

theorem canonical_ofRatio (negative : Bool) (num : Nat) {den : Nat} (hd : 0 < den) :
    (ofRatio negative num den).Canonical := by
  by_cases hn : num = 0
  · simpa [ofRatio, hn] using canonical_zero negative
  obtain ⟨h1, h2⟩ := log2Quotient_spec hn hd.ne'
  generalize hl : log2Quotient num den = l at h1 h2
  generalize hq : max (l - 52) minExponent = q
  have hscaled : 0 < den * Nat.pow 2 q.toNat := Nat.mul_pos hd (Nat.two_pow_pos _)
  have hz : (2 : ℚ) ^ q * 2 ^ (-q).toNat = 2 ^ q.toNat := by
    rw [zpow_eq_div 2 (by norm_num), div_mul_cancel₀ _ (by positivity)]
  have hupper : roundQuotient (num * Nat.pow 2 (-q).toNat) (den * Nat.pow 2 q.toNat) ≤ 2 ^ 53 := by
    refine roundQuotient_le hscaled ?_
    have : (num : ℚ) * 2 ^ (-q).toNat ≤ 2 ^ 53 * (den * 2 ^ q.toNat) := by
      calc (num : ℚ) * 2 ^ (-q).toNat ≤ 2 ^ (l + 1) * den * 2 ^ (-q).toNat := by gcongr
        _ ≤ 2 ^ (53 + q) * den * 2 ^ (-q).toNat := by
          have : (2 : ℚ) ^ (l + 1) ≤ 2 ^ (53 + q) :=
            zpow_le_zpow_right₀ (by norm_num) (by omega)
          gcongr
        _ = 2 ^ 53 * (den * (2 ^ q * 2 ^ (-q).toNat)) := by
          rw [zpow_add₀ (by norm_num)]
          norm_num
          ring
        _ = 2 ^ 53 * (den * 2 ^ q.toNat) := by rw [hz]
    exact_mod_cast this
  have hlower : q ≠ minExponent →
      2 ^ 52 ≤ roundQuotient (num * Nat.pow 2 (-q).toNat) (den * Nat.pow 2 q.toNat) := by
    intro hne
    have hql : q = l - 52 := by omega
    refine le_roundQuotient hscaled ?_
    have : (2 : ℚ) ^ 52 * (den * 2 ^ q.toNat) ≤ num * 2 ^ (-q).toNat := by
      calc (2 : ℚ) ^ 52 * (den * 2 ^ q.toNat)
          = (2 : ℚ) ^ 52 * (den * (2 ^ q * 2 ^ (-q).toNat)) := by rw [hz]
        _ = (2 : ℚ) ^ l * den * 2 ^ (-q).toNat := by
          rw [show l = 52 + q by omega, zpow_add₀ (by norm_num)]
          norm_num
          ring
        _ ≤ num * 2 ^ (-q).toNat := by gcongr
    exact_mod_cast this
  generalize hm : roundQuotient (num * Nat.pow 2 (-q).toNat) (den * Nat.pow 2 q.toNat) = m
    at hupper hlower
  have hmin : minExponent ≤ q := by omega
  simp only [ofRatio, hn, if_false, hl, hq, hm]
  by_cases hcarry : m = Nat.pow 2 53
  · rw [if_pos hcarry]
    dsimp only
    split
    · trivial
    · exact ⟨by decide, by omega, by omega, .inl (by decide)⟩
  · rw [if_neg hcarry]
    dsimp only
    split
    · trivial
    · refine ⟨lt_of_le_of_ne hupper hcarry, hmin, by omega, ?_⟩
      by_cases he : q = minExponent
      · exact .inr he
      · exact .inl (hlower he)

end Stencil.Binary64
