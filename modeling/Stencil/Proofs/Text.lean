import Mathlib
import Stencil.Text.Basic

namespace Stencil.Text

@[simp] theorem strip?_append (lead s : Text) : strip? lead (lead ++ s) = some s :=
  strip?_eq_some_iff.mpr rfl

theorem isDigit_of_mem_ofNat {n : Nat} {c : Char} (h : c ∈ ofNat n) : c.isDigit :=
  Nat.isDigit_of_mem_toDigits (by decide) (by decide) h

theorem not_mem_ofNat {c : Char} (h : c.isDigit = false) (n : Nat) : c ∉ ofNat n := fun hm => by
  rw [isDigit_of_mem_ofNat hm] at h
  exact absurd h (by decide)

theorem ofNat_ne_nil (n : Nat) : ofNat n ≠ [] := Nat.toDigits_ne_nil

theorem digitsValue_concat (ds : Text) (c : Char) :
    digitsValue (ds ++ [c]) = 10 * digitsValue ds + (c.toNat - 48) := by
  simp [digitsValue]

theorem toNat_digitChar {d : Nat} (h : d < 10) : d.digitChar.toNat - 48 = d := by
  have hd : d = 0 ∨ d = 1 ∨ d = 2 ∨ d = 3 ∨ d = 4 ∨ d = 5 ∨ d = 6 ∨ d = 7 ∨ d = 8 ∨ d = 9 := by
    omega
  rcases hd with rfl | rfl | rfl | rfl | rfl | rfl | rfl | rfl | rfl | rfl <;> rfl

theorem digitsValue_ofNat (n : Nat) : digitsValue (ofNat n) = n := by
  induction n using Nat.strongRecOn with
  | ind n ih =>
    unfold ofNat at *
    rw [Nat.toDigits_eq_if (by decide)]
    split
    next h => simpa [digitsValue] using toNat_digitChar h
    next h =>
      rw [digitsValue_concat, ih (n / 10) (by omega), toNat_digitChar (Nat.mod_lt n (by decide))]
      omega

theorem toNatBelow?_digits {bound : Nat} {ds : Text} (hne : ds ≠ []) (hd : ∀ c ∈ ds, c.isDigit) :
    toNatBelow? bound ds = if digitsValue ds < bound then some (digitsValue ds) else none := by
  obtain ⟨c, rest, rfl⟩ := List.exists_cons_of_ne_nil hne
  have hc : c ≠ '+' := by
    rintro rfl
    exact absurd (hd '+' List.mem_cons_self) (by decide)
  have hall : (c :: rest).all Char.isDigit = true := List.all_eq_true.mpr hd
  unfold toNatBelow?
  split
  next h => exact absurd (List.cons.inj h).1 hc
  next => simp [hall]

theorem toIndex?_ofNat {n : Nat} (h : n < indexBound) : toIndex? (ofNat n) = some n := by
  have := @toNatBelow?_digits indexBound _ (ofNat_ne_nil n) fun c hc => isDigit_of_mem_ofNat hc
  rw [digitsValue_ofNat, if_pos h] at this
  exact this

theorem takeWhile_append_stop {p : Char → Bool} {w s : Text} (hw : ∀ c ∈ w, p c)
    (hs : ∀ c ∈ s.head?, p c = false) : (w ++ s).takeWhile p = w := by
  rw [List.takeWhile_append_of_pos hw]
  cases s with
  | nil => simp
  | cons c s => simp [hs c (by simp)]

theorem dropWhile_append_stop {p : Char → Bool} {w s : Text} (hw : ∀ c ∈ w, p c)
    (hs : ∀ c ∈ s.head?, p c = false) : (w ++ s).dropWhile p = s := by
  rw [List.dropWhile_append_of_pos hw]
  cases s with
  | nil => simp
  | cons c s => simp [hs c (by simp)]

theorem dropWhile_of_all {p : Char → Bool} {w : Text} (hw : ∀ c ∈ w, p c) : w.dropWhile p = [] := by
  simpa using dropWhile_append_stop (s := []) hw (by simp)

/-- The blanks around a text that has none at its ends are left out. -/
theorem trim_append {before s after : Text} (hb : ∀ c ∈ before, isWhiteSpace c)
    (ha : ∀ c ∈ after, isWhiteSpace c) (hf : ∀ c ∈ s.head?, isWhiteSpace c = false)
    (hl : ∀ c ∈ s.getLast?, isWhiteSpace c = false) : trim (before ++ s ++ after) = s := by
  have hafter : ∀ c ∈ after.reverse, isWhiteSpace c := fun c hc => ha c (List.mem_reverse.mp hc)
  cases s with
  | nil =>
    have hall : ∀ c ∈ before ++ after, isWhiteSpace c := fun c hc =>
      (List.mem_append.mp hc).elim (hb c) (ha c)
    rw [List.append_nil, trim, trimStart, dropWhile_of_all hall]
    rfl
  | cons c s =>
    have hlast : ∀ d ∈ (c :: s).reverse.head?, isWhiteSpace d = false := by
      rw [List.head?_reverse]
      exact hl
    have hstart : (before ++ (c :: s) ++ after).dropWhile isWhiteSpace = (c :: s) ++ after := by
      rw [List.append_assoc]
      exact dropWhile_append_stop hb (by simpa using hf)
    rw [trim, trimStart, hstart, trimEnd, dropEndWhile, List.reverse_append,
      dropWhile_append_stop hafter hlast, List.reverse_reverse]

theorem trim_eq_self {s : Text} (hf : ∀ c ∈ s.head?, isWhiteSpace c = false)
    (hl : ∀ c ∈ s.getLast?, isWhiteSpace c = false) : trim s = s := by
  simpa using @trim_append [] s [] (by simp) (by simp) hf hl

theorem dropEnding?_append (s ending : Text) : dropEnding? ending (s ++ ending) = some s := by
  rw [dropEnding?, List.reverse_append, strip?_append, Option.map_some, List.reverse_reverse]

theorem eq_of_dropEnding? {ending s rest : Text} (h : dropEnding? ending s = some rest) :
    s = rest ++ ending := by
  obtain ⟨t, ht, rfl⟩ := Option.map_eq_some_iff.mp h
  have hs := congrArg List.reverse (strip?_eq_some_iff.mp ht)
  simpa using hs

theorem trim_trim (s : Text) : trim (trim s) = trim s := by
  have hstart : trimStart (trim s) = trim s := by
    cases h : trim s with
    | nil => rfl
    | cons c u =>
      have hprefix : c :: u <+: trimStart s := h ▸ List.rdropWhile_prefix isWhiteSpace _
      obtain ⟨v, hv⟩ := hprefix
      have hhead := List.head?_dropWhile_not isWhiteSpace s
      rw [← trimStart, ← hv] at hhead
      exact List.dropWhile_cons_of_neg (by simpa using hhead)
  have hend : trimEnd (trim s) = trim s := List.rdropWhile_idempotent isWhiteSpace _
  rw [trim, hstart, hend]

/-- What is left out at the end of a text is white space. -/
theorem exists_blanks_trimEnd (s : Text) :
    ∃ blanks, s = trimEnd s ++ blanks ∧ ∀ c ∈ blanks, isWhiteSpace c := by
  refine ⟨(s.reverse.takeWhile isWhiteSpace).reverse, ?_, fun c hc => ?_⟩
  · rw [trimEnd, dropEndWhile, ← List.reverse_append, List.takeWhile_append_dropWhile,
      List.reverse_reverse]
  · exact List.all_eq_true.mp List.all_takeWhile c (List.mem_reverse.mp hc)

theorem exists_blanks_trim (s : Text) : ∃ before after, s = before ++ trim s ++ after ∧
    (∀ c ∈ before, isWhiteSpace c) ∧ ∀ c ∈ after, isWhiteSpace c := by
  obtain ⟨after, hs, hafter⟩ := exists_blanks_trimEnd (trimStart s)
  refine ⟨s.takeWhile isWhiteSpace, after, ?_, List.all_eq_true.mp List.all_takeWhile, hafter⟩
  rw [List.append_assoc, trim, ← hs, trimStart, List.takeWhile_append_dropWhile]

theorem cut?_append_self {pat : Text} (hp : pat ≠ []) (s : Text) :
    cut? pat (pat ++ s) = some ([], s) := by
  obtain ⟨c, p, rfl⟩ := List.exists_cons_of_ne_nil hp
  have h : strip? (c :: p) (c :: (p ++ s)) = some s := strip?_append (c :: p) s
  simp only [List.cons_append, cut?, h]

theorem cut?_cons_of_strip? {pat s : Text} {c : Char} (h : strip? pat (c :: s) = none) :
    cut? pat (c :: s) = (cut? pat s).map fun r => (c :: r.1, r.2) := by
  simp only [cut?, h]

/-- A cut passes over a text in which the first character of the pattern does not occur. -/
theorem cut?_append_of_not_mem {p : Char} {pat w : Text} (h : p ∉ w) (s : Text) :
    cut? (p :: pat) (w ++ s) = (cut? (p :: pat) s).map fun r => (w ++ r.1, r.2) := by
  induction w with
  | nil => simp
  | cons c w ih =>
    have hc : strip? (p :: pat) (c :: (w ++ s)) = none := by
      have : p ≠ c := fun he => h (he ▸ List.mem_cons_self)
      simp [strip?, this]
    rw [List.cons_append, cut?_cons_of_strip? hc, ih fun hm => h (List.mem_cons_of_mem _ hm)]
    simp [Option.map_map, Function.comp_def]

theorem cut?_of_not_mem {c : Char} {s : Text} (h : c ∉ s) : cut? [c] s = none := by
  have happend : cut? [c] (s ++ []) = (cut? [c] []).map fun r => (s ++ r.1, r.2) :=
    cut?_append_of_not_mem h []
  rwa [List.append_nil] at happend

theorem cut?_append_cons {c : Char} {s : Text} (h : c ∉ s) (t : Text) :
    cut? [c] (s ++ c :: t) = some (s, t) := by
  rw [cut?_append_of_not_mem h, show c :: t = [c] ++ t from rfl, cut?_append_self (by simp)]
  simp

/-- A pattern is found at a place before which it cannot start. -/
theorem cut?_append_of_not_infix {pat a : Text} (hp : pat ≠ []) (h : ¬pat <:+: a ++ pat.dropLast)
    (rest : Text) : cut? pat (a ++ pat ++ rest) = some (a, rest) := by
  induction a with
  | nil => exact cut?_append_self hp rest
  | cons c a ih =>
    have hs : strip? pat (c :: (a ++ pat ++ rest)) = none := by
      refine Option.eq_none_iff_forall_ne_some.mpr fun t ht => h ?_
      have hwhole : pat <+: c :: (a ++ pat ++ rest) := ⟨t, (strip?_eq_some_iff.mp ht).symm⟩
      have hinit : c :: a ++ pat.dropLast <+: c :: (a ++ pat ++ rest) := by
        refine ⟨pat.getLast hp :: rest, ?_⟩
        have := List.dropLast_concat_getLast hp
        calc c :: a ++ pat.dropLast ++ pat.getLast hp :: rest
            = c :: a ++ (pat.dropLast ++ [pat.getLast hp]) ++ rest := by simp
          _ = c :: (a ++ pat ++ rest) := by rw [this]; simp
      have hlength : pat.length ≤ (c :: a ++ pat.dropLast).length := by
        have := List.length_pos_iff.mpr hp
        simp only [List.length_append, List.length_cons, List.length_dropLast]
        omega
      have hpre : pat <+: c :: a ++ pat.dropLast :=
        List.prefix_of_prefix_length_le hwhole hinit hlength
      exact hpre.isInfix
    have hih := ih fun hi => h (hi.trans (List.suffix_cons c _).isInfix)
    rw [List.cons_append, List.cons_append, cut?_cons_of_strip? hs, hih]
    rfl

/-- A pattern cannot start before the place where it is found first. -/
theorem not_infix_of_cut? {pat s before after : Text} (hp : pat ≠ [])
    (h : cut? pat s = some (before, after)) : ¬pat <:+: before ++ pat.dropLast := by
  induction s generalizing before with
  | nil =>
    unfold cut? at h
    split at h
    next he => exact absurd (List.isEmpty_iff.mp he) hp
    next => cases h
  | cons c s ih =>
    unfold cut? at h
    split at h
    · cases h
      intro hi
      have hle := hi.length_le
      have hpos := List.length_pos_iff.mpr hp
      rw [List.nil_append, List.length_dropLast] at hle
      omega
    next hno =>
      obtain ⟨⟨b, a⟩, hb, he⟩ := Option.map_eq_some_iff.mp h
      cases he
      rw [List.cons_append, List.infix_cons_iff]
      rintro (hstart | hlater)
      · have hs : c :: (b ++ pat.dropLast) <+: c :: s := by
          rw [eq_of_cut? hb, List.append_assoc]
          exact (List.prefix_cons_inj c).mpr ((List.prefix_append_right_inj b).mpr
            ((List.dropLast_prefix pat).trans (List.prefix_append pat after)))
        obtain ⟨rest, hrest⟩ := hstart.trans hs
        rw [strip?_eq_some_iff.mpr hrest.symm] at hno
        cases hno
      · exact ih hb hlater

/-- Where a pattern is found depends on what is up to its end only. -/
theorem cut?_append_of_cut? {pat s before after : Text} (hp : pat ≠ [])
    (h : cut? pat s = some (before, after)) (rest : Text) :
    cut? pat (before ++ pat ++ rest) = some (before, rest) := by
  induction s generalizing before with
  | nil =>
    unfold cut? at h
    split at h
    next he => exact absurd (List.isEmpty_iff.mp he) hp
    next => cases h
  | cons c s ih =>
    unfold cut? at h
    split at h
    · cases Option.some.inj h
      exact cut?_append_self hp rest
    next hno =>
      obtain ⟨⟨b, a⟩, hb, he⟩ := Option.map_eq_some_iff.mp h
      cases he
      have hs : strip? pat (c :: (b ++ pat ++ rest)) = none := by
        refine Option.eq_none_iff_forall_ne_some.mpr fun t ht => ?_
        have hwhole : pat <+: c :: b ++ pat ++ rest := ⟨t, (strip?_eq_some_iff.mp ht).symm⟩
        obtain ⟨u, hu⟩ : pat <+: c :: b ++ pat := by
          refine List.prefix_of_prefix_length_le hwhole (List.prefix_append _ _) ?_
          rw [List.length_append]
          exact Nat.le_add_left _ _
        have hread : strip? pat (c :: s) = some (u ++ after) := by
          rw [strip?_eq_some_iff, eq_of_cut? hb, ← List.append_assoc, hu]
          rfl
        rw [hno] at hread
        cases hread
      rw [List.cons_append, List.cons_append, cut?_cons_of_strip? hs, ih hb]
      rfl

/-- A place that is found in a text is found in what the text goes on to. -/
theorem cut?_append_right {pat s before after : Text} (hp : pat ≠ [])
    (h : cut? pat s = some (before, after)) (rest : Text) :
    cut? pat (s ++ rest) = some (before, after ++ rest) := by
  rw [eq_of_cut? h, List.append_assoc]
  exact cut?_append_of_cut? hp h _

/-- The last place of a character is found, if the character does not occur after it. -/
theorem cutLast?_append {c : Char} {after : Text} (before : Text) (h : c ∉ after) :
    cutLast? c (before ++ c :: after) = some (before, after) := by
  have hr : (before ++ c :: after).reverse = after.reverse ++ ([c] ++ before.reverse) := by simp
  unfold cutLast?
  rw [hr, cut?_append_of_not_mem (by simpa using h), cut?_append_self (by simp)]
  simp

theorem eq_of_cutLast? {c : Char} {s before after : Text}
    (h : cutLast? c s = some (before, after)) : s = before ++ c :: after := by
  obtain ⟨⟨a, b⟩, hc, he⟩ := Option.map_eq_some_iff.mp h
  cases he
  have := congrArg List.reverse (eq_of_cut? hc)
  simpa using this

theorem join_singleton (sep p : Text) : join sep [p] = p := List.intercalate_singleton

theorem join_cons_cons (sep p q : Text) (parts : List Text) :
    join sep (p :: q :: parts) = p ++ (sep ++ join sep (q :: parts)) := by
  rw [join, List.intercalate_cons_cons, List.append_assoc, join]

theorem mem_join {sep : Text} {parts : List Text} {c : Char} (h : c ∈ join sep parts) :
    c ∈ sep ∨ ∃ p ∈ parts, c ∈ p := by
  induction parts with
  | nil => simp [join] at h
  | cons p parts ih =>
    cases parts with
    | nil =>
      rw [join_singleton] at h
      exact .inr ⟨p, List.mem_cons_self, h⟩
    | cons q parts =>
      rw [join_cons_cons, List.mem_append, List.mem_append] at h
      rcases h with h | h | h
      · exact .inr ⟨p, List.mem_cons_self, h⟩
      · exact .inl h
      · exact (ih h).imp_right fun ⟨r, hr, hc⟩ => ⟨r, List.mem_cons_of_mem p hr, hc⟩

end Stencil.Text
