import Stencil.Normalized
import Stencil.Proofs.Tag
import Stencil.Proofs.Text

namespace Stencil

/-- A text in which every opening sign is that of a mark. -/
inductive Marked : Text → Prop where
  | nil : Marked []
  | char {c : Char} {s : Text} (hs : Marked s) (hc : c = '%' → s.head? ≠ some '!') :
    Marked (c :: s)
  | sign {l s : Text} (hl : ∀ c ∈ l, c.isAlphanum) (hs : Marked s) :
    Marked ('%' :: '!' :: (l ++ '!' :: '%' :: s))

/-- Can this character not stand in a mark? -/
def isBreak (c : Char) : Bool := !(c == '%' || c == '!' || c.isAlphanum)

theorem isBreak_iff {c : Char} : isBreak c ↔ c ≠ '%' ∧ c ≠ '!' ∧ ¬c.isAlphanum := by
  simp [isBreak, and_assoc]

theorem ne_of_isAlphanum {c : Char} (h : c.isAlphanum) : c ≠ '%' ∧ c ≠ '!' := by
  refine ⟨?_, ?_⟩ <;> rintro rfl <;> exact absurd h (by decide)

theorem isBreak_of_isWhiteSpace {c : Char} (h : isWhiteSpace c) : isBreak c := by
  rw [isBreak_iff]
  refine ⟨?_, ?_, fun ha => ?_⟩
  · rintro rfl
    exact absurd h (by decide)
  · rintro rfl
    exact absurd h (by decide)
  · simp only [isWhiteSpace, Char.isAlphanum, Char.isAlpha, Char.isUpper, Char.isLower,
      Char.isDigit, Bool.or_eq_true, Bool.and_eq_true, decide_eq_true_eq, beq_iff_eq,
      UInt32.le_iff_toNat_le, ge_iff_le] at h ha
    change ((65 ≤ c.toNat ∧ c.toNat ≤ 90) ∨ (97 ≤ c.toNat ∧ c.toNat ≤ 122)) ∨
      (48 ≤ c.toNat ∧ c.toNat ≤ 57) at ha
    omega

namespace Marked

variable {a b s t : Text} {c : Char}

theorem tail (h : Marked (c :: s)) (hc : c = '%' → s.head? ≠ some '!') : Marked s := by
  cases h with
  | char hs _ => exact hs
  | sign => exact absurd rfl (hc rfl)

theorem exists_sign (h : Marked ('%' :: '!' :: s)) :
    ∃ l rest, s = l ++ '!' :: '%' :: rest ∧ (∀ c ∈ l, c.isAlphanum) ∧ Marked rest := by
  generalize he : '%' :: '!' :: s = t at h
  cases h with
  | nil => cases he
  | char hs hc =>
    cases he
    exact absurd rfl (hc rfl)
  | sign hl hs =>
    cases he
    exact ⟨_, _, rfl, hl, hs⟩

/-- A marked text may be cut before any character that does not stand in marks. -/
theorem cut (h : Marked (a ++ b)) (hb : ∀ c ∈ b.head?, isBreak c) : Marked a ∧ Marked b := by
  generalize he : a ++ b = s at h
  induction h generalizing a with
  | nil =>
    obtain ⟨rfl, rfl⟩ := List.append_eq_nil_iff.mp he
    exact ⟨.nil, .nil⟩
  | @char d s hs hd ih =>
    cases a with
    | nil =>
      rw [List.nil_append] at he
      exact ⟨.nil, he ▸ .char hs hd⟩
    | cons e a =>
      rw [List.cons_append] at he
      obtain ⟨rfl, hrest⟩ := List.cons.inj he
      obtain ⟨ha, hb⟩ := ih hrest
      refine ⟨.char ha fun hp hh => hd hp ?_, hb⟩
      rw [← hrest, List.head?_append, hh]
      rfl
  | @sign l s hl hs ih =>
    have he' : a ++ b = '%' :: '!' :: (l ++ ['!', '%']) ++ s := by simpa using he
    rcases List.append_eq_append_iff.mp he' with ⟨v, hv, rfl⟩ | ⟨v, rfl, rfl⟩
    · cases v with
      | nil =>
        rw [List.append_nil] at hv
        exact ⟨hv ▸ .sign hl .nil, hs⟩
      | cons d v =>
        -- The cut is within the mark, before one of its characters.
        obtain ⟨hp, he, hd⟩ := isBreak_iff.mp (hb d rfl)
        have hm : d ∈ '%' :: '!' :: (l ++ ['!', '%']) := hv ▸ by simp
        have hm : d ∈ l := by simpa [hp, he] using hm
        exact absurd (hl d hm) hd
    · obtain ⟨hv, hb⟩ := ih rfl
      refine ⟨?_, hb⟩
      simpa using Marked.sign hl hv

/-- What follows a character that does not stand in marks is marked. -/
theorem after (h : Marked (a ++ c :: b)) (hc : isBreak c) : Marked b := by
  have hcut := (h.cut (b := c :: b) (by simpa using hc)).2
  exact hcut.tail fun hp => absurd hp (isBreak_iff.mp hc).1

theorem before (h : Marked (a ++ b)) (hb : ∀ c ∈ b, isBreak c) : Marked a :=
  (h.cut fun c hc => hb c (List.mem_of_mem_head? hc)).1

theorem of_append (h : Marked (a ++ b)) (ha : ∀ c ∈ a, isBreak c) : Marked b := by
  induction a with
  | nil => exact h
  | cons c a ih =>
    have hc := (isBreak_iff.mp (ha c List.mem_cons_self)).1
    exact ih (h.tail fun hp => absurd hp hc) fun d hd => ha d (List.mem_cons_of_mem c hd)

theorem append_of_not_mem (h : Marked b) (ha : '%' ∉ a) : Marked (a ++ b) := by
  induction a with
  | nil => exact h
  | cons c a ih =>
    refine .char (ih fun hm => ha (List.mem_cons_of_mem c hm)) fun hc => ?_
    exact absurd (hc ▸ List.mem_cons_self) ha

/-- A mark passes over readers that look for angle brackets. -/
theorem not_mem_sign {l : Text} (hl : ∀ c ∈ l, c.isAlphanum) :
    '<' ∉ '%' :: '!' :: (l ++ ['!', '%']) := by
  have hl' : '<' ∉ l := fun hm => absurd (hl _ hm) (by decide)
  simp [hl']

theorem sign_append (l s : Text) :
    '%' :: '!' :: (l ++ ['!', '%']) ++ s = '%' :: '!' :: (l ++ '!' :: '%' :: s) := by
  simp

theorem trimEnd (h : Marked s) : Marked (Text.trimEnd s) := by
  obtain ⟨blanks, hs, hblanks⟩ := Text.exists_blanks_trimEnd s
  rw [hs] at h
  exact h.before fun c hc => isBreak_of_isWhiteSpace (hblanks c hc)

theorem dropWhile {p : Char → Bool} (hp : ∀ c, p c → isBreak c) (h : Marked s) :
    Marked (s.dropWhile p) := by
  rw [← List.takeWhile_append_dropWhile (p := p) (l := s)] at h
  exact h.of_append fun c hc => hp c (List.all_eq_true.mp List.all_takeWhile c hc)

theorem trim (h : Marked s) : Marked (Text.trim s) :=
  (h.dropWhile fun _ => isBreak_of_isWhiteSpace).trimEnd

end Marked

namespace Tag

variable {c : Char} {s t : Text}

/-- Does a text start with an opening sign after which there is no closing sign? -/
def Stuck (s : Text) : Prop := ∃ t, s = '%' :: '!' :: t ∧ Text.cut? Marker.closing t = none

theorem reference?_opening (t : Text) :
    reference? ('%' :: '!' :: t) = (Text.cut? Marker.closing t).map fun r =>
      (Marker.opening ++ r.1 ++ Marker.closing, r.2) := rfl

theorem stuck_iff :
    Stuck (c :: s) ↔ (c = '%' ∧ s.head? = some '!') ∧ reference? (c :: s) = none := by
  constructor
  · rintro ⟨t, ht, hnone⟩
    cases ht
    exact ⟨⟨rfl, rfl⟩, by rw [reference?_opening, hnone, Option.map_none]⟩
  · rintro ⟨⟨rfl, hs⟩, hnone⟩
    obtain ⟨t, rfl⟩ : ∃ t, s = '!' :: t := List.head?_eq_some_iff.mp hs
    rw [reference?_opening, Option.map_eq_none_iff] at hnone
    exact ⟨t, rfl, hnone⟩

theorem eq_of_reference? {reference rest : Text} (h : reference? s = some (reference, rest)) :
    s = reference ++ rest ∧ reference ≠ [] := by
  obtain ⟨inner, hi, h⟩ := Option.bind_eq_some_iff.mp h
  obtain ⟨⟨inside, r⟩, hcut, he⟩ := Option.map_eq_some_iff.mp h
  cases he
  rw [Text.strip?_eq_some_iff.mp hi, Text.eq_of_cut? hcut]
  exact ⟨by simp, by simp [Marker.opening]⟩

theorem length_lt_of_token {token rest : Text} (h : s = token ++ rest ∧ token ≠ []) :
    rest.length < s.length := by
  have hpos := List.length_pos_iff.mpr h.2
  rw [h.1, List.length_append]
  omega

theorem length_operand_le (s : Text) : (operand s).2.length ≤ s.length := by
  induction s with
  | nil => exact Nat.le_refl _
  | cons c s ih =>
    unfold operand
    split
    · exact Nat.le_refl _
    · exact Nat.le_succ_of_le ih

/-- An operand takes something from a text that does not start with a blank, an operator or an
opening sign. -/
theorem operand_advances_iff (hc : isAsciiBlank c = false) (ho : isOperatorChar c = false) :
    (operand (c :: s)).2.length < (c :: s).length ↔ ¬(c = '%' ∧ s.head? = some '!') := by
  unfold operand
  by_cases hstop : c = '%' ∧ s.head? = some '!'
  · rw [if_pos (by simp [hstop])]
    simp [hstop]
  · rw [if_neg (by simpa [hc, ho] using hstop)]
    exact iff_of_true (Nat.lt_succ_of_le (length_operand_le s)) hstop

/-- The next token takes something from a text, unless the text starts with an opening sign that is
never closed. -/
theorem conditionToken_advances_iff (hc : isAsciiBlank c = false) :
    (conditionToken (c :: s)).2.length < (c :: s).length ↔ ¬Stuck (c :: s) := by
  rw [stuck_iff]
  unfold conditionToken
  cases hh : hole? (c :: s) with
  | some r =>
    have hbrace : c ≠ '%' := by
      rintro rfl
      exact absurd hh (by simp [hole?, Text.strip?])
    exact iff_of_true (length_lt_of_token (eq_of_hole? hh)) fun h => hbrace h.1.1
  | none =>
    cases hr : reference? (c :: s) with
    | some r =>
      have hshorter := length_lt_of_token (eq_of_reference? hr)
      exact iff_of_true hshorter fun h => Option.some_ne_none _ h.2
    | none =>
      rw [and_iff_left rfl]
      cases s with
      | nil => simp
      | cons b rest =>
        dsimp only
        split
        next ho =>
          have hsign : ¬(c = '%' ∧ (b :: rest).head? = some '!') := by
            rintro ⟨rfl, -⟩
            exact absurd ho (by decide)
          refine iff_of_true ?_ hsign
          split <;> simp
        next ho => exact operand_advances_iff hc (Bool.eq_false_iff.mpr ho)

/-- Does the splitting of a condition come to an opening sign that is never closed? -/
inductive Stalls : Text → Prop where
  | here {s : Text} (h : Stuck (s.dropWhile isAsciiBlank)) : Stalls s
  | later {s : Text} (h : Stalls (conditionToken (s.dropWhile isAsciiBlank)).2) : Stalls s

theorem stalls_iff (hd : s.dropWhile isAsciiBlank = c :: t) :
    Stalls s ↔ Stuck (c :: t) ∨ Stalls (conditionToken (c :: t)).2 := by
  rw [← hd]
  constructor
  · rintro (h | h)
    · exact .inl h
    · exact .inr h
  · rintro (h | h)
    · exact .here h
    · exact .later h

theorem not_stalls_of_blank (hd : s.dropWhile isAsciiBlank = []) : ¬Stalls s := by
  intro h
  induction h with
  | here h =>
    obtain ⟨t, ht, -⟩ := h
    rw [hd] at ht
    cases ht
  | later h ih =>
    rw [hd] at ih
    exact ih rfl

/-- A condition is split into tokens, unless an opening sign that is never closed is in the way. -/
theorem isSome_conditionTokens?_iff (s : Text) : (conditionTokens? s).isSome ↔ ¬Stalls s := by
  induction hn : s.length using Nat.strongRecOn generalizing s with
  | ind n ih =>
    have hle := Text.length_dropWhile_le isAsciiBlank s
    unfold conditionTokens?
    split
    next hd => exact iff_of_true rfl (not_stalls_of_blank hd)
    next c s' hd =>
      have hblank : isAsciiBlank c = false := by
        have hhead := List.head?_dropWhile_not isAsciiBlank s
        rw [hd] at hhead
        exact hhead
      rw [hd] at hle
      rw [stalls_iff hd, not_or, ← conditionToken_advances_iff hblank]
      dsimp only
      split
      next hlt =>
        rw [Option.isSome_map, ih _ (by omega) _ rfl]
        exact (and_iff_right hlt).symm
      next hlt => exact iff_of_false (by simp) fun h => hlt h.1

end Tag

namespace Marked

open Tag

variable {c : Char} {s : Text}

theorem cut?_closing {l rest : Text} (hl : ∀ c ∈ l, c.isAlphanum) :
    Text.cut? Marker.closing (l ++ '!' :: '%' :: rest) = some (l, rest) := by
  have hno : '!' ∉ l := fun hm => (ne_of_isAlphanum (hl _ hm)).2 rfl
  have hcut : Text.cut? ['!', '%'] ('!' :: '%' :: rest) = some ([], rest) :=
    Text.cut?_append_self (by simp) rest
  rw [Marker.closing, Text.cut?_append_of_not_mem hno, hcut, Option.map_some, List.append_nil]

theorem not_stuck (h : Marked s) : ¬Stuck s := by
  rintro ⟨t, rfl, hnone⟩
  obtain ⟨l, rest, rfl, hl, -⟩ := h.exists_sign
  rw [cut?_closing hl] at hnone
  cases hnone

theorem of_hole? {hole rest : Text} (h : Marked s) (hh : hole? s = some (hole, rest)) :
    Marked rest := by
  obtain ⟨inner, hi, hh⟩ := Option.bind_eq_some_iff.mp hh
  obtain ⟨⟨inside, r⟩, hcut, he⟩ := Option.map_eq_some_iff.mp hh
  have hs : s = ('{' :: '{' :: inside ++ ['}']) ++ '}' :: r := by
    rw [Text.strip?_eq_some_iff.mp hi, Text.eq_of_cut? hcut]
    simp
  have hr : Marked r := (hs ▸ h).after (by decide)
  dsimp only at he
  split at he <;> cases he
  · exact hr.tail fun hc => absurd hc (by decide)
  · exact hr

theorem of_reference? {reference rest : Text} (h : Marked s)
    (hr : reference? s = some (reference, rest)) : Marked rest := by
  obtain ⟨inner, hi, hr⟩ := Option.bind_eq_some_iff.mp hr
  obtain ⟨⟨inside, r⟩, hcut, he⟩ := Option.map_eq_some_iff.mp hr
  cases he
  have hs : s = '%' :: '!' :: inner := Text.strip?_eq_some_iff.mp hi
  obtain ⟨l, rest', rfl, hl, hrest⟩ := (hs ▸ h).exists_sign
  rw [cut?_closing hl] at hcut
  cases hcut
  exact hrest

theorem of_operand (h : Marked s) : Marked (operand s).2 := by
  induction s with
  | nil => exact .nil
  | cons c s ih =>
    unfold operand
    split
    · exact h
    next hstop =>
      refine ih (h.tail fun hc hs => hstop ?_)
      simp [hc, hs]

/-- What follows a token of a marked text is marked. -/
theorem of_conditionToken (h : Marked (c :: s)) : Marked (conditionToken (c :: s)).2 := by
  unfold conditionToken
  cases hh : hole? (c :: s) with
  | some r => exact h.of_hole? hh
  | none =>
    cases hr : reference? (c :: s) with
    | some r => exact h.of_reference? hr
    | none =>
      cases s with
      | nil => exact .nil
      | cons b rest =>
        dsimp only
        split
        next ho =>
          have hb : Marked (b :: rest) := h.tail fun hc => by
            subst hc
            exact absurd ho (by decide)
          split
          next hpair =>
            refine hb.tail fun hb => ?_
            subst hb
            simp [isPairOperator] at hpair
          next => exact hb
        next => exact h.of_operand

theorem not_stalls (h : Marked s) : ¬Stalls s := by
  have hblank : ∀ {s : Text}, Marked s → Marked (s.dropWhile isAsciiBlank) := fun h =>
    h.dropWhile fun c hc => isBreak_of_isWhiteSpace (isWhiteSpace_of_isAsciiBlank hc)
  intro hs
  induction hs with
  | here hstuck => exact (hblank h).not_stuck hstuck
  | @later s hlater ih =>
    refine ih ?_
    cases hd : s.dropWhile isAsciiBlank with
    | nil => exact .nil
    | cons c t => exact (hd ▸ hblank h).of_conditionToken

/-- A marked condition is split into tokens. -/
theorem conditionTokens?_isSome (h : Marked s) : (conditionTokens? s).isSome :=
  (isSome_conditionTokens?_iff s).mpr h.not_stalls

end Marked

namespace Tag

theorem eq_of_tailEnd? {condition : Bool} {previous : Char} {s tail rest : Text}
    (h : tailEnd? condition previous s = some (tail, rest)) : s = tail ++ '>' :: rest := by
  fun_induction tailEnd? condition previous s generalizing tail rest with
  | case1 => cases h
  | case2 previous c s hole r hh ih =>
    obtain ⟨⟨t, r'⟩, ht, he⟩ := Option.map_eq_some_iff.mp h
    cases he
    rw [(eq_of_hole? hh).1, ih ht, List.append_assoc]
  | case3 => cases h
  | case4 previous c s _ _ hc =>
    cases Option.some.inj h
    rw [hc.1, List.nil_append]
  | case5 previous c s _ _ _ ih =>
    obtain ⟨⟨t, r'⟩, ht, he⟩ := Option.map_eq_some_iff.mp h
    cases he
    rw [ih ht, List.cons_append]

theorem isBreak_of_nameEnds {s : Text} (h : nameEnds s) : ∀ c ∈ s.head?, isBreak c := by
  intro c hc
  rw [nameEnds, Option.mem_def.mp hc] at h
  simp only [Option.any_some, Bool.or_eq_true, beq_iff_eq] at h
  rcases h with ((((rfl | rfl) | rfl) | rfl) | rfl) | rfl <;> decide

/-- The tail of a tag in a marked text is marked, and so is what follows the tag. -/
theorem marked_of_body? {closing : Bool} {s rest : Text} {tag : Tag} (hs : Marked s)
    (h : body? closing s = some (tag, rest)) : Marked tag.tail ∧ Marked rest := by
  unfold body? at h
  dsimp only at h
  split at h
  next => cases h
  next hname =>
    obtain ⟨⟨tail, r⟩, ht, he⟩ := Option.map_eq_some_iff.mp h
    have hends : nameEnds (s.dropWhile Placeholder.isNameChar) := by
      simp only [Bool.or_eq_true, not_or, Bool.not_eq_true', Bool.not_eq_false] at hname
      exact hname.2
    have hafter : Marked (s.dropWhile Placeholder.isNameChar) := by
      rw [← List.takeWhile_append_dropWhile (p := Placeholder.isNameChar) (l := s)] at hs
      exact (hs.cut (isBreak_of_nameEnds hends)).2
    rw [eq_of_tailEnd? ht] at hafter
    have hrest : Marked r := hafter.after (by decide)
    have htail : Marked (Text.trimEnd tail) := (hafter.cut (by rintro c ⟨⟩; decide)).1.trimEnd
    dsimp only at he
    split at he
    next tail' hdrop =>
      cases he
      obtain ⟨u, hu, rfl⟩ := Option.map_eq_some_iff.mp hdrop
      have hslash : Text.trimEnd tail = u.reverse ++ ['/'] := by
        have hreverse := Text.strip?_eq_some_iff.mp hu
        simpa using congrArg List.reverse hreverse
      rw [hslash] at htail
      exact ⟨((htail.cut (by rintro c ⟨⟩; decide)).1).trim, hrest⟩
    next =>
      cases he
      exact ⟨htail.trim, hrest⟩

theorem marked_of_read? {s rest : Text} {tag : Tag} (hs : Marked s)
    (h : read? s = some (tag, rest)) : Marked tag.tail ∧ Marked rest := by
  unfold read? at h
  split at h
  next s => exact marked_of_body? (hs.after (a := ['<']) (by decide)) h
  next s _ => exact marked_of_body? (hs.after (a := []) (by decide)) h
  next => cases h

theorem isSome_attributes?_iff {literals : LiteralTable} {name tail : Text} :
    (attributes? literals name tail).isSome ↔ (isConditional name → ¬Stalls tail) := by
  unfold attributes?
  split
  next hc => rw [Option.isSome_map, isSome_conditionTokens?_iff, forall_prop_of_true hc]
  next hc => exact iff_of_true rfl fun h => absurd h hc

end Tag

namespace Normalized

variable {literals : LiteralTable}

theorem placeTag?_isSome {tag : Tag} (h : Marked tag.tail) (depth count : Nat) :
    (placeTag? literals depth count tag).isSome := by
  unfold placeTag?
  split
  · rfl
  split
  · rfl
  split
  · rfl
  split
  · split <;> rfl
  · rw [Option.isSome_map]
    exact Tag.isSome_attributes?_iff.mpr fun _ => h.not_stalls

theorem go?_isSome_append {a s : Text} (ha : '<' ∉ a) {depth count : Nat}
    (h : (go? literals depth count s).isSome) : (go? literals depth count (a ++ s)).isSome := by
  induction a with
  | nil => exact h
  | cons c a ih =>
    rw [List.cons_append, go?]
    split
    next => simpa using ih (List.not_mem_of_not_mem_cons ha)
    next tag rest hr =>
      have hc : c = '<' := by simpa using Tag.head?_of_read? hr
      exact absurd (hc ▸ List.mem_cons_self) ha

/-- A marked text has a normalized form. -/
theorem go?_isSome {s : Text} (h : Marked s) (depth count : Nat) :
    (go? literals depth count s).isSome := by
  induction hn : s.length using Nat.strongRecOn generalizing s depth count with
  | ind n ih =>
    cases h with
    | nil => simp [go?]
    | @sign l s hl hs =>
      have hlength : s.length < n := by
        simp only [← hn, List.length_cons, List.length_append]
        omega
      rw [← Marked.sign_append]
      exact go?_isSome_append (Marked.not_mem_sign hl) (ih _ hlength hs depth count rfl)
    | @char c s hs hc =>
      have hlength : s.length < n := by simp [← hn]
      have hnext : ((go? literals depth count s).map fun n =>
          { n with html := c :: n.html }).isSome := by
        rw [Option.isSome_map]
        exact ih _ hlength hs depth count rfl
      rw [go?]
      split
      next => exact hnext
      next tag rest hr =>
        obtain ⟨htail, hrest⟩ := Tag.marked_of_read? (Marked.char hs hc) hr
        have hlength := Tag.length_of_read? hr
        split
        next hp =>
          have hplace : (placeTag? literals depth count tag).isSome :=
            placeTag?_isSome htail depth count
          rw [hp] at hplace
          cases hplace
        next => exact hnext
        next text d added _ =>
          rw [Option.isSome_map]
          exact ih _ (by omega) hrest d _ rfl

end Normalized

end Stencil
