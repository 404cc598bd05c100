import Stencil.Proofs.Text
import Stencil.Reference

namespace Stencil

/-- A part of a marked text: a character, or a mark with its label. -/
inductive Mark where
  | char (c : Char)
  | sign (label : Text)
deriving Repr, DecidableEq

namespace Mark

def written : Mark → Text
  | char c => [c]
  | sign l => Marker.opening ++ l ++ Marker.closing

def write (ms : List Mark) : Text := ms.flatMap written

@[simp] theorem write_nil : write [] = [] := rfl

@[simp] theorem write_char (c : Char) (ms : List Mark) : write (char c :: ms) = c :: write ms := rfl

@[simp] theorem write_sign (l : Text) (ms : List Mark) :
    write (sign l :: ms) = '%' :: '!' :: (l ++ '!' :: '%' :: write ms) := by
  simp [write, written, Marker.opening, Marker.closing]

@[simp] theorem write_append (ms ns : List Mark) : write (ms ++ ns) = write ms ++ write ns :=
  List.flatMap_append

theorem write_map_char (s : Text) : write (s.map char) = s := by
  induction s with
  | nil => rfl
  | cons c s ih => exact congrArg (List.cons c) ih

theorem head?_write {ms : List Mark} {c : Char} (h : (write ms).head? = some c) :
    c = '%' ∨ ms.head? = some (char c) := by
  cases ms with
  | nil => simp at h
  | cons m ms =>
    cases m with
    | char d => exact .inr (congrArg (some ∘ char) (Option.some.inj h))
    | sign l => exact .inl (by simpa using h.symm)

theorem getLast?_write {ms : List Mark} {c : Char} (h : (write ms).getLast? = some c) :
    c = '%' ∨ ms.getLast? = some (char c) := by
  rcases List.eq_nil_or_concat ms with rfl | ⟨ms, m, rfl⟩
  · simp at h
  · rw [List.concat_eq_append, write_append] at h
    cases m with
    | char d =>
      have : d = c := by simpa using h
      simp [this]
    | sign l =>
      refine .inl ?_
      have hl : write [sign l] = ('%' :: '!' :: (l ++ ['!'])) ++ ['%'] := by simp
      rw [hl, ← List.append_assoc, List.getLast?_concat] at h
      exact (Option.some.inj h).symm

/-- Does no part of a sign stand in a label? -/
def IsLabel (l : Text) : Prop := ∀ c ∈ l, c ≠ '%' ∧ c ≠ '!'

/-- No sign stands in the characters between marks. -/
def Settled : List Mark → Prop
  | [] => True
  | char c :: ms =>
    (c = '%' → ms.head? ≠ some (char '!')) ∧ (c = '!' → ms.head? ≠ some (char '%')) ∧ Settled ms
  | sign l :: ms => IsLabel l ∧ Settled ms

/-- Does a label follow, between exclamation marks, and then another mark? The percent sign of the
mark before and that of the one after make it look like a mark. -/
def Straddles (l next : Text) (ms : List Mark) : Prop :=
  ∃ more, ms = ('!' :: (l ++ ['!'])).map char ++ sign next :: more

theorem Settled.tail {m : Mark} {ms : List Mark} (h : Settled (m :: ms)) : Settled ms := by
  cases m with
  | char c => exact h.2.2
  | sign l => exact h.2

theorem settled_right {xs ys : List Mark} (h : Settled (xs ++ ys)) : Settled ys := by
  induction xs with
  | nil => exact h
  | cons m xs ih => exact ih h.tail

theorem IsLabel.ofNat {k : Text} (h : IsLabel k) (n : Nat) : IsLabel (k ++ Text.ofNat n) := by
  intro c hc
  rcases List.mem_append.mp hc with hc | hc
  · exact h c hc
  · refine ⟨?_, ?_⟩ <;> rintro rfl <;> exact Text.not_mem_ofNat (by decide) n hc

/-- A text without percent signs at the start of a marked text is made of characters. -/
theorem exists_chars {ms : List Mark} {s rest : Text} (h : write ms = s ++ rest) (hs : '%' ∉ s) :
    ∃ ms', ms = s.map char ++ ms' ∧ write ms' = rest := by
  induction s generalizing ms with
  | nil => exact ⟨ms, rfl, h⟩
  | cons c s ih =>
    cases ms with
    | nil => simp at h
    | cons m ms =>
      cases m with
      | char d =>
        obtain ⟨rfl, ht⟩ := List.cons.inj h
        obtain ⟨ms', rfl, hw⟩ := ih ht (List.not_mem_of_not_mem_cons hs)
        exact ⟨ms', rfl, hw⟩
      | sign l =>
        rw [write_sign] at h
        exact absurd (List.cons.inj h).1 (fun he => hs (he ▸ List.mem_cons_self))

end Mark

namespace Reference

open Mark

/-- Is this the label of a reference whose lead ends so? -/
def isLabel (k l : Text) : Bool :=
  match Text.strip? k l with
  | some ds => !ds.isEmpty && ds.all isDecimalDigit
  | none => false

theorem isLabel_iff {k l : Text} :
    isLabel k l ↔ ∃ ds, l = k ++ ds ∧ ds ≠ [] ∧ ∀ c ∈ ds, isDecimalDigit c := by
  unfold isLabel
  constructor
  · intro h
    split at h
    next ds hs =>
      simp only [Bool.and_eq_true, Bool.not_eq_eq_eq_not, Bool.not_true, List.isEmpty_eq_false_iff,
        List.all_eq_true] at h
      exact ⟨ds, Text.strip?_eq_some_iff.mp hs, h.1, h.2⟩
    next => simp at h
  · rintro ⟨ds, rfl, hne, hd⟩
    simpa [hne] using hd

theorem isLabel_ofNat (k : Text) (n : Nat) : isLabel k (k ++ Text.ofNat n) :=
  isLabel_iff.mpr ⟨Text.ofNat n, rfl, Text.ofNat_ne_nil n, fun c hc => by
    simp [isDecimalDigit, Text.isDigit_of_mem_ofNat hc]⟩

/-- Between a mark that a pass does not read and another mark stands no label that it would read. If
it is the label of nothing known, it may stand there before a mark that the pass does not read. -/
def Apart (k : Text) (known : Text → Bool) : List Mark → Prop
  | [] => True
  | char _ :: ms => Apart k known ms
  | sign l :: ms =>
    (isLabel k l = false → ∀ ds next, isLabel k (k ++ ds) → Straddles (k ++ ds) next ms →
      known ds = false ∧ isLabel k next = false) ∧ Apart k known ms

theorem apart_of_isLabel {k : Text} {known : Text → Bool} {ms : List Mark}
    (h : ∀ l, sign l ∈ ms → isLabel k l) : Apart k known ms := by
  induction ms with
  | nil => trivial
  | cons m ms ih =>
    have ih := ih fun l hl => h l (List.mem_cons_of_mem _ hl)
    cases m with
    | char c => exact ih
    | sign l => exact ⟨fun hf => absurd (h l List.mem_cons_self) (by simp [hf]), ih⟩

/-- Does no exclamation mark follow a mark? Then nothing can straddle two of them. -/
def isCalm : List Mark → Bool
  | sign _ :: char '!' :: _ => false
  | _ :: ms => isCalm ms
  | [] => true

theorem apart_of_isCalm {k : Text} {known : Text → Bool} {ms : List Mark} (h : isCalm ms) :
    Apart k known ms := by
  fun_induction isCalm ms with
  | case1 => simp at h
  | case2 m ms hm ih =>
    cases m with
    | char c => exact ih h
    | sign l =>
      refine ⟨fun _ ds next _ ⟨more, he⟩ => ?_, ih h⟩
      exact absurd (by rw [he]; rfl) (hm l (((k ++ ds) ++ ['!']).map char ++ sign next :: more) rfl)
  | case3 => trivial

theorem ne_of_isDecimalDigit {c : Char} (h : isDecimalDigit c) : c ≠ '%' ∧ c ≠ '!' := by
  refine ⟨?_, ?_⟩ <;> rintro rfl <;> exact absurd h (by decide)

theorem length_of_digits? {lead s ds rest : Text} (h : digits? lead s = some (ds, rest)) :
    rest.length < s.length := by
  have hlength := congrArg List.length (eq_of_digits? h)
  simp only [List.length_append, Marker.closing, List.length_cons] at hlength
  omega

/-- What is read as a reference is an opening sign, the label and a closing sign. -/
theorem digits?_eq_some_iff {k s ds rest : Text} :
    digits? (Marker.opening ++ k) s = some (ds, rest) ↔
      s = '%' :: '!' :: (k ++ ds ++ '!' :: '%' :: rest) ∧ ds ≠ [] ∧ ∀ c ∈ ds, isDecimalDigit c := by
  constructor
  · intro h
    have he := eq_of_digits? h
    obtain ⟨s', hs, h⟩ := Option.bind_eq_some_iff.mp h
    split at h
    next => simp at h
    next hne =>
      obtain ⟨r, hr, hh⟩ := Option.map_eq_some_iff.mp h
      cases hh
      refine ⟨by simpa [Marker.opening, Marker.closing] using he, by simpa using hne, ?_⟩
      exact List.all_eq_true.mp List.all_takeWhile
  · rintro ⟨rfl, hne, hd⟩
    have hstop : ∀ c ∈ ('!' :: '%' :: rest).head?, isDecimalDigit c = false := by
      intro c hc
      cases Option.some.inj hc
      decide
    have hs : '%' :: '!' :: (k ++ ds ++ '!' :: '%' :: rest) =
        Marker.opening ++ k ++ (ds ++ '!' :: '%' :: rest) := by simp [Marker.opening]
    rw [digits?, hs, Text.strip?_append, Option.bind_some, Text.takeWhile_append_stop hd hstop,
      Text.dropWhile_append_stop hd hstop]
    simp [hne, Marker.closing, Text.strip?]

theorem digits?_of_ne {k s : Text} {c : Char} (hc : c ≠ '%') :
    digits? (Marker.opening ++ k) (c :: s) = none := by
  refine Option.eq_none_iff_forall_ne_some.mpr fun ⟨ds, rest⟩ h => ?_
  exact hc (List.cons.inj (digits?_eq_some_iff.1 h).1).1

theorem digits?_append {k s t ds rest : Text}
    (h : digits? (Marker.opening ++ k) s = some (ds, rest)) :
    digits? (Marker.opening ++ k) (s ++ t) = some (ds, rest ++ t) := by
  obtain ⟨he, hne, hd⟩ := digits?_eq_some_iff.1 h
  exact digits?_eq_some_iff.2 ⟨by rw [he]; simp, hne, hd⟩

/-- A reference that was written is read back. -/
theorem digits?_write (k : Text) (n : Nat) (s : Text) : digits? (Marker.opening ++ k)
    (write (Marker.opening ++ k) n ++ s) = some (Text.ofNat n, s) := by
  have hd : ∀ c ∈ Text.ofNat n, isDecimalDigit c := fun c hc => by
    simp [isDecimalDigit, Text.isDigit_of_mem_ofNat hc]
  exact digits?_eq_some_iff.2
    ⟨by simp [write, Marker.opening, Marker.closing], Text.ofNat_ne_nil n, hd⟩

/-- What is read as a reference after a percent sign straddles two marks. -/
theorem straddles_of_digits? {k ds rest : Text} {ms : List Mark} (hk : IsLabel k) (hs : Settled ms)
    (h : digits? (Marker.opening ++ k) ('%' :: Mark.write ms) = some (ds, rest)) :
    isLabel k (k ++ ds) ∧ ∃ next, Straddles (k ++ ds) next ms := by
  obtain ⟨he, hne, hd⟩ := digits?_eq_some_iff.1 h
  refine ⟨isLabel_iff.mpr ⟨ds, rfl, hne, hd⟩, ?_⟩
  have hw : Mark.write ms = ('!' :: (k ++ ds ++ ['!'])) ++ '%' :: rest := by
    simpa using (List.cons.inj he).2
  have hno : '%' ∉ '!' :: (k ++ ds ++ ['!']) := by
    intro hm
    simp only [List.mem_cons, List.mem_append, List.not_mem_nil, or_false] at hm
    rcases hm with hm | (hm | hm) | hm
    · exact absurd hm (by decide)
    · exact (hk _ hm).1 rfl
    · exact (ne_of_isDecimalDigit (hd _ hm)).1 rfl
    · exact absurd hm (by decide)
  obtain ⟨ms', rfl, hw'⟩ := exists_chars hw hno
  -- After an exclamation mark a percent sign can only be that of a mark.
  have hlast : ∀ {t : Text} {ns : List Mark}, Settled ((t ++ ['!']).map char ++ ns) →
      ns.head? ≠ some (char '%') := by
    intro t ns h
    induction t with
    | nil => exact h.2.1 rfl
    | cons c t ih => exact ih h.2.2
  have hhead := hlast (t := '!' :: (k ++ ds)) hs
  cases ms' with
  | nil => simp at hw'
  | cons m more =>
    cases m with
    | char c =>
      obtain ⟨rfl, -⟩ := List.cons.inj hw'
      exact absurd rfl hhead
    | sign next => exact ⟨next, more, by simp⟩

/-- What straddles two marks is read as a reference, from the percent sign of the first one on. -/
theorem digits?_straddled {k ds : Text} (hd : isLabel k (k ++ ds)) (next : Text)
    (more : List Mark) : digits? (Marker.opening ++ k)
      ('%' :: Mark.write (('!' :: (k ++ ds ++ ['!'])).map char ++ sign next :: more)) =
        some (ds, '!' :: (next ++ '!' :: '%' :: Mark.write more)) := by
  obtain ⟨ds', he, hne, hdigits⟩ := isLabel_iff.mp hd
  obtain rfl := List.append_cancel_left he
  rw [digits?_eq_some_iff, write_append, write_map_char, write_sign]
  exact ⟨by simp, hne, hdigits⟩

theorem substitute_cons_of_none {lead s : Text} {c : Char} {meaning : Text → Option Text}
    (h : digits? lead (c :: s) = none) :
    substitute lead meaning (c :: s) = c :: substitute lead meaning s := by
  rw [substitute]
  split
  next hh => rw [h] at hh; exact absurd hh (by simp)
  next => rfl

theorem substitute_of_some {lead s ds rest : Text} {meaning : Text → Option Text}
    (h : digits? lead s = some (ds, rest)) : substitute lead meaning s =
      (meaning ds).getD (lead ++ ds ++ Marker.closing) ++ substitute lead meaning rest := by
  cases s with
  | nil =>
    have he := eq_of_digits? h
    simp [Marker.closing] at he
  | cons c s =>
    rw [substitute]
    split
    next hh => cases Option.some.inj (h.symm.trans hh); rfl
    next hh => rw [h] at hh; exact absurd hh (by simp)

theorem substitute_append_of_not_mem {k s : Text} {meaning : Text → Option Text} (hs : '%' ∉ s)
    (t : Text) : substitute (Marker.opening ++ k) meaning (s ++ t) =
      s ++ substitute (Marker.opening ++ k) meaning t := by
  induction s with
  | nil => rfl
  | cons c s ih =>
    have hc : c ≠ '%' := fun he => hs (he ▸ List.mem_cons_self)
    rw [List.cons_append, substitute_cons_of_none (digits?_of_ne hc),
      ih (List.not_mem_of_not_mem_cons hs), List.cons_append]

def substituted (k : Text) (meaning : Text → Option Text) : Mark → Text
  | .char c => [c]
  | .sign l =>
    if isLabel k l then (meaning (l.drop k.length)).getD (sign l).written else (sign l).written

theorem flatMap_substituted {k : Text} {meaning : Text → Option Text} {ms : List Mark}
    (h : ∀ l, sign l ∈ ms → isLabel k l = false) : ms.flatMap (substituted k meaning) =
    Mark.write ms := by
  rw [Mark.write, List.flatMap_def, List.flatMap_def]
  refine congrArg List.flatten (List.map_congr_left fun m hm => ?_)
  cases m with
  | char c => rfl
  | sign l => simp [substituted, h l hm]

theorem digits?_of_unread {k l : Text} (hk : IsLabel k) (hl : IsLabel l)
    (hr : isLabel k l = false) (ms : List Mark) :
    digits? (Marker.opening ++ k) (Mark.write (sign l :: ms)) = none := by
  refine Option.eq_none_iff_forall_ne_some.mpr fun ⟨ds, rest⟩ h => Bool.eq_false_iff.mp hr ?_
  obtain ⟨he, hne, hd⟩ := digits?_eq_some_iff.1 h
  refine isLabel_iff.mpr ⟨ds, ?_, hne, hd⟩
  rw [write_sign] at he
  have he : l ++ '!' :: ('%' :: Mark.write ms) = (k ++ ds) ++ '!' :: ('%' :: rest) := by
    simpa using he
  have htake : ∀ {w : Text}, IsLabel w → ∀ t : Text, (w ++ '!' :: t).takeWhile (· ≠ '!') = w :=
    fun hw t => Text.takeWhile_append_stop (fun c hc => by simpa using (hw c hc).2) (by simp)
  have hkd : IsLabel (k ++ ds) := by
    intro c hc
    rcases List.mem_append.mp hc with hc | hc
    · exact hk c hc
    · exact ne_of_isDecimalDigit (hd c hc)
  rw [← htake hl ('%' :: Mark.write ms), he, htake hkd]

/-- The percent sign that ends a mark stays, even where it starts what is read as a reference to
nothing. -/
theorem substitute_percent {k : Text} (hk : IsLabel k) {meaning : Text → Option Text}
    {ms : List Mark} (hs : Settled ms)
    (h : ∀ ds next, isLabel k (k ++ ds) → Straddles (k ++ ds) next ms →
      meaning ds = none ∧ isLabel k next = false) :
    substitute (Marker.opening ++ k) meaning ('%' :: Mark.write ms) =
      '%' :: substitute (Marker.opening ++ k) meaning (Mark.write ms) := by
  cases hd : digits? (Marker.opening ++ k) ('%' :: Mark.write ms) with
  | none => exact substitute_cons_of_none hd
  | some r =>
    obtain ⟨ds, rest⟩ := r
    obtain ⟨hread, next, more, rfl⟩ := straddles_of_digits? hk hs hd
    obtain ⟨hnone, hnext⟩ := h ds next hread ⟨more, rfl⟩
    have hlabel : IsLabel next := (settled_right hs).1
    have hkd : '%' ∉ '!' :: (k ++ ds ++ ['!']) := by
      obtain ⟨_, _, hdigits⟩ := digits?_eq_some_iff.1 hd
      have hk : '%' ∉ k := fun hm => (hk _ hm).1 rfl
      have hds : '%' ∉ ds := fun hm => (ne_of_isDecimalDigit (hdigits _ hm)).1 rfl
      simp [hk, hds]
    have hunread := digits?_of_unread hk hlabel hnext more
    rw [write_sign] at hunread
    rw [substitute_of_some (digits?_straddled hread next more), hnone, write_append, write_map_char,
      write_sign, substitute_append_of_not_mem hkd, substitute_cons_of_none hunread]
    simp [Marker.opening, Marker.closing]

/-- No reference starts at a character of a settled text. -/
theorem digits?_char {k : Text} (hk : IsLabel k) {c : Char} {ms : List Mark}
    (hs : Settled (char c :: ms)) : digits? (Marker.opening ++ k) (c :: Mark.write ms) = none := by
  refine Option.eq_none_iff_forall_ne_some.mpr fun ⟨ds, rest⟩ h => ?_
  have hc := (List.cons.inj (digits?_eq_some_iff.1 h).1).1
  subst hc
  obtain ⟨_, next, more, rfl⟩ := straddles_of_digits? hk hs.2.2 h
  exact hs.1 rfl rfl

theorem substitute_read {k l : Text} {meaning : Text → Option Text} (hr : isLabel k l)
    (ms : List Mark) : substitute (Marker.opening ++ k) meaning (Mark.write (sign l :: ms)) =
      substituted k meaning (sign l) ++
        substitute (Marker.opening ++ k) meaning (Mark.write ms) := by
  obtain ⟨ds, rfl, hne, hd⟩ := isLabel_iff.mp hr
  have hread : digits? (Marker.opening ++ k) (Mark.write (sign (k ++ ds) :: ms)) =
      some (ds, Mark.write ms) := digits?_eq_some_iff.2 ⟨write_sign _ _, hne, hd⟩
  rw [substitute_of_some hread, substituted, if_pos hr, List.drop_left]
  simp [written]

/-- A mark that is not read stays, up to its last percent sign. -/
theorem substitute_unread {k l : Text} (hk : IsLabel k) (hl : IsLabel l) (hr : isLabel k l = false)
    (meaning : Text → Option Text) (ms : List Mark) :
    substitute (Marker.opening ++ k) meaning (Mark.write (sign l :: ms)) = '%' :: '!' ::
      (l ++ '!' :: substitute (Marker.opening ++ k) meaning ('%' :: Mark.write ms)) := by
  have hmid : '%' ∉ '!' :: (l ++ ['!']) := by
    have : '%' ∉ l := fun hm => (hl _ hm).1 rfl
    simp [this]
  have hsplit : Mark.write (sign l :: ms) =
      '%' :: (('!' :: (l ++ ['!'])) ++ '%' :: Mark.write ms) := by simp
  have hnone := digits?_of_unread hk hl hr ms
  rw [hsplit] at hnone ⊢
  rw [substitute_cons_of_none hnone, substitute_append_of_not_mem hmid]
  simp

/-- A pass replaces the marks that it reads, and nothing else. -/
theorem substitute_write {k : Text} (hk : IsLabel k) {meaning : Text → Option Text}
    {known : Text → Bool} (hknown : ∀ ds, (meaning ds).isSome = known ds) {ms : List Mark}
    (hs : Settled ms) (ha : Apart k known ms) :
    substitute (Marker.opening ++ k) meaning (Mark.write ms) =
      ms.flatMap (substituted k meaning) := by
  induction ms with
  | nil => simp [substitute]
  | cons m ms ih =>
    cases m with
    | char c =>
      rw [write_char, substitute_cons_of_none (digits?_char hk hs), ih hs.2.2 ha]
      rfl
    | sign l =>
      obtain ⟨hl, hs⟩ := hs
      have ih := ih hs ha.2
      rw [List.flatMap_cons]
      cases hr : isLabel k l with
      | true => rw [substitute_read hr, ih]
      | false =>
        have hpercent : substitute (Marker.opening ++ k) meaning ('%' :: Mark.write ms) =
            '%' :: substitute (Marker.opening ++ k) meaning (Mark.write ms) :=
          substitute_percent hk hs fun ds next hd hst => by
            obtain ⟨hds, hnext⟩ := ha.1 hr ds next hd hst
            exact ⟨Option.not_isSome_iff_eq_none.mp (by simp [hknown, hds]), hnext⟩
        rw [substitute_unread hk hl hr, hpercent, ih]
        simp [substituted, hr, written, Marker.opening, Marker.closing]

end Reference

namespace Mark

/-- The marks of characters and other things, when a sign that stands literally among the characters
is written as a mark. -/
def ofPage {β : Type} (f : β → List Mark) : List (Char ⊕ β) → List Mark
  | .inl '%' :: .inl '!' :: ps => sign ['o'] :: ofPage f ps
  | .inl '!' :: .inl '%' :: ps => sign ['c'] :: ofPage f ps
  | .inl c :: ps => char c :: ofPage f ps
  | .inr b :: ps => f b ++ ofPage f ps
  | [] => []

/-- The marks of a text whose literal signs are written as marks. -/
def ofText (s : Text) : List Mark := ofPage (fun l : Text => [sign l]) (s.map .inl)

variable {β : Type}

/-- No sign starts with a character before others. -/
def Lone (c : Char) (ps : List (Char ⊕ β)) : Prop :=
  (c = '%' → ps.head? ≠ some (.inl '!')) ∧ (c = '!' → ps.head? ≠ some (.inl '%'))

theorem lone_of_forall {c : Char} {ps : List (Char ⊕ β)}
    (h1 : ∀ qs, ps = .inl '!' :: qs → c = '%' → False)
    (h2 : ∀ qs, ps = .inl '%' :: qs → c = '!' → False) : Lone c ps := by
  refine ⟨fun hc hh => ?_, fun hc hh => ?_⟩
  · obtain ⟨qs, hqs⟩ := List.head?_eq_some_iff.mp hh
    exact h1 qs hqs hc
  · obtain ⟨qs, hqs⟩ := List.head?_eq_some_iff.mp hh
    exact h2 qs hqs hc

/-- It depends only on the next character whether a sign starts. -/
theorem Lone.of_head? {γ : Type} {c : Char} {ps : List (Char ⊕ β)} {qs : List (Char ⊕ γ)}
    (h : Lone c ps) (hh : ∀ d, d = '%' ∨ d = '!' → qs.head? = some (.inl d) →
      ps.head? = some (.inl d)) : Lone c qs :=
  ⟨fun hc hq => h.1 hc (hh '!' (.inr rfl) hq), fun hc hq => h.2 hc (hh '%' (.inl rfl) hq)⟩

theorem ofPage_char (f : β → List Mark) {c : Char} {ps : List (Char ⊕ β)} (h : Lone c ps) :
    ofPage f (.inl c :: ps) = char c :: ofPage f ps := by
  rw [ofPage]
  · rintro ps' rfl rfl
    exact h.1 rfl rfl
  · rintro ps' rfl rfl
    exact h.2 rfl rfl

theorem write_ofText (s : Text) : write (ofText s) = Marker.encode s := by
  unfold ofText
  fun_induction Marker.encode s with
  | case1 s ih => simp [ofPage, ih, Marker.openingMark]
  | case2 s ih => simp [ofPage, ih, Marker.closingMark]
  | case3 c s h1 h2 ih =>
    have hlone : Lone c (s.map (.inl : Char → Char ⊕ Text)) := by
      cases s with
      | nil => simp [Lone]
      | cons d s =>
        exact ⟨fun hc hh => h1 s hc (congrArg (· :: s) (by simpa using hh)),
          fun hc hh => h2 s hc (congrArg (· :: s) (by simpa using hh))⟩
    rw [List.map_cons, ofPage_char _ hlone, write_char, ih]
  | case4 => rfl

theorem head?_ofPage {f : β → List Mark} {c : Char} {ps : List (Char ⊕ β)}
    (hf : ∀ b, .inr b ∈ ps.head? → (f b).head? ≠ some (char c) ∧ f b ≠ [])
    (h : (ofPage f ps).head? = some (char c)) : ps.head? = some (.inl c) := by
  fun_cases ofPage f ps with
  | case1 ps => simp [ofPage] at h
  | case2 ps => simp [ofPage] at h
  | case3 d ps h1 h2 => simp_all [ofPage]
  | case4 b ps =>
    obtain ⟨hb, hne⟩ := hf b (by simp)
    obtain ⟨m, ms, hm⟩ := List.exists_cons_of_ne_nil hne
    simp only [ofPage, hm, List.cons_append, List.head?_cons] at h hb
    exact absurd h hb
  | case5 => simp [ofPage] at h

/-- Marks that can stand between characters: no character at their ends is part of a sign. -/
structure Framed (ms : List Mark) : Prop where
  settled : Settled ms
  nonempty : ms ≠ []
  first : ∀ c, ms.head? = some (char c) → c ≠ '%' ∧ c ≠ '!'
  last : ∀ c, ms.getLast? = some (char c) → c ≠ '%' ∧ c ≠ '!'

theorem framed_sign {l : Text} (h : IsLabel l) : Framed [sign l] :=
  ⟨⟨h, trivial⟩, by simp, by simp, by simp⟩

theorem settled_append {ms ns : List Mark} (hm : Settled ms) (hn : Settled ns)
    (hl : ∀ c, ms.getLast? = some (char c) → c ≠ '%' ∧ c ≠ '!') : Settled (ms ++ ns) := by
  induction ms with
  | nil => exact hn
  | cons m ms ih =>
    have ih := ih hm.tail fun c hc => by
      cases ms with
      | nil => simp at hc
      | cons m' ms => exact hl c (by simpa using hc)
    cases m with
    | sign l => exact ⟨hm.1, ih⟩
    | char c =>
      cases ms with
      | nil =>
        obtain ⟨h1, h2⟩ := hl c rfl
        exact ⟨fun h => absurd h h1, fun h => absurd h h2, ih⟩
      | cons m' ms => exact ⟨hm.1, hm.2.1, ih⟩

theorem settled_append_of_head {ms ns : List Mark} (hm : Settled ms) (hn : Settled ns)
    (hf : ∀ c, ns.head? = some (char c) → c ≠ '%' ∧ c ≠ '!') : Settled (ms ++ ns) := by
  have hhead : ∀ {ms : List Mark} {c : Char}, (ms ++ ns).head? = some (char c) →
      c = '%' ∨ c = '!' → ms.head? = some (char c) := by
    intro ms c h hc
    cases ms with
    | nil =>
      obtain ⟨h1, h2⟩ := hf c h
      exact hc.elim (fun he => absurd he h1) fun he => absurd he h2
    | cons m ms => exact h
  induction ms with
  | nil => exact hn
  | cons m ms ih =>
    have ih := ih hm.tail
    cases m with
    | sign l => exact ⟨hm.1, ih⟩
    | char c =>
      exact ⟨fun hc h => hm.1 hc (hhead h (.inr rfl)),
        fun hc h => hm.2.1 hc (hhead h (.inl rfl)), ih⟩

theorem settled_ofPage {f : β → List Mark} {ps : List (Char ⊕ β)}
    (hf : ∀ b, .inr b ∈ ps → Framed (f b)) : Settled (ofPage f ps) := by
  have hhead : ∀ {c : Char} {ps : List (Char ⊕ β)}, (∀ b, .inr b ∈ ps → Framed (f b)) →
      c = '%' ∨ c = '!' → (ofPage f ps).head? = some (char c) → ps.head? = some (.inl c) := by
    intro c ps hf hc h
    refine head?_ofPage (fun b hb => ?_) h
    have hb := hf b (List.mem_of_mem_head? hb)
    refine ⟨fun hh => ?_, hb.nonempty⟩
    rcases hc with rfl | rfl
    · exact (hb.first _ hh).1 rfl
    · exact (hb.first _ hh).2 rfl
  fun_induction ofPage f ps with
  | case1 ps ih => exact ⟨by simp [IsLabel], ih fun b hb => hf b (by simp [hb])⟩
  | case2 ps ih => exact ⟨by simp [IsLabel], ih fun b hb => hf b (by simp [hb])⟩
  | case3 c ps h1 h2 ih =>
    have hps : ∀ b, .inr b ∈ ps → Framed (f b) := fun b hb => hf b (List.mem_cons_of_mem _ hb)
    have hlone : Lone c ps := lone_of_forall h1 h2
    exact ⟨fun hc hh => hlone.1 hc (hhead hps (.inr rfl) hh),
      fun hc hh => hlone.2 hc (hhead hps (.inl rfl) hh), ih hps⟩
  | case4 b ps ih =>
    have hb := hf b List.mem_cons_self
    exact settled_append hb.settled (ih fun b hb => hf b (List.mem_cons_of_mem _ hb)) hb.last
  | case5 => trivial

theorem settled_ofText (s : Text) : Settled (ofText s) :=
  settled_ofPage fun l hl => by simp at hl

theorem flatMap_ofPage {f f' : β → List Mark} {g : Mark → Text} {ps : List (Char ⊕ β)}
    (hc : ∀ c, g (char c) = [c]) (ho : g (sign ['o']) = Marker.openingMark)
    (hcl : g (sign ['c']) = Marker.closingMark)
    (hb : ∀ b, .inr b ∈ ps → (f b).flatMap g = write (f' b)) :
    (ofPage f ps).flatMap g = write (ofPage f' ps) := by
  fun_induction ofPage f ps with
  | case1 ps ih =>
    have := ih fun b h => hb b (by simp [h])
    simp [ofPage, ho, this, Marker.openingMark]
  | case2 ps ih =>
    have := ih fun b h => hb b (by simp [h])
    simp [ofPage, hcl, this, Marker.closingMark]
  | case3 c ps h1 h2 ih =>
    have := ih fun b h => hb b (List.mem_cons_of_mem _ h)
    simp [ofPage_char f' (lone_of_forall h1 h2), hc, this]
  | case4 b ps ih =>
    have := ih fun b h => hb b (List.mem_cons_of_mem _ h)
    simp [ofPage, hb b List.mem_cons_self, this]
  | case5 => rfl

/-- Numbers what stands among characters. Each takes as many numbers as it has parts. -/
def number {γ : Type} (parts : β → List γ) : Nat → List (Char ⊕ β) → List (Char ⊕ (Nat × β))
  | _, [] => []
  | n, .inl c :: ps => .inl c :: number parts n ps
  | n, .inr b :: ps => .inr (n, b) :: number parts (n + (parts b).length) ps

variable {γ : Type} {parts : β → List γ}

theorem head?_number {n : Nat} {c : Char} {ps : List (Char ⊕ β)}
    (h : (number parts n ps).head? = some (.inl c)) : ps.head? = some (.inl c) := by
  cases ps with
  | nil => simp [number] at h
  | cons p ps =>
    cases p with
    | inl d => simpa [number] using h
    | inr b => simp [number] at h

theorem getLast?_number {n : Nat} {c : Char} {ps : List (Char ⊕ β)}
    (h : (number parts n ps).getLast? = some (.inl c)) : ps.getLast? = some (.inl c) := by
  induction ps generalizing n with
  | nil => simp [number] at h
  | cons p ps ih =>
    have hnext : ∀ {m : Nat} {q : Char ⊕ (Nat × β)}, (q :: number parts m ps).getLast? =
        some (.inl c) → ps ≠ [] → (p :: ps).getLast? = some (.inl c) := by
      intro m q hq hne
      have hm : number parts m ps ≠ [] := by
        cases ps with
        | nil => exact absurd rfl hne
        | cons p' ps => cases p' <;> simp [number]
      rw [List.getLast?_cons_of_ne_nil hm] at hq
      rw [List.getLast?_cons_of_ne_nil hne]
      exact ih hq
    by_cases hne : ps = []
    · subst hne
      cases p with
      | inl d => simpa [number] using h
      | inr b => simp [number] at h
    · cases p <;> exact hnext h hne

theorem ofPage_number (f : β → List Mark) (n : Nat) (ps : List (Char ⊕ β)) :
    ofPage (fun v => f v.2) (number parts n ps) = ofPage f ps := by
  fun_induction ofPage f ps generalizing n with
  | case1 ps ih => exact congrArg (List.cons _) (ih n)
  | case2 ps ih => exact congrArg (List.cons _) (ih n)
  | case3 c ps h1 h2 ih =>
    have hlone : Lone c (number parts n ps) :=
      (lone_of_forall h1 h2).of_head? fun d _ hh => head?_number hh
    rw [number, ofPage_char _ hlone, ih n]
  | case4 b ps ih => exact congrArg (f b ++ ·) (ih _)
  | case5 => rfl

theorem flatMap_number {δ : Type} (g : Char → List δ) (f : β → List δ) (n : Nat)
    (ps : List (Char ⊕ β)) : (number parts n ps).flatMap (Sum.elim g fun v => f v.2) =
      ps.flatMap (Sum.elim g f) := by
  induction ps generalizing n with
  | nil => rfl
  | cons p ps ih => cases p <;> simp [number, ih]

theorem mem_of_mem_number {n : Nat} {v : Nat × β} {ps : List (Char ⊕ β)}
    (h : .inr v ∈ number parts n ps) : .inr v.2 ∈ ps := by
  induction ps generalizing n with
  | nil => simp [number] at h
  | cons p ps ih =>
    cases p with
    | inl c => exact List.mem_cons_of_mem _ (ih (by simpa [number] using h))
    | inr b =>
      rcases List.mem_cons.mp h with h | h
      · rw [Sum.inr.inj h]
        exact List.mem_cons_self
      · exact List.mem_cons_of_mem _ (ih h)

/-- The number of a thing is that of its first part among the parts of all. -/
theorem exists_of_mem_number {n k : Nat} {b : β} {ps : List (Char ⊕ β)}
    (h : .inr (k, b) ∈ number parts n ps) :
    ∃ pre post, (ps.filterMap Sum.getRight?).flatMap parts = pre ++ (parts b ++ post) ∧
      k = n + pre.length := by
  induction ps generalizing n with
  | nil => simp [number] at h
  | cons p ps ih =>
    cases p with
    | inl c => exact ih (by simpa [number] using h)
    | inr d =>
      rcases List.mem_cons.mp h with h | h
      · obtain ⟨rfl, rfl⟩ := Prod.mk.inj (Sum.inr.inj h)
        exact ⟨[], (ps.filterMap Sum.getRight?).flatMap parts, rfl, rfl⟩
      · obtain ⟨pre, post, he, hk⟩ := ih h
        refine ⟨parts d ++ pre, post, ?_, ?_⟩
        · simp [he]
        · rw [hk, List.length_append, Nat.add_assoc]

/-- The marks that stand for signs, braces and angle brackets. -/
def markers : List Char := ['o', 'c', 'b', 't']

def decoded : Mark → Text
  | char c => [c]
  | sign ['o'] => Marker.opening
  | sign ['c'] => Marker.closing
  | sign ['b'] => ['{']
  | sign ['t'] => ['<']
  | sign l => (sign l).written

/-- All marks are markers, and no percent sign between them starts what reads as one. -/
def Quiet : List Mark → Prop
  | [] => True
  | char c :: ms => (c = '%' → ∀ x ∈ markers, ¬['!', x, '!', '%'] <+: write ms) ∧ Quiet ms
  | sign l :: ms => (∃ x ∈ markers, l = [x]) ∧ Quiet ms

def decidableQuiet : (ms : List Mark) → Decidable (Quiet ms)
  | [] => .isTrue trivial
  | char _ :: ms =>
    haveI : Decidable (∀ x ∈ markers, ¬['!', x, '!', '%'] <+: write ms) := List.decidableBAll _ _
    @instDecidableAnd _ _ inferInstance (decidableQuiet ms)
  | sign l :: ms =>
    haveI : Decidable (∃ x ∈ markers, l = [x]) := List.decidableBEx _ _
    @instDecidableAnd _ _ inferInstance (decidableQuiet ms)

instance : DecidablePred Quiet := decidableQuiet

/-- No sign stands among characters. -/
def Clear {β : Type} : List (Char ⊕ β) → Prop
  | [] => True
  | .inl c :: ps =>
    (c = '%' → ps.head? ≠ some (.inl '!')) ∧ (c = '!' → ps.head? ≠ some (.inl '%')) ∧ Clear ps
  | .inr _ :: ps => Clear ps

def decidableClear {β : Type} [DecidableEq β] : (ps : List (Char ⊕ β)) → Decidable (Clear ps)
  | [] => .isTrue trivial
  | .inl _ :: ps =>
    @instDecidableAnd _ _ inferInstance (@instDecidableAnd _ _ inferInstance (decidableClear ps))
  | .inr _ :: ps => decidableClear ps

instance {β : Type} [DecidableEq β] : DecidablePred (@Clear β) := decidableClear

end Mark

namespace Marker

open Mark

theorem decode_cons {c : Char} {s : Text}
    (h : c = '%' → ∀ x ∈ markers, ¬['!', x, '!', '%'] <+: s) : decode (c :: s) = c :: decode s := by
  have hplain : ∀ {c : Char} {s : Text}, (c = '%' → s.head? ≠ some '!') →
      decode (c :: s) = c :: decode s := by
    intro c s hc
    rw [decode] <;> rintro t rfl rfl <;> exact absurd rfl (hc rfl)
  by_cases hs : c = '%' ∧ s.head? = some '!'
  · obtain ⟨rfl, hh⟩ := hs
    obtain ⟨t, rfl⟩ := List.head?_eq_some_iff.mp hh
    have hmark : ∀ x ∈ markers, ∀ u, t ≠ x :: '!' :: '%' :: u := fun x hx u ht =>
      h rfl x hx ⟨u, by simp [ht]⟩
    rw [hplain (c := '!') (by simp), decode]
    · exact hmark 'o' (by decide)
    · exact hmark 'c' (by decide)
    · exact hmark 'b' (by decide)
    · exact hmark 't' (by decide)
  · exact hplain fun hc hh => hs ⟨hc, hh⟩

/-- Reading markers back reads those that were written, and nothing else. -/
theorem decode_write {ms : List Mark} (h : Quiet ms) :
    decode (Mark.write ms) = ms.flatMap decoded := by
  induction ms with
  | nil => rfl
  | cons m ms ih =>
    cases m with
    | char c =>
      rw [write_char, decode_cons h.1, ih h.2]
      rfl
    | sign l =>
      obtain ⟨⟨x, hx, rfl⟩, h⟩ := h
      have hx : x = 'o' ∨ x = 'c' ∨ x = 'b' ∨ x = 't' := by simpa [markers] using hx
      rcases hx with rfl | rfl | rfl | rfl <;> simp [decode, ih h, decoded, opening, closing]

theorem quiet_of_settled {ms : List Mark} (h : Settled ms)
    (hl : ∀ l, sign l ∈ ms → ∃ x ∈ markers, l = [x]) : Quiet ms := by
  induction ms with
  | nil => trivial
  | cons m ms ih =>
    have ih := ih h.tail fun l hm => hl l (List.mem_cons_of_mem _ hm)
    cases m with
    | sign l => exact ⟨hl l List.mem_cons_self, ih⟩
    | char c =>
      refine ⟨fun hc x _ hp => ?_, ih⟩
      obtain ⟨t, ht⟩ := hp
      cases ms with
      | nil => simp at ht
      | cons m ms =>
        cases m with
        | char d =>
          have hd : '!' = d := (List.cons.inj ht).1
          exact h.1 hc (by simp [← hd])
        | sign l =>
          rw [write_sign] at ht
          exact absurd (List.cons.inj ht).1 (by decide)

theorem decoded_ofPage {β : Type} {f : β → List Mark} (ps : List (Char ⊕ β)) :
    (ofPage f ps).flatMap decoded =
      ps.flatMap (Sum.elim (fun c => [c]) fun b => (f b).flatMap decoded) := by
  fun_induction ofPage f ps with
  | case1 ps ih => simp [decoded, ih, opening]
  | case2 ps ih => simp [decoded, ih, closing]
  | case3 c ps h1 h2 ih => simp [decoded, ih]
  | case4 b ps ih => simp [ih]
  | case5 => rfl

theorem decoded_ofText (s : Text) : (ofText s).flatMap decoded = s := by
  rw [ofText, decoded_ofPage]
  induction s with
  | nil => rfl
  | cons c s ih => simpa using ih

theorem label_of_mem_ofPage {β : Type} {f : β → List Mark} {ps : List (Char ⊕ β)} {l : Text}
    (h : .sign l ∈ ofPage f ps) :
    (∃ x ∈ markers, l = [x]) ∨ ∃ b, .inr b ∈ ps ∧ .sign l ∈ f b := by
  have hlater : ∀ {p : Char ⊕ β} {ps : List (Char ⊕ β)},
      ((∃ x ∈ markers, l = [x]) ∨ ∃ b, .inr b ∈ ps ∧ .sign l ∈ f b) →
        (∃ x ∈ markers, l = [x]) ∨ ∃ b, .inr b ∈ p :: ps ∧ .sign l ∈ f b :=
    Or.imp_right fun ⟨b, hb, hl⟩ => ⟨b, List.mem_cons_of_mem _ hb, hl⟩
  fun_induction ofPage f ps with
  | case1 ps ih =>
    rcases List.mem_cons.mp h with h | h
    · exact .inl ⟨'o', by decide, by simpa using h⟩
    · exact hlater (hlater (ih h))
  | case2 ps ih =>
    rcases List.mem_cons.mp h with h | h
    · exact .inl ⟨'c', by decide, by simpa using h⟩
    · exact hlater (hlater (ih h))
  | case3 c ps h1 h2 ih =>
    rcases List.mem_cons.mp h with h | h
    · simp at h
    · exact hlater (ih h)
  | case4 b ps ih =>
    rcases List.mem_append.mp h with h | h
    · exact .inr ⟨b, List.mem_cons_self, h⟩
    · exact hlater (ih h)
  | case5 => simp at h

theorem label_ofText {s l : Text} (h : .sign l ∈ ofText s) : ∃ x ∈ markers, l = [x] := by
  rcases label_of_mem_ofPage h with h | ⟨b, hb, _⟩
  · exact h
  · simp at hb

/-- A text is read back from its written form. -/
theorem decode_encode (s : Text) : decode (encode s) = s := by
  rw [← write_ofText, decode_write (quiet_of_settled (settled_ofText s) fun l h => label_ofText h),
    decoded_ofText]

end Marker

end Stencil
