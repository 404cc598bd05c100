import Stencil.Hole
import Stencil.Proofs.Text

namespace Stencil.Hole

/-- A hole whose braces can be told from what is inside. -/
structure Delimited (h : Hole) : Prop where
  opens : h.raw = false → h.inner.head? ≠ some '{'
  closes : ¬['}', '}'] <:+: h.inner ++ ['}']

def write (ps : List Piece) : Text := writePieces (fun _ => none) ps

@[simp] theorem write_nil : write [] = [] := rfl

@[simp] theorem write_char (c : Char) (ps : List Piece) : write (.inl c :: ps) = c :: write ps :=
  rfl

@[simp] theorem write_hole (h : Hole) (ps : List Piece) :
    write (.inr h :: ps) = h.written ++ write ps := rfl

@[simp] theorem write_append (ps qs : List Piece) : write (ps ++ qs) = write ps ++ write qs :=
  List.flatMap_append

theorem write_map_inl (s : Text) : write (s.map .inl) = s := by
  induction s with
  | nil => rfl
  | cons c s ih => exact congrArg (List.cons c) ih

/-- Every hole is delimited, and no brace before other braces makes a hole of its own. -/
def Parted : List Piece → Prop
  | [] => True
  | .inl c :: ps => (c = '{' → (write ps).head? ≠ some '{') ∧ Parted ps
  | .inr h :: ps => h.Delimited ∧ Parted ps

instance (h : Hole) : Decidable h.Delimited :=
  decidable_of_iff ((h.raw = false → h.inner.head? ≠ some '{') ∧ ¬['}', '}'] <:+: h.inner ++ ['}'])
    ⟨fun ⟨ho, hc⟩ => ⟨ho, hc⟩, fun h => ⟨h.opens, h.closes⟩⟩

def decidableParted : (ps : List Piece) → Decidable (Parted ps)
  | [] => .isTrue trivial
  | .inl _ :: ps => @instDecidableAnd _ _ inferInstance (decidableParted ps)
  | .inr _ :: ps => @instDecidableAnd _ _ inferInstance (decidableParted ps)

instance : DecidablePred Parted := decidableParted

theorem written_eq (h : Hole) : h.written =
    '{' :: '{' :: (if h.raw then ['{'] else []) ++ h.inner ++ (if h.raw then ['}'] else []) ++
      ['}', '}'] := by
  rcases h with ⟨raw, inner⟩
  cases raw <;> simp [written, opening, closing]

theorem Delimited.not_infix_closing {h : Hole} (hd : h.Delimited) :
    ¬closing h.raw <:+: h.inner ++ (closing h.raw).dropLast := by
  cases hr : h.raw with
  | false => exact hd.closes
  | true =>
    rintro ⟨a, b, he⟩
    have hdrop : (a ++ ['}', '}', '}'] ++ b).dropLast = h.inner ++ ['}'] := by
      have := congrArg List.dropLast he
      simpa [closing] using this
    rcases List.eq_nil_or_concat b with rfl | ⟨b, c, rfl⟩
    · exact hd.closes ⟨a, [], by simpa using hdrop⟩
    · refine hd.closes ⟨a, '}' :: b, ?_⟩
      rw [← hdrop, List.concat_eq_append, ← List.append_assoc, List.dropLast_concat]
      simp

theorem cut?_closing {h : Hole} (hd : h.Delimited) (rest : Text) :
    Text.cut? (closing h.raw) (h.inner ++ closing h.raw ++ rest) = some (h.inner, rest) :=
  Text.cut?_append_of_not_infix (by cases h.raw <;> simp [closing]) hd.not_infix_closing rest

/-- A hole is read back if its inside is told from its braces. -/
theorem lead?_written_of_cut? {h : Hole} {rest : Text}
    (hopens : h.raw = false → h.inner.head? ≠ some '{')
    (hcut : Text.cut? (closing h.raw) (h.inner ++ closing h.raw ++ rest) = some (h.inner, rest)) :
    lead? (h.written ++ rest) = some (some (h, rest)) := by
  rcases h with ⟨raw, inner⟩
  cases raw with
  | true =>
    have h3 : Text.strip? (opening true) ((⟨true, inner⟩ : Hole).written ++ rest) =
        some (inner ++ closing true ++ rest) := by
      simp [written, opening, Text.strip?]
    have h2 : Text.strip? (opening false) ((⟨true, inner⟩ : Hole).written ++ rest) =
        some ('{' :: (inner ++ closing true ++ rest)) := by
      simp [written, opening, Text.strip?]
    simp only [lead?, h2, h3, hcut, Option.bind_eq_bind, Option.bind_some]
    rfl
  | false =>
    have h2 : Text.strip? (opening false) ((⟨false, inner⟩ : Hole).written ++ rest) =
        some (inner ++ closing false ++ rest) := by
      simp [written, opening, Text.strip?]
    have h3 : Text.strip? (opening true) ((⟨false, inner⟩ : Hole).written ++ rest) = none := by
      have hhead : inner.head? ≠ some '{' := hopens rfl
      cases inner with
      | nil => simp [written, opening, closing, Text.strip?]
      | cons c inner =>
        have hc : '{' ≠ c := fun he => hhead (by simp [← he])
        simp [written, opening, Text.strip?, hc]
    simp only [lead?, h2, h3, hcut, Option.bind_eq_bind, Option.bind_some]
    rfl

/-- A delimited hole is read back, whatever follows it. -/
theorem lead?_written {h : Hole} (hd : h.Delimited) (rest : Text) :
    lead? (h.written ++ rest) = some (some (h, rest)) :=
  lead?_written_of_cut? hd.opens (cut?_closing hd rest)

theorem lead?_char {c : Char} {s : Text} (h : c = '{' → s.head? ≠ some '{') :
    lead? (c :: s) = none := by
  have hs : Text.strip? (opening false) (c :: s) = none := by
    refine Option.eq_none_iff_forall_ne_some.mpr fun r hr => ?_
    have := Text.strip?_eq_some_iff.mp hr
    simp only [opening, Bool.false_eq_true, if_false, List.cons_append, List.nil_append,
      List.cons.injEq] at this
    exact h this.1 (by simp [this.2])
  simp [lead?, hs]

theorem lead?_cons_eq_none_iff {c : Char} {s : Text} :
    lead? (c :: s) = none ↔ (c = '{' → s.head? ≠ some '{') := by
  refine ⟨?_, lead?_char⟩
  rintro hl rfl hh
  obtain ⟨t, rfl⟩ := List.head?_eq_some_iff.mp hh
  have hopens : Text.strip? (opening false) ('{' :: '{' :: t) = some t := rfl
  rw [lead?, hopens] at hl
  simp only [Option.bind_eq_bind, Option.bind_some] at hl
  split at hl <;> cases hl

theorem pieces_of_lead? {s rest : Text} {h : Hole} (hl : lead? s = some (some (h, rest))) :
    pieces s = .inr h :: pieces rest := by
  cases s with
  | nil => simp [lead?, opening, Text.strip?] at hl
  | cons c s =>
    rw [pieces]
    split
    next h' rest' hl' =>
      cases Option.some.inj (Option.some.inj (hl.symm.trans hl'))
      rfl
    next hl' => rw [hl] at hl'; simp at hl'
    next hl' => rw [hl] at hl'; simp at hl'

theorem pieces_cons {c : Char} {s : Text} (hl : lead? (c :: s) = none) :
    pieces (c :: s) = .inl c :: pieces s := by
  rw [pieces]
  split
  next hl' => rw [hl] at hl'; simp at hl'
  next hl' => rw [hl] at hl'; simp at hl'
  next => rfl

/-- A walk over a text stops at the first hole that does not close. -/
theorem pieces_of_unclosed {s : Text} (hl : lead? s = some none) : pieces s = s.map .inl := by
  cases s with
  | nil => simp [pieces]
  | cons c s =>
    rw [pieces]
    split
    next hl' => rw [hl] at hl'; simp at hl'
    next => rfl
    next hl' => rw [hl] at hl'; simp at hl'

/-- A walk takes a hole, stops, or goes on to the next character. -/
theorem walk_induction {motive : Text → Prop} (nil : motive [])
    (hole : ∀ s h rest, lead? s = some (some (h, rest)) → motive rest → motive s)
    (unclosed : ∀ s, lead? s = some none → motive s)
    (char : ∀ c s, lead? (c :: s) = none → motive s → motive (c :: s)) (s : Text) : motive s := by
  fun_induction pieces s with
  | case1 => exact nil
  | case2 c s h rest hl ih => exact hole _ h rest hl ih
  | case3 c s hl => exact unclosed _ hl
  | case4 c s hl ih => exact char c s hl ih

/-- Pieces that are told apart are read back from their text. -/
theorem pieces_write {ps : List Piece} (h : Parted ps) : pieces (write ps) = ps := by
  induction ps with
  | nil => simp [pieces]
  | cons p ps ih =>
    have ih := ih (by cases p <;> exact h.2)
    cases p with
    | inl c => rw [write_char, pieces_cons (lead?_char h.1), ih]
    | inr hole => rw [write_hole, pieces_of_lead? (lead?_written h.1 _), ih]

end Stencil.Hole
