import Stencil.Proofs.Keeping
import Stencil.Proofs.LoneHole

namespace Stencil

open Text

theorem Text.length_trim_le (s : Text) : (trim s).length ≤ s.length := by
  obtain ⟨before, after, hs, -⟩ := exists_blanks_trim s
  have hlength := congrArg List.length hs
  rw [List.length_append, List.length_append] at hlength
  omega

namespace Reference

/-- The digits of the references in a text, as a pass from left to right finds them. -/
def found (lead : Text) : Text → List Text
  | [] => []
  | c :: s =>
    match _h : digits? lead (c :: s) with
    | some (digits, rest) => digits :: found lead rest
    | none => found lead s
termination_by s => s.length
decreasing_by
  · exact length_of_digits? _h
  · simp

end Reference

namespace LiteralTable

variable (table : LiteralTable)

/-- A text is left as it is exactly if none of its references is to a literal of the table. -/
theorem keep_eq_self_iff (s : Text) :
    table.keep s = s ↔ ∀ ds ∈ Reference.found Reference.literal s, table.find? ds = none := by
  fun_induction Reference.found Reference.literal s with
  | case1 => simp [keep, Reference.substitute]
  | case2 c s digits rest h ih =>
    have hkeep : table.keep (c :: s) = ((table.find? digits).map fun _ =>
        Reference.kept ++ digits ++ Marker.closing).getD
          (Reference.literal ++ digits ++ Marker.closing) ++ table.keep rest :=
      Reference.substitute_of_some h
    rw [hkeep, List.forall_mem_cons, ← ih, Reference.eq_of_digits? h]
    cases table.find? digits with
    | none => simp
    | some q =>
      obtain ⟨-, hne, hd⟩ := (Reference.digits?_eq_some_iff (k := ['s'])).mp h
      obtain ⟨d, ds, rfl⟩ := List.exists_cons_of_ne_nil hne
      -- The letter of a literal is no digit.
      have hletter : d ≠ 's' := by
        rintro rfl
        exact absurd (hd 's' List.mem_cons_self) (by decide)
      simp [Reference.kept, Reference.literal, hletter]
  | case3 c s h ih =>
    rw [← ih, keep, Reference.substitute_cons_of_none h, List.cons_inj_right]

end LiteralTable

namespace Hole

variable {table : LiteralTable} {s rest t : Text} {h : Hole} {c : Char}

/-- What a walk over the holes of a text is told of each: its expression, and whether it is raw. -/
def visits (s : Text) : List (Text × Bool) := (holes s).map fun h => (h.expr, h.raw)

/-- The characters of a text outside its holes, and where its holes are. -/
def outline (s : Text) : List (Char ⊕ Unit) := (pieces s).map (Sum.map id fun _ => ())

/-- A hole as it is written for later. -/
def demote (table : LiteralTable) (h : Hole) : Hole := ⟨h.raw, table.keep h.expr⟩

/-- The expression of the hole can be told from its braces, and no reference to a literal arises
in it when its references are marked as kept. -/
structure Stable (table : LiteralTable) (h : Hole) : Prop where
  tight : (⟨h.raw, h.expr⟩ : Hole).Tight
  demoted : ∀ ds ∈ Reference.found Reference.literal (table.keep h.expr), table.find? ds = none

theorem preserve_eq_write (table : LiteralTable) (s : Text) :
    preserve table s = write ((pieces s).map (Sum.map id (demote table))) := by
  rw [preserve, fill, writePieces, write, writePieces, List.flatMap_map]
  refine List.flatMap_congr fun p _ => ?_
  cases p with
  | inl c => rfl
  | inr h => rfl

theorem preserve_of_lead? (hl : lead? s = some (some (h, rest))) :
    preserve table s = (demote table h).written ++ preserve table rest := by
  rw [preserve_eq_write, preserve_eq_write, pieces_of_lead? hl]
  rfl

theorem preserve_of_unclosed (hl : lead? s = some none) : preserve table s = s := by
  rw [preserve_eq_write, pieces_of_unclosed hl, List.map_map]
  exact write_map_inl s

theorem preserve_cons (hl : lead? (c :: s) = none) :
    preserve table (c :: s) = c :: preserve table s := by
  rw [preserve_eq_write, preserve_eq_write, pieces_cons hl]
  rfl

theorem head?_preserve (table : LiteralTable) (s : Text) :
    (preserve table s).head? = s.head? := by
  induction s using walk_induction with
  | nil => rw [preserve_eq_write, pieces]; rfl
  | hole s h rest hl _ =>
    rw [preserve_of_lead? hl, eq_of_lead? hl, written_eq, written_eq]
    rfl
  | unclosed s hl => rw [preserve_of_unclosed hl]
  | char c s hl _ => rw [preserve_cons hl, List.head?_cons, List.head?_cons]

theorem lead?_cons_preserve (hl : lead? (c :: s) = none) :
    lead? (c :: preserve table s) = none := by
  rw [lead?_cons_eq_none_iff, head?_preserve]
  exact lead?_cons_eq_none_iff.mp hl

/-- Marking references as kept changes nothing about the braces of an expression. -/
theorem tight_keep_iff (table : LiteralTable) {raw : Bool} {inner : Text} :
    (⟨raw, table.keep inner⟩ : Hole).Tight ↔ (⟨raw, inner⟩ : Hole).Tight := by
  have hkeep := table.wordwise_keep
  have hclosing : ∀ c ∈ closing raw, Reference.isOutside c := by
    cases raw <;> simp [closing] <;> decide
  have hhead : (table.keep inner).head? ≠ some '{' ↔ inner.head? ≠ some '{' :=
    not_congr (hkeep.head?_map (by decide) inner)
  have hcut : cut? (closing raw) (table.keep inner ++ closing raw) =
      (cut? (closing raw) (inner ++ closing raw)).map fun r =>
        (table.keep r.1, table.keep r.2) := by
    have happend := hkeep.append_of_head
      (fun c hc => hclosing c (List.mem_of_mem_head? hc)) inner
    rw [hkeep.eq_self hclosing] at happend
    rw [← happend]
    exact hkeep.cut?_map hclosing (closing_ne_nil raw) _
  rw [tight_iff_cut?, tight_iff_cut?, hhead, hcut]
  refine and_congr_right fun _ => ⟨fun h => ?_, fun h => by rw [h, Option.map_some, hkeep.nil]⟩
  obtain ⟨⟨before, after⟩, hc, he⟩ := Option.map_eq_some_iff.mp h
  have hafter : after = [] := by
    have hempty := hkeep.isEmpty_map after
    rw [(Prod.mk.inj he).2] at hempty
    exact List.isEmpty_iff.mp hempty.symm
  subst hafter
  have hbefore := eq_of_cut? hc
  rw [List.append_nil] at hbefore
  rw [hc, List.append_cancel_right hbefore]

theorem expr_demote (table : LiteralTable) (h : Hole) :
    (demote table h).expr = table.keep h.expr := by
  rw [expr, demote, table.trim_keep, expr, trim_trim]

/-- Holes that can be told from their braces are found again. -/
theorem pieces_preserve (ht : ∀ h ∈ holes s, (demote table h).Tight) :
    pieces (preserve table s) = (pieces s).map (Sum.map id (demote table)) := by
  induction s using walk_induction with
  | nil =>
    rw [preserve_eq_write, pieces]
    exact pieces_eq_nil_iff.mpr rfl
  | hole s h rest hl ih =>
    rw [holes, pieces_of_lead? hl] at ht
    have ih := ih fun h' hh => ht h' (List.mem_cons_of_mem _ hh)
    have hread := (ht h List.mem_cons_self).lead? (preserve table rest)
    rw [preserve_of_lead? hl, pieces_of_lead? hread, pieces_of_lead? hl, ih]
    rfl
  | unclosed s hl =>
    rw [preserve_of_unclosed hl, pieces_of_unclosed hl, List.map_map]
    rfl
  | char c s hl ih =>
    rw [holes, pieces_cons hl] at ht
    rw [preserve_cons hl, pieces_cons (lead?_cons_preserve hl), pieces_cons hl, ih ht]
    rfl

/-- A hole that is read where one is written, and has the same expression, is the one written. -/
theorem eq_of_lead?_written {raw : Bool} {e : Text}
    (hl : lead? ((⟨raw, e⟩ : Hole).written ++ t) = some (some (h, rest)))
    (hraw : h.raw = raw) (hexpr : h.expr = e) : h = ⟨raw, e⟩ ∧ rest = t := by
  obtain ⟨raw, inner⟩ := h
  obtain rfl : raw = _ := hraw
  have hclosing : 0 < (closing raw).length := List.length_pos_iff.mpr (closing_ne_nil raw)
  have hwhole : e ++ (closing raw ++ t) = inner ++ (closing raw ++ rest) := by
    simpa [written] using eq_of_lead? hl
  have hle : e.length ≤ inner.length := hexpr ▸ length_trim_le inner
  -- The closing braces that are written would be found inside a longer hole.
  have hge : ¬e.length < inner.length := by
    intro hlt
    have hinit : inner ++ (closing raw).dropLast <+: inner ++ (closing raw ++ rest) :=
      (List.prefix_append_right_inj inner).mpr
        ((List.dropLast_prefix _).trans (List.prefix_append _ _))
    have hstart : e ++ closing raw <+: inner ++ (closing raw ++ rest) :=
      ⟨t, by rw [← hwhole, List.append_assoc]⟩
    have hlength : (e ++ closing raw).length ≤ (inner ++ (closing raw).dropLast).length := by
      simp only [List.length_append, List.length_dropLast]
      omega
    have hprefix := List.prefix_of_prefix_length_le hstart hinit hlength
    exact (tight_of_lead? hl).closes ((List.suffix_append e _).isInfix.trans hprefix.isInfix)
  obtain ⟨rfl, hrest⟩ := List.append_inj hwhole (by omega)
  exact ⟨rfl, (List.append_cancel_left hrest).symm⟩

theorem visits_of_lead? (hl : lead? s = some (some (h, rest))) :
    visits s = (h.expr, h.raw) :: visits rest := by
  rw [visits, holes, pieces_of_lead? hl]
  rfl

theorem outline_of_lead? (hl : lead? s = some (some (h, rest))) :
    outline s = .inr () :: outline rest := by
  rw [outline, pieces_of_lead? hl]
  rfl

theorem visits_cons (hl : lead? (c :: s) = none) : visits (c :: s) = visits s := by
  rw [visits, holes, pieces_cons hl]
  rfl

theorem outline_cons (hl : lead? (c :: s) = none) : outline (c :: s) = .inl c :: outline s := by
  rw [outline, pieces_cons hl]
  rfl

/-- A text whose outline starts with a hole starts with a hole. -/
theorem exists_of_outline {o : List (Char ⊕ Unit)} (ho : outline s = .inr () :: o) :
    ∃ h rest, lead? s = some (some (h, rest)) := by
  cases s with
  | nil => simp [outline, pieces] at ho
  | cons c s =>
    rw [outline, pieces] at ho
    split at ho
    next h rest hl => exact ⟨h, rest, hl⟩
    next => cases ho
    next => cases ho

theorem tight_of_visits (hv : visits (preserve table s) =
      (visits s).map fun v => (table.keep v.1, v.2))
    (ho : outline (preserve table s) = outline s) : ∀ h ∈ holes s, (demote table h).Tight := by
  induction s using walk_induction with
  | nil => simp [holes, pieces]
  | hole s h rest hl ih =>
    rw [visits_of_lead? hl] at hv
    rw [outline_of_lead? hl] at ho
    obtain ⟨h', rest', hl'⟩ := exists_of_outline ho
    rw [visits_of_lead? hl'] at hv
    rw [outline_of_lead? hl'] at ho
    obtain ⟨hfirst, hvs⟩ := List.cons.inj hv
    obtain ⟨hexpr, hraw⟩ := Prod.mk.inj hfirst
    rw [preserve_of_lead? hl] at hl'
    obtain ⟨rfl, rfl⟩ := eq_of_lead?_written hl' hraw hexpr
    rw [holes, pieces_of_lead? hl]
    intro h' hm
    rcases List.mem_cons.mp hm with rfl | hm
    · exact tight_of_lead? hl'
    · exact ih hvs (List.cons.inj ho).2 h' hm
  | unclosed s hl =>
    rw [holes, pieces_of_unclosed hl]
    simp
  | char c s hl ih =>
    have hread : lead? (c :: preserve table s) = none := lead?_cons_preserve hl
    rw [preserve_cons hl, visits_cons hread, visits_cons hl] at hv
    rw [preserve_cons hl, outline_cons hread, outline_cons hl] at ho
    rw [holes, pieces_cons hl]
    exact ih hv (List.cons.inj ho).2

theorem mem_holes_iff : h ∈ holes s ↔ .inr h ∈ pieces s := by
  rw [holes, List.mem_filterMap]
  constructor
  · rintro ⟨p, hp, he⟩
    rwa [← Sum.getRight?_eq_some_iff.mp he]
  · exact fun hp => ⟨.inr h, hp, rfl⟩

theorem holes_preserve (ht : ∀ h ∈ holes s, (demote table h).Tight) :
    holes (preserve table s) = (holes s).map (demote table) := by
  rw [holes, pieces_preserve ht, List.filterMap_map, holes, List.map_filterMap]
  refine List.filterMap_congr fun p _ => ?_
  cases p <;> rfl

theorem demote_demote (table : LiteralTable) (h : Hole) :
    demote table (demote table h) = ⟨h.raw, table.keep (table.keep h.expr)⟩ := by
  rw [demote, expr_demote]
  rfl

/-- The text is not changed again exactly if no hole is. -/
theorem preserve_preserve_iff (ht : ∀ h ∈ holes s, (demote table h).Tight) :
    preserve table (preserve table s) = preserve table s ↔
      ∀ h ∈ holes s, table.keep (table.keep h.expr) = table.keep h.expr := by
  constructor
  · intro hp h hh
    have ht' : ∀ h' ∈ holes (preserve table s), (demote table h').Tight := by
      intro h' hm
      rw [holes_preserve ht] at hm
      obtain ⟨h, hh, rfl⟩ := List.mem_map.mp hm
      rw [demote_demote]
      exact (tight_keep_iff table).mpr (ht h hh)
    have hsame : (holes (preserve table s)).map (demote table) =
        (holes (preserve table s)).map id := by
      rw [← holes_preserve ht', hp, List.map_id]
    rw [holes_preserve ht] at hsame
    have hdemote := List.map_inj_left.mp hsame _ (List.mem_map_of_mem hh)
    rw [demote_demote] at hdemote
    exact congrArg Hole.inner hdemote
  · intro hkeep
    rw [preserve_eq_write table (preserve table s), pieces_preserve ht, preserve_eq_write,
      List.map_map]
    refine congrArg write (List.map_congr_left fun p hp => ?_)
    cases p with
    | inl c => rfl
    | inr h =>
      have hsame : demote table (demote table h) = demote table h := by
        rw [demote_demote, hkeep h (mem_holes_iff.mpr hp)]
        rfl
      exact congrArg Sum.inr hsame

/-- A walk over the rewritten text finds the holes of the text, with their references marked as
kept, and the characters between them, and writing its holes anew changes nothing, exactly if every
hole can be told from its braces without the blanks in it and no more references arise in any. -/
theorem preserve_faithful_iff (table : LiteralTable) (s : Text) :
    (visits (preserve table s) = (visits s).map (fun v => (table.keep v.1, v.2)) ∧
      outline (preserve table s) = outline s ∧
      preserve table (preserve table s) = preserve table s) ↔ ∀ h ∈ holes s, h.Stable table := by
  constructor
  · rintro ⟨hv, ho, hp⟩ h hh
    have ht := tight_of_visits hv ho
    refine ⟨(tight_keep_iff table).mp (ht h hh), ?_⟩
    exact (table.keep_eq_self_iff _).mp ((preserve_preserve_iff ht).mp hp h hh)
  · intro hs
    have ht : ∀ h ∈ holes s, (demote table h).Tight := fun h hh =>
      (tight_keep_iff table).mpr (hs h hh).tight
    have hkeep : ∀ h ∈ holes s, table.keep (table.keep h.expr) = table.keep h.expr := fun h hh =>
      (table.keep_eq_self_iff _).mpr (hs h hh).demoted
    refine ⟨?_, ?_, (preserve_preserve_iff ht).mpr hkeep⟩
    · rw [visits, holes_preserve ht, visits, List.map_map, List.map_map]
      refine List.map_congr_left fun h _ => ?_
      exact congrArg (·, h.raw) (expr_demote table h)
    · rw [outline, pieces_preserve ht, List.map_map, outline]
      refine List.map_congr_left fun p _ => ?_
      cases p <;> rfl

/-- With a brace next to its braces an escaped hole becomes a raw one, or takes all that follows it
out of the walk; and of two references that share a percent sign one is marked as kept after the
other. -/
theorem preserve_unfaithful :
    let table : LiteralTable := [⟨"x".toList, '"'⟩, ⟨"y".toList, '"'⟩]
    let braced := "\x7b\x7b \x7ba\x7d \x7d\x7d".toList
    let unclosed := "\x7b\x7b \x7ba\x7d|x \x7d\x7d\x7b\x7bx\x7d\x7d".toList
    let joined := "\x7b\x7b%!s0!%!s1!%\x7d\x7d".toList
    visits braced = [("\x7ba\x7d".toList, false)] ∧
      visits (preserve table braced) = [("a".toList, true)] ∧
      visits (preserve table braced) ≠ (visits braced).map (fun v => (table.keep v.1, v.2)) ∧
      outline (preserve table unclosed) ≠ outline unclosed ∧
      preserve table (preserve table joined) ≠ preserve table joined := by
  decide +kernel

end Hole

end Stencil
