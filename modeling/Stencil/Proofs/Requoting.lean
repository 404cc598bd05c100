import Stencil.Proofs.Ambiguity
import Stencil.Proofs.Closing

namespace Stencil

open Text

namespace Mark

variable {ms : List Mark} {l s rest : Text}

/-- Reads the mark at the start of a text: its label, and what follows it. -/
def label? (s : Text) : Option (Text × Text) := do
  let inner ← strip? Marker.opening s
  let (label, rest) := spanUntil (fun c => c == '%' || c == '!') inner
  let after ← strip? Marker.closing rest
  return (label, after)

theorem label?_eq_some_iff :
    label? s = some (l, rest) ↔ s = '%' :: '!' :: (l ++ '!' :: '%' :: rest) ∧ IsLabel l := by
  have hstop : ∀ c, (!(c == '%' || c == '!')) = true ↔ c ≠ '%' ∧ c ≠ '!' := by simp
  simp only [label?, spanUntil, Option.bind_eq_bind, Option.bind_eq_some_iff]
  constructor
  · rintro ⟨inner, hinner, after, hafter, he⟩
    cases he
    refine ⟨?_, fun c hc => (hstop c).mp (List.all_eq_true.mp List.all_takeWhile c hc)⟩
    have hsplit := List.takeWhile_append_dropWhile (p := fun c => !(c == '%' || c == '!'))
      (l := inner)
    rw [strip?_eq_some_iff.mp hafter] at hsplit
    rw [strip?_eq_some_iff.mp hinner]
    exact congrArg (fun t => '%' :: '!' :: t) hsplit.symm
  · rintro ⟨rfl, hl⟩
    have htake : ∀ c ∈ l, (!(c == '%' || c == '!')) = true := fun c hc => (hstop c).mpr (hl c hc)
    have hend : ∀ c ∈ ('!' :: '%' :: rest).head?, (!(c == '%' || c == '!')) = false := by
      simp
    refine ⟨l ++ '!' :: '%' :: rest, rfl, rest, ?_, ?_⟩
    · rw [dropWhile_append_stop htake hend]
      rfl
    · rw [takeWhile_append_stop htake hend]
      rfl

/-- The marks of a text, and the characters between them. -/
def ofWritten : Text → List Mark
  | [] => []
  | c :: s =>
    match _h : label? (c :: s) with
    | some (label, rest) => sign label :: ofWritten rest
    | none => char c :: ofWritten s
termination_by s => s.length
decreasing_by
  · rw [(label?_eq_some_iff.mp _h).1]
    simp only [List.length_cons, List.length_append]
    omega
  · simp

/-- A settled text is read back. -/
theorem ofWritten_write (h : Settled ms) : ofWritten (write ms) = ms := by
  induction ms with
  | nil => rw [write_nil, ofWritten]
  | cons m ms ih =>
    have ih := ih h.tail
    cases m with
    | char c =>
      have hnone : label? (c :: write ms) = none := by
        refine Option.eq_none_iff_forall_ne_some.mpr fun ⟨l, rest⟩ hl => ?_
        obtain ⟨rfl, hw⟩ := List.cons.inj (label?_eq_some_iff.mp hl).1
        rcases head?_write (congrArg List.head? hw) with hp | hhead
        · exact absurd hp (by decide)
        · exact h.1 rfl hhead
      rw [write_char, ofWritten]
      split
      next hl => cases hnone.symm.trans hl
      next => rw [ih]
    | sign l =>
      have hsome := label?_eq_some_iff.mpr ⟨write_sign l ms, h.1⟩
      rw [write_sign] at hsome ⊢
      rw [ofWritten]
      split
      next hl =>
        cases hsome.symm.trans hl
        rw [ih]
      next hl => cases hsome.symm.trans hl

/-- No character that stands in no mark is inside one, so a marked text can be cut after it. -/
theorem exists_of_write_break {a r : Text} {d : Char} (hd : isBreak d)
    (hl : ∀ l, sign l ∈ ms → ∀ c ∈ l, isBreak c = false) (h : write ms = a ++ d :: r) :
    ∃ xs ys, ms = xs ++ char d :: ys ∧ write ys = r := by
  induction ms generalizing a with
  | nil => simp at h
  | cons m ms ih =>
    have hl' := fun l hm => hl l (List.mem_cons_of_mem m hm)
    have hlater : ∀ {b}, write ms = b ++ d :: r →
        ∃ xs ys, m :: ms = xs ++ char d :: ys ∧ write ys = r := by
      intro b hb
      obtain ⟨xs, ys, rfl, hw⟩ := ih hl' hb
      exact ⟨m :: xs, ys, rfl, hw⟩
    cases m with
    | char c =>
      cases a with
      | nil =>
        obtain ⟨rfl, hw⟩ := List.cons.inj h
        exact ⟨[], ms, rfl, hw⟩
      | cons b a => exact hlater (List.cons.inj h).2
    | sign l =>
      have hmark : d ∉ (sign l).written := by
        intro hm
        obtain ⟨h1, h2, -⟩ := isBreak_iff.mp hd
        have hdl : d ∈ l := by simpa [written, Marker.opening, Marker.closing, h1, h2] using hm
        cases (hl l List.mem_cons_self d hdl).symm.trans hd
      have h : a ++ d :: r = (sign l).written ++ write ms := h.symm
      rcases List.append_eq_append_iff.mp h with ⟨v, hv, hr⟩ | ⟨v, rfl, hr⟩
      · cases v with
        | nil => exact hlater (b := []) hr.symm
        | cons e v =>
          obtain ⟨rfl, -⟩ := List.cons.inj hr
          exact absurd (hv ▸ List.mem_append_right a List.mem_cons_self) hmark
      · exact hlater hr

end Mark

namespace Reference

open Mark

variable {k : Text} {meaning : Text → Option Text} {known : Text → Bool} {ms : List Mark}

/-- If the last percent sign of a mark stays in front of what follows it, nothing that is known
straddles the mark and the next one, as long as no replacement starts with a percent sign. -/
theorem unknown_of_substitute
    (hstart : ∀ ds t, meaning ds = some t → ∃ c ∈ t.head?, c ≠ '%')
    (hread : ∀ l, sign l ∈ ms → isLabel k l → (meaning (l.drop k.length)).isSome)
    (h : substitute (Marker.opening ++ k) meaning ('%' :: Mark.write ms) =
      '%' :: ms.flatMap (substituted k meaning)) {ds next : Text}
    (hd : isLabel k (k ++ ds)) (hst : Straddles (k ++ ds) next ms) :
    meaning ds = none ∧ isLabel k next = false := by
  have hne : ∀ {ds t u v}, meaning ds = some t → t ++ u ≠ '%' :: v := by
    intro ds t u v ht he
    obtain ⟨c, hc, hp⟩ := hstart ds t ht
    obtain ⟨w, rfl⟩ := List.head?_eq_some_iff.mp hc
    exact hp (List.cons.inj he).1
  obtain ⟨more, rfl⟩ := hst
  rw [substitute_of_some (digits?_straddled hd next more)] at h
  cases hm : meaning ds with
  | some t =>
    rw [hm] at h
    exact absurd h (hne hm)
  | none =>
    refine ⟨rfl, Bool.eq_false_iff.mpr fun hn => ?_⟩
    obtain ⟨t, ht⟩ := Option.isSome_iff_exists.mp (hread next (by simp) hn)
    have hchars : (('!' :: (k ++ ds ++ ['!'])).map char).flatMap (substituted k meaning) =
        '!' :: (k ++ ds ++ ['!']) := by
      rw [flatMap_substituted (by simp), write_map_char]
    rw [hm, List.flatMap_append, hchars, List.flatMap_cons, substituted, if_pos hn, ht] at h
    -- The percent sign of the next mark would be left where its replacement starts.
    have hrest : '%' :: substitute (Marker.opening ++ k) meaning
        ('!' :: (next ++ '!' :: '%' :: Mark.write more)) =
          t ++ more.flatMap (substituted k meaning) := by
      simpa [Marker.opening, Marker.closing] using h
    exact hne ht hrest.symm

/-- If a pass replaces the marks that it reads and nothing else, it finds nothing that straddles two
marks. -/
theorem apart_of_substitute (hk : IsLabel k) (hknown : ∀ ds, (meaning ds).isSome = known ds)
    (hstart : ∀ ds t, meaning ds = some t → ∃ c ∈ t.head?, c ≠ '%') (hs : Settled ms)
    (hread : ∀ l, sign l ∈ ms → isLabel k l → (meaning (l.drop k.length)).isSome)
    (h : substitute (Marker.opening ++ k) meaning (Mark.write ms) =
      ms.flatMap (substituted k meaning)) : Apart k known ms := by
  induction ms with
  | nil => trivial
  | cons m ms ih =>
    have hlater := fun l hm => hread l (List.mem_cons_of_mem m hm)
    cases m with
    | char c =>
      rw [write_char, substitute_cons_of_none (digits?_char hk hs)] at h
      exact ih hs.2.2 hlater (List.cons.inj h).2
    | sign l =>
      cases hr : isLabel k l with
      | true =>
        rw [substitute_read hr, List.flatMap_cons] at h
        exact ⟨fun hf => absurd hr (by simp [hf]), ih hs.2 hlater (List.append_cancel_left h)⟩
      | false =>
        have hpercent : substitute (Marker.opening ++ k) meaning ('%' :: Mark.write ms) =
            '%' :: ms.flatMap (substituted k meaning) := by
          rw [substitute_unread hk hs.1 hr, List.flatMap_cons] at h
          simpa [substituted, hr, written, Marker.opening, Marker.closing] using h
        have hunknown : ∀ ds next, isLabel k (k ++ ds) → Straddles (k ++ ds) next ms →
            meaning ds = none ∧ isLabel k next = false := fun ds next hd hst =>
          unknown_of_substitute hstart hlater hpercent hd hst
        rw [substitute_percent hk hs.2 hunknown] at hpercent
        refine ⟨fun _ ds next hd hst => ?_, ih hs.2 hlater (List.cons.inj hpercent).2⟩
        obtain ⟨hnone, hnext⟩ := hunknown ds next hd hst
        exact ⟨by rw [← hknown, hnone]; rfl, hnext⟩

/-- A pass replaces the marks that it reads and nothing else exactly if nothing that it reads
straddles two marks. -/
theorem substitute_write_iff (hk : IsLabel k) (hknown : ∀ ds, (meaning ds).isSome = known ds)
    (hstart : ∀ ds t, meaning ds = some t → ∃ c ∈ t.head?, c ≠ '%') (hs : Settled ms)
    (hread : ∀ l, sign l ∈ ms → isLabel k l → (meaning (l.drop k.length)).isSome) :
    substitute (Marker.opening ++ k) meaning (Mark.write ms) = ms.flatMap (substituted k meaning) ↔
      Apart k known ms :=
  ⟨apart_of_substitute hk hknown hstart hs hread, substitute_write hk hknown hs⟩

end Reference

namespace Segment

open Mark

variable {before : Text} {n : Nat} {ms : List Mark} {meaning : Text → Option Text}

theorem isBreak_quote {s rest : Text} {q : Quoted}
    (h : lead? before s = some (quoted q, rest)) : isBreak q.quote := by
  have hread := (lead?_eq_some_iff.mp (before.reverse_reverse.symm ▸ h)).2
  cases hread with
  | quoted hq => rcases hq.quote with h | h | ⟨h, -⟩ <;> rw [h] <;> decide

/-- The marks of an encoded text: they are settled, and each sign is that of a marker. -/
structure Encodes (ms : List Mark) : Prop where
  settled : Settled ms
  marker : ∀ l, sign l ∈ ms → ∃ x ∈ markers, l = [x]

namespace Encodes

variable {m : Mark}

theorem right {xs ys : List Mark} (h : Encodes (xs ++ ys)) : Encodes ys :=
  ⟨settled_right h.settled, fun l hm => h.marker l (List.mem_append_right xs hm)⟩

theorem tail (h : Encodes (m :: ms)) : Encodes ms :=
  (show Encodes ([m] ++ ms) from h).right

theorem isBreak_label (h : Encodes ms) : ∀ l, sign l ∈ ms → ∀ c ∈ l, isBreak c = false := by
  intro l hm c hc
  obtain ⟨x, hx, rfl⟩ := h.marker l hm
  rw [List.mem_singleton.mp hc]
  rcases marker_cases hx with rfl | rfl | rfl | rfl <;> rfl

theorem unread (h : Encodes ms) : ∀ l, sign l ∈ ms → Reference.isLabel ['s'] l = false := by
  intro l hm
  obtain ⟨x, hx, rfl⟩ := h.marker l hm
  exact unread_marker ['s'] hx

/-- A sign is a word, so it is read as plain text. -/
theorem isBreak_written {l : Text} (h : Encodes (sign l :: ms)) :
    ∀ c ∈ (sign l).written, isBreak c = false :=
  isBreak_mark (h.isBreak_label l List.mem_cons_self)

/-- What follows a literal is encoded too: its last quote stands in no mark. -/
theorem after_quote (h : Encodes ms) {a rest : Text} {quote : Char} (hquote : isBreak quote)
    (hw : Mark.write ms = a ++ quote :: rest) : ∃ ys, Encodes ys ∧ Mark.write ys = rest := by
  obtain ⟨xs, ys, rfl, hys⟩ := exists_of_write_break hquote h.isBreak_label hw
  exact ⟨ys, h.right.tail, hys⟩

end Encodes

/-- Segments without comments whose literals, numbered on, mean what they are written as. -/
structure Means (meaning : Text → Option Text) (n : Nat) (segs : List Segment) : Prop where
  comment : ∀ seg ∈ segs, ¬seg.isComment
  literal : ∀ i q, (segs.filterMap literal?)[i]? = some q →
    meaning (ofNat (n + i)) = some q.written

namespace Means

variable {segs : List Segment}

theorem plain {a : Text} (h : Means meaning n (.plain a :: segs)) : Means meaning n segs :=
  ⟨fun seg hseg => h.comment seg (List.mem_cons_of_mem _ hseg), h.literal⟩

theorem plains {a : Text} (h : Means meaning n (a.map (fun c => .plain [c]) ++ segs)) :
    Means meaning n segs := by
  induction a with
  | nil => exact h
  | cons c a ih => exact ih h.plain

theorem quoted {q : Quoted} (h : Means meaning n (.quoted q :: segs)) :
    meaning (ofNat n) = some q.written ∧ Means meaning (n + 1) segs := by
  refine ⟨h.literal 0 q rfl, fun seg hseg => h.comment seg (List.mem_cons_of_mem _ hseg), ?_⟩
  intro i q' hq
  rw [Nat.add_assoc, Nat.add_comm 1]
  exact h.literal (i + 1) q' hq

end Means

/-- What is left of a source without comments, as marks: those of the source, and one for each
literal. The literals in the place of their marks make up the source again. -/
structure Remains (meaning : Text → Option Text) (segs : List Segment) (n : Nat)
    (source ms : List Mark) : Prop where
  settled : Settled ms
  -- A character that comes first was first before, so no sign arises from what is left.
  head : ∀ c, ms.head? = some (char c) → source.head? = some (char c)
  written : Mark.write ms = LiteralTable.writeReferences n segs
  restored : ms.flatMap (Reference.substituted ['s'] meaning) = Mark.write source
  known : ∀ l, sign l ∈ ms → Reference.isLabel ['s'] l → (meaning (l.drop 1)).isSome

namespace Remains

variable {segs : List Segment} {source : List Mark}

/-- A source in which nothing is read as a literal remains as it is. -/
theorem refl (hs : Settled ms) (hl : ∀ l, sign l ∈ ms → Reference.isLabel ['s'] l = false) :
    Remains meaning [plain (Mark.write ms)] n ms ms where
  settled := hs
  head _ h := h
  written := (List.append_nil _).symm
  restored := Reference.flatMap_substituted hl
  known l hm hr := absurd hr (by simp [hl l hm])

theorem char (h : Remains meaning segs n source ms) {c : Char}
    (hs : Settled (.char c :: source)) :
    Remains meaning (plain [c] :: segs) n (.char c :: source) (.char c :: ms) where
  settled := ⟨fun hc hh => hs.1 hc (h.head _ hh), fun hc hh => hs.2.1 hc (h.head _ hh), h.settled⟩
  head _ hc := hc
  written := congrArg (List.cons c) h.written
  restored := congrArg (List.cons c) h.restored
  known l hm := h.known l ((List.mem_cons.mp hm).resolve_left (by simp))

theorem sign (h : Remains meaning segs n source ms) {l : Text} (hl : IsLabel l)
    (hr : Reference.isLabel ['s'] l = false) :
    Remains meaning ((Mark.sign l).written.map (fun c => plain [c]) ++ segs) n
      (.sign l :: source) (.sign l :: ms) where
  settled := ⟨hl, h.settled⟩
  head _ hc := by cases hc
  written := by
    rw [writeReferences_plain, ← h.written]
    rfl
  restored := by
    rw [List.flatMap_cons, h.restored, Reference.substituted, hr]
    rfl
  known l' hm hr' := by
    rcases List.mem_cons.mp hm with hm | hm
    · cases hm
      exact absurd hr' (by simp [hr])
    · exact h.known l' hm hr'

/-- A literal leaves a mark, whatever marks stand in it. -/
theorem literal {q : Quoted} {whole : List Mark} (h : Remains meaning segs (n + 1) source ms)
    (hw : Mark.write whole = q.written ++ Mark.write source)
    (hm : meaning (ofNat n) = some q.written) :
    Remains meaning (quoted q :: segs) n whole (.sign ('s' :: ofNat n) :: ms) where
  settled := ⟨IsLabel.ofNat (k := ['s']) (by simp [IsLabel]) n, h.settled⟩
  head _ hc := by cases hc
  written := by
    simp [LiteralTable.writeReferences, Reference.write, Reference.literal, Marker.closing,
      h.written]
  restored := by
    have hr : Reference.isLabel ['s'] ('s' :: ofNat n) := Reference.isLabel_ofNat ['s'] n
    rw [List.flatMap_cons, h.restored, hw, Reference.substituted, if_pos hr]
    exact congrArg (· ++ Mark.write source) (by simp [hm])
  known l hm' hr := by
    rcases List.mem_cons.mp hm' with he | he
    · cases he
      simp [hm]
    · exact h.known l he hr

end Remains

/-- What remains is found by going on from one segment to the next one. -/
theorem exists_remains (hs : Encodes ms)
    (hm : Means meaning n (segments before (Mark.write ms))) :
    ∃ left, Remains meaning (segments before (Mark.write ms)) n ms left := by
  -- A literal takes as many marks as stand in it, so the induction is on what is left of the text.
  induction hk : (Mark.write ms).length using Nat.strongRecOn generalizing before n ms with
  | ind k ih =>
    rcases ms with _ | ⟨⟨c⟩ | ⟨l⟩, ms⟩
    · rw [write_nil, segments]
      exact ⟨[], trivial, by simp, rfl, rfl, by simp⟩
    · rw [write_char] at hm hk ⊢
      cases hnever : neverCloses (c :: Mark.write ms) with
      | true =>
        rw [segments_of_unclosed (neverCloses_iff.mp hnever)]
        exact ⟨_, .refl hs.settled hs.unread⟩
      | false =>
        cases hlead : lead? before (c :: Mark.write ms) with
        | none =>
          rw [segments_of_unled hnever hlead] at hm ⊢
          obtain ⟨left, h⟩ := ih _ (by simp [← hk]) hs.tail hm.plain rfl
          exact ⟨_, h.char hs.settled⟩
        | some r =>
          obtain ⟨seg, rest⟩ := r
          rw [segments_of_lead? hnever hlead] at hm ⊢
          rcases lead?_cases hlead with ⟨t, rfl⟩ | ⟨q, rfl⟩
          · exact absurd rfl (hm.comment _ List.mem_cons_self)
          · have hwhole : Mark.write (.char c :: ms) = q.quote :: q.body ++ q.quote :: rest := by
              simpa [written, Quoted.written] using (eq_of_lead? hlead).1
            obtain ⟨ys, hys, rfl⟩ := hs.after_quote (isBreak_quote hlead) hwhole
            have hlength : (Mark.write ys).length < k := by
              rw [← hk, ← write_char, hwhole]
              simp only [List.length_append, List.length_cons]
              omega
            obtain ⟨left, h⟩ := ih _ hlength hys hm.quoted.2 rfl
            exact ⟨_, h.literal (by simpa [Quoted.written] using hwhole) hm.quoted.1⟩
    · have hsegs : segments before (Mark.write (sign l :: ms)) =
          (sign l).written.map (fun c => plain [c]) ++
            segments ((sign l).written.reverse ++ before) (Mark.write ms) :=
        segments_append before hs.isBreak_written (Mark.write ms)
      rw [hsegs] at hm ⊢
      have hlength : (Mark.write ms).length < k := by
        rw [← hk, write_sign]
        simp only [List.length_cons, List.length_append]
        omega
      obtain ⟨left, h⟩ := ih _ hlength hs.tail hm.plains rfl
      exact ⟨_, h.sign hs.settled.1 (hs.unread l List.mem_cons_self)⟩

end Segment

namespace LiteralTable

/-- What is left of a source without comments goes back to the source when its literals are put
back, exactly if no reference to a literal is read between two of its marks. -/
theorem requote_extract_iff {source : Text}
    (hsize : (extract (Marker.encode source)).2.length ≤ indexBound)
    (hcomment : ∀ seg ∈ Segment.segments [] (Marker.encode source), ¬seg.isComment) :
    let (text, table) := extract (Marker.encode source)
    table.requote text = Marker.encode source ↔
      Reference.Apart ['s'] (fun ds => (table.find? ds).isSome) (Mark.ofWritten text) := by
  have hsource : Mark.write (Mark.ofText source) = Marker.encode source := Mark.write_ofText source
  rw [← hsource] at hsize hcomment ⊢
  dsimp only
  generalize htable : (extract (Mark.write (Mark.ofText source))).2 = table at hsize ⊢
  obtain ⟨ms, h⟩ : ∃ ms, Segment.Remains (fun ds => (table.find? ds).map Quoted.written)
      (Segment.segments [] (Mark.write (Mark.ofText source))) 0 (Mark.ofText source) ms := by
    refine Segment.exists_remains
      ⟨Mark.settled_ofText source, fun _ => Marker.label_ofText⟩ ⟨hcomment, fun i q hq => ?_⟩
    have hq : table[i]? = some q := htable ▸ hq
    have hi := (List.getElem?_eq_some_iff.mp hq).1
    rw [Nat.zero_add, find?_ofNat (by omega) hq]
    rfl
  have htext : (extract (Mark.write (Mark.ofText source))).1 = Mark.write ms := h.written.symm
  rw [htext, Mark.ofWritten_write h.settled, ← h.restored]
  refine Reference.substitute_write_iff (by simp [Mark.IsLabel]) (fun ds => Option.isSome_map)
    (fun ds t ht => ?_) h.settled h.known
  obtain ⟨q, hq, rfl⟩ := Option.map_eq_some_iff.mp ht
  obtain ⟨i, -, hi⟩ := Option.bind_eq_some_iff.mp hq
  refine ⟨q.quote, rfl, ?_⟩
  rcases quote_of_mem_extract (htable ▸ List.mem_of_getElem? hi) with he | he | he <;>
    rw [he] <;> decide

/-- A source with literals and signs, and with the label of a reference between them. -/
def signed : Text := "<a b=\"%!s0!%\">%! !s0! '!%' it's".toList

theorem requote_extract_signed : (extract (Marker.encode signed)).2.length ≤ indexBound ∧
    (∀ seg ∈ Segment.segments [] (Marker.encode signed), ¬seg.isComment) ∧
    (extract (Marker.encode signed)).2.requote (extract (Marker.encode signed)).1 =
      Marker.encode signed := by
  have hsize : (extract (Marker.encode signed)).2.length ≤ indexBound := by decide +kernel
  have hcomment : ∀ seg ∈ Segment.segments [] (Marker.encode signed), ¬seg.isComment := by
    decide +kernel
  have hcalm : Reference.isCalm (Mark.ofWritten (extract (Marker.encode signed)).1) := by
    decide +kernel
  exact ⟨hsize, hcomment,
    (requote_extract_iff hsize hcomment).mpr (Reference.apart_of_isCalm hcalm)⟩

/-- The label of a reference between two signs is taken for the reference. -/
theorem not_requote_straddled :
    (∀ seg ∈ Segment.segments [] (Marker.encode "%!!s0!!%\"x\"".toList), ¬seg.isComment) ∧
    (extract (Marker.encode "%!!s0!!%\"x\"".toList)).2.requote
      (extract (Marker.encode "%!!s0!!%\"x\"".toList)).1 = "%!o!\"x\"!c!%\"x\"".toList ∧
    Marker.encode "%!!s0!!%\"x\"".toList = "%!o!%!s0!%!c!%\"x\"".toList := by
  decide +kernel

end LiteralTable

end Stencil
