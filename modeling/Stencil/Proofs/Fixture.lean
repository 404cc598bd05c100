import Stencil.Proofs.Hole
import Stencil.Proofs.Occurrence

namespace Stencil

namespace Hole

/-- What is read as a hole is read so whatever follows it. -/
theorem lead?_append {s rest : Text} {h : Hole} (hl : lead? s = some (some (h, rest))) (t : Text) :
    lead? (h.written ++ t) = some (some (h, t)) := by
  simp only [lead?, Option.bind_eq_bind, Option.bind_eq_some_iff] at hl
  obtain ⟨inner, hi, hl⟩ := hl
  split at hl
  next =>
    obtain ⟨⟨i, r⟩, hc, he⟩ := Option.map_eq_some_iff.mp (Option.some.inj hl)
    cases he
    exact lead?_written_of_cut? (fun hraw => by cases hraw)
      (Text.cut?_append_of_cut? (by decide) hc t)
  next ht =>
    obtain ⟨⟨i, r⟩, hc, he⟩ := Option.map_eq_some_iff.mp (Option.some.inj hl)
    cases he
    refine lead?_written_of_cut? (fun _ hhead => ?_) (Text.cut?_append_of_cut? (by decide) hc t)
    obtain ⟨j, rfl⟩ := List.head?_eq_some_iff.mp hhead
    have hs : s = opening true ++ (j ++ closing false ++ r) := by
      rw [Text.strip?_eq_some_iff.mp hi, Text.eq_of_cut? hc]
      rfl
    rw [hs, Text.strip?_append] at ht
    cases ht

/-- What stands after an opening brace sign decides what is read as a hole. -/
theorem lead?_of_strip? {raw : Bool} {s inner : Text}
    (hopen : Text.strip? (opening raw) s = some inner)
    (hraw : raw = false → Text.strip? (opening true) s = none) :
    lead? s = some ((Text.cut? (closing raw) inner).map fun r => (⟨raw, r.1⟩, r.2)) := by
  cases raw with
  | true =>
    have hopens : Text.strip? (opening false) s = some ('{' :: inner) :=
      Text.strip?_eq_some_iff.mpr (by rw [Text.strip?_eq_some_iff.mp hopen]; rfl)
    simp only [lead?, hopens, hopen, Option.bind_eq_bind, Option.bind_some]
    rfl
  | false =>
    simp only [lead?, hopen, hraw rfl, Option.bind_eq_bind, Option.bind_some]
    rfl

theorem head?_of_lead? {c : Char} {s : Text} (h : lead? (c :: s) = none) (hc : c = '{') :
    s.head? ≠ some '{' := by
  rintro hs
  obtain ⟨t, rfl⟩ := List.head?_eq_some_iff.mp hs
  have hopen : Text.strip? (opening false) (c :: '{' :: t) = some t :=
    Text.strip?_eq_some_iff.mpr (by rw [hc]; rfl)
  rw [lead?, hopen] at h
  simp only [Option.bind_eq_bind, Option.bind_some] at h
  split at h <;> cases h

end Hole

namespace Placeholder

theorem lead?_eq_none_of_spelling {p : Placeholder} {w : Text} (h : Spelling p w) (t : Text) :
    Hole.lead? (w ++ t) = none := by
  obtain ⟨v, rfl, -⟩ := h.exists_tail
  exact Hole.lead?_char fun hc => absurd hc (by decide)

end Placeholder

open Placeholder

/-- The hole or the placeholder at the start of a text, as it is written, and the rest. -/
def fixture? (s : Text) : Option (Text × Text) :=
  match Hole.lead? s with
  | some found => found.map fun (h, rest) => (h.written, rest)
  | none => (read? s).map fun (_, rest) => (s.take (s.length - rest.length), rest)

/-- Is a text a hole or a placeholder? -/
def IsFixture (f : Text) : Prop := fixture? f = some (f, [])

variable {s t u f w a b r rest : Text} {ws vs : List Text} {c : Char}

theorem fixture?_cases (h : fixture? s = some (f, rest)) :
    (∃ hole : Hole, Hole.lead? s = some (some (hole, rest)) ∧ f = hole.written) ∨
      ∃ p : Placeholder, Spelling p f ∧ s = f ++ rest := by
  unfold fixture? at h
  split at h
  next found hl =>
    obtain ⟨⟨hole, r⟩, rfl, he⟩ := Option.map_eq_some_iff.mp h
    cases he
    exact .inl ⟨hole, hl, rfl⟩
  next =>
    obtain ⟨⟨p, r⟩, hr, he⟩ := Option.map_eq_some_iff.mp h
    cases he
    obtain ⟨v, hv, hp⟩ := exists_spelling hr
    have hlength : s.length - rest.length = v.length := by
      rw [hv, List.length_append]
      omega
    have hsource : s.take (s.length - rest.length) = v := by rw [hlength, hv, List.take_left]
    exact .inr ⟨p, hsource.symm ▸ hp, hsource.symm ▸ hv⟩

theorem fixture?_of_spelling {p : Placeholder} (h : Spelling p f) (t : Text) :
    fixture? (f ++ t) = some (f, t) := by
  have htake : (f ++ t).take ((f ++ t).length - t.length) = f := by
    rw [List.length_append, Nat.add_sub_cancel, List.take_left]
  simp only [fixture?, lead?_eq_none_of_spelling h t, h.read t, Option.map_some, htake]

theorem eq_of_fixture? (h : fixture? s = some (f, rest)) : s = f ++ rest := by
  rcases fixture?_cases h with ⟨hole, hl, rfl⟩ | ⟨p, -, hs⟩
  · exact Hole.eq_of_lead? hl
  · exact hs

/-- A fixture is read as such whatever follows it. -/
theorem fixture?_append (h : fixture? s = some (f, rest)) (t : Text) :
    fixture? (f ++ t) = some (f, t) := by
  rcases fixture?_cases h with ⟨hole, hl, rfl⟩ | ⟨p, hp, -⟩
  · simp only [fixture?, Hole.lead?_append hl t, Option.map_some]
  · exact fixture?_of_spelling hp t

theorem isFixture_of_fixture? (h : fixture? s = some (f, rest)) : IsFixture f := by
  have hself := fixture?_append h []
  rwa [List.append_nil] at hself

theorem IsFixture.append (h : IsFixture f) (t : Text) : fixture? (f ++ t) = some (f, t) :=
  fixture?_append h t

/-- The two forms of a fixture. -/
theorem IsFixture.shape (h : IsFixture f) :
    (∃ v, f = '{' :: '{' :: v ++ ['}']) ∨
      ∃ v, f = '<' :: v ++ ['>'] ∧ ∀ d ∈ v, d ≠ '<' ∧ d ≠ '>' ∧ d ≠ '}' := by
  rcases fixture?_cases h with ⟨⟨raw, inner⟩, -, rfl⟩ | ⟨p, hp, -⟩
  · left
    cases raw with
    | true => exact ⟨'{' :: inner ++ ['}', '}'], by simp [Hole.written, Hole.opening, Hole.closing]⟩
    | false => exact ⟨inner ++ ['}'], by simp [Hole.written, Hole.opening, Hole.closing]⟩
  · exact .inr hp.shape

theorem fixture?_of_lone (hbrace : c = '{' → s.head? ≠ some '{') (hangle : c ≠ '<') :
    fixture? (c :: s) = none := by
  simp only [fixture?, Hole.lead?_char hbrace, read?_of_ne hangle s, Option.map_none]

theorem fixture?_of_ne (hbrace : c ≠ '{') (hangle : c ≠ '<') (s : Text) :
    fixture? (c :: s) = none :=
  fixture?_of_lone (fun hc => absurd hc hbrace) hangle

/-- No fixture starts in a text. -/
def Vacant (t : Text) : Prop := '{' ∉ t ∧ '<' ∉ t

instance : DecidablePred Vacant := fun _ => inferInstanceAs (Decidable (_ ∧ _))

theorem vacant_nil : Vacant [] := by decide

theorem vacant_append : Vacant (s ++ t) ↔ Vacant s ∧ Vacant t := by
  simp only [Vacant, List.mem_append, not_or]
  tauto

theorem Vacant.append (hs : Vacant s) (ht : Vacant t) : Vacant (s ++ t) :=
  vacant_append.mpr ⟨hs, ht⟩

theorem Vacant.of_forall (h : ∀ d ∈ t, d ≠ '{' ∧ d ≠ '<') : Vacant t :=
  ⟨fun hm => (h _ hm).1 rfl, fun hm => (h _ hm).2 rfl⟩

theorem Vacant.of_sublist (h : Vacant t) (hs : s.Sublist t) : Vacant s :=
  ⟨fun hm => h.1 (hs.subset hm), fun hm => h.2 (hs.subset hm)⟩

theorem vacant_takeWhile {p : Char → Bool} (hbrace : p '{' = false) (hangle : p '<' = false)
    (s : Text) : Vacant (s.takeWhile p) := by
  refine .of_forall fun d hd => ?_
  have hp := List.mem_takeWhile_imp hd
  constructor <;> rintro rfl
  · rw [hbrace] at hp
    cases hp
  · rw [hangle] at hp
    cases hp

/-- No fixture starts or ends in a text. -/
def Smooth (t : Text) : Prop := Vacant t ∧ '}' ∉ t ∧ '>' ∉ t

instance : DecidablePred Smooth := fun _ => inferInstanceAs (Decidable (_ ∧ _))

theorem Smooth.of_sublist (h : Smooth t) (hs : s.Sublist t) : Smooth s :=
  ⟨h.1.of_sublist hs, fun hm => h.2.1 (hs.subset hm), fun hm => h.2.2 (hs.subset hm)⟩

theorem IsFixture.not_vacant (h : IsFixture f) (hne : s ≠ []) (hs : s <+: f) : ¬Vacant s := by
  obtain ⟨d, s, rfl⟩ := List.exists_cons_of_ne_nil hne
  obtain ⟨u, rfl⟩ := hs
  rintro ⟨hbrace, hangle⟩
  rcases h.shape with ⟨v, hv⟩ | ⟨v, hv, -⟩
  · exact hbrace ((List.cons.inj hv).1 ▸ List.mem_cons_self)
  · exact hangle ((List.cons.inj hv).1 ▸ List.mem_cons_self)

theorem IsFixture.not_smooth (h : IsFixture f) (hne : s ≠ []) (hs : s <:+ f) : ¬Smooth s := by
  obtain ⟨t, d, rfl⟩ := (List.eq_nil_or_concat' s).resolve_left hne
  obtain ⟨u, rfl⟩ := hs
  rintro ⟨-, hbrace, hangle⟩
  rcases h.shape with ⟨v, hv⟩ | ⟨v, hv, -⟩
  · have hd := congrArg List.getLast? hv
    simp only [← List.append_assoc, List.getLast?_concat, Option.some.injEq] at hd
    exact hbrace (by simp [hd])
  · have hd := congrArg List.getLast? hv
    simp only [← List.append_assoc, List.getLast?_concat, Option.some.injEq] at hd
    exact hangle (by simp [hd])

theorem IsFixture.ne_nil (h : IsFixture f) : f ≠ [] := by
  rintro rfl
  rcases h.shape with ⟨v, hv⟩ | ⟨v, hv, -⟩ <;> cases hv

/-- The fixtures of a text. -/
def fixtures (s : Text) : List Text :=
  match s with
  | [] => []
  | c :: s =>
    match _h : fixture? (c :: s) with
    | some (f, rest) => f :: fixtures rest
    | none => fixtures s
termination_by s.length
decreasing_by
  · have hs := congrArg List.length (eq_of_fixture? _h)
    have := List.length_pos_iff.mpr (isFixture_of_fixture? _h).ne_nil
    rw [List.length_append] at hs
    omega
  · simp

theorem fixtures_of_fixture? (h : fixture? s = some (f, rest)) :
    fixtures s = f :: fixtures rest := by
  cases s with
  | nil =>
    have hnil := (List.append_eq_nil_iff.mp (eq_of_fixture? h).symm).1
    exact absurd hnil (isFixture_of_fixture? h).ne_nil
  | cons c s =>
    rw [fixtures]
    split
    next hf =>
      cases h.symm.trans hf
      rfl
    next hf => cases h.symm.trans hf

theorem fixtures_cons (h : fixture? (c :: s) = none) : fixtures (c :: s) = fixtures s := by
  rw [fixtures]
  split
  next hf => cases h.symm.trans hf
  next => rfl

/-- A stretch of a text, with its fixtures and with what follows it: no fixture of it goes on in
what follows. -/
inductive Stretch : List Text → Text → Text → Prop where
  | nil (r : Text) : Stretch [] [] r
  | skip {ws : List Text} {c : Char} {w r : Text} (hhole : Hole.lead? (c :: (w ++ r)) = none)
      (hplaceholder : read? (c :: (w ++ r)) = none) (h : Stretch ws w r) : Stretch ws (c :: w) r
  | fixture {ws : List Text} {f w r : Text} (hf : IsFixture f) (h : Stretch ws w r) :
      Stretch (f :: ws) (f ++ w) r

namespace Stretch

theorem fixtures_append (h : Stretch ws w r) : fixtures (w ++ r) = ws ++ fixtures r := by
  induction h with
  | nil r => rfl
  | skip hhole hplaceholder h ih =>
    rw [List.cons_append, fixtures_cons, ih]
    simp only [fixture?, hhole, hplaceholder, Option.map_none]
  | fixture hf h ih =>
    rw [List.append_assoc, fixtures_of_fixture? (hf.append _), ih]
    rfl

/-- A text of which every hole closes is a stretch of its fixtures. -/
theorem of_closed (h : ∀ t, t <:+ s → Hole.lead? t ≠ some none) : Stretch (fixtures s) s [] := by
  fun_induction fixtures s with
  | case1 => exact .nil []
  | case2 c s f rest hf ih =>
    have hs := eq_of_fixture? hf
    rw [hs]
    have hmore : Stretch (fixtures rest) rest [] :=
      ih fun t ht => h t (hs ▸ ht.trans (List.suffix_append f rest))
    exact .fixture (isFixture_of_fixture? hf) hmore
  | case3 c s hf ih =>
    have hnone : Hole.lead? (c :: s) = none ∧ read? (c :: s) = none := by
      have hclosed := h _ List.suffix_rfl
      unfold fixture? at hf
      split at hf
      next found hl =>
        rw [Option.map_eq_none_iff.mp hf] at hl
        exact absurd hl hclosed
      next hl => exact ⟨hl, Option.map_eq_none_iff.mp hf⟩
    rw [← List.append_nil s] at hnone
    exact .skip hnone.1 hnone.2 (ih fun t ht => h t (ht.trans (List.suffix_cons c s)))

theorem append (ha : Stretch ws a (b ++ r)) (hb : Stretch vs b r) :
    Stretch (ws ++ vs) (a ++ b) r := by
  generalize hr : b ++ r = r' at ha
  induction ha with
  | nil => exact hb
  | skip hhole hplaceholder h ih =>
    subst hr
    rw [← List.append_assoc] at hhole hplaceholder
    exact .skip hhole hplaceholder (ih rfl)
  | fixture hf h ih =>
    rw [List.append_assoc]
    exact .fixture hf (ih hr)

theorem single (hhole : Hole.lead? (c :: r) = none) (hplaceholder : read? (c :: r) = none) :
    Stretch [] [c] r :=
  .skip hhole hplaceholder (.nil r)

theorem of_vacant (h : Vacant w) (r : Text) : Stretch [] w r := by
  induction w with
  | nil => exact .nil r
  | cons d w ih =>
    have hd : d ≠ '{' ∧ d ≠ '<' :=
      ⟨fun he => h.1 (he ▸ List.mem_cons_self), fun he => h.2 (he ▸ List.mem_cons_self)⟩
    exact .skip (Hole.lead?_char fun he => absurd he hd.1) (read?_of_ne hd.2 _)
      (ih (h.of_sublist (List.sublist_cons_self d w)))

theorem eq_nil_of_vacant (h : Stretch ws w r) (hw : Vacant w) : ws = [] := by
  induction h with
  | nil => rfl
  | skip hhole hplaceholder h ih => exact ih (hw.of_sublist (List.sublist_cons_self _ _))
  | fixture hf h ih =>
    exact absurd (vacant_append.mp hw).1 (hf.not_vacant hf.ne_nil List.prefix_rfl)

theorem lead?_ne (h : Stretch ws s []) : Hole.lead? s ≠ some none := by
  cases h with
  | nil => decide
  | skip hhole hplaceholder h =>
    rw [List.append_nil] at hhole
    rw [hhole]
    exact fun he => by cases he
  | @fixture _ f w _ hf h =>
    intro hlead
    have hread := hf.append w
    rw [fixture?, hlead] at hread
    cases hread

theorem isFixture (h : Stretch ws w r) (hf : f ∈ ws) : IsFixture f := by
  induction h with
  | nil => exact absurd hf List.not_mem_nil
  | skip hhole hplaceholder h ih => exact ih hf
  | fixture hg h ih =>
    rcases List.mem_cons.mp hf with rfl | hf
    · exact hg
    · exact ih hf

/-- A fixture of a stretch is read somewhere in it. -/
theorem exists_suffix (h : Stretch ws w r) (hf : f ∈ ws) :
    ∃ t rest, t <:+ w ∧ fixture? t = some (f, rest) := by
  induction h with
  | nil => exact absurd hf List.not_mem_nil
  | skip hhole hplaceholder h ih =>
    obtain ⟨t, rest, ht, hread⟩ := ih hf
    exact ⟨t, rest, ht.trans (List.suffix_cons _ _), hread⟩
  | fixture hg h ih =>
    rcases List.mem_cons.mp hf with rfl | hf
    · exact ⟨_, _, List.suffix_rfl, hg.append _⟩
    · obtain ⟨t, rest, ht, hread⟩ := ih hf
      exact ⟨t, rest, ht.trans (List.suffix_append _ _), hread⟩

/-- A stretch falls into two where no fixture of it is cut. -/
theorem split (h : Stretch ws (a ++ b) r)
    (hcut : ∀ u v, u ++ v ∈ ws → u ≠ [] → v ≠ [] → u <:+ a → ¬v <+: b) :
    ∃ us vs, ws = us ++ vs ∧ Stretch us a (b ++ r) ∧ Stretch vs b r := by
  generalize hw : a ++ b = w at h
  induction h generalizing a with
  | nil =>
    obtain ⟨rfl, rfl⟩ := List.append_eq_nil_iff.mp hw
    exact ⟨[], [], rfl, .nil _, .nil _⟩
  | @skip ws c w r hhole hplaceholder h ih =>
    cases a with
    | nil =>
      rw [List.nil_append] at hw
      exact ⟨[], ws, rfl, .nil _, hw ▸ .skip hhole hplaceholder h⟩
    | cons d a =>
      rw [List.cons_append, List.cons.injEq] at hw
      obtain ⟨rfl, rfl⟩ := hw
      obtain ⟨us, vs, he, hu, hv⟩ := ih (fun u v hm hu hv hs =>
        hcut u v hm hu hv (hs.trans (List.suffix_cons d a))) rfl
      rw [List.append_assoc] at hhole hplaceholder
      exact ⟨us, vs, he, .skip hhole hplaceholder hu, hv⟩
  | @fixture ws f w r hf h ih =>
    rcases List.append_eq_append_iff.mp hw with ⟨v, rfl, hb⟩ | ⟨u, rfl, rfl⟩
    · -- The cut is in the fixture, or before it, or after it.
      rcases eq_or_ne a [] with rfl | ha
      · rw [List.nil_append] at hw
        exact ⟨[], _, rfl, .nil _, hw ▸ .fixture hf h⟩
      · rcases eq_or_ne v [] with rfl | hv
        · have hone := Stretch.fixture hf (.nil (b ++ r))
          rw [List.nil_append] at hb
          rw [List.append_nil, List.append_nil] at hone
          rw [List.append_nil]
          exact ⟨[a], ws, rfl, hone, hb ▸ h⟩
        · exact absurd (hb ▸ List.prefix_append v w)
            (hcut a v List.mem_cons_self ha hv List.suffix_rfl)
    · obtain ⟨us, vs, rfl, hu, hv⟩ := ih (fun u' v' hm hu hv hs =>
        hcut u' v' (List.mem_cons_of_mem f hm) hu hv (hs.trans (List.suffix_append f u))) rfl
      exact ⟨f :: us, vs, rfl, .fixture hf hu, hv⟩

theorem drop_vacant (h : Stretch ws (a ++ b) r) (ha : Vacant a) : Stretch ws b r := by
  obtain ⟨us, vs, rfl, hu, hv⟩ := h.split fun u v hm hne _ hs _ =>
    (h.isFixture hm).not_vacant hne (List.prefix_append u v) (ha.of_sublist hs.sublist)
  rwa [hu.eq_nil_of_vacant ha, List.nil_append]

theorem drop_smooth (h : Stretch ws (a ++ b) r) (hb : Smooth b) : Stretch ws a (b ++ r) := by
  obtain ⟨us, vs, rfl, hu, hv⟩ := h.split fun u v hm _ hne _ hs =>
    (h.isFixture hm).not_smooth hne (List.suffix_append u v) (hb.of_sublist hs.sublist)
  rwa [hv.eq_nil_of_vacant hb.1, List.append_nil]

/-- A stretch falls into two after a sign that is not in its fixtures, their last characters
aside. -/
theorem split_after {sign : Text} (h : Stretch ws (a ++ sign ++ b) r) (hsign : Vacant sign)
    (hfree : ∀ f ∈ ws, ¬sign <:+: f.dropLast) :
    ∃ us vs, ws = us ++ vs ∧ Stretch us (a ++ sign) (b ++ r) ∧ Stretch vs b r := by
  refine h.split fun u v hm hu hv hs _ => ?_
  rcases List.suffix_or_suffix_of_suffix hs (List.suffix_append a sign) with hin | hin
  · exact (h.isFixture hm).not_vacant hu (List.prefix_append u v) (hsign.of_sublist hin.sublist)
  · refine hfree _ hm ?_
    rw [List.dropLast_append_of_ne_nil hv]
    exact hin.isInfix.trans (List.prefix_append u _).isInfix

end Stretch

/-- A text has no fixtures, and none goes on after it, whatever follows. -/
def Bland (t : Text) : Prop := ∀ u, Stretch [] t u

theorem Vacant.bland (h : Vacant t) : Bland t := Stretch.of_vacant h

theorem Bland.append (hs : Bland s) (ht : Bland t) : Bland (s ++ t) := fun u =>
  (hs (t ++ u)).append (ht u)

/-- Does a text start with what no fixture goes on through? -/
def Stops (t : Text) : Prop := ∀ d ∈ t.head?, d = '\n' ∨ d = '<'

theorem stops_nil : Stops [] := fun _ hd => by cases hd

/-- Can this character stand between the ends of a placeholder? -/
def isInner (c : Char) : Bool := isNameChar c || c == ' ' || c == '/'

theorem isInner_iff {d : Char} : isInner d ↔ isNameChar d ∨ d = ' ' ∨ d = '/' := by
  simp only [isInner, Bool.or_eq_true, beq_iff_eq, or_assoc]

/-- No backslash comes after `<` and characters that can stand in a placeholder. -/
def Unbroken (s : Text) : Prop :=
  ∀ t, '<' :: t <:+ s → (t.dropWhile isInner).head? ≠ some '\\'

theorem Unbroken.of_suffix (h : Unbroken s) (ht : t <:+ s) : Unbroken t := fun u hu =>
  h u (hu.trans ht)

/-- A text starts as another does, up to the end of either, to a place where it stops, or to a
backslash that it does not have. -/
def Echoes (t s : Text) : Prop :=
  ∃ u v rest, s = u ++ rest ∧ t = u ++ v ∧
    (Stops v ∨ rest.head? = some '\\' ∧ v.head? ≠ some '{')

theorem Echoes.of_stops (h : Stops t) (s : Text) : Echoes t s := ⟨[], t, s, rfl, rfl, .inl h⟩

theorem Echoes.of_backslash (h : t.head? ≠ some '{') (s : Text) : Echoes t ('\\' :: s) :=
  ⟨[], t, '\\' :: s, rfl, rfl, .inr ⟨rfl, h⟩⟩

theorem Echoes.append (h : Echoes t s) (w : Text) : Echoes (w ++ t) (w ++ s) := by
  obtain ⟨u, v, rest, rfl, rfl, hv⟩ := h
  exact ⟨w ++ u, v, rest, by rw [List.append_assoc], by rw [List.append_assoc], hv⟩

theorem lead?_echo (h : Hole.lead? (c :: s) = none) (he : Echoes t s) :
    Hole.lead? (c :: t) = none := by
  refine Hole.lead?_char fun hc hhead => Hole.head?_of_lead? h hc ?_
  obtain ⟨u, v, rest, rfl, rfl, hv⟩ := he
  cases u with
  | nil =>
    rcases hv with hv | ⟨-, hv⟩
    · exact absurd (hv _ hhead) (by decide)
    · exact absurd hhead hv
  | cons d u => exact hhead

/-- A placeholder does not go on where a text echoes another. -/
theorem closed_of_echo {u v rest x after : Text} (hv : Stops v ∨ rest.head? = some '\\')
    (hx : ∀ d ∈ x, isInner d) (hs : ((u ++ rest).dropWhile isInner).head? ≠ some '\\')
    (h : u ++ v = x ++ ['>'] ++ after) : x ++ ['>'] <+: u := by
  rcases List.append_eq_append_iff.mp h with ⟨y, hy, rfl⟩ | ⟨y, rfl, -⟩
  · rcases eq_or_ne y [] with rfl | hne
    · rw [hy, List.append_nil]
    · rcases hv with hv | hrest
      · obtain ⟨d, y, rfl⟩ := List.exists_cons_of_ne_nil hne
        have hd : d ∈ x ++ ['>'] := hy ▸ List.mem_append_right u List.mem_cons_self
        rcases List.mem_append.mp hd with hd | hd
        · rcases hv d rfl with rfl | rfl <;> exact absurd (hx _ hd) (by decide)
        · rcases hv d rfl with rfl | rfl <;> exact absurd (List.mem_singleton.mp hd) (by decide)
      · -- All before the backslash can stand in a placeholder.
        have hu : u ++ y.dropLast = x := by
          rw [← List.dropLast_append_of_ne_nil hne, ← hy, List.dropLast_concat]
        obtain ⟨m, rfl⟩ := List.head?_eq_some_iff.mp hrest
        have hinner : ∀ d ∈ u, isInner d := fun d hd => hx d (hu ▸ List.mem_append_left _ hd)
        rw [List.dropWhile_append_of_pos hinner] at hs
        exact absurd rfl hs
  · exact List.prefix_append _ _

theorem read?_echo (h : read? (c :: s) = none) (he : Echoes t s)
    (hs : c = '<' → (s.dropWhile isInner).head? ≠ some '\\') : read? (c :: t) = none := by
  refine Option.eq_none_iff_forall_ne_some.mpr fun ⟨p, after⟩ hread => ?_
  obtain ⟨w, hw, hp⟩ := exists_spelling hread
  obtain ⟨x, rfl, hx⟩ := hp.chars
  obtain ⟨u, v, rest, rfl, rfl, hv⟩ := he
  rw [List.cons_append, List.cons_append, List.cons.injEq] at hw
  obtain ⟨rfl, hw⟩ := hw
  have hinner : ∀ d ∈ x, isInner d := fun d hd => isInner_iff.mpr (hx d hd)
  obtain ⟨y, rfl⟩ := closed_of_echo (hv.imp_right And.left) hinner (hs rfl) hw
  have hread' := hp.read (y ++ rest)
  rw [List.cons_append, List.cons_append, ← List.append_assoc, h] at hread'
  cases hread'

theorem Stretch.echo (h : Stretch ws w r) (he : Echoes t r) (hs : Unbroken (w ++ r)) :
    Stretch ws w t := by
  induction h with
  | nil => exact .nil t
  | @skip ws c w r hhole hplaceholder h ih =>
    have hrest := hs.of_suffix (List.suffix_cons c (w ++ r))
    exact .skip (lead?_echo hhole (he.append _))
      (read?_echo hplaceholder (he.append _) fun hc => hs _ (hc ▸ List.suffix_rfl)) (ih he hrest)
  | @fixture ws f w r hf h ih =>
    rw [List.append_assoc] at hs
    exact .fixture hf (ih he (hs.of_suffix (List.suffix_append f (w ++ r))))

end Stencil
