import Stencil.Engine
import Stencil.Proofs.Extraction
import Stencil.Proofs.Mark
import Stencil.Proofs.Marked

namespace Stencil

namespace Block

variable {literals : LiteralTable}

theorem exists_of_closing? {name s body rest : Text} (h : closing? name s = some (body, rest)) :
    ∃ u, s = u ++ '>' :: rest := by
  induction s generalizing body with
  | nil => cases h
  | cons c s ih =>
    have hlater : ∀ r : Text × Text, closing? name s = some r → r.2 = rest →
        ∃ u, c :: s = u ++ '>' :: rest := by
      rintro ⟨b, r⟩ hr rfl
      obtain ⟨u, hu⟩ := ih hr
      exact ⟨c :: u, by rw [hu, List.cons_append]⟩
    unfold closing? at h
    dsimp only at h
    split at h
    · split at h
      next r hs =>
        cases Option.some.inj h
        have hdrop : Text.trimStart ((c :: s).drop (['<', '/'] ++ name).length) = '>' :: rest :=
          Text.strip?_eq_some_iff.mp hs
        have hsuffix : '>' :: rest <:+ c :: s := by
          rw [← hdrop]
          exact (List.dropWhile_suffix _).trans (List.drop_suffix _ _)
        obtain ⟨u, hu⟩ := hsuffix
        exact ⟨u, hu.symm⟩
      next =>
        obtain ⟨r, hr, he⟩ := Option.map_eq_some_iff.mp h
        exact hlater r hr (congrArg Prod.snd he)
    · obtain ⟨r, hr, he⟩ := Option.map_eq_some_iff.mp h
      exact hlater r hr (congrArg Prod.snd he)

/-- A block ends with an angle bracket. -/
theorem exists_of_read? {s rest : Text} {b : Block} (h : read? literals s = some (b, rest)) :
    ∃ u, s = u ++ '>' :: rest := by
  have hsplit := List.takeWhile_append_dropWhile (p := Char.isAlpha) (l := s)
  simp only [read?, Option.bind_eq_bind, Option.bind_eq_some_iff] at h
  obtain ⟨kind, _, h⟩ := h
  split at h
  next => cases h
  next =>
    simp only [Option.bind_eq_some_iff] at h
    obtain ⟨⟨inside, t⟩, hcut, h⟩ := h
    rw [Text.eq_of_cut? hcut] at hsplit
    dsimp only at h
    split at h
    next =>
      cases h
      exact ⟨s.takeWhile Char.isAlpha ++ inside, hsplit.symm.trans (by simp)⟩
    next =>
      simp only [Option.bind_eq_some_iff] at h
      obtain ⟨⟨body, r⟩, hclosing, he⟩ := h
      obtain ⟨u, hu⟩ := exists_of_closing? hclosing
      cases he
      refine ⟨s.takeWhile Char.isAlpha ++ inside ++ ['>'] ++ u, hsplit.symm.trans ?_⟩
      rw [hu]
      simp

theorem sinkFrom_append_of_not_mem {a : Text} (ha : '<' ∉ a) (n : Nat) (s : Text) :
    (sinkFrom literals n (a ++ s)).1 = a ++ (sinkFrom literals n s).1 := by
  induction a with
  | nil => rfl
  | cons c a ih =>
    have hc : c ≠ '<' := fun hc => ha (hc ▸ List.mem_cons_self)
    rw [List.cons_append, sinkFrom, if_neg hc]
    dsimp only
    rw [ih (List.not_mem_of_not_mem_cons ha), List.cons_append]

theorem head?_sinkFrom (n : Nat) (s : Text) : (sinkFrom literals n s).1.head? = s.head? := by
  cases s with
  | nil => rw [sinkFrom]
  | cons c s =>
    rw [sinkFrom]
    split
    next hc =>
      split
      · rw [hc]
        rfl
      · rfl
    next => rfl

theorem not_mem_marker (n : Nat) : '%' ∉ marker n := by
  intro h
  rcases List.mem_append.mp h with h | h
  · rcases List.mem_append.mp h with h | h
    · exact absurd h (by decide)
    · exact Text.not_mem_ofNat (by decide) n h
  · exact absurd h (by decide)

/-- Taking blocks out of a marked text leaves a marked text. -/
theorem marked_sinkFrom {s : Text} (h : Marked s) (n : Nat) :
    Marked (sinkFrom literals n s).1 := by
  induction hlen : s.length using Nat.strongRecOn generalizing s n with
  | ind k ih =>
    cases h with
    | nil =>
      rw [sinkFrom]
      exact .nil
    | @sign l s hl hs =>
      have hlength : s.length < k := by
        simp only [← hlen, List.length_cons, List.length_append]
        omega
      rw [← Marked.sign_append, sinkFrom_append_of_not_mem (Marked.not_mem_sign hl),
        Marked.sign_append]
      exact .sign hl (ih _ hlength hs n rfl)
    | @char c s hs hc =>
      have hlength : s.length < k := by simp [← hlen]
      have hplain : Marked (c :: (sinkFrom literals n s).1) := by
        refine .char (ih _ hlength hs n rfl) fun hp => ?_
        rw [head?_sinkFrom]
        exact hc hp
      rw [sinkFrom]
      split
      next =>
        split
        next b rest hr =>
          obtain ⟨u, rfl⟩ := exists_of_read? hr
          have hlength := length_of_read? hr
          have hrest : Marked rest := hs.after (c := '>') (by decide)
          exact (ih _ (by omega) hrest _ rfl).append_of_not_mem (not_mem_marker n)
        next => exact hplain
      next => exact hplain

end Block

namespace Marker

theorem head?_of_encode {s : Text} (h : (encode s).head? = some '!') : s.head? = some '!' := by
  unfold encode at h
  split at h
  · exact absurd h (by simp [openingMark])
  · rfl
  · exact h
  · exact h

theorem marked_encode (s : Text) : Marked (encode s) := by
  fun_induction encode s with
  | case1 s ih => exact .sign (List.forall_mem_singleton.mpr (by decide)) ih
  | case2 s ih => exact .sign (List.forall_mem_singleton.mpr (by decide)) ih
  | case3 c s hopening _ ih =>
    refine .char ih fun hc hs => ?_
    obtain ⟨t, rfl⟩ := List.head?_eq_some_iff.mp (head?_of_encode hs)
    exact hopening t hc rfl
  | case4 => exact .nil

end Marker

namespace Segment

variable {before s : Text} {c : Char}

def isComment : Segment → Bool
  | comment _ => true
  | _ => false

/-- Are there comments, and nothing else, between a percent sign and an exclamation mark? -/
def Joins (segs : List Segment) : Prop :=
  ∃ pre comments post text, segs = pre ++ plain ['%'] :: (comments ++ plain ('!' :: text) :: post) ∧
    comments ≠ [] ∧ ∀ seg ∈ comments, seg.isComment

theorem Joins.cons {segs : List Segment} (h : Joins segs) (seg : Segment) :
    Joins (seg :: segs) := by
  obtain ⟨pre, comments, post, text, rfl, h⟩ := h
  exact ⟨seg :: pre, comments, post, text, rfl, h⟩

theorem Joins.append {segs : List Segment} (h : Joins segs) (more : List Segment) :
    Joins (more ++ segs) := by
  induction more with
  | nil => exact h
  | cons seg more ih => exact ih.cons seg

theorem lead?_cases {seg : Segment} {rest : Text} (h : lead? before s = some (seg, rest)) :
    (∃ t, seg = comment t) ∨ ∃ q, seg = quoted q := by
  unfold lead? at h
  split at h
  next =>
    cases h
    exact .inl ⟨_, rfl⟩
  next =>
    split at h
    next => cases h
    next =>
      split at h
      next =>
        obtain ⟨r, -, he⟩ := Option.map_eq_some_iff.mp h
        cases he
        exact .inr ⟨_, rfl⟩
      next => cases h

/-- There is a comment directly after a percent sign then. -/
theorem Joins.exists_pair {segs : List Segment} (h : Joins segs) :
    ∃ p ∈ segs.zip segs.tail, p.1 = plain ['%'] ∧ p.2.isComment := by
  obtain ⟨pre, comments, post, text, rfl, hne, hc⟩ := h
  obtain ⟨seg, comments, rfl⟩ := List.exists_cons_of_ne_nil hne
  refine ⟨(plain ['%'], seg), ?_, rfl, hc seg List.mem_cons_self⟩
  induction pre with
  | nil => simp
  | cons first pre ih =>
    cases pre with
    | nil => exact List.mem_cons_of_mem _ (by simp)
    | cons second pre => exact List.mem_cons_of_mem _ ih

/-- No comment and no literal starts with a character that may stand in a mark. -/
theorem segments_of_not_break (hc : isBreak c = false) :
    segments before (c :: s) = plain [c] :: segments (c :: before) s := by
  have hne : ∀ d, isBreak d → c ≠ d := by
    rintro d hd rfl
    rw [hd] at hc
    cases hc
  have hangle := hne '<' (by decide)
  have hslash := hne '/' (by decide)
  have hnever : neverCloses (c :: s) = false := by
    simp [neverCloses, htmlOpening, blockOpening, hangle.symm, hslash.symm]
  have hcomment : comment? before (c :: s) = none := by
    simp [comment?, htmlOpening, blockOpening, hangle.symm, hslash.symm, (hne '#' (by decide)).symm]
  have hquote : opensQuote before c = false := by
    simp [opensQuote, hne '"' (by decide), hne '\'' (by decide), hne '\x60' (by decide)]
  refine segments_of_unled hnever ?_
  rw [lead?, hcomment]
  simp [hquote]

theorem segments_append (before : Text) {a : Text} (ha : ∀ c ∈ a, isBreak c = false) (s : Text) :
    segments before (a ++ s) =
      a.map (fun c => plain [c]) ++ segments (a.reverse ++ before) s := by
  induction a generalizing before with
  | nil => rfl
  | cons c a ih =>
    rw [List.cons_append, segments_of_not_break (ha c List.mem_cons_self),
      ih _ fun d hd => ha d (List.mem_cons_of_mem c hd)]
    simp

theorem marked_of_lead? {seg : Segment} {rest : Text} (h : Marked s)
    (hl : lead? before s = some (seg, rest)) : Marked rest := by
  have hend : ∀ {opening t r : Text} (inner : Text) (d : Char), isBreak d →
      enclosed? opening (inner ++ [d]) s = some (t, r) → Marked r := by
    intro opening t r inner d hd he
    simp only [enclosed?, Option.bind_eq_bind, Option.bind_eq_some_iff] at he
    obtain ⟨u, hu, ⟨inside, r'⟩, hcut, he⟩ := he
    cases he
    have hs : s = (opening ++ inside ++ inner) ++ d :: r' := by
      rw [Text.strip?_eq_some_iff.mp hu, Text.eq_of_cut? hcut]
      simp
    exact (hs ▸ h).after hd
  unfold lead? at hl
  split at hl
  next t r hc =>
    cases Option.some.inj hl
    unfold comment? at hc
    split at hc
    next => exact hend ['-', '-'] '>' (by decide) hc
    next =>
      split at hc
      next => exact hend ['*'] '/' (by decide) hc
      next =>
        split at hc
        next =>
          -- The comment runs to the end of its line.
          cases Option.some.inj hc
          have hsplit := List.takeWhile_append_dropWhile (p := fun c => !(c == '\n')) (l := s)
          rw [← hsplit] at h
          refine (h.cut fun c hc => ?_).2
          have hhead := List.head?_dropWhile_not (fun c => !(c == '\n')) s
          rw [Option.mem_def.mp hc] at hhead
          have hline : c = '\n' := by simpa using hhead
          exact hline ▸ by decide
        next => cases hc
  next =>
    split at hl
    next => cases hl
    next q inner _ =>
      split at hl
      next hopens =>
        obtain ⟨⟨body, r⟩, hb, he⟩ := Option.map_eq_some_iff.mp hl
        cases he
        have hq : isBreak q := by
          simp only [opensQuote, Bool.or_eq_true, Bool.and_eq_true, beq_iff_eq] at hopens
          rcases hopens with (rfl | rfl) | ⟨rfl, -⟩ <;> decide
        rw [Quoted.eq_of_closing? hb, ← List.cons_append] at h
        exact h.after hq
      next => cases hl

theorem ne_plain_of_mem_segments {seg : Segment} (h : seg ∈ segments before s) :
    seg ≠ plain [] := by
  fun_induction segments before s with
  | case1 => cases h
  | case2 =>
    rw [List.mem_singleton.mp h]
    simp
  | case3 before c s _ first rest hl ih =>
    rcases List.mem_cons.mp h with rfl | h
    · rintro rfl
      exact (eq_of_lead? hl).2 rfl
    · exact ih h
  | case4 before c s _ _ ih =>
    rcases List.mem_cons.mp h with rfl | h
    · simp
    · exact ih h

/-- What is left of segments starts with an exclamation mark only if there is one after comments. -/
theorem head?_writeReferences {segs : List Segment} (hne : ∀ seg ∈ segs, seg ≠ plain []) {n : Nat}
    (h : (LiteralTable.writeReferences n segs).head? = some '!') :
    ∃ comments text post, segs = comments ++ plain ('!' :: text) :: post ∧
      ∀ seg ∈ comments, seg.isComment := by
  induction segs with
  | nil => cases h
  | cons seg segs ih =>
    cases seg with
    | plain text =>
      cases text with
      | nil => exact absurd rfl (hne _ List.mem_cons_self)
      | cons c text =>
        cases Option.some.inj h
        exact ⟨[], text, segs, rfl, by simp⟩
    | comment t =>
      obtain ⟨comments, text, post, rfl, hc⟩ := ih (fun s hs => hne s (List.mem_cons_of_mem _ hs)) h
      refine ⟨comment t :: comments, text, post, rfl, fun seg hs => ?_⟩
      rcases List.mem_cons.mp hs with rfl | hs
      · rfl
      · exact hc seg hs
    | quoted q => exact absurd h (by simp [LiteralTable.writeReferences, Reference.write,
        Reference.literal])

theorem isAlphanum_reference (n : Nat) : ∀ c ∈ 's' :: Text.ofNat n, c.isAlphanum := by
  intro c hc
  rcases List.mem_cons.mp hc with rfl | hc
  · decide
  · simp [Char.isAlphanum, Text.isDigit_of_mem_ofNat hc]

theorem writeReferences_plain (n : Nat) (a : Text) (segs : List Segment) :
    LiteralTable.writeReferences n (a.map (fun c => plain [c]) ++ segs) =
      a ++ LiteralTable.writeReferences n segs := by
  induction a with
  | nil => rfl
  | cons c a ih =>
    rw [List.map_cons, List.cons_append, LiteralTable.writeReferences, ih]
    rfl

/-- A mark is a word, if its label is. -/
theorem isBreak_mark {l : Text} (h : ∀ c ∈ l, isBreak c = false) :
    ∀ c ∈ '%' :: '!' :: (l ++ ['!', '%']), isBreak c = false := by
  simp only [List.mem_cons, List.mem_append, List.not_mem_nil, or_false]
  rintro c (rfl | rfl | hc | rfl | rfl)
  · decide
  · decide
  · exact h c hc
  · decide
  · decide

/-- Taking comments and literals out of a marked text leaves a marked text, if no comment is taken
out from between a percent sign and an exclamation mark. -/
theorem marked_writeReferences (h : Marked s) (hj : ¬Joins (segments before s)) (n : Nat) :
    Marked (LiteralTable.writeReferences n (segments before s)) := by
  induction hlen : s.length using Nat.strongRecOn generalizing before s n with
  | ind k ih =>
    cases h with
    | nil =>
      rw [segments]
      exact .nil
    | @sign l s hl hs =>
      have hmark : ∀ c ∈ '%' :: '!' :: (l ++ ['!', '%']), isBreak c = false :=
        isBreak_mark fun c hm => by simp [isBreak, hl c hm]
      have hlength : s.length < k := by
        simp only [← hlen, List.length_cons, List.length_append]
        omega
      rw [← Marked.sign_append, segments_append before hmark] at hj ⊢
      rw [writeReferences_plain, Marked.sign_append]
      exact .sign hl (ih _ hlength hs (fun hjoins => hj (hjoins.append _)) n rfl)
    | @char c s hs hc =>
      have hwhole : Marked (c :: s) := .char hs hc
      cases hnever : neverCloses (c :: s) with
      | true =>
        rw [segments, if_pos hnever]
        simpa [LiteralTable.writeReferences] using hwhole
      | false =>
        cases hl : lead? before (c :: s) with
        | some r =>
          obtain ⟨seg, rest⟩ := r
          obtain ⟨hwritten, hne⟩ := eq_of_lead? hl
          have hlength : rest.length < k := by
            have hpos := List.length_pos_iff.mpr hne
            rw [← hlen, hwritten, List.length_append]
            omega
          rw [segments_of_lead? hnever hl] at hj ⊢
          have hrest := fun n => ih _ hlength (marked_of_lead? hwhole hl)
            (fun hjoins => hj (hjoins.cons seg)) n rfl
          rcases lead?_cases hl with ⟨t, rfl⟩ | ⟨q, rfl⟩
          · exact hrest n
          · have hmark := Marked.sign (isAlphanum_reference n) (hrest (n + 1))
            simpa [LiteralTable.writeReferences, Reference.write, Reference.literal,
              Marker.closing] using hmark
        | none =>
          have hlength : s.length < k := by simp [← hlen]
          rw [segments_of_unled hnever hl] at hj ⊢
          -- An exclamation mark that comes to stand after a percent sign was there before, or
          -- there were comments in between.
          refine .char (ih _ hlength hs (fun hjoins => hj (hjoins.cons _)) n rfl) fun hp hh => ?_
          obtain ⟨comments, text, post, hsegs, hcomments⟩ :=
            head?_writeReferences (fun seg => ne_plain_of_mem_segments) hh
          cases comments with
          | nil =>
            have hs' := flatMap_written_segments (c :: before) s
            rw [hsegs] at hs'
            exact hc hp (by rw [← hs']; rfl)
          | cons seg comments =>
            exact hj ⟨[], seg :: comments, post, text, by rw [hsegs, hp]; rfl, by simp, hcomments⟩

end Segment

namespace Engine

/-- What is left of a source when its literals, comments and blocks have been taken out, and its
literals. -/
def stripped (source : Text) : Text × LiteralTable :=
  let (text, literals) := LiteralTable.extract (Marker.encode source)
  ((Block.sink literals text).1, literals)

/-- Is there a comment in a source between a percent sign and an exclamation mark? -/
def Joined (source : Text) : Prop := Segment.Joins (Segment.segments [] (Marker.encode source))

/-- A source in which no comment stands directly after a percent sign. -/
theorem not_joined {source : Text}
    (h : ∀ p ∈ (Segment.segments [] (Marker.encode source)).zip
      (Segment.segments [] (Marker.encode source)).tail,
        ¬(p.1 = .plain ['%'] ∧ p.2.isComment)) : ¬Joined source := by
  intro hjoined
  obtain ⟨p, hp, hpair⟩ := hjoined.exists_pair
  exact h p hp hpair

theorem marked_stripped {source : Text} (h : ¬Joined source) : Marked (stripped source).1 :=
  Block.marked_sinkFrom (Segment.marked_writeReferences (Marker.marked_encode source) h 0) 0

theorem isSome_normalized {source : Text} (h : ¬Joined source) :
    (Normalized.ofText? (stripped source).2 (stripped source).1).isSome :=
  Normalized.go?_isSome (marked_stripped h) 0 0

theorem exists_build {source : Text} (h : ¬Joined source) {σ : Type} (host : Host)
    (options : Options) (key : Text) (world : World σ) :
    ∃ template, (build host options key source world).1 = .ok template := by
  obtain ⟨normalized, hn⟩ := Option.isSome_iff_exists.mp (isSome_normalized h)
  have hn : Normalized.ofText? (LiteralTable.extract (Marker.encode source)).2
    (Block.sink (LiteralTable.extract (Marker.encode source)).2
      (LiteralTable.extract (Marker.encode source)).1).1 = some normalized := hn
  rw [build]
  dsimp only
  rw [hn]
  exact ⟨_, rfl⟩

/-- Compiling a source comes to an end: the tail of every tag in what is left of it is split into
tokens, each of which takes something from the tail, and there is a template. -/
theorem build_finishes {source : Text} (h : ¬Joined source) :
    (∀ before s tag rest, (stripped source).1 = before ++ s → Tag.read? s = some (tag, rest) →
      (Tag.conditionTokens? tag.tail).isSome) ∧
    (Normalized.ofText? (stripped source).2 (stripped source).1).isSome ∧
    ∀ {σ : Type} (host : Host) (options : Options) (key : Text) (world : World σ),
      ∃ template, (build host options key source world).1 = .ok template := by
  refine ⟨fun before s tag rest hs hr => ?_, isSome_normalized h, exists_build h⟩
  have hmarked : Marked (before ++ s) := hs ▸ marked_stripped h
  have hsign : ∀ c ∈ s.head?, isBreak c := fun c hc => by
    rw [Tag.head?_of_read? hr] at hc
    cases Option.some.inj hc
    decide
  exact (Tag.marked_of_read? (hmarked.cut hsign).2 hr).1.conditionTokens?_isSome

/-- A page with a comment and with an opening sign in a condition. -/
def signed : Text := "<!-- c -->a<_if x %! y>b</_if>".toList

theorem build_finishes_signed : ¬Joined signed ∧
    ∃ template, (build ⟨[], .none, none, [], 1⟩ (.ofStore []) "index".toList signed
      (⟨(), []⟩ : World Unit)).1 = .ok template := by
  have hjoined : ¬Joined signed := not_joined (by decide +kernel)
  exact ⟨hjoined, (build_finishes hjoined).2.2 _ _ _ _⟩

/-- A comment between the two characters of an opening sign in a condition. -/
def joined : Text := "a<_if %<!-- -->!></_if>".toList

theorem not_finished_joined : Joined joined ∧
    Normalized.ofText? (stripped joined).2 (stripped joined).1 = none ∧ page? joined [] = none := by
  refine ⟨?_, by decide +kernel, by decide +kernel⟩
  exact ⟨"a<_if ".toList.map fun c => .plain [c], [.comment "<!-- -->".toList],
    "></_if>".toList.map fun c => .plain [c], [], by decide +kernel, by simp, by simp; rfl⟩

end Engine

end Stencil
