import Stencil.Literal.Table
import Stencil.Proofs.Closing
import Stencil.Proofs.Wordwise

namespace Stencil

open Text

namespace Marker

variable {c : Char} {s : Text}

/-- Does a sign start a text? -/
def isSign (s : Text) : Bool := opening.isPrefixOf s || closing.isPrefixOf s

theorem isSign_iff : isSign s ↔ opening <+: s ∨ closing <+: s := by
  simp [isSign, List.isPrefixOf_iff_prefix]

/-- The signs, and the markers that are written for them. -/
inductive Sign : Text → Text → Prop
  | opening : Sign Marker.opening openingMark
  | closing : Sign Marker.closing closingMark

theorem encode_cons (h : isSign (c :: s) = false) : encode (c :: s) = c :: encode s := by
  rw [encode]
  · rintro t rfl rfl
    exact absurd h (by simp [isSign, opening])
  · rintro t rfl rfl
    exact absurd h (by simp [isSign, closing])

theorem Sign.encode_append {a b : Text} (h : Sign a b) (t : Text) :
    encode (a ++ t) = b ++ encode t := by
  cases h with
  | opening => rfl
  | closing => rfl

/-- A text that is not empty starts with a sign, or with a character that is none. -/
theorem sign_cases (c : Char) (s : Text) :
    (∃ a b t, Sign a b ∧ c :: s = a ++ t) ∨ isSign (c :: s) = false := by
  cases h : isSign (c :: s) with
  | false => exact .inr rfl
  | true =>
    rcases isSign_iff.mp h with ⟨t, ht⟩ | ⟨t, ht⟩
    · exact .inl ⟨_, _, t, .opening, ht.symm⟩
    · exact .inl ⟨_, _, t, .closing, ht.symm⟩

theorem Sign.length {a b : Text} (h : Sign a b) : a.length = 2 ∧ b.length = 5 := by
  cases h with
  | opening => exact ⟨rfl, rfl⟩
  | closing => exact ⟨rfl, rfl⟩

theorem Sign.isWord {a b : Text} (h : Sign a b) : IsWord isBreak a ∧ IsWord isBreak b := by
  cases h <;> simp [IsWord, Marker.opening, Marker.closing, openingMark, closingMark, isBreak]

/-- Signs are encoded one by one, and so are the characters between them. -/
theorem encode_induction {motive : Text → Prop} (nil : motive [])
    (sign : ∀ a b t, Sign a b → motive t → motive (a ++ t))
    (char : ∀ c t, isSign (c :: t) = false → motive t → motive (c :: t)) (s : Text) : motive s := by
  induction hn : s.length using Nat.strongRecOn generalizing s with
  | ind n ih =>
    cases s with
    | nil => exact nil
    | cons c s =>
      rcases sign_cases c s with ⟨a, b, t, hsign, ht⟩ | hc
      · have hlength := congrArg List.length ht
        rw [List.length_append, hsign.length.1] at hlength
        rw [ht]
        exact sign a b t hsign (ih t.length (by omega) t rfl)
      · exact char c s hc (ih s.length (by simp [← hn]) s rfl)

theorem isSign_of_ne {s : Text} (h1 : c ≠ '%') (h2 : c ≠ '!') : isSign (c :: s) = false := by
  simp [isSign, opening, closing, List.isPrefixOf, h1.symm, h2.symm]

/-- No sign arises before a character that is in none. -/
theorem isSign_append (h : isSign (c :: s) = false) {d : Char} (h1 : d ≠ '%') (h2 : d ≠ '!')
    (t : Text) : isSign (c :: (s ++ d :: t)) = false := by
  cases s with
  | nil => simp [isSign, opening, closing, List.isPrefixOf, h1.symm, h2.symm]
  | cons e s => simpa [isSign, opening, closing, List.isPrefixOf] using h

theorem length_le_encode (s : Text) : s.length ≤ (encode s).length := by
  induction s using encode_induction with
  | nil => exact Nat.le_refl _
  | sign a b t hsign ih =>
    obtain ⟨ha, hb⟩ := hsign.length
    rw [hsign.encode_append, List.length_append, List.length_append]
    omega
  | char c t hc ih =>
    rw [encode_cons hc, List.length_cons, List.length_cons]
    omega

/-- A text that does not get longer is left as it is. -/
theorem encode_eq_self_of_length (h : (encode s).length = s.length) : encode s = s := by
  induction s using encode_induction with
  | nil => rfl
  | sign a b t hsign ih =>
    obtain ⟨ha, hb⟩ := hsign.length
    have hle := length_le_encode t
    rw [hsign.encode_append, List.length_append, List.length_append] at h
    omega
  | char c t hc ih =>
    rw [encode_cons hc, List.length_cons, List.length_cons] at h
    rw [encode_cons hc, ih (Nat.succ.inj h)]

/-- The texts that are left as they are have no signs. -/
theorem encode_eq_self_iff (s : Text) : encode s = s ↔ ¬opening <:+: s ∧ ¬closing <:+: s := by
  induction s using encode_induction with
  | nil => simp [encode, opening, closing]
  | sign a b t hsign ih =>
    obtain ⟨ha, hb⟩ := hsign.length
    have hne : encode (a ++ t) ≠ a ++ t := by
      intro he
      have hlength := congrArg List.length he
      have hle := length_le_encode t
      rw [hsign.encode_append, List.length_append, List.length_append] at hlength
      omega
    have hinfix : opening <:+: a ++ t ∨ closing <:+: a ++ t := by
      cases hsign with
      | opening => exact .inl (List.prefix_append _ t).isInfix
      | closing => exact .inr (List.prefix_append _ t).isInfix
    constructor
    · exact fun he => absurd he hne
    · exact fun hi => absurd hinfix (not_or.mpr hi)
  | char c t hc ih =>
    have hnot : ¬(opening <+: c :: t ∨ closing <+: c :: t) := by
      rw [← isSign_iff, hc]
      exact Bool.false_ne_true
    rw [encode_cons hc, List.infix_cons_iff, List.infix_cons_iff, List.cons_inj_right, ih]
    simp [not_or.mp hnot]

theorem isWord_encode {w : Text} (hw : IsWord isBreak w) : IsWord isBreak (encode w) := by
  induction w using encode_induction with
  | nil => exact hw
  | sign a b t hsign ih =>
    rw [hsign.encode_append]
    exact hsign.isWord.2.append (ih fun c hc => hw c (List.mem_append_right a hc))
  | char c t hc ih =>
    rw [encode_cons hc]
    intro d hd
    rcases List.mem_cons.mp hd with rfl | hd
    · exact hw d List.mem_cons_self
    · exact ih hw.tail d hd

theorem encode_append {c : Char} (h1 : c ≠ '%') (h2 : c ≠ '!') (a b : Text) :
    encode (a ++ c :: b) = encode a ++ c :: encode b := by
  induction a using encode_induction with
  | nil => exact encode_cons (isSign_of_ne h1 h2)
  | sign x y t hsign ih =>
    rw [List.append_assoc, hsign.encode_append, ih, hsign.encode_append, List.append_assoc]
  | char d t hd ih =>
    rw [List.cons_append, encode_cons (isSign_append hd h1 h2 b), ih, encode_cons hd,
      List.cons_append]

theorem wordwise_encode : Wordwise isBreak encode where
  nil := rfl
  append hc a b := by
    obtain ⟨h1, h2, -⟩ := isBreak_iff.mp hc
    exact encode_append h1 h2 a b
  word := by
    intro w hn hw
    refine ⟨fun he => hn ?_, isWord_encode hw⟩
    have hlength := length_le_encode w
    rw [he, List.length_nil] at hlength
    exact List.eq_nil_of_length_eq_zero (Nat.le_zero.mp hlength)

/-- A pattern without percent signs is read from an encoded text as from the text, if it does not
end within a sign. -/
theorem strip?_encode {p : Text} (hp : '%' ∉ p)
    (hs : p.getLast? = some '!' → ∀ u, s = p ++ u → u.head? ≠ some '%') :
    strip? p (encode s) = (strip? p s).map encode := by
  induction p generalizing s with
  | nil => rfl
  | cons c p ih =>
    have hc : c ≠ '%' := fun he => hp (he ▸ List.mem_cons_self)
    cases s with
    | nil => rfl
    | cons d s =>
      rcases sign_cases d s with ⟨a, b, t, hsign, ht⟩ | hd
      · have hleft : strip? (c :: p) (b ++ encode t) = none := by
          cases hsign <;> simp [strip?, openingMark, closingMark, hc]
        rw [ht] at hs ⊢
        rw [hsign.encode_append, hleft]
        cases hsign with
        | opening => simp [strip?, opening, hc]
        | closing =>
          have hright : strip? (c :: p) ('!' :: '%' :: t) = none := by
            rw [strip?]
            split
            next he =>
              subst he
              cases p with
              | nil => exact absurd rfl (hs rfl ('%' :: t) rfl)
              | cons e p =>
                have he : e ≠ '%' := fun he => hp (by simp [he])
                simp [strip?, he]
            next => rfl
          rw [closing, List.cons_append, List.singleton_append, hright]
          rfl
      · rw [encode_cons hd, strip?, strip?]
        split
        next he =>
          subst he
          refine ih (List.not_mem_of_not_mem_cons hp) fun hlast u hu => ?_
          refine hs ?_ u (by rw [hu, List.cons_append])
          rw [List.getLast?_cons, hlast]
          rfl
        next => rfl

end Marker

namespace Quoted

variable {stop : Char → Bool} {f : Text → Text} {q c : Char}

/-- A literal with its signs written as markers. -/
def encode (q : Quoted) : Quoted := ⟨Marker.encode q.body, q.quote⟩

theorem closing?_word (hq : stop q) (hb : stop '\\') {w : Text} (hw : IsWord stop w) (s : Text) :
    closing? q (w ++ s) = (closing? q s).map fun r => (w ++ r.1, r.2) := by
  induction w with
  | nil => simp
  | cons c w ih =>
    have hne : ∀ d, stop d → c ≠ d := by
      rintro d hd rfl
      exact hw.not_mem hd List.mem_cons_self
    rw [List.cons_append, closing?_cons (hne _ hb), if_neg (hne _ hq),
      ih fun d hd => hw d (List.mem_cons_of_mem c hd), Option.map_map]
    rfl

/-- What stands before the closing quote begins with a stop if the whole text does. -/
theorem head?_of_closing? {s body rest : Text} (hs : ∀ c ∈ s.head?, stop c)
    (h : closing? q s = some (body, rest)) : ∀ c ∈ body.head?, stop c := by
  have hsplit := eq_of_closing? h
  cases body with
  | nil => simp
  | cons d body => exact fun c hc => hs c (by rw [hsplit]; exact hc)

theorem closing?_word_map (h : Wordwise stop f) (hq : stop q) (hb : stop '\\') {w s : Text}
    (hw : IsWord stop w) (hs : ∀ c ∈ s.head?, stop c)
    (ih : closing? q (f s) = (closing? q s).map fun r => (f r.1, f r.2)) :
    closing? q (f (w ++ s)) = (closing? q (w ++ s)).map fun r => (f r.1, f r.2) := by
  rw [h.append_of_head hs, closing?_word hq hb (h.isWord hw), closing?_word hq hb hw, ih]
  cases hr : closing? q s with
  | none => rfl
  | some r => simp [h.append_of_head (head?_of_closing? hs hr)]

/-- The character after a backslash may belong to a word, which is passed over with it. -/
theorem closing?_escape_map (h : Wordwise stop f) (hq : stop q) (hb : stop '\\') (d : Char)
    (t : Text) (ih : ∀ u, u.length ≤ t.length →
      closing? q (f u) = (closing? q u).map fun r => (f r.1, f r.2)) :
    closing? q (f ('\\' :: d :: t)) =
      (closing? q ('\\' :: d :: t)).map fun r => (f r.1, f r.2) := by
  rw [h.cons hb, closing?_escape]
  cases hd : stop d with
  | true =>
    rw [h.cons hd, closing?_escape, ih t (Nat.le_refl _)]
    cases closing? q t with
    | none => rfl
    | some r => simp [h.cons hb, h.cons hd]
  | false =>
    obtain ⟨u, rest, rfl, hu, hrest⟩ := exists_word stop t
    have hword : IsWord stop (d :: u) := by
      intro e he
      rcases List.mem_cons.mp he with rfl | he
      · exact hd
      · exact hu e he
    obtain ⟨e, v, he, hv⟩ := h.exists_cons hword
    have hmap : f (d :: (u ++ rest)) = e :: (v ++ f rest) := by
      rw [← List.cons_append, h.append_of_head hrest, he, List.cons_append]
    rw [hmap, closing?_escape, closing?_word hq hb hu, closing?_word hq hb hv.tail,
      ih rest (by simp)]
    cases hr : closing? q rest with
    | none => rfl
    | some r =>
      have hbody := h.append_of_head (head?_of_closing? hrest hr) (d :: u)
      rw [he, List.cons_append, List.cons_append] at hbody
      simp [h.cons hb, hbody]

/-- Where a literal ends does not change with the words in it. -/
theorem closing?_map (h : Wordwise stop f) (hq : stop q) (hb : stop '\\') (s : Text) :
    closing? q (f s) = (closing? q s).map fun r => (f r.1, f r.2) := by
  induction hn : s.length using Nat.strongRecOn generalizing s with
  | ind n ih =>
    obtain ⟨w, rest, rfl, hw, hrest⟩ := exists_word stop s
    refine closing?_word_map h hq hb hw hrest ?_
    cases rest with
    | nil =>
      rw [h.nil]
      rfl
    | cons c t =>
      have hlength : t.length < n := by
        rw [← hn, List.length_append, List.length_cons]
        omega
      by_cases hback : c = '\\'
      · subst hback
        cases t with
        | nil =>
          rw [h.cons hb, h.nil]
          rfl
        | cons d t =>
          refine closing?_escape_map h hq hb d t fun u hu => ih u.length ?_ u rfl
          rw [List.length_cons] at hlength
          omega
      · rw [h.cons (hrest c rfl), closing?_cons hback, closing?_cons hback, ih _ hlength t rfl]
        split
        · simp [h.nil]
        · cases closing? q t with
          | none => rfl
          | some r => simp [h.cons (hrest c rfl)]

theorem written_encode (q : Quoted) (hq : isBreak q.quote) :
    q.encode.written = Marker.encode q.written := by
  have hinner := Marker.wordwise_encode.append hq q.body []
  change q.quote :: (Marker.encode q.body ++ [q.quote]) =
    Marker.encode (q.quote :: (q.body ++ [q.quote]))
  rw [Marker.wordwise_encode.cons hq, hinner]
  rfl

/-- Characters without backslashes stand for themselves. -/
theorem unescape_append {w : Text} (hw : '\\' ∉ w) (s : Text) :
    unescape (w ++ s) = w ++ unescape s := by
  induction w with
  | nil => rfl
  | cons c w ih =>
    have hc : c ≠ '\\' := fun he => hw (he ▸ List.mem_cons_self)
    rw [List.cons_append, unescape_cons hc, ih (List.not_mem_of_not_mem_cons hw), List.cons_append]

theorem length_unescape_escape (c : Char) (s : Text) :
    (unescape ('\\' :: c :: s)).length = (unescape s).length + 1 := by
  rw [unescape]
  rfl

/-- Markers make a value longer by as much as the text it is read from, also after a backslash. -/
theorem length_unescape_encode (s : Text) :
    ((unescape (Marker.encode s)).length + s.length =
      (unescape s).length + (Marker.encode s).length) ∧
    ((unescape (Marker.encode ('\\' :: s))).length + s.length =
      (unescape ('\\' :: s)).length + (Marker.encode s).length) := by
  have hback : ∀ t, Marker.encode ('\\' :: t) = '\\' :: Marker.encode t := fun t =>
    Marker.encode_cons (Marker.isSign_of_ne (by decide) (by decide))
  induction s using Marker.encode_induction with
  | nil => simp [Marker.encode, unescape]
  | sign a b t hsign ih =>
    obtain ⟨hla, hlb⟩ := hsign.length
    have ha : '\\' ∉ a := hsign.isWord.1.not_mem (by decide)
    have hb : '\\' ∉ b := hsign.isWord.2.not_mem (by decide)
    -- The backslash takes the first character of the sign, and that of its marker.
    have hescape : ∀ {w : Text} (u : Text), '\\' ∉ w → w ≠ [] →
        (unescape ('\\' :: (w ++ u))).length = w.length + (unescape u).length := by
      intro w u hw hne
      obtain ⟨c, v, rfl⟩ := List.exists_cons_of_ne_nil hne
      rw [List.cons_append, length_unescape_escape,
        unescape_append (List.not_mem_of_not_mem_cons hw), List.length_append, List.length_cons]
      omega
    have hna : a ≠ [] := List.ne_nil_of_length_pos (by omega)
    have hnb : b ≠ [] := List.ne_nil_of_length_pos (by omega)
    rw [hback, hsign.encode_append, unescape_append hb, unescape_append ha, hescape _ hb hnb,
      hescape _ ha hna]
    simp only [List.length_append]
    omega
  | char c t hc ih =>
    rw [hback, Marker.encode_cons hc, length_unescape_escape, length_unescape_escape]
    by_cases hb : c = '\\'
    · subst hb
      have ih := ih.2
      rw [hback] at ih
      simp only [List.length_cons]
      omega
    · rw [unescape_cons hb, unescape_cons hb]
      simp only [List.length_cons]
      omega

/-- A literal has the same value with markers in it only if there are none. -/
theorem value_encode_iff (q : Quoted) : q.encode.value = q.value ↔
    ¬Marker.opening <:+: q.body ∧ ¬Marker.closing <:+: q.body := by
  rw [← Marker.encode_eq_self_iff]
  constructor
  · intro h
    have hlength := (length_unescape_encode q.body).1
    have hvalue : (unescape (Marker.encode q.body)).length = (unescape q.body).length :=
      congrArg List.length h
    exact Marker.encode_eq_self_of_length (by omega)
  · intro h
    exact congrArg unescape h

end Quoted

namespace Segment

open Marker

variable {before before' s : Text} {c : Char}

/-- A segment with its signs written as markers. -/
def encode : Segment → Segment
  | plain text => plain (Marker.encode text)
  | comment text => comment (Marker.encode text)
  | quoted literal => quoted literal.encode

/-- Is this a comment that begins with a sign after a hash? -/
def BeginsWithSign (seg : Segment) : Prop := ∃ text, seg = comment ('#' :: '!' :: '%' :: text)

/-- Does it make no difference to a comment or a literal which of two texts, given backwards, stands
before it? -/
structure Alike (before before' : Text) : Prop where
  line : atLineStart before = atLineStart before'
  word : (before.head?.any fun p => p.isAlpha || p.isDigit) =
    before'.head?.any fun p => p.isAlpha || p.isDigit

theorem Alike.cons (h : Alike before before') (c : Char) : Alike (c :: before) (c :: before') where
  line := by
    have hline := h.line
    unfold atLineStart at hline ⊢
    rw [List.takeWhile_cons, List.takeWhile_cons]
    split
    · rw [List.all_cons, List.all_cons, hline]
    · rfl
  word := rfl

theorem atLineStart_of_sign (hc : c = '%' ∨ c = '!') (before : Text) :
    atLineStart (c :: before) = false := by
  unfold atLineStart
  rcases hc with rfl | rfl <;> simp

theorem alike_of_sign {d : Char} (hc : c = '%' ∨ c = '!') (hd : d = '%' ∨ d = '!')
    (before before' : Text) : Alike (c :: before) (d :: before') where
  line := by rw [atLineStart_of_sign hc, atLineStart_of_sign hd]
  word := by rcases hc with rfl | rfl <;> rcases hd with rfl | rfl <;> rfl

theorem Alike.sign {a b : Text} (h : Sign a b) (before before' : Text) :
    Alike (a.reverse ++ before) (b.reverse ++ before') := by
  cases h with
  | opening => exact alike_of_sign (.inr rfl) (.inl rfl) _ _
  | closing => exact alike_of_sign (.inl rfl) (.inl rfl) _ _

theorem Alike.encode (h : Alike before before') (u : Text) :
    Alike (u.reverse ++ before) ((Marker.encode u).reverse ++ before') := by
  induction u using encode_induction generalizing before before' with
  | nil => exact h
  | sign a b t hsign ih =>
    have hstep := ih (.sign hsign before before')
    rw [hsign.encode_append, List.reverse_append, List.reverse_append, List.append_assoc,
      List.append_assoc]
    exact hstep
  | char c t hc ih =>
    have hstep := ih (h.cons c)
    rw [encode_cons hc, List.reverse_cons, List.reverse_cons, List.append_assoc, List.append_assoc]
    exact hstep

theorem isPrefixOf_encode {p : Text} (hp : '%' ∉ p)
    (hs : p.getLast? = some '!' → ∀ u, s = p ++ u → u.head? ≠ some '%') :
    p.isPrefixOf (Marker.encode s) = p.isPrefixOf s := by
  have hstrip : ∀ t : Text, p.isPrefixOf t = (strip? p t).isSome := by
    intro t
    rw [Bool.eq_iff_iff, List.isPrefixOf_iff_prefix, Option.isSome_iff_exists]
    constructor
    · rintro ⟨u, rfl⟩
      exact ⟨u, strip?_append p u⟩
    · rintro ⟨u, hu⟩
      exact ⟨u, (strip?_eq_some_iff.mp hu).symm⟩
  rw [hstrip, hstrip, strip?_encode hp hs, Option.isSome_map]

theorem enclosed?_encode {start stop : Text} (hp : '%' ∉ start) (hlast : start.getLast? ≠ some '!')
    (hstop : ∀ c ∈ stop, isBreak c) (hne : stop ≠ []) :
    enclosed? start stop (Marker.encode s) =
      (enclosed? start stop s).map fun r => (Marker.encode r.1, Marker.encode r.2) := by
  have hstart : ∀ t, Marker.encode (start ++ t) = start ++ Marker.encode t := by
    intro t
    have hstrip := strip?_encode (s := start ++ t) hp fun he => absurd he hlast
    rw [strip?_append] at hstrip
    exact strip?_eq_some_iff.mp hstrip
  have hhead : ∀ c ∈ stop.head?, isBreak c := fun c hc => hstop c (List.mem_of_mem_head? hc)
  simp only [enclosed?, strip?_encode hp fun he => absurd he hlast, Option.bind_eq_bind]
  cases strip? start s with
  | none => rfl
  | some inner =>
    simp only [Option.map_some, Option.bind_some, wordwise_encode.cut?_map hstop hne]
    cases cut? stop inner with
    | none => rfl
    | some r =>
      simp [hstart, wordwise_encode.append_of_head hhead, wordwise_encode.eq_self hstop]

theorem enclosed?_html : enclosed? htmlOpening htmlClosing (Marker.encode s) =
    (enclosed? htmlOpening htmlClosing s).map fun r => (Marker.encode r.1, Marker.encode r.2) :=
  enclosed?_encode (by decide) (by decide) (List.all_eq_true.mp (by decide)) (by decide)

theorem enclosed?_block : enclosed? blockOpening blockClosing (Marker.encode s) =
    (enclosed? blockOpening blockClosing s).map fun r => (Marker.encode r.1, Marker.encode r.2) :=
  enclosed?_encode (by decide) (by decide) (List.all_eq_true.mp (by decide)) (by decide)

theorem isPrefixOf_html : htmlOpening.isPrefixOf (Marker.encode s) = htmlOpening.isPrefixOf s :=
  isPrefixOf_encode (by decide) fun he => absurd he (by decide)

theorem isPrefixOf_block : blockOpening.isPrefixOf (Marker.encode s) = blockOpening.isPrefixOf s :=
  isPrefixOf_encode (by decide) fun he => absurd he (by decide)

theorem neverCloses_encode : neverCloses (Marker.encode s) = neverCloses s := by
  simp only [neverCloses, isPrefixOf_html, isPrefixOf_block, enclosed?_html, enclosed?_block,
    Option.isNone_map]

theorem comment?_encode (h : Alike before before')
    (hs : ∀ text rest, comment? before s = some (text, rest) →
      ¬(comment text).BeginsWithSign) :
    comment? before' (Marker.encode s) =
      (comment? before s).map fun r => (Marker.encode r.1, Marker.encode r.2) := by
  have hspan := wordwise_encode.spanUntil_map (p := (· == '\n'))
    (fun c hc => by rw [beq_iff_eq.mp hc]; decide) s
  unfold comment? at hs ⊢
  rw [isPrefixOf_html, isPrefixOf_block, enclosed?_html, enclosed?_block, ← h.line, hspan]
  split
  next => rfl
  next hhtml =>
    split
    next => rfl
    next hblock =>
      rw [if_neg hhtml, if_neg hblock] at hs
      cases hline : atLineStart before with
      | false => simp
      | true =>
        have hslash : ['/', '/'].isPrefixOf (Marker.encode s) = ['/', '/'].isPrefixOf s :=
          isPrefixOf_encode (by decide) fun he => absurd he (by decide)
        have hhash : ['#', '!'].isPrefixOf (Marker.encode s) = ['#', '!'].isPrefixOf s := by
          refine isPrefixOf_encode (by decide) fun _ u hu hsign => ?_
          obtain ⟨t, rfl⟩ := List.head?_eq_some_iff.mp hsign
          subst hu
          refine hs _ _ (if_pos (by simp [hline, List.isPrefixOf]))
            ⟨(spanUntil (· == '\n') t).1, ?_⟩
          simp [spanUntil]
        rw [hslash, hhash]
        split <;> rfl

theorem isBreak_of_opensQuote (h : opensQuote before c) : isBreak c := by
  simp only [opensQuote, Bool.or_eq_true, Bool.and_eq_true, beq_iff_eq] at h
  rcases h with (rfl | rfl) | ⟨rfl, -⟩ <;> decide

theorem lead?_encode (h : Alike before before') (hc : isSign (c :: s) = false)
    (hs : ∀ seg rest, lead? before (c :: s) = some (seg, rest) → ¬seg.BeginsWithSign) :
    lead? before' (Marker.encode (c :: s)) =
      (lead? before (c :: s)).map fun r => (r.1.encode, Marker.encode r.2) := by
  have hcomment := comment?_encode h (s := c :: s) fun text rest hcm =>
    hs (comment text) rest (by rw [lead?, hcm])
  have hopens : opensQuote before' c = opensQuote before c := by
    unfold opensQuote
    rw [h.word]
  unfold lead?
  rw [hcomment, encode_cons hc]
  cases comment? before (c :: s) with
  | some r => rfl
  | none =>
    dsimp only [Option.map_none]
    rw [hopens]
    split
    next hq =>
      rw [Quoted.closing?_map wordwise_encode (isBreak_of_opensQuote hq) (by decide)]
      cases Quoted.closing? c s with
      | none => rfl
      | some r => rfl
    next => rfl

theorem written_encode {seg : Segment} {rest : Text} (h : lead? before s = some (seg, rest)) :
    seg.encode.written = Marker.encode seg.written := by
  cases seg with
  | plain text => rfl
  | comment text => rfl
  | quoted q =>
    have hq : isBreak q.quote := by
      unfold lead? at h
      split at h
      next => cases h
      next =>
        split at h
        next => cases h
        next =>
          split at h
          next hopens =>
            obtain ⟨r, -, he⟩ := Option.map_eq_some_iff.mp h
            cases he
            exact isBreak_of_opensQuote hopens
          next => cases h
    exact q.written_encode hq

/-- The literals of a text, given backwards what stands before it. -/
def literals (before s : Text) : List Quoted := (segments before s).filterMap literal?

/-- Characters that start no comment and no literal are passed over. -/
theorem literals_append (before : Text) {w : Text} (hw : IsWord isBreak w) (s : Text) :
    literals before (w ++ s) = literals (w.reverse ++ before) s := by
  have hplain : (w.map fun c => plain [c]).filterMap literal? = [] := by
    rw [List.filterMap_eq_nil_iff]
    intro seg hseg
    obtain ⟨c, -, rfl⟩ := List.mem_map.mp hseg
    rfl
  rw [literals, segments_append before hw, List.filterMap_append, hplain, List.nil_append]
  rfl

theorem literals_of_neverCloses (hn : neverCloses (c :: s) = true) :
    literals before (c :: s) = [] := by
  rw [literals, segments, if_pos hn]
  rfl

theorem literals_of_unled (hn : neverCloses (c :: s) = false) (hl : lead? before (c :: s) = none) :
    literals before (c :: s) = literals (c :: before) s := by
  rw [literals, segments_of_unled hn hl]
  rfl

theorem literals_of_lead? {seg : Segment} {rest : Text} (hn : neverCloses (c :: s) = false)
    (hl : lead? before (c :: s) = some (seg, rest)) : literals before (c :: s) =
      seg.literal?.toList ++ literals (seg.written.reverse ++ before) rest := by
  rw [literals, segments_of_lead? hn hl]
  cases seg <;> rfl

theorem literal?_encode (seg : Segment) :
    seg.encode.literal?.toList = seg.literal?.toList.map Quoted.encode := by
  cases seg <;> rfl

/-- The literals of an encoded text are those of the text, with their signs written as markers. -/
theorem literals_encode (h : Alike before before')
    (hs : ∀ seg ∈ segments before s, ¬seg.BeginsWithSign) :
    literals before' (Marker.encode s) = (literals before s).map Quoted.encode := by
  induction hn : s.length using Nat.strongRecOn generalizing before before' s with
  | ind n ih =>
    cases s with
    | nil =>
      rw [Marker.encode, literals, literals, segments, segments]
      rfl
    | cons c s =>
      rcases sign_cases c s with ⟨a, b, t, hsign, ht⟩ | hc
      · have hlength := congrArg List.length ht
        rw [List.length_append, hsign.length.1] at hlength
        obtain ⟨ha, hb⟩ := hsign.isWord
        rw [ht, segments_append before ha] at hs
        rw [ht, hsign.encode_append, literals_append before' hb, literals_append before ha]
        exact ih t.length (by omega) (.sign hsign before before')
          (fun seg hseg => hs seg (List.mem_append_right _ hseg)) rfl
      · have hnever := neverCloses_encode (s := c :: s)
        rw [encode_cons hc] at hnever ⊢
        cases hnv : neverCloses (c :: s) with
        | true =>
          rw [hnv] at hnever
          rw [literals_of_neverCloses hnever, literals_of_neverCloses hnv]
          rfl
        | false =>
          rw [hnv] at hnever
          have hencoded := lead?_encode h hc fun seg rest hl => by
            rw [segments_of_lead? hnv hl] at hs
            exact hs seg List.mem_cons_self
          rw [encode_cons hc] at hencoded
          cases hl : lead? before (c :: s) with
          | none =>
            rw [hl] at hencoded
            rw [segments_of_unled hnv hl] at hs
            rw [literals_of_unled hnever hencoded, literals_of_unled hnv hl]
            exact ih s.length (by simp [← hn]) (h.cons c)
              (fun seg hseg => hs seg (List.mem_cons_of_mem _ hseg)) rfl
          | some r =>
            obtain ⟨seg, rest⟩ := r
            obtain ⟨hwritten, hne⟩ := eq_of_lead? hl
            have hlength := congrArg List.length hwritten
            rw [List.length_append] at hlength
            have hpos := List.length_pos_iff.mpr hne
            rw [hl] at hencoded
            rw [segments_of_lead? hnv hl] at hs
            have hrest := ih rest.length (by omega) (h.encode seg.written)
              (fun seg hseg => hs seg (List.mem_cons_of_mem _ hseg)) rfl
            rw [literals_of_lead? hnever hencoded, literals_of_lead? hnv hl, written_encode hl,
              literal?_encode, hrest, List.map_append]

end Segment

/-- The literals of an encoded source are those of the source, with their signs written as
markers. -/
theorem LiteralTable.extract_encode {source : Text}
    (h : ∀ seg ∈ Segment.segments [] source, ¬seg.BeginsWithSign) :
    (extract (Marker.encode source)).2 = (extract source).2.map Quoted.encode :=
  Segment.literals_encode ⟨rfl, rfl⟩ h

end Stencil
