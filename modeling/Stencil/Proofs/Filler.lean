import Stencil.Function.Lorem
import Stencil.Proofs.Drawing
import Stencil.Proofs.Path

namespace Stencil

namespace Text

variable {d : Char} {s sep : Text} {parts : List Text}

theorem cut?_cons_of_not_mem (h : d ∉ s) : cut? (d :: sep) s = none := by
  refine Option.eq_none_iff_forall_ne_some.mpr fun r hr => h ?_
  rw [eq_of_cut? hr]
  simp

/-- Parts without the first sign of a separator are found again between the separators. -/
theorem splitOn_join (hne : parts ≠ []) (h : ∀ p ∈ parts, d ∉ p) :
    splitOn (d :: sep) (join (d :: sep) parts) = parts := by
  induction parts with
  | nil => exact absurd rfl hne
  | cons p parts ih =>
    obtain ⟨hp, hparts⟩ := List.forall_mem_cons.mp h
    cases parts with
    | nil => rw [join_singleton, splitOn_of_none (cut?_cons_of_not_mem hp)]
    | cons q parts =>
      have hcut : cut? (d :: sep) (join (d :: sep) (p :: q :: parts)) =
          some (p, join (d :: sep) (q :: parts)) := by
        rw [join_cons_cons, cut?_append_of_not_mem hp, cut?_append_self (by simp)]
        simp
      rw [splitOn_of_some (by simp) hcut, ih (List.cons_ne_nil q parts) hparts]

end Text

namespace Lorem

variable {least greatest low high : Nat} {c : Char} {p w : Text} {ss ws : List Text} {s : Spec}
  {halves : Random.Halves}

def words (t : Text) : List Text := Text.splitOn [' '] t

/-- The sentences of a text, each without the full stop that ends it. -/
def sentences (t : Text) : List Text := (Text.splitOn ['.', ' '] (t ++ [' '])).dropLast

def blocks (t : Text) : List Text := Text.splitOn ['\n', '\n'] t

/-- Is this a word of the vocabulary, of a length between two bounds if there is such a word? -/
def IsWord (low high : Nat) (t : Text) : Prop :=
  ∃ w ∈ vocabulary, t = w.toList ∧
    ((∃ v ∈ vocabulary, low ≤ v.length ∧ v.length ≤ high) → low ≤ w.length ∧ w.length ≤ high)

/-- A sentence without its full stop: words of the vocabulary, the first of them with a capital, and
as many of them as between two bounds. -/
structure IsSentence (low high : Nat) (p : Text) : Prop where
  letters : ∀ c ∈ p, c.isAlpha ∨ c = ' '
  words_eq : ∃ w ws, words p = capitalize w :: ws ∧ ∀ v ∈ w :: ws, IsWord 1 20 v
  least_le : low ≤ (words p).length
  le_greatest : (words p).length ≤ high

/-- A text that is nothing but sentences, with as many words in each as between two bounds. -/
structure IsProse (low high : Nat) (t : Text) : Prop where
  eq_join : t = Text.join [' '] ((sentences t).map (· ++ ['.']))
  isSentence : ∀ p ∈ sentences t, IsSentence low high p

/-- A marked paragraph, with as many sentences as between two bounds. -/
def IsParagraph (low high : Nat) (b : Text) : Prop :=
  ∃ t, b = "<p>".toList ++ t ++ "</p>".toList ∧ IsProse 4 12 t ∧
    low ≤ (sentences t).length ∧ (sentences t).length ≤ high

/-- Does a text have as many parts as a spec asks for, each of them of as many as it asks for? -/
def Spec.Fulfilled (s : Spec) (t : Text) : Prop :=
  match s.kind with
  | .paragraph => (blocks t).length = max s.repetitions 1 ∧
      ∀ b ∈ blocks t, IsParagraph (max s.least 1) (max s.greatest 1) b
  | .sentence => (sentences t).length = max s.repetitions 1 ∧
      IsProse (max s.least 1) (max s.greatest 1) t
  | .word => (words t).length = max s.repetitions 1 ∧ ∀ w ∈ words t, IsWord s.least s.greatest w
  | .host | .email | .url => True

theorem isAlpha_vocabulary : ∀ w ∈ vocabulary, (∀ c ∈ w.toList, c.isAlpha) ∧
    ∀ c ∈ capitalize w.toList, c.isAlpha := by
  have hall : (vocabulary.all fun w =>
      w.toList.all Char.isAlpha && (capitalize w.toList).all Char.isAlpha) = true := by
    decide +kernel
  intro w hw
  simpa using List.all_eq_true.mp hall w hw

theorem IsWord.isAlpha (h : IsWord low high w) (hc : c ∈ w) : c.isAlpha := by
  obtain ⟨v, hv, rfl, -⟩ := h
  exact (isAlpha_vocabulary v hv).1 c hc

theorem IsWord.isAlpha_capitalize (h : IsWord low high w) (hc : c ∈ capitalize w) : c.isAlpha := by
  obtain ⟨v, hv, rfl, -⟩ := h
  exact (isAlpha_vocabulary v hv).2 c hc

theorem words_join (hne : ws ≠ []) (h : ∀ w ∈ ws, ∀ c ∈ w, c.isAlpha) :
    words (Text.join [' '] ws) = ws :=
  Text.splitOn_join hne fun w hw hm => absurd (h w hw ' ' hm) (by decide)

/-- A word that is drawn is one of those that fit, or any of the vocabulary if none fits. -/
theorem gives_word (low high : Nat) : (word low high).Gives (IsWord low high) := by
  have hfit : ∀ v, v ∈ vocabulary.filter (fun w => low ≤ w.length && w.length ≤ high) ↔
      v ∈ vocabulary ∧ low ≤ v.length ∧ v.length ≤ high := by
    simp
  refine (Random.gives_choose? _).bind ?_
  rintro _ (⟨w, hw, rfl⟩ | ⟨rfl, hnone⟩)
  · obtain ⟨hw, hlength⟩ := (hfit w).mp hw
    exact Random.gives_pure ⟨w, hw, rfl, fun _ => hlength⟩
  · refine (Random.gives_choose? vocabulary).bind ?_
    rintro _ (⟨w, hw, rfl⟩ | ⟨-, hvocabulary⟩)
    · -- a word of the lengths asked for would have been one of the fitting
      refine Random.gives_pure ⟨w, hw, rfl, fun ⟨v, hv, hlength⟩ => ?_⟩
      have hmem := (hfit v).mpr ⟨hv, hlength⟩
      rw [hnone] at hmem
      exact absurd hmem List.not_mem_nil
    · cases hvocabulary

theorem isSentence_join (h : ∀ v ∈ w :: ws, IsWord 1 20 v) (hlow : low ≤ (w :: ws).length)
    (hhigh : (w :: ws).length ≤ high) :
    IsSentence low high (Text.join [' '] (capitalize w :: ws)) := by
  have hletters : ∀ v ∈ capitalize w :: ws, ∀ c ∈ v, c.isAlpha := by
    obtain ⟨hw, hws⟩ := List.forall_mem_cons.mp h
    exact List.forall_mem_cons.mpr
      ⟨fun c hc => hw.isAlpha_capitalize hc, fun v hv c hc => (hws v hv).isAlpha hc⟩
  have hwords := words_join (List.cons_ne_nil _ _) hletters
  have hcount := congrArg List.length hwords
  refine ⟨fun c hc => ?_, ⟨w, ws, hwords, h⟩, hcount ▸ hlow, hcount ▸ hhigh⟩
  rcases Text.mem_join hc with hblank | ⟨v, hv, hc⟩
  · exact .inr (List.mem_singleton.mp hblank)
  · exact .inl (hletters v hv c hc)

theorem IsSentence.not_mem (h : IsSentence low high p) (hc : c.isAlpha = false)
    (hblank : c ≠ ' ') : c ∉ p := fun hm => by
  rcases h.letters c hm with hletter | rfl
  · exact Bool.noConfusion (hc.symm.trans hletter)
  · exact hblank rfl

/-- The numbers of words that are drawn from are never an empty range. -/
theorem gives_sentence (h : least ≤ greatest) :
    (sentence (Random.between halves) least greatest).Gives fun t =>
      ∃ p, p ++ ['.'] = t ∧ IsSentence (max least 1) (max greatest 1) p := by
  have hrange : max least 1 ≤ max greatest 1 := by omega
  refine (Random.gives_between hrange).bind fun n hn => ?_
  refine (Random.gives_many (gives_word 1 20) n).bind fun ws hws => Random.gives_pure ?_
  obtain ⟨hlength, hwords⟩ := hws
  cases ws with
  | nil =>
    rw [List.length_nil] at hlength
    omega
  | cons w ws =>
    exact ⟨_, rfl, isSentence_join hwords (hlength ▸ hn.1) (hlength ▸ hn.2)⟩

theorem exists_map_stop {P : Text → Prop} {ts : List Text}
    (h : ∀ t ∈ ts, ∃ p, p ++ ['.'] = t ∧ P p) :
    ∃ ss : List Text, ss.map (· ++ ['.']) = ts ∧ ∀ p ∈ ss, P p := by
  induction ts with
  | nil => exact ⟨[], rfl, List.forall_mem_nil _⟩
  | cons t ts ih =>
    obtain ⟨⟨p, hp, hP⟩, hts⟩ := List.forall_mem_cons.mp h
    obtain ⟨ss, hss, hall⟩ := ih hts
    exact ⟨p :: ss, by rw [List.map_cons, hp, hss], List.forall_mem_cons.mpr ⟨hP, hall⟩⟩

/-- With a blank after the last sentence each full stop has one. -/
theorem join_stops (hne : ss ≠ []) :
    Text.join [' '] (ss.map (· ++ ['.'])) ++ [' '] = Text.join ['.', ' '] (ss ++ [[]]) := by
  induction ss with
  | nil => exact absurd rfl hne
  | cons p ss ih =>
    cases ss with
    | nil => simp [Text.join_singleton, Text.join_cons_cons]
    | cons q ss =>
      have hrest := ih (List.cons_ne_nil q ss)
      simp only [List.map_cons, List.cons_append, Text.join_cons_cons, List.append_assoc,
        List.nil_append] at hrest ⊢
      rw [hrest]

/-- Sentences with blanks between them are found again. -/
theorem sentences_join (hne : ss ≠ []) (h : ∀ p ∈ ss, '.' ∉ p) :
    sentences (Text.join [' '] (ss.map (· ++ ['.']))) = ss := by
  have hall : ∀ p ∈ ss ++ [[]], '.' ∉ p := by
    intro p hp
    rcases List.mem_append.mp hp with hp | hp
    · exact h p hp
    · rw [List.mem_singleton.mp hp]
      exact List.not_mem_nil
  rw [sentences, join_stops hne, Text.splitOn_join (by simp) hall, List.dropLast_concat]

/-- Sentences that are drawn one after the other are prose, and as many as were drawn. -/
theorem gives_sentences (h : least ≤ greatest) {n : Nat} (hn : 1 ≤ n) :
    (Random.many n (sentence (Random.between halves) least greatest)).Gives fun ts =>
      IsProse (max least 1) (max greatest 1) (Text.join [' '] ts) ∧
        (sentences (Text.join [' '] ts)).length = n := by
  refine (Random.gives_many (gives_sentence h) n).mono fun ts hts => ?_
  obtain ⟨ss, rfl, hss⟩ := exists_map_stop hts.2
  have hlength : ss.length = n := by simpa using hts.1
  have hne : ss ≠ [] := List.ne_nil_of_length_pos (by omega)
  have hfound := sentences_join hne fun p hp => (hss p hp).not_mem (by decide) (by decide)
  exact ⟨⟨by rw [hfound], by rwa [hfound]⟩, by rw [hfound, hlength]⟩

theorem IsProse.not_mem {t : Text} (h : IsProse low high t) (hc : c.isAlpha = false)
    (hblank : c ≠ ' ') (hstop : c ≠ '.') : c ∉ t := fun hm => by
  rw [h.eq_join] at hm
  rcases Text.mem_join hm with hm | ⟨q, hq, hm⟩
  · exact hblank (List.mem_singleton.mp hm)
  · obtain ⟨p, hp, rfl⟩ := List.mem_map.mp hq
    rcases List.mem_append.mp hm with hm | hm
    · exact (h.isSentence p hp).not_mem hc hblank hm
    · exact hstop (List.mem_singleton.mp hm)

theorem gives_paragraph (h : least ≤ greatest) :
    (paragraph (Random.between halves) least greatest).Gives fun b =>
      IsParagraph (max least 1) (max greatest 1) b ∧ '\n' ∉ b := by
  have hrange : max least 1 ≤ max greatest 1 := by omega
  refine (Random.gives_between hrange).bind fun n hn => ?_
  have hpos : 1 ≤ n := by omega
  refine (gives_sentences (by decide) hpos).bind fun ts hts => Random.gives_pure ?_
  obtain ⟨hprose, rfl⟩ := hts
  refine ⟨⟨_, rfl, hprose, hn⟩, fun hm => ?_⟩
  rcases List.mem_append.mp hm with hm | hm
  · rcases List.mem_append.mp hm with hm | hm
    · exact absurd hm (by decide)
    · exact hprose.not_mem (by decide) (by decide) (by decide) hm
  · exact absurd hm (by decide)

/-- What is written for a spec with its bounds in order is what the spec asks for. -/
theorem gives_generate (h : s.least ≤ s.greatest) : (s.generate halves).Gives s.Fulfilled := by
  have hpos : 1 ≤ max s.repetitions 1 := Nat.le_max_right _ _
  obtain ⟨kind, least, greatest, repetitions⟩ := s
  cases kind with
  | paragraph =>
    refine (Random.gives_many (gives_paragraph h) _).bind fun bs hbs => Random.gives_pure ?_
    have hne : bs ≠ [] := List.ne_nil_of_length_pos (hbs.1 ▸ hpos)
    have hblocks : blocks (Text.join ['\n', '\n'] bs) = bs :=
      Text.splitOn_join hne fun b hb => (hbs.2 b hb).2
    exact ⟨by rw [hblocks, hbs.1], by rw [hblocks]; exact fun b hb => (hbs.2 b hb).1⟩
  | sentence =>
    exact (gives_sentences h hpos).bind fun ts hts => Random.gives_pure ⟨hts.2, hts.1⟩
  | word =>
    refine (Random.gives_many (gives_word least greatest) _).bind fun ws hws =>
      Random.gives_pure ?_
    have hne : ws ≠ [] := List.ne_nil_of_length_pos (hws.1 ▸ hpos)
    have hwords := words_join hne fun w hw c hc => (hws.2 w hw).isAlpha hc
    exact ⟨by rw [hwords, hws.1], by rw [hwords]; exact hws.2⟩
  | host | email | url => exact fun supply t rest ht => trivial

variable {draw : Nat → Nat → Random Nat}

/-- A sentence depends on a draw from a range that is not empty only. -/
theorem sentence_congr (hdraw : ∀ lo hi, lo ≤ hi → draw lo hi = Random.between halves lo hi)
    (h : least ≤ greatest) :
    sentence draw least greatest = sentence (Random.between halves) least greatest := by
  unfold sentence
  rw [hdraw _ _ (by omega)]

theorem paragraph_congr (hdraw : ∀ lo hi, lo ≤ hi → draw lo hi = Random.between halves lo hi)
    (h : least ≤ greatest) :
    paragraph draw least greatest = paragraph (Random.between halves) least greatest := by
  unfold paragraph
  rw [hdraw _ _ (by omega), sentence_congr hdraw (by decide)]

/-- Numbers are drawn from ranges that are not empty only. -/
theorem generateBy_congr (hdraw : ∀ lo hi, lo ≤ hi → draw lo hi = Random.between halves lo hi)
    (h : s.least ≤ s.greatest) : s.generateBy draw = s.generate halves := by
  unfold Spec.generate Spec.generateBy
  rw [paragraph_congr hdraw h, sentence_congr hdraw h]

theorem ends_word (low high : Nat) : (word low high).Ends := by
  refine (Random.ends_choose? _).bind fun o => ?_
  cases o with
  | some w => exact Random.ends_pure _
  | none => exact (Random.ends_choose? _).bind fun w => Random.ends_pure _

theorem ends_sentence (least greatest : Nat) :
    (sentence (Random.between halves) least greatest).Ends :=
  (Random.ends_between halves _ _).bind fun n =>
    (Random.ends_many (ends_word 1 20) n).bind fun _ => Random.ends_pure _

theorem ends_paragraph (least greatest : Nat) :
    (paragraph (Random.between halves) least greatest).Ends :=
  (Random.ends_between halves _ _).bind fun n =>
    (Random.ends_many (ends_sentence 4 12) n).bind fun _ => Random.ends_pure _

theorem ends_host : host.Ends :=
  (ends_word 3 8).bind fun _ => (ends_word 3 8).bind fun _ =>
    (Random.ends_choose? domains).bind fun _ => Random.ends_pure _

/-- There is a supply that is enough for a spec, of whatever kind. -/
theorem ends_generate (halves : Random.Halves) (s : Spec) : (s.generate halves).Ends := by
  obtain ⟨kind, least, greatest, repetitions⟩ := s
  cases kind with
  | paragraph =>
    exact (Random.ends_many (ends_paragraph least greatest) _).bind fun _ => Random.ends_pure _
  | sentence =>
    exact (Random.ends_many (ends_sentence least greatest) _).bind fun _ => Random.ends_pure _
  | word => exact (Random.ends_many (ends_word least greatest) _).bind fun _ => Random.ends_pure _
  | host => exact ends_host
  | email => exact (ends_word 3 10).bind fun _ => ends_host.bind fun _ => Random.ends_pure _
  | url => exact ends_host.bind fun _ => (ends_word 3 10).bind fun _ => Random.ends_pure _

theorem isSome_kind? {call : Call} {given : Option Kind} :
    (kind? call given).isSome ↔ call.word "type".toList ≠ .unknown := by
  unfold kind?
  cases call.word "type".toList with
  | unknown => simp
  | absent => simp
  | word t => simp

theorem isSome_named? {call : Call} {key : String} :
    (named? call key).isSome ↔ call.word key.toList ≠ .unknown := by
  unfold named?
  cases call.word key.toList with
  | unknown => simp
  | absent => simp
  | word t => simp

/-- What a call that has a spec has been asked, and the bounds of the counts in the spec. -/
theorem exists_of_spec? {call : Call} (h : spec? call = some s) :
    ((kind? call (readArgs call.attrs.args).1).isSome ∧
      ∀ key ∈ ["min", "max", "rep"], (named? call key).isSome) ∧
    s.least ≤ s.greatest ∧ s.greatest ≤ maxCount ∧ s.repetitions ≤ maxRepetitions := by
  simp only [spec?, Option.bind_eq_bind, Option.bind_eq_some_iff, Option.pure_def,
    Option.some.injEq] at h
  obtain ⟨kind, hkind, least, hleast, greatest, hgreatest, repetitions, hrepetitions, rfl⟩ := h
  refine ⟨⟨Option.isSome_of_eq_some hkind, ?_⟩, ?_⟩
  · simp [hleast, hgreatest, hrepetitions]
  · dsimp only
    omega

/-- A call has a spec unless one of the attributes that it is read from is unknown. -/
theorem isSome_spec? {call : Call} : (spec? call).isSome ↔
    ∀ key ∈ ["type", "min", "max", "rep"], call.word key.toList ≠ .unknown := by
  rw [List.forall_mem_cons, ← @isSome_kind? call (readArgs call.attrs.args).1]
  simp only [← isSome_named?]
  constructor
  · intro h
    obtain ⟨s, hs⟩ := Option.isSome_iff_exists.mp h
    exact (exists_of_spec? hs).1
  · rintro ⟨hkind, hnamed⟩
    obtain ⟨kind, hkind⟩ := Option.isSome_iff_exists.mp hkind
    obtain ⟨least, hleast⟩ := Option.isSome_iff_exists.mp (hnamed "min" (by decide))
    obtain ⟨greatest, hgreatest⟩ := Option.isSome_iff_exists.mp (hnamed "max" (by decide))
    obtain ⟨repetitions, hrepetitions⟩ := Option.isSome_iff_exists.mp (hnamed "rep" (by decide))
    simp only [spec?, hkind, hleast, hgreatest, hrepetitions]
    rfl

/-- A call has a spec unless an attribute is unknown. The counts of a spec are bounded and in order,
no number is drawn from an empty range, some supply is enough, and what is written with any supply
that is enough is what was asked for, whichever half of a long word comes first in it. -/
theorem spec_fulfilled (call : Call) :
    ((spec? call).isSome ↔
      ∀ key ∈ ["type", "min", "max", "rep"], call.word key.toList ≠ .unknown) ∧
    ∀ s, spec? call = some s →
      (s.least ≤ s.greatest ∧ s.greatest ≤ 100 ∧ s.repetitions ≤ 50) ∧ ∀ halves,
      (∀ draw, (∀ lo hi, lo ≤ hi → draw lo hi = Random.between halves lo hi) →
        s.generateBy draw = s.generate halves) ∧
      (∃ supply, (s.generate halves supply).isSome) ∧
      ∀ supply t rest, s.generate halves supply = some (t, rest) → s.Fulfilled t := by
  refine ⟨isSome_spec?, fun s h => ?_⟩
  obtain ⟨-, hbounds⟩ := exists_of_spec? h
  refine ⟨hbounds, fun halves => ?_⟩
  obtain ⟨n, t, ht⟩ := ends_generate halves s
  exact ⟨fun draw hdraw => generateBy_congr hdraw hbounds.1,
    ⟨_, Option.isSome_of_eq_some (ht [])⟩, gives_generate hbounds.1⟩

/-- A sentence, with its counts the wrong way around. -/
theorem spec_fulfilled_sentence :
    let call : Call :=
      ⟨[], .positional ["s".toList, "9".toList, "3".toList], none, ⟨[], [], false⟩, [], none⟩
    let s : Spec := ⟨.sentence, 3, 9, 1⟩
    let supply : List UInt32 := [0, 0, 0x10000000, 0x80000000, 0x20000000]
    let t := "Consectetur esse eiusmod.".toList
    spec? call = some s ∧ s.generate .highFirst supply = some (t, []) ∧
      (s.least ≤ s.greatest ∧ s.greatest ≤ 100 ∧ s.repetitions ≤ 50) ∧
      (sentences t).length = 1 ∧ IsProse 3 9 t := by
  intro call s supply t
  have hspec : spec? call = some s := by decide +kernel
  have hgenerate : s.generate .highFirst supply = some (t, []) := by decide +kernel
  obtain ⟨hbounds, hhalves⟩ := (spec_fulfilled call).2 s hspec
  obtain ⟨-, -, hfulfilled⟩ := hhalves .highFirst
  exact ⟨hspec, hgenerate, hbounds, hfulfilled supply t [] hgenerate⟩

end Lorem

end Stencil
