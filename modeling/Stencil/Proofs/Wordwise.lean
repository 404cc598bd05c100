import Stencil.Proofs.Literal

namespace Stencil

namespace Text

variable {stop : Char → Bool}

/-- Is there no stop in a text? -/
def IsWord (stop : Char → Bool) (w : Text) : Prop := ∀ c ∈ w, stop c = false

/-- A text starts with a word, and what follows it is nothing or starts with a stop. -/
theorem exists_word (stop : Char → Bool) (s : Text) :
    ∃ w rest, s = w ++ rest ∧ IsWord stop w ∧ ∀ c ∈ rest.head?, stop c := by
  refine ⟨_, _, (List.takeWhile_append_dropWhile (p := fun c => !stop c)).symm, fun c hc => ?_,
    fun c hc => ?_⟩
  · simpa using List.mem_takeWhile_imp hc
  · have hhead := List.head?_dropWhile_not (fun c => !stop c) s
    rw [Option.mem_def.mp hc] at hhead
    simpa using hhead

/-- A text is a word, or a word and a text after a stop. -/
theorem word_induction (stop : Char → Bool) {motive : Text → Prop}
    (word : ∀ w, IsWord stop w → motive w)
    (append : ∀ w c s, IsWord stop w → stop c → motive s → motive (w ++ c :: s)) (s : Text) :
    motive s := by
  induction hn : s.length using Nat.strongRecOn generalizing s with
  | ind n ih =>
    obtain ⟨w, rest, rfl, hw, hrest⟩ := exists_word stop s
    cases rest with
    | nil =>
      rw [List.append_nil]
      exact word w hw
    | cons c t =>
      have hlength : t.length < n := by
        rw [← hn, List.length_append, List.length_cons]
        omega
      exact append w c t hw (hrest c rfl) (ih t.length hlength t rfl)

theorem IsWord.not_mem {w : Text} (hw : IsWord stop w) {c : Char} (hc : stop c) : c ∉ w := by
  intro hm
  rw [hw c hm] at hc
  cases hc

theorem IsWord.reverse {w : Text} (hw : IsWord stop w) : IsWord stop w.reverse :=
  fun c hc => hw c (List.mem_reverse.mp hc)

theorem IsWord.append {v w : Text} (hv : IsWord stop v) (hw : IsWord stop w) :
    IsWord stop (v ++ w) := by
  intro c hc
  rcases List.mem_append.mp hc with hc | hc
  · exact hv c hc
  · exact hw c hc

theorem IsWord.tail {c : Char} {w : Text} (hw : IsWord stop (c :: w)) : IsWord stop w :=
  fun d hd => hw d (List.mem_cons_of_mem c hd)

end Text

open Text

/-- A map of texts that leaves stops as they are and writes a word for every word. A reader that
looks for stops reads the same before and after. -/
structure Wordwise (stop : Char → Bool) (f : Text → Text) : Prop where
  nil : f [] = []
  append : ∀ {c : Char}, stop c → ∀ a b, f (a ++ c :: b) = f a ++ c :: f b
  word : ∀ {w : Text}, w ≠ [] → IsWord stop w → f w ≠ [] ∧ IsWord stop (f w)

namespace Wordwise

variable {stop : Char → Bool} {f : Text → Text} {c : Char} {p : Text}

theorem cons (h : Wordwise stop f) (hc : stop c) (s : Text) : f (c :: s) = c :: f s := by
  have happend := h.append hc [] s
  rwa [h.nil] at happend

/-- A text may be cut before a stop. -/
theorem append_of_head (h : Wordwise stop f) {b : Text} (hb : ∀ c ∈ b.head?, stop c) (a : Text) :
    f (a ++ b) = f a ++ f b := by
  cases b with
  | nil => rw [h.nil, List.append_nil, List.append_nil]
  | cons c b => rw [h.append (hb c rfl), h.cons (hb c rfl)]

theorem isWord (h : Wordwise stop f) {w : Text} (hw : IsWord stop w) : IsWord stop (f w) := by
  by_cases hn : w = []
  · subst hn
    rw [h.nil]
    exact hw
  · exact (h.word hn hw).2

theorem exists_cons (h : Wordwise stop f) {d : Char} {w : Text} (hw : IsWord stop (d :: w)) :
    ∃ e v, f (d :: w) = e :: v ∧ IsWord stop (e :: v) := by
  obtain ⟨hn, hword⟩ := h.word (List.cons_ne_nil d w) hw
  obtain ⟨e, v, he⟩ := List.exists_cons_of_ne_nil hn
  exact ⟨e, v, he, he ▸ hword⟩

/-- The map on texts read from their end. -/
theorem reverse (h : Wordwise stop f) : Wordwise stop fun s => (f s.reverse).reverse where
  nil := by rw [List.reverse_nil, h.nil, List.reverse_nil]
  append hc a b := by
    have happend := h.append hc b.reverse a.reverse
    simp only [List.reverse_append, List.reverse_cons, List.append_assoc, List.singleton_append,
      happend]
  word hn hw := by
    obtain ⟨hne, hword⟩ := h.word (List.reverse_ne_nil_iff.mpr hn) hw.reverse
    exact ⟨List.reverse_ne_nil_iff.mpr hne, hword.reverse⟩

/-- What becomes of a text that does not start with a stop does not start with one. -/
theorem exists_cons_of_not_stop (h : Wordwise stop f) {d : Char} (hd : stop d = false) (s : Text) :
    ∃ e t, f (d :: s) = e :: t ∧ stop e = false := by
  obtain ⟨w, rest, rfl, hw, hrest⟩ := exists_word stop s
  have hword : IsWord stop (d :: w) := fun c hc => by
    rcases List.mem_cons.mp hc with rfl | hc
    · exact hd
    · exact hw c hc
  obtain ⟨e, v, he, hv⟩ := h.exists_cons hword
  refine ⟨e, v ++ f rest, ?_, hv e List.mem_cons_self⟩
  rw [← List.cons_append, h.append_of_head hrest, he, List.cons_append]

theorem eq_self (h : Wordwise stop f) (hp : ∀ c ∈ p, stop c) : f p = p := by
  induction p with
  | nil => exact h.nil
  | cons c p ih =>
    rw [h.cons (hp c List.mem_cons_self), ih fun d hd => hp d (List.mem_cons_of_mem c hd)]

theorem isEmpty_map (h : Wordwise stop f) (s : Text) : (f s).isEmpty = s.isEmpty := by
  cases s with
  | nil => rw [h.nil]
  | cons c s =>
    cases hc : stop c with
    | true =>
      rw [h.cons hc]
      rfl
    | false =>
      obtain ⟨e, t, he, -⟩ := h.exists_cons_of_not_stop hc s
      rw [he]
      rfl

/-- A text starts with a stop if what becomes of it does. -/
theorem head?_map (h : Wordwise stop f) (hc : stop c) (s : Text) :
    (f s).head? = some c ↔ s.head? = some c := by
  have hne : ∀ {d}, stop d = false → d ≠ c := by
    rintro d hd rfl
    rw [hc] at hd
    cases hd
  cases s with
  | nil => rw [h.nil]
  | cons d s =>
    cases hd : stop d with
    | true =>
      rw [h.cons hd]
      rfl
    | false =>
      obtain ⟨e, t, he, hb⟩ := h.exists_cons_of_not_stop hd s
      simp [he, hne hb, hne hd]

section Readers

variable (h : Wordwise stop f)

include h

theorem strip?_map (hp : ∀ c ∈ p, stop c) (s : Text) : strip? p (f s) = (strip? p s).map f := by
  induction p generalizing s with
  | nil => rfl
  | cons c p ih =>
    have hc := hp c List.mem_cons_self
    cases s with
    | nil =>
      rw [h.nil]
      rfl
    | cons d s =>
      cases hd : stop d with
      | true =>
        rw [h.cons hd, strip?, strip?]
        split
        · exact ih (fun d hd => hp d (List.mem_cons_of_mem c hd)) s
        · rfl
      | false =>
        obtain ⟨e, t, he, hb⟩ := h.exists_cons_of_not_stop hd s
        have hne : ∀ {d : Char}, stop d = false → c ≠ d := by
          rintro d hd rfl
          rw [hc] at hd
          cases hd
        rw [he, strip?, strip?, if_neg (hne hb), if_neg (hne hd), Option.map_none]

theorem cut?_map (hp : ∀ c ∈ p, stop c) (hn : p ≠ []) (s : Text) :
    cut? p (f s) = (cut? p s).map fun r => (f r.1, f r.2) := by
  obtain ⟨d, q, rfl⟩ := List.exists_cons_of_ne_nil hn
  have hd := hp d List.mem_cons_self
  -- The pattern starts in no word.
  have hpass : ∀ {w : Text}, IsWord stop w → ∀ s, cut? (d :: q) (w ++ s) =
      (cut? (d :: q) s).map fun r => (w ++ r.1, r.2) :=
    fun hw s => cut?_append_of_not_mem (hw.not_mem hd) s
  have hnil : cut? (d :: q) [] = none := rfl
  induction s using word_induction stop with
  | word w hw =>
    have hleft := hpass (h.isWord hw) []
    have hright := hpass hw []
    rw [List.append_nil, hnil] at hleft hright
    rw [hleft, hright]
    rfl
  | append w c s hw hc ih =>
    rw [h.append hc, hpass (h.isWord hw), hpass hw]
    have hstrip := h.strip?_map hp (c :: s)
    rw [h.cons hc] at hstrip
    cases hs : strip? (d :: q) (c :: s) with
    | some rest =>
      rw [hs, Option.map_some] at hstrip
      rw [cut?, hstrip, cut?, hs]
      simp
    | none =>
      rw [hs, Option.map_none] at hstrip
      rw [cut?_cons_of_strip? hstrip, cut?_cons_of_strip? hs, ih]
      cases cut? (d :: q) s with
      | none => rfl
      | some r => simp [h.append hc]

theorem dropWhile_map {p : Char → Bool} (hp : ∀ c, p c → stop c) (s : Text) :
    (f s).dropWhile p = f (s.dropWhile p) := by
  induction s with
  | nil => rw [List.dropWhile_nil, h.nil, List.dropWhile_nil]
  | cons c s ih =>
    by_cases hc : p c
    · rw [h.cons (hp c hc), List.dropWhile_cons_of_pos hc, List.dropWhile_cons_of_pos hc, ih]
    · rw [List.dropWhile_cons_of_neg hc]
      cases hb : stop c with
      | true => rw [h.cons hb, List.dropWhile_cons_of_neg hc]
      | false =>
        obtain ⟨e, t, he, hbe⟩ := h.exists_cons_of_not_stop hb s
        have hpe : ¬p e := fun hpe => by
          rw [hp e hpe] at hbe
          cases hbe
        rw [he, List.dropWhile_cons_of_neg hpe]

theorem spanUntil_map {p : Char → Bool} (hp : ∀ c, p c → stop c) (s : Text) :
    spanUntil p (f s) = (f (spanUntil p s).1, f (spanUntil p s).2) := by
  have hword : ∀ {w : Text}, IsWord stop w → ∀ c ∈ w, (!p c) = true := by
    intro w hw c hc
    cases hpc : p c with
    | false => rfl
    | true => exact absurd hc (hw.not_mem (hp c hpc))
  simp only [spanUntil]
  induction s using word_induction stop with
  | word w hw =>
    rw [List.takeWhile_eq_self_iff.mpr (hword hw), dropWhile_of_all (hword hw),
      List.takeWhile_eq_self_iff.mpr (hword (h.isWord hw)), dropWhile_of_all (hword (h.isWord hw)),
      h.nil]
  | append w c s hw hc ih =>
    obtain ⟨htake, hdrop⟩ := Prod.mk.inj ih
    rw [h.append hc, List.takeWhile_append_of_pos (hword hw),
      List.takeWhile_append_of_pos (hword (h.isWord hw)), List.dropWhile_append_of_pos (hword hw),
      List.dropWhile_append_of_pos (hword (h.isWord hw)), List.takeWhile_cons, List.dropWhile_cons,
      List.takeWhile_cons, List.dropWhile_cons]
    cases p c with
    | true => simp [h.cons hc]
    | false => simp [h.append hc, htake, hdrop]

theorem trim_map (hblank : ∀ c, isWhiteSpace c → stop c) (s : Text) : trim (f s) = f (trim s) := by
  have hend := h.reverse.dropWhile_map hblank (trimStart s).reverse
  rw [List.reverse_reverse] at hend
  simp only [trim, trimEnd, dropEndWhile, trimStart] at hend ⊢
  rw [h.dropWhile_map hblank, hend, List.reverse_reverse]

theorem dropEnding?_map (hp : ∀ c ∈ p, stop c) (s : Text) :
    dropEnding? p (f s) = (dropEnding? p s).map f := by
  have hstrip := h.reverse.strip?_map (p := p.reverse)
    (fun c hc => hp c (List.mem_reverse.mp hc)) s.reverse
  rw [List.reverse_reverse] at hstrip
  rw [dropEnding?, hstrip, dropEnding?, Option.map_map, Option.map_map]
  exact congrArg (Option.map · _) (funext fun t => List.reverse_reverse _)

end Readers

end Wordwise

namespace Expression

/-- The characters that nest an expression, or open and close quotes in it. -/
def nestingChars : List Char := ['\'', '"', '\x60', '\\', '[', ']']

namespace Nesting

/-- A nesting after other characters. -/
def settled (n : Nesting) : Nesting := if n.quote.isSome then { n with escaped := false } else n

/-- Is the open quote, if there is one, a character that opens quotes? -/
def Proper (n : Nesting) : Prop := ∀ q ∈ n.quote, q ∈ nestingChars

theorem settled_settled (n : Nesting) : n.settled.settled = n.settled := by
  obtain ⟨depth, quote, escaped⟩ := n
  cases quote with
  | none => rfl
  | some q => rfl

theorem Proper.settled {n : Nesting} (h : n.Proper) : n.settled.Proper := by
  unfold Nesting.settled
  split
  · exact h
  · exact h

theorem Proper.after {n : Nesting} (h : n.Proper) (c : Char) : (n.after c).Proper := by
  obtain ⟨depth, quote, escaped⟩ := n
  cases quote with
  | none =>
    simp only [Nesting.after]
    split
    next hc =>
      intro q hq
      cases hq
      rcases hc with rfl | rfl | rfl <;> simp [nestingChars]
    next =>
      split
      · exact h
      · split
        · exact h
        · exact h
  | some q =>
    simp only [Nesting.after]
    split
    · exact h
    · split
      · exact h
      · split
        · intro q hq
          cases hq
        · exact h

theorem after_eq_settled {n : Nesting} (hn : n.Proper) {c : Char} (hc : c ∉ nestingChars) :
    n.after c = n.settled := by
  have hne : c ≠ '\'' ∧ c ≠ '"' ∧ c ≠ '\x60' ∧ c ≠ '\\' ∧ c ≠ '[' ∧ c ≠ ']' := by
    simpa [nestingChars] using hc
  obtain ⟨depth, quote, escaped⟩ := n
  cases quote with
  | none => simp [after, settled, hne]
  | some q =>
    have hq : c ≠ q := by
      rintro rfl
      exact hc (hn c rfl)
    cases escaped with
    | true => simp [after, settled]
    | false => simp [after, settled, hne, hq]

end Nesting

variable {stop : Char → Bool} {f : Text → Text} {sep : Char}

/-- A word in an expression settles the nesting, whatever the word is. -/
theorem partsFrom_word (hsep : stop sep) (hs : ∀ c ∈ nestingChars, stop c) {n : Nesting}
    (hn : n.Proper) {w : Text} (hw : IsWord stop w) (hne : w ≠ []) (s : Text) :
    partsFrom sep n (w ++ s) =
      (w ++ (partsFrom sep n.settled s).1, (partsFrom sep n.settled s).2) := by
  induction w generalizing n with
  | nil => exact absurd rfl hne
  | cons c w ih =>
    have hstop : ∀ d, stop d → c ≠ d := by
      rintro d hd rfl
      exact hw.not_mem hd List.mem_cons_self
    have hc : c ∉ nestingChars := fun hm => hstop c (hs c hm) rfl
    have hcut : ¬(c = sep ∧ n.isTop = true) := fun hm => hstop sep hsep hm.1
    rw [List.cons_append, partsFrom, Nesting.after_eq_settled hn hc]
    rw [if_neg hcut]
    cases w with
    | nil => rfl
    | cons d w =>
      rw [ih hn.settled (fun d hd => hw d (List.mem_cons_of_mem c hd)) (List.cons_ne_nil d w),
        Nesting.settled_settled]
      rfl

theorem partsFrom_map (h : Wordwise stop f) (hsep : stop sep) (hs : ∀ c ∈ nestingChars, stop c)
    {n : Nesting} (hn : n.Proper) (s : Text) :
    partsFrom sep n (f s) = (f (partsFrom sep n s).1, (partsFrom sep n s).2.map f) := by
  induction s using word_induction stop generalizing n with
  | word w hw =>
    rw [partsFrom_of_not_mem (hw.not_mem hsep), partsFrom_of_not_mem ((h.isWord hw).not_mem hsep)]
    rfl
  | append w c s hw hc ih =>
    -- The cut after the word is the same before and after the map.
    have htail : ∀ {m : Nesting}, m.Proper → ∀ v, partsFrom sep m (c :: f s) =
        ((partsFrom sep m (c :: f s)).1, (partsFrom sep m (c :: s)).2.map f) ∧
          f (v ++ (partsFrom sep m (c :: s)).1) = f v ++ (partsFrom sep m (c :: f s)).1 := by
      intro m hm v
      have ih := ih (hm.after c)
      rw [partsFrom, partsFrom, ih]
      dsimp only
      split
      · simp
      · simp [h.append hc]
    rw [h.append hc]
    by_cases hne : w = []
    · subst hne
      obtain ⟨h1, h2⟩ := htail hn []
      rw [h.nil, List.nil_append, List.nil_append] at *
      rw [h1, h2]
    · obtain ⟨h1, h2⟩ := htail hn.settled w
      have hfw := h.word hne hw
      rw [partsFrom_word hsep hs hn hw hne, partsFrom_word hsep hs hn hfw.2 hfw.1, h1, h2]

/-- The parts of an expression after a map that works word by word. -/
theorem parts_map (h : Wordwise stop f) (hsep : stop sep) (hs : ∀ c ∈ nestingChars, stop c)
    (s : Text) : parts sep (f s) = (parts sep s).map f := by
  have hstart : Nesting.start.Proper := by
    intro q hq
    cases hq
  rw [parts, partsFrom_map h hsep hs hstart]
  rfl

end Expression

end Stencil
