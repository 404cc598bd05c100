import Stencil.Loop.Shorthand
import Stencil.Node
import Stencil.Proofs.Placeholder

namespace Stencil

namespace Placeholder

/-- Does a placeholder stand somewhere in a text, however it is spelled? -/
def Occurs (p : Placeholder) (s : Text) : Prop := ∃ w, Spelling p w ∧ w <:+: s

theorem Occurs.of_infix {p : Placeholder} {s t : Text} (h : p.Occurs s) (hs : s <:+: t) :
    p.Occurs t := by
  obtain ⟨w, hw, hi⟩ := h
  exact ⟨w, hw, hi.trans hs⟩

/-- Between its ends a placeholder has characters of names, a blank and a slash. -/
theorem Spelling.chars {p : Placeholder} {w : Text} (h : Spelling p w) :
    ∃ v, w = '<' :: v ++ ['>'] ∧ ∀ c ∈ v, isNameChar c ∨ c = ' ' ∨ c = '/' := by
  rcases p with ⟨name, depth, attrs, kind⟩
  cases h with
  | @closer full hf =>
    refine ⟨'/' :: full, rfl, fun c hc => ?_⟩
    rcases List.mem_cons.mp hc with rfl | hc
    · exact .inr (.inr rfl)
    · exact .inl (hf c hc)
  | @opener full index hf _ hk hi =>
    have hindex : ∀ c ∈ index, isNameChar c ∨ c = ' ' ∨ c = '/' := by
      intro c hc
      cases hi with
      | absent => simp at hc
      | digits hd =>
        rcases List.mem_cons.mp hc with rfl | hc
        · exact .inr (.inl rfl)
        · exact .inl (isNameChar_of_isDigit (hd c hc))
    have hall : ∀ c ∈ full ++ index, isNameChar c ∨ c = ' ' ∨ c = '/' := fun c hc =>
      (List.mem_append.mp hc).elim (fun hc => .inl (hf c hc)) (hindex c)
    cases kind with
    | closes => exact absurd rfl hk
    | opens => exact ⟨full ++ index, rfl, hall⟩
    | alone =>
      refine ⟨full ++ index ++ ['/'], by simp [endText], fun c hc => ?_⟩
      rcases List.mem_append.mp hc with hc | hc
      · exact hall c hc
      · exact .inr (.inr (List.mem_singleton.mp hc))

/-- Nothing in a placeholder but its ends is an angle bracket, and it has no closing brace. -/
theorem Spelling.shape {p : Placeholder} {w : Text} (h : Spelling p w) :
    ∃ v, w = '<' :: v ++ ['>'] ∧ ∀ c ∈ v, c ≠ '<' ∧ c ≠ '>' ∧ c ≠ '}' := by
  obtain ⟨v, hw, hv⟩ := h.chars
  refine ⟨v, hw, fun c hc => ⟨?_, ?_, ?_⟩⟩ <;> rintro rfl <;> exact absurd (hv _ hc) (by decide)

theorem spelling_source {s : Text} {f : Found} (h : next? s = some f) :
    Spelling f.placeholder f.source ∧ s = f.before ++ (f.source ++ f.after) := by
  induction s generalizing f with
  | nil => simp [next?] at h
  | cons c s ih =>
    unfold next? at h
    split at h
    next p rest hr =>
      cases Option.some.inj h
      obtain ⟨w, hw, hs⟩ := exists_spelling hr
      have hlength : s.length + 1 - rest.length = w.length := by
        have := congrArg List.length hw
        simp only [List.length_cons, List.length_append] at this
        omega
      have hsource : (c :: s).take (s.length + 1 - rest.length) = w := by
        rw [hlength, hw, List.take_left]
      exact ⟨hsource.symm ▸ hs, by rw [hsource, List.nil_append, hw]⟩
    next =>
      obtain ⟨g, hg, rfl⟩ := Option.map_eq_some_iff.mp h
      obtain ⟨hs, he⟩ := ih hg
      exact ⟨hs, by simp only [List.cons_append, ← he]⟩

theorem occurs_of_next? {s : Text} {f : Found} (h : next? s = some f) :
    f.placeholder.Occurs s := by
  obtain ⟨hs, he⟩ := spelling_source h
  exact ⟨f.source, hs, f.before, f.after, by rw [List.append_assoc, ← he]⟩

theorem infix_after {s : Text} {f : Found} (h : next? s = some f) : f.after <:+: s := by
  obtain ⟨-, he⟩ := spelling_source h
  exact ⟨f.before ++ f.source, [], by rw [List.append_nil, List.append_assoc, ← he]⟩

end Placeholder

namespace Node

open Placeholder

theorem ofFound_tag {f : Found} {p : Placeholder} {content : Option Text} {source : Text}
    (h : (ofFound f).1 = .tag p content source) :
    p = f.placeholder ∧ ∀ inside ∈ content, inside <:+: f.after := by
  unfold ofFound at h
  dsimp only at h
  split at h
  · split at h
    · cases h
    · cases h
      exact ⟨rfl, by simp⟩
  · split at h
    next inside rest hc =>
      cases h
      refine ⟨rfl, ?_⟩
      rintro _ ⟨⟩
      exact ⟨[], closer f.placeholder.name f.placeholder.depth ++ rest, by
        simpa using (Text.eq_of_cut? hc).symm⟩
    next => cases h

theorem infix_ofFound (f : Found) : (ofFound f).2 <:+: f.after := by
  unfold ofFound
  dsimp only
  split
  · split <;> exact List.infix_rfl
  · split
    next inside rest hc =>
      refine ⟨inside ++ closer f.placeholder.name f.placeholder.depth, [], ?_⟩
      simpa using (Text.eq_of_cut? hc).symm
    next => exact List.infix_rfl

/-- The tags of a text occur in it, each with its content. -/
theorem occurs_of_mem_listFrom {level : Nat} {before s source : Text} {p : Placeholder}
    {content : Option Text} (h : .tag p content source ∈ listFrom level before s) :
    p.Occurs s ∧ ∀ inside ∈ content, inside <:+: s := by
  fun_induction listFrom level before s with
  | case1 before s hn => simp at h
  | case2 before s f hf hc ih =>
    have ⟨ho, hi⟩ := ih h
    have hafter := infix_after hf
    exact ⟨ho.of_infix hafter, fun inside hm => (hi inside hm).trans hafter⟩
  | case3 before s f hf hc ih =>
    have hafter := infix_after hf
    rcases List.mem_cons.mp ((List.mem_cons.mp h).resolve_left (by simp)) with h | h
    · obtain ⟨rfl, hi⟩ := ofFound_tag h.symm
      exact ⟨occurs_of_next? hf, fun inside hm => (hi inside hm).trans hafter⟩
    · have ⟨ho, hi⟩ := ih h
      have hrest := (infix_ofFound f).trans hafter
      exact ⟨ho.of_infix hrest, fun inside hm => (hi inside hm).trans hrest⟩

theorem occurs_of_mem_list {level : Nat} {s source : Text} {p : Placeholder}
    {content : Option Text} (h : .tag p content source ∈ list level s) :
    p.Occurs s ∧ ∀ inside ∈ content, inside <:+: s :=
  occurs_of_mem_listFrom h

end Node

namespace Branch

open Placeholder

theorem infix_of_mem_listFrom {depth : Nat} {condition : Option (Option Nat)} {before s : Text}
    {b : Branch} (h : b ∈ listFrom depth condition before s) : b.body <:+: before ++ s := by
  fun_induction listFrom depth condition before s with
  | case1 condition before s hn =>
    obtain rfl := List.mem_singleton.mp h
    exact List.infix_rfl
  | case2 condition before s f hf mark next hm ih =>
    obtain ⟨-, he⟩ := spelling_source hf
    rcases List.mem_cons.mp h with rfl | h
    · exact ⟨[], f.source ++ f.after, by rw [List.nil_append, List.append_assoc, ← he]⟩
    · refine (ih h).trans ?_
      exact ⟨before ++ (f.before ++ f.source), [], by simp [← he]⟩
  | case3 condition before s f hf mark hm ih =>
    obtain ⟨-, he⟩ := spelling_source hf
    have hwhole : before ++ f.before ++ f.source ++ f.after = before ++ s := by
      rw [he]
      simp
    exact hwhole ▸ ih h

/-- The bodies of branches are parts of the content they are branches of. -/
theorem infix_of_mem_list {depth : Nat} {first : Option Nat} {content : Text} {b : Branch}
    (h : b ∈ list depth first content) : b.body <:+: content :=
  infix_of_mem_listFrom h

end Branch

namespace Text

variable {d : Char} {u w a b : Text}

/-- A text without some sign stands before it or after it. -/
theorem infix_of_not_mem (hw : d ∉ w) (h : w <:+: a ++ d :: b) : w <:+: a ∨ w <:+: b := by
  have hpre : ∀ a : Text, w <+: a ++ d :: b → w <:+: a := by
    intro a hp
    rcases List.prefix_or_prefix_of_prefix hp (List.prefix_append a (d :: b)) with h | ⟨t, rfl⟩
    · exact h.isInfix
    · cases t with
      | nil => exact ⟨[], [], by simp⟩
      | cons e t =>
        have he := (List.prefix_append_right_inj a).mp hp
        rw [List.cons_prefix_cons] at he
        exact absurd (by simp [he.1]) hw
  induction a with
  | nil =>
    rcases List.infix_cons_iff.mp h with h | h
    · exact .inl (hpre [] h)
    · exact .inr h
  | cons x a ih =>
    rcases List.infix_cons_iff.mp h with h | h
    · exact .inl (hpre (x :: a) h)
    · exact (ih h).imp List.infix_cons id

/-- A text that ends with the first sign of a kind ends no later than the text before that sign, or
stands after it. -/
theorem infix_of_stop (hu : d ∉ u) (ha : d ∉ a) (h : u ++ [d] <:+: a ++ d :: b) :
    u ++ [d] <:+: a ++ [d] ∨ u ++ [d] <:+: b := by
  have hpre : ∀ a : Text, u ++ [d] <+: a ++ d :: b → u ++ [d] <:+: a ++ [d] := by
    intro a hp
    have hstop : a ++ [d] <+: a ++ d :: b := ⟨b, by simp⟩
    rcases List.prefix_or_prefix_of_prefix hp hstop with h | h
    · exact h.isInfix
    · rcases List.prefix_concat_iff.mp h with h | h
      · exact h ▸ List.infix_rfl
      · exact absurd (h.subset (by simp)) hu
  induction a with
  | nil =>
    rcases List.infix_cons_iff.mp h with h | h
    · exact .inl (hpre [] h)
    · exact .inr h
  | cons x a ih =>
    rcases List.infix_cons_iff.mp h with h | h
    · exact .inl (hpre (x :: a) h)
    · exact (ih (fun hm => ha (List.mem_cons_of_mem x hm)) h).imp List.infix_cons id

/-- A text that starts with a sign starts after all that does not have it. -/
theorem infix_of_start (ha : d ∉ a) (h : d :: w <:+: a ++ b) : d :: w <:+: b := by
  induction a with
  | nil => exact h
  | cons x a ih =>
    rcases List.infix_cons_iff.mp h with h | h
    · have := (List.cons_prefix_cons.mp h).1
      exact absurd (by simp [this]) ha
    · exact ih (fun hm => ha (List.mem_cons_of_mem x hm)) h

/-- Before the first place of a sign there is none. -/
theorem not_mem_of_cut? {s : Text} (h : cut? [d] s = some (a, b)) : d ∉ a := by
  induction s generalizing a with
  | nil => simp [cut?] at h
  | cons x s ih =>
    unfold cut? at h
    split at h
    next =>
      cases Option.some.inj h
      simp
    next hs =>
      obtain ⟨⟨a', b'⟩, hc, he⟩ := Option.map_eq_some_iff.mp h
      cases he
      have hx : d ≠ x := by
        rintro rfl
        simp [strip?] at hs
      simp [hx, ih hc]

end Text

namespace Loop

open Placeholder

theorem not_mem_fields (s : Text) : '<' ∉ (fields s).1 := by
  have hname : ∀ d : Char, isNameChar d → d ≠ '<' := by
    rintro d hd rfl
    exact absurd hd (by decide)
  fun_induction fields s with
  | case1 c s hc more ih =>
    simp only [List.cons_append, List.mem_cons, List.mem_append, not_or]
    refine ⟨by decide, fun he => hname c hc he.symm, fun hm => ?_, ih⟩
    exact hname _ (List.all_eq_true.mp List.all_takeWhile _ hm) rfl
  | case2 => simp
  | case3 => simp

theorem fields_append (s : Text) : (fields s).1 ++ (fields s).2 = s := by
  fun_induction fields s with
  | case1 c s hc more ih =>
    simp only [List.cons_append, List.append_assoc, more, ih, List.takeWhile_append_dropWhile]
  | case2 => rfl
  | case3 => rfl

theorem suffix_fields (s : Text) : (fields s).2 <:+ s := by
  fun_induction fields s with
  | case1 c s hc more ih =>
    exact ih.trans ((List.dropWhile_suffix _).trans ⟨['.', c], rfl⟩)
  | case2 => exact List.suffix_rfl
  | case3 => exact List.suffix_rfl

theorem not_mem_name (s : Text) : '<' ∉ s.takeWhile isNameChar := fun hm =>
  absurd (List.all_eq_true.mp List.all_takeWhile _ hm) (by decide)

/-- The shorthand is written out between placeholders only. -/
theorem infix_of_expandAfter {names : List Text} {before : Option Char} {s w : Text}
    {p : Placeholder} (hw : Spelling p w) (h : w <:+: expandAfter names before s) : w <:+: s := by
  obtain ⟨v, rfl, hv⟩ := hw.shape
  have hbrace : '}' ∉ '<' :: v ++ ['>'] := by
    have : '}' ∉ v := fun hm => (hv _ hm).2.2 rfl
    simp [this]
  have hangle : '>' ∉ '<' :: v := by
    have : '>' ∉ v := fun hm => (hv _ hm).2.1 rfl
    simp [this]
  fun_induction expandAfter names before s with
  | case1 => exact h
  | case2 => exact h
  | case3 before c s close hskip inside rest hcut hne ih =>
    have hwhole := Text.eq_of_cut? hcut
    rw [List.append_assoc] at h hwhole
    rw [hwhole]
    unfold skipped? at hskip
    split at hskip
    · cases hskip
      rcases Text.infix_of_not_mem hbrace h with h | h
      · exact h.trans (List.prefix_append _ _).isInfix
      · refine List.IsInfix.trans (ih ?_) ⟨inside ++ ['}', '}'], [], by simp⟩
        exact (Text.infix_of_not_mem (a := []) hbrace h).elim
          (fun h => absurd (List.infix_nil.mp h) (by simp)) id
    · cases hskip
      rcases Text.infix_of_stop hangle (Text.not_mem_of_cut? hcut) h with h | h
      · exact h.trans ⟨[], rest, by simp⟩
      · exact (ih h).trans ⟨inside ++ ['>'], [], by simp⟩
    · simp at hskip
  | case4 => exact h
  | case5 before c s hskip hc name rest hmem f ih =>
    have hlead : '<' ∉ ['{', '{'] ++ name ++ f.1 ++ ['}', '}'] := by
      simp [name, f, not_mem_name, not_mem_fields]
    refine (ih (Text.infix_of_start hlead h)).trans (List.IsSuffix.isInfix ?_)
    have hfields : f.2 <:+ rest := suffix_fields rest
    exact hfields.trans ((List.dropWhile_suffix _).trans (List.suffix_cons c s))
  | case6 before c s hskip hc name rest hmem ih =>
    have hlead : '<' ∉ c :: name := by simp [hc.1, name, not_mem_name]
    refine (ih (Text.infix_of_start hlead h)).trans ?_
    exact ((List.dropWhile_suffix _).trans (List.suffix_cons c s)).isInfix
  | case7 before c s hskip hc ih =>
    have hlead : '<' ∉ [c] := by
      rintro hm
      rw [← List.mem_singleton.mp hm] at hskip
      simp [skipped?] at hskip
    exact (ih (Text.infix_of_start hlead h)).trans (List.suffix_cons c s).isInfix

/-- Writing out the shorthand of a loop makes no placeholders. -/
theorem occurs_of_expand {l : Loop} {body : Text} {p : Placeholder}
    (h : p.Occurs (l.expand body)) : p.Occurs body := by
  obtain ⟨w, hw, hi⟩ := h
  exact ⟨w, hw, infix_of_expandAfter hw hi⟩

end Loop

end Stencil
