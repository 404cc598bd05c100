import Stencil.Proofs.Calls
import Stencil.Proofs.Placeholder

namespace Stencil

namespace Base64

/-- What is read as base64 is made of digits and the padding. -/
theorem mem_of_decode? {s : Text} {bytes : Bytes} (h : decode? s = some bytes) {c : Char}
    (hc : c ∈ s) : (value? c).isSome ∨ c = '=' := by
  fun_induction decode? s generalizing bytes with
  | case1 => cases hc
  | case2 a b =>
    simp only [Option.bind_eq_bind, Option.bind_eq_some_iff] at h
    obtain ⟨x, hx, y, hy, -⟩ := h
    simp only [List.mem_cons, List.not_mem_nil, or_false] at hc
    rcases hc with rfl | rfl | rfl | rfl
    · simp [hx]
    · simp [hy]
    · simp
    · simp
  | case3 a b c' =>
    simp only [Option.bind_eq_bind, Option.bind_eq_some_iff] at h
    obtain ⟨x, hx, y, hy, z, hz, -⟩ := h
    simp only [List.mem_cons, List.not_mem_nil, or_false] at hc
    rcases hc with rfl | rfl | rfl | rfl
    · simp [hx]
    · simp [hy]
    · simp [hz]
    · simp
  | case4 a b c' d rest _ _ ih =>
    simp only [Option.bind_eq_bind, Option.bind_eq_some_iff] at h
    obtain ⟨x, hx, y, hy, z, hz, w, hw, more, hmore, -⟩ := h
    simp only [List.mem_cons] at hc
    rcases hc with rfl | rfl | rfl | rfl | hc
    · simp [hx]
    · simp [hy]
    · simp [hz]
    · simp [hw]
    · exact ih hmore hc
  | case5 => cases h

end Base64

namespace Text

/-- What is left out at the ends of a text is white space. -/
theorem mem_trim {s : Text} {c : Char} (hc : isWhiteSpace c = false) (h : c ∈ s) : c ∈ trim s := by
  have hdrop : ∀ {t : Text}, c ∈ t → c ∈ t.dropWhile isWhiteSpace := by
    intro t ht
    rw [← List.takeWhile_append_dropWhile (p := isWhiteSpace) (l := t)] at ht
    rcases List.mem_append.mp ht with ht | ht
    · have hspace := List.all_eq_true.mp List.all_takeWhile c ht
      rw [hc] at hspace
      cases hspace
    · exact ht
  have hend : c ∈ (trimStart s).reverse := List.mem_reverse.mpr (hdrop h)
  exact List.mem_reverse.mpr (hdrop hend)

/-- All words without braces that start a text, or stand in it, do so in another one. -/
structure Carries (s t : Text) : Prop where
  start : ∀ w : Text, '{' ∉ w → '}' ∉ w → w <+: s → w <+: t
  within : ∀ w : Text, '{' ∉ w → '}' ∉ w → w <:+: s → w <:+: t

theorem Carries.refl (s : Text) : Carries s s := ⟨fun _ _ _ h => h, fun _ _ _ h => h⟩

theorem Carries.cons (c : Char) {s t : Text} (h : Carries s t) : Carries (c :: s) (c :: t) := by
  have hstart : ∀ w : Text, '{' ∉ w → '}' ∉ w → w <+: c :: s → w <+: c :: t := by
    intro w hl hr hw
    cases w with
    | nil => exact List.nil_prefix
    | cons d w =>
      rw [List.cons_prefix_cons] at hw ⊢
      exact ⟨hw.1, h.start w (List.not_mem_of_not_mem_cons hl) (List.not_mem_of_not_mem_cons hr)
        hw.2⟩
  refine ⟨hstart, fun w hl hr hw => ?_⟩
  rcases List.infix_cons_iff.mp hw with hw | hw
  · exact (hstart w hl hr hw).isInfix
  · exact (h.within w hl hr hw).trans (List.suffix_cons c t).isInfix

theorem Carries.append (u : Text) {s t : Text} (h : Carries s t) : Carries (u ++ s) (u ++ t) := by
  induction u with
  | nil => exact h
  | cons c u ih => exact ih.cons c

/-- A word without braces does not reach over the ends of a hole. -/
theorem Carries.hole {u s t v : Text} (h : Carries s t) (hu : u <:+: v) (ht : t <:+ v) :
    Carries (['{', '{'] ++ u ++ ['}', '}'] ++ s) v := by
  constructor
  · intro w hl hr hw
    cases w with
    | nil => exact List.nil_prefix
    | cons d w =>
      obtain ⟨rest, hrest⟩ := hw
      obtain ⟨rfl, -⟩ := List.cons.inj hrest
      exact absurd List.mem_cons_self hl
  · intro w hl hr hw
    have hw : w <:+: [] ++ '{' :: ('{' :: (u ++ '}' :: '}' :: s)) := by simpa using hw
    rcases infix_of_not_mem hl hw with hw | hw
    · exact List.infix_nil.mp hw ▸ List.nil_infix
    rcases infix_of_not_mem (a := []) hl hw with hw | hw
    · exact List.infix_nil.mp hw ▸ List.nil_infix
    rcases infix_of_not_mem hr hw with hw | hw
    · exact hw.trans hu
    rcases infix_of_not_mem (a := []) hr hw with hw | hw
    · exact List.infix_nil.mp hw ▸ List.nil_infix
    · exact (h.within w hl hr hw).trans ht.isInfix

end Text

namespace Loop

open Text

/-- Where the shorthand is written out, no word without braces is new. -/
theorem carries_expandAfter (names : List Text) (before : Option Char) (s : Text) :
    Carries (expandAfter names before s) s := by
  fun_induction expandAfter names before s with
  | case1 => exact .refl []
  | case2 => exact .refl _
  | case3 before c s close hskip inside rest hcut hne ih =>
    rw [Text.eq_of_cut? hcut]
    exact ih.append (inside ++ close)
  | case4 => exact .refl _
  | case5 before c s hskip hc name rest hmem f ih =>
    have hrest : f.1 ++ f.2 = rest := fields_append rest
    have hs : name ++ rest = s := List.takeWhile_append_dropWhile
    have hwhole : c :: s = c :: (name ++ f.1) ++ f.2 := by simp [← hs, ← hrest]
    have hhole := ih.hole (u := name ++ f.1) (v := c :: s) ?_ ?_
    · simpa using hhole
    · rw [hwhole]
      exact ⟨[c], f.2, by simp⟩
    · rw [hwhole]
      exact List.suffix_append _ _
  | case6 before c s hskip hc name rest hmem ih =>
    have hs : name ++ rest = s := List.takeWhile_append_dropWhile
    rw [← hs]
    exact (ih.append name).cons c
  | case7 before c s hskip hc ih => exact ih.cons c

/-- Writing out the shorthand makes no angle brackets. -/
theorem count_expandAfter (names : List Text) (before : Option Char) (s : Text) :
    (expandAfter names before s).count '<' = s.count '<' := by
  fun_induction expandAfter names before s with
  | case1 => rfl
  | case2 => rfl
  | case3 before c s close hskip inside rest hcut hne ih =>
    rw [Text.eq_of_cut? hcut, List.count_append, ih, ← List.count_append]
  | case4 => rfl
  | case5 before c s hskip hc name rest hmem f ih =>
    have hrest : f.1 ++ f.2 = rest := fields_append rest
    have hs : name ++ rest = s := List.takeWhile_append_dropWhile
    have hname : name.count '<' = 0 := List.count_eq_zero.mpr (not_mem_name s)
    have hfields : f.1.count '<' = 0 := List.count_eq_zero.mpr (not_mem_fields rest)
    rw [List.count_append, ih]
    simp [← hs, ← hrest, hc.1, hname, hfields]
  | case6 before c s hskip hc name rest hmem ih =>
    have hs : c :: name ++ rest = c :: s :=
      congrArg (List.cons c) List.takeWhile_append_dropWhile
    rw [List.count_append, ih, ← List.count_append, hs]
  | case7 before c s hskip hc ih => simp [List.count_cons, ih]

end Loop

namespace Residual

/-- Does a text hold a block? -/
def Holds (s block : Text) : Prop :=
  ∃ payload, opening ++ payload ++ closing <:+: s ∧ block? payload = some block

/-- Are blocks nested in a text no deeper than this? -/
def Within : Nat → Text → Prop
  | 0, s => ∀ block, ¬Holds s block
  | n + 1, s => ∀ block, Holds s block → Within n block

variable {s t block payload : Text}

theorem Holds.of_infix (h : Holds t block) (ht : t <:+: s) : Holds s block := by
  obtain ⟨payload, hp, hb⟩ := h
  exact ⟨payload, hp.trans ht, hb⟩

theorem infix_of_mem_pieces (h : .inr payload ∈ pieces s) :
    opening ++ payload ++ closing <:+: s := by
  fun_induction pieces s with
  | case1 => simp at h
  | case2 => simp at h
  | case3 s before inner hopen payload' rest hclose ih =>
    have hs : s = before ++ (opening ++ payload' ++ closing) ++ rest := by
      rw [Text.eq_of_cut? hopen, Text.eq_of_cut? hclose]
      simp
    rw [hs]
    rcases List.mem_cons.mp h with h | h
    · cases h
    rcases List.mem_cons.mp h with h | h
    · cases Sum.inr.inj h
      exact List.infix_append _ _ _
    · exact (ih h).trans (List.suffix_append _ _).isInfix

theorem Within.of_holds {n : Nat} (h : Within n s) (ht : ∀ block, Holds t block → Holds s block) :
    Within n t := by
  cases n with
  | zero => exact fun block hb => h block (ht block hb)
  | succ n => exact fun block hb => h block (ht block hb)

theorem Within.mono {n m : Nat} (h : Within n s) (hnm : n ≤ m) : Within m s := by
  induction n generalizing m s with
  | zero =>
    cases m with
    | zero => exact h
    | succ m => exact fun block hb => absurd hb (h block)
  | succ n ih =>
    obtain ⟨m, rfl⟩ : ∃ k, m = k + 1 := ⟨m - 1, by omega⟩
    exact fun block hb => ih (h block hb) (by omega)

theorem within_of_not_mem (h : '%' ∉ s) (n : Nat) : Within n s := by
  have hzero : Within 0 s := by
    rintro block ⟨payload, hp, -⟩
    exact absurd (hp.subset (by simp [opening])) h
  exact hzero.mono (Nat.zero_le n)

/-- A payload that can be read has no braces. -/
theorem brace_not_mem (h : block? payload = some block) : '{' ∉ payload ∧ '}' ∉ payload := by
  unfold block? Payload.toText Payload.toBytes at h
  split at h
  next => cases h
  next bytes hbytes =>
    split at hbytes
    next => cases hbytes
    next gz hgz =>
      have hno : ∀ c : Char, isWhiteSpace c = false → (Base64.value? c).isSome = false → c ≠ '=' →
          c ∉ payload := by
        intro c hspace hvalue hpad hc
        rcases Base64.mem_of_decode? hgz (Text.mem_trim hspace hc) with hv | hv
        · rw [hvalue] at hv
          cases hv
        · exact hpad hv
      exact ⟨hno '{' (by decide) (by decide) (by decide),
        hno '}' (by decide) (by decide) (by decide)⟩

theorem Holds.of_expand {l : Loop} (h : Holds (l.expand s) block) : Holds s block := by
  obtain ⟨payload, hp, hb⟩ := h
  obtain ⟨hl, hr⟩ := brace_not_mem hb
  refine ⟨payload, (Loop.carries_expandAfter l.names none s).within _ ?_ ?_ hp, hb⟩
  · simp [opening, closing, hl]
  · simp [opening, closing, hr]

end Residual

namespace Node

variable {level : Nat} {s t before source : Text} {n : Node}

theorem infix_of_text_mem (h : .text t ∈ listFrom level before s) : t <:+: before ++ s := by
  fun_induction listFrom level before s with
  | case1 before s hn =>
    cases List.mem_singleton.mp h
    exact List.infix_rfl
  | case2 before s f hf hc ih =>
    obtain ⟨-, he⟩ := Placeholder.spelling_source hf
    have hwhole : before ++ f.before ++ f.source ++ f.after = before ++ s := by
      rw [he]
      simp
    exact hwhole ▸ ih h
  | case3 before s f hf hc ih =>
    obtain ⟨-, he⟩ := Placeholder.spelling_source hf
    rcases List.mem_cons.mp h with h | h
    · cases h
      exact ⟨[], f.source ++ f.after, by rw [he]; simp⟩
    rcases List.mem_cons.mp h with h | h
    · have hnot : ∀ f : Placeholder.Found, (ofFound f).1 ≠ .text t := by
        intro f
        unfold ofFound
        dsimp only
        split
        · split <;> simp
        · split <;> simp
      exact absurd h.symm (hnot f)
    · have hrest := (infix_ofFound f).trans (Placeholder.infix_after hf)
      exact ((ih h).trans hrest).trans (List.suffix_append _ _).isInfix

/-- The content of a tag has fewer angle brackets than the text that the tag is in. -/
theorem count_content_lt {p : Placeholder} {content : Option Text}
    (h : .tag p content source ∈ listFrom level before s) :
    (content.getD []).count '<' < s.count '<' := by
  fun_induction listFrom level before s with
  | case1 before s hn => simp at h
  | case2 before s f hf hc ih =>
    have hafter := (Placeholder.infix_after hf).sublist.count_le '<'
    exact Nat.lt_of_lt_of_le (ih h) hafter
  | case3 before s f hf hc ih =>
    have hafter := (Placeholder.infix_after hf).sublist.count_le '<'
    rcases List.mem_cons.mp ((List.mem_cons.mp h).resolve_left (by simp)) with h | h
    · obtain ⟨rfl, hin⟩ := ofFound_tag h.symm
      obtain ⟨hspelled, he⟩ := Placeholder.spelling_source hf
      obtain ⟨v, hv, -⟩ := hspelled.shape
      have hcontent : (content.getD []).count '<' ≤ f.after.count '<' := by
        cases content with
        | none => simp
        | some inside => exact (hin inside rfl).sublist.count_le '<'
      have hsource : 0 < f.source.count '<' := by
        rw [hv]
        exact List.count_pos_iff.mpr (by simp)
      rw [he, List.count_append, List.count_append]
      omega
    · have hrest := (infix_ofFound f).sublist.count_le '<'
      exact Nat.lt_of_lt_of_le (ih h) (hrest.trans hafter)

/-- What is inside a tag of a text has fewer angle brackets than the text. -/
theorem count_inside_lt (hn : n ∈ list level s) (ht : n.Inside level t) :
    t.count '<' < s.count '<' := by
  cases ht with
  | content => exact count_content_lt hn
  | branch hb =>
    have hbody := (Branch.infix_of_mem_list hb).sublist.count_le '<'
    exact Nat.lt_of_le_of_lt hbody (count_content_lt hn)
  | unfolded l =>
    rw [Loop.expand, Loop.count_expandAfter]
    exact count_content_lt hn

end Node

namespace Residual

variable {level : Nat} {s t block : Text} {n : Node}

/-- What is inside a tag of a text holds no blocks but those of the text. -/
theorem Holds.of_inside (hn : n ∈ Node.list level s) (ht : n.Inside level t)
    (h : Holds t block) : Holds s block := by
  have hcontent : ∀ {p : Placeholder} {content : Option Text} {source : Text},
      .tag p content source ∈ Node.list level s → content.getD [] <:+: s := by
    intro p content source hm
    cases content with
    | none => exact List.nil_infix
    | some inside => exact (Node.occurs_of_mem_list hm).2 inside rfl
  cases ht with
  | content => exact h.of_infix (hcontent hn)
  | branch hb => exact h.of_infix ((Branch.infix_of_mem_list hb).trans (hcontent hn))
  | unfolded l => exact h.of_expand.of_infix (hcontent hn)

theorem holds_of_seals (hn : n ∈ Node.list level s) (hb : n.Seals block) : Holds s block := by
  obtain ⟨hp, hb⟩ := hb
  exact ⟨_, (infix_of_mem_pieces hp).trans (Node.infix_of_text_mem hn), hb⟩

theorem Within.of_inside {m : Nat} (h : Within m s) (hn : n ∈ Node.list level s)
    (ht : n.Inside level t) : Within m t :=
  h.of_holds fun _ hb => hb.of_inside hn ht

end Residual

end Stencil
