import Stencil.Changes
import Stencil.Engine
import Stencil.Proofs.Text

namespace Stencil

namespace Text

variable {c : Char} {pat s t before after : Text}

theorem splitOn_of_none (h : cut? pat s = none) : splitOn pat s = [s] := by
  rw [splitOn]
  split
  next => rfl
  next hc => cases h.symm.trans hc

theorem splitOn_of_some (hp : pat ≠ []) (h : cut? pat s = some (before, after)) :
    splitOn pat s = before :: splitOn pat after := by
  rw [splitOn]
  split
  next hc => cases h.symm.trans hc
  next hc =>
    cases h.symm.trans hc
    rw [dif_neg hp]

theorem splitOn_of_not_mem (h : c ∉ s) : splitOn [c] s = [s] :=
  splitOn_of_none (cut?_of_not_mem h)

theorem splitOn_cons_of_not_mem (h : c ∉ s) (t : Text) :
    splitOn [c] (s ++ c :: t) = s :: splitOn [c] t :=
  splitOn_of_some (by simp) (cut?_append_cons h t)

/-- A text is a last part, or a part, the sign after it, and a text. -/
theorem parts_induction {motive : Text → Prop} (c : Char)
    (last : ∀ s, c ∉ s → motive s) (part : ∀ s t, c ∉ s → motive t → motive (s ++ c :: t))
    (s : Text) : motive s := by
  induction hn : s.length using Nat.strongRecOn generalizing s with
  | ind n ih =>
    by_cases hs : c ∈ s
    · obtain ⟨before, after, rfl, hbefore⟩ := List.eq_append_cons_of_mem hs
      have hlength : after.length < n := by
        rw [← hn, List.length_append, List.length_cons]
        omega
      exact part before after hbefore (ih _ hlength after rfl)
    · exact last s hs

theorem splitOn_ne_nil (c : Char) (s : Text) : splitOn [c] s ≠ [] := by
  induction s using parts_induction c with
  | last s hs => simp [splitOn_of_not_mem hs]
  | part s t hs => simp [splitOn_cons_of_not_mem hs]

theorem not_mem_of_mem_splitOn {s part : Text} (h : part ∈ splitOn [c] s) : c ∉ part := by
  induction s using parts_induction c with
  | last s hs =>
    rw [splitOn_of_not_mem hs] at h
    exact List.mem_singleton.mp h ▸ hs
  | part s t hs ih =>
    rw [splitOn_cons_of_not_mem hs] at h
    rcases List.mem_cons.mp h with rfl | h
    · exact hs
    · exact ih h

end Text

namespace Path

/-- Part of a path that is a name: neither empty nor one of the two that stand for directories. -/
def IsName (part : Text) : Prop := part ≠ [] ∧ part ≠ ['.'] ∧ part ≠ ['.', '.']

/-- A path of names, one below the other. -/
def Plain (path : Text) : Prop := ∀ part ∈ Text.splitOn ['/'] path, IsName part

instance (path : Text) : Decidable (Plain path) :=
  inferInstanceAs (Decidable (∀ part ∈ _, _ ≠ _ ∧ _ ≠ _ ∧ _ ≠ _))

/-- The parts of a path to a directory, each with the slash that ends it. -/
def directory (parts : List Text) : Text := parts.flatMap fun part => part ++ ['/']

/-- A path with a slash at its end, if a name can be put there only after one. -/
def inside (root : Text) : Text :=
  if root.isEmpty ∨ root.getLast? = some '/' then root else root ++ ['/']

variable {root path name part s t : Text} {parts : List Text}

theorem push_eq (path part : Text) : push path part = inside path ++ part := by
  unfold push inside
  split
  · rfl
  · rfl

theorem IsName.ofPart? (h : IsName part) : Component.ofPart? part = some (.name part) := by
  obtain ⟨hempty, hhere, hup⟩ := h
  simp [Component.ofPart?, hempty, hhere, hup]

/-- A part that stands for no component. -/
def isSilent (part : Text) : Bool := part = [] ∨ part = ['.']

theorem ofPart?_eq_none : Component.ofPart? part = none ↔ isSilent part := by
  unfold Component.ofPart? isSilent
  split
  next h => simpa using h
  next h =>
    split
    · simpa using h
    · simpa using h

theorem splitOn_directory (hp : ∀ part ∈ parts, '/' ∉ part) (s : Text) :
    Text.splitOn ['/'] (directory parts ++ s) = parts ++ Text.splitOn ['/'] s := by
  induction parts with
  | nil => rfl
  | cons part parts ih =>
    obtain ⟨hpart, hparts⟩ := List.forall_mem_cons.mp hp
    have htext : directory (part :: parts) ++ s = part ++ '/' :: (directory parts ++ s) := by
      simp [directory]
    rw [htext, Text.splitOn_cons_of_not_mem hpart, ih hparts, List.cons_append]

theorem directory_splitOn (s : Text) : directory (Text.splitOn ['/'] s) = s ++ ['/'] := by
  induction s using Text.parts_induction '/' with
  | last s hs => simp [Text.splitOn_of_not_mem hs, directory]
  | part s t hs ih =>
    rw [Text.splitOn_cons_of_not_mem hs, directory, List.flatMap_cons]
    unfold directory at ih
    simp [ih]

/-- What a path in several parts begins with, by its first part. -/
def lead : Text → List Component
  | [] => [.root]
  | ['.'] => [.here]
  | _ => []

theorem components_of_splitOn {more : List Text} (hm : more ≠ [])
    (h : Text.splitOn ['/'] path = part :: more) :
    components path = lead part ++ (part :: more).filterMap Component.ofPart? := by
  obtain ⟨next, more, rfl⟩ := List.exists_cons_of_ne_nil hm
  unfold components lead
  rw [h]
  dsimp only
  congr 1
  split
  next he =>
    cases he
    rfl
  next he =>
    cases he
    rfl
  next h₁ h₂ =>
    split
    next => exact absurd rfl (h₁ _ _)
    next => exact absurd rfl (h₂ _)
    next => rfl

theorem components_directory (hp : ∀ part ∈ parts, '/' ∉ part) (hpart : '/' ∉ part) (s : Text) :
    components (directory (part :: parts) ++ s) =
      lead part ++ (part :: parts ++ Text.splitOn ['/'] s).filterMap Component.ofPart? := by
  have hall : ∀ part' ∈ part :: parts, '/' ∉ part' := List.forall_mem_cons.mpr ⟨hpart, hp⟩
  refine components_of_splitOn (List.append_ne_nil_of_right_ne_nil _ (Text.splitOn_ne_nil _ s)) ?_
  rw [splitOn_directory hall]
  rfl

theorem components_nil : components [] = [] := by
  simp [components, Text.splitOn_of_not_mem, Component.ofPart?]

theorem components_directory_cons (hp : ∀ part ∈ parts, '/' ∉ part) (hpart : '/' ∉ part) :
    components (directory (part :: parts)) =
      lead part ++ (part :: parts).filterMap Component.ofPart? := by
  have hempty : Component.ofPart? [] = none := rfl
  have h := components_directory hp hpart []
  rwa [List.append_nil, Text.splitOn_of_not_mem (by simp), List.filterMap_append,
    List.filterMap_cons_none hempty, List.filterMap_nil, List.append_nil] at h

theorem splitOn_append_slash (s : Text) :
    Text.splitOn ['/'] (s ++ ['/']) = Text.splitOn ['/'] s ++ [[]] := by
  have h : Text.splitOn ['/'] (directory (Text.splitOn ['/'] s) ++ []) =
      Text.splitOn ['/'] s ++ Text.splitOn ['/'] [] :=
    splitOn_directory (fun part => Text.not_mem_of_mem_splitOn) []
  rwa [directory_splitOn, List.append_nil, Text.splitOn_of_not_mem (s := []) (by simp)] at h

theorem components_append_slash (h : s ≠ []) : components (s ++ ['/']) = components s := by
  obtain ⟨part, more, hs⟩ := List.exists_cons_of_ne_nil (Text.splitOn_ne_nil '/' s)
  have hslash : Text.splitOn ['/'] (s ++ ['/']) = part :: (more ++ [[]]) := by
    rw [splitOn_append_slash, hs, List.cons_append]
  have hempty : Component.ofPart? [] = none := rfl
  rw [components_of_splitOn (by simp) hslash, ← List.cons_append, List.filterMap_append,
    List.filterMap_cons_none hempty, List.filterMap_nil, List.append_nil]
  cases more with
  | cons next more => rw [components_of_splitOn (by simp) hs]
  | nil =>
    have hpart : part ≠ [] := by
      rintro rfl
      have hdirectory := directory_splitOn s
      rw [hs] at hdirectory
      simp [directory] at hdirectory
      exact h hdirectory
    unfold components
    rw [hs]
    dsimp only
    congr 1
    unfold lead
    split
    next => exact absurd rfl hpart
    next => rfl
    next hd =>
      split
      next he => cases he
      next he => cases he; exact absurd rfl hd
      next => rfl

/-- The path of a root is that of a directory, with the same components. -/
theorem exists_parts (root : Text) : ∃ parts, (∀ part ∈ parts, '/' ∉ part) ∧
    inside root = directory parts ∧ components root = components (directory parts) := by
  by_cases hroot : root = []
  · exact ⟨[], by simp, by simp [hroot, inside, directory], by rw [hroot]; rfl⟩
  by_cases hslash : root.getLast? = some '/'
  · obtain ⟨r, rfl⟩ := List.getLast?_eq_some_iff.mp hslash
    refine ⟨Text.splitOn ['/'] r, fun part => Text.not_mem_of_mem_splitOn, ?_, ?_⟩
    · rw [directory_splitOn, inside, if_pos (.inr hslash)]
    · rw [directory_splitOn]
  · refine ⟨Text.splitOn ['/'] root, fun part => Text.not_mem_of_mem_splitOn, ?_, ?_⟩
    · rw [directory_splitOn, inside, if_neg (by simp [hroot, hslash])]
    · rw [directory_splitOn, components_append_slash hroot]

/-- No slash or point is left out before a name. -/
theorem skip_of_not_silent (hpart : '/' ∉ part) (hs : isSilent part = false)
    (_ht : t = [] ∨ t.head? = some '/') : dropComponent.skip (part ++ t) = part ++ t := by
  obtain ⟨hempty, hhere⟩ : part ≠ [] ∧ part ≠ ['.'] := by simpa [isSilent] using hs
  obtain ⟨c, rest, rfl⟩ := List.exists_cons_of_ne_nil hempty
  have hc : c ≠ '/' := fun he => hpart (he ▸ List.mem_cons_self)
  -- what follows a point is a sign of a longer name
  have hrest : c = '.' → rest ++ t ≠ [] ∧ (rest ++ t).head? ≠ some '/' := by
    rintro rfl
    cases rest with
    | nil => exact absurd rfl hhere
    | cons d rest =>
      refine ⟨by simp, fun he => hpart ?_⟩
      have hd : d = '/' := by simpa using he
      simp [hd]
  rw [List.cons_append]
  unfold dropComponent.skip
  split
  next he => cases he
  next he =>
    obtain ⟨rfl, hnil⟩ := List.cons.inj he
    exact absurd hnil (hrest rfl).1
  next he => exact absurd (List.cons.inj he).1 hc
  next he =>
    obtain ⟨rfl, hslash⟩ := List.cons.inj he
    exact absurd (congrArg List.head? hslash) (hrest rfl).2
  next => rfl

theorem skip_directory (hp : ∀ part ∈ parts, '/' ∉ part)
    (hs : dropComponent.skip s = s) :
    dropComponent.skip (directory parts ++ s) = directory (parts.dropWhile isSilent) ++ s := by
  induction parts with
  | nil => exact hs
  | cons part parts ih =>
    obtain ⟨hpart, hparts⟩ := List.forall_mem_cons.mp hp
    have htext : directory (part :: parts) ++ s = part ++ '/' :: (directory parts ++ s) := by
      simp [directory]
    by_cases hsilent : isSilent part
    · rw [List.dropWhile_cons_of_pos hsilent, ← ih hparts, htext]
      rcases (by simpa [isSilent] using hsilent : part = [] ∨ part = ['.']) with rfl | rfl
      · rfl
      · rfl
    · rw [List.dropWhile_cons_of_neg hsilent, htext]
      exact skip_of_not_silent hpart (by simpa using hsilent) (.inr rfl)

theorem dropComponent_directory (hpart : '/' ∉ part) (hp : ∀ part ∈ parts, '/' ∉ part)
    (hs : dropComponent.skip s = s) :
    dropComponent (directory (part :: parts) ++ s) =
      directory (parts.dropWhile isSilent) ++ s := by
  have htext : directory (part :: parts) ++ s = part ++ '/' :: (directory parts ++ s) := by
    simp [directory]
  rw [htext, ← skip_directory hp hs]
  unfold dropComponent
  split
  next he =>
    cases part with
    | nil => rw [(List.cons.inj he).2]
    | cons c part => exact absurd (List.mem_cons.mpr (.inl (List.cons.inj he).1.symm)) hpart
  next =>
    have hdrop : (part ++ '/' :: (directory parts ++ s)).dropWhile (· != '/') =
        '/' :: (directory parts ++ s) :=
      Text.dropWhile_append_stop (fun c hc => bne_iff_ne.mpr fun he => hpart (he ▸ hc)) (by simp)
    rw [hdrop]
    rfl

/-- To drop one component for each that there is leaves what follows the directory. -/
theorem foldl_dropComponent (hp : ∀ part ∈ parts, '/' ∉ part) (hs : dropComponent.skip s = s) :
    (parts.filterMap Component.ofPart?).foldl (fun p _ => dropComponent p)
      (directory (parts.dropWhile isSilent) ++ s) = s := by
  induction parts with
  | nil => rfl
  | cons part parts ih =>
    obtain ⟨hpart, hparts⟩ := List.forall_mem_cons.mp hp
    cases hof : Component.ofPart? part with
    | none =>
      rw [List.filterMap_cons_none hof, List.dropWhile_cons_of_pos (ofPart?_eq_none.mp hof)]
      exact ih hparts
    | some c =>
      have hsilent : ¬isSilent part := fun h => by
        rw [ofPart?_eq_none.mpr h] at hof
        cases hof
      rw [List.filterMap_cons_some hof, List.dropWhile_cons_of_neg hsilent, List.foldl_cons,
        dropComponent_directory hpart hparts hs]
      exact ih hparts

/-- The components of a directory, each dropped. -/
theorem foldl_dropComponent_directory (hp : ∀ part ∈ parts, '/' ∉ part)
    (hs : dropComponent.skip s = s) :
    (components (directory parts)).foldl (fun p _ => dropComponent p) (directory parts ++ s) =
      s := by
  cases parts with
  | nil =>
    rw [show directory [] = [] from rfl, components_nil]
    rfl
  | cons part parts =>
    obtain ⟨hpart, hparts⟩ := List.forall_mem_cons.mp hp
    -- a first part that stands for no component is a sign at the start of the path
    obtain ⟨c, hc⟩ : ∃ c, components (directory (part :: parts)) =
        c :: parts.filterMap Component.ofPart? := by
      rw [components_directory_cons hparts hpart]
      cases hof : Component.ofPart? part with
      | none =>
        rw [List.filterMap_cons_none hof]
        rcases (by simpa [isSilent] using ofPart?_eq_none.mp hof : part = [] ∨ part = ['.']) with
          rfl | rfl
        · exact ⟨.root, rfl⟩
        · exact ⟨.here, rfl⟩
      | some c =>
        refine ⟨c, ?_⟩
        have hlead : lead part = [] := by
          unfold lead
          split
          next => cases hof
          next => cases hof
          next => rfl
        rw [hlead, List.filterMap_cons_some hof, List.nil_append]
    rw [hc, List.foldl_cons, dropComponent_directory hpart hparts hs]
    exact foldl_dropComponent hparts hs

namespace Plain

theorem ofParts (h : Plain path) : (Text.splitOn ['/'] path).filterMap Component.ofPart? =
    (Text.splitOn ['/'] path).map .name :=
  List.filterMap_eq_map_iff_forall_eq_some.mpr fun part hp => (h part hp).ofPart?

/-- A plain path is a name, or it begins with one and a slash. -/
theorem exists_name (h : Plain path) : ∃ name rest, path = name ++ rest ∧ IsName name ∧
    '/' ∉ name ∧ (rest = [] ∨ rest.head? = some '/') := by
  induction path using Text.parts_induction '/' with
  | last s hs =>
    exact ⟨s, [], (List.append_nil s).symm, h s (by simp [Text.splitOn_of_not_mem hs]), hs,
      .inl rfl⟩
  | part s t hs =>
    exact ⟨s, _, rfl, h s (by simp [Text.splitOn_cons_of_not_mem hs]), hs, .inr rfl⟩

theorem components (h : Plain path) :
    components path = (Text.splitOn ['/'] path).map .name := by
  obtain ⟨part, more, hs⟩ := List.exists_cons_of_ne_nil (Text.splitOn_ne_nil '/' path)
  obtain ⟨hempty, hhere, -⟩ := h part (by simp [hs])
  have hparts := h.ofParts
  unfold Path.components
  dsimp only
  rw [hparts, hs]
  split
  next he => exact absurd (List.cons.inj he).1 hempty
  next he => exact absurd (List.cons.inj he).1 hhere
  next => rfl

/-- A plain path ends with a name, which is longer if something without a slash is put after it. -/
theorem exists_last (h : Plain path) : ∃ rest name, path = rest ++ name ∧ IsName name ∧
    '/' ∉ name ∧ ∀ t, '/' ∉ t → (Text.splitOn ['/'] (path ++ t)).getLast? = some (name ++ t) := by
  induction path using Text.parts_induction '/' with
  | last s hs =>
    refine ⟨[], s, rfl, h s (by simp [Text.splitOn_of_not_mem hs]), hs, fun t ht => ?_⟩
    rw [Text.splitOn_of_not_mem (by simp [hs, ht])]
    rfl
  | part s t hs ih =>
    rw [Plain, Text.splitOn_cons_of_not_mem hs, List.forall_mem_cons] at h
    obtain ⟨rest, name, rfl, hname, hslash, hlast⟩ := ih h.2
    refine ⟨s ++ '/' :: rest, name, by simp, hname, hslash, fun t ht => ?_⟩
    rw [List.append_assoc, List.cons_append, Text.splitOn_cons_of_not_mem hs, List.getLast?_cons,
      hlast t ht]
    rfl

/-- A plain path with an extension is plain. -/
theorem extend (h : Plain path) {ext : Text} (he : '/' ∉ ext) : Plain (path ++ '.' :: ext) := by
  induction path using Text.parts_induction '/' with
  | last s hs =>
    obtain ⟨hempty, hhere, -⟩ := h s (by simp [Text.splitOn_of_not_mem hs])
    rw [Plain, Text.splitOn_of_not_mem (by simp [hs, he]), List.forall_mem_singleton]
    obtain ⟨c, s, rfl⟩ := List.exists_cons_of_ne_nil hempty
    refine ⟨by simp, by simp, fun hup => ?_⟩
    obtain ⟨rfl, hrest⟩ := List.cons.inj hup
    cases s with
    | nil => exact hhere rfl
    | cons d s =>
      have hlength := congrArg List.length hrest
      simp at hlength
  | part s t hs ih =>
    rw [Plain, Text.splitOn_cons_of_not_mem hs, List.forall_mem_cons] at h
    rw [List.append_assoc, List.cons_append, Plain, Text.splitOn_cons_of_not_mem hs,
      List.forall_mem_cons]
    exact ⟨h.1, ih h.2⟩

theorem skip (h : Plain path) : dropComponent.skip path = path := by
  obtain ⟨name, rest, rfl, hname, hslash, hrest⟩ := h.exists_name
  exact skip_of_not_silent hslash (by simp [isSilent, hname.1, hname.2.1]) hrest

end Plain

theorem descend?_names (names more : List Text) :
    descend? names (more.map .name) = some (names.reverse ++ more) := by
  induction more generalizing names with
  | nil => simp [descend?]
  | cons n more ih => simp [descend?, ih]

/-- What stands for directories at the start of a path makes no difference on the way down. -/
theorem descend?_components (names : List Text) (path : Text) :
    descend? names (components path) =
      descend? names ((Text.splitOn ['/'] path).filterMap Component.ofPart?) := by
  unfold components
  dsimp only
  split
  · simp [descend?]
  · simp [descend?]
  · rfl

theorem below?_dropWhile (path : Text) : below? (path.dropWhile (· == '/')) = below? path := by
  induction path with
  | nil => rfl
  | cons c path ih =>
    by_cases hc : c = '/'
    · have hempty : Component.ofPart? [] = none := rfl
      have hparts : Text.splitOn ['/'] ('/' :: path) = [] :: Text.splitOn ['/'] path :=
        Text.splitOn_cons_of_not_mem (s := []) (by simp) path
      rw [hc, List.dropWhile_cons_of_pos (by simp), ih, below?, below?, descend?_components,
        descend?_components, hparts, List.filterMap_cons_none hempty]
    · rw [List.dropWhile_cons_of_neg (by simpa using hc)]

/-- Names that are put below a directory one after the other are a path below it. -/
theorem foldl_push (h : Plain path) (root : Text) :
    (Text.splitOn ['/'] path).foldl push root = inside root ++ path := by
  induction path using Text.parts_induction '/' generalizing root with
  | last s hs => simp [Text.splitOn_of_not_mem hs, push_eq]
  | part s t hs ih =>
    rw [Plain, Text.splitOn_cons_of_not_mem hs, List.forall_mem_cons] at h
    obtain ⟨⟨hempty, -, -⟩, ht⟩ := h
    have hlast : (inside root ++ s).getLast? ≠ some '/' := by
      rw [List.getLast?_append_of_ne_nil _ hempty]
      exact fun he => hs (List.mem_of_getLast? he)
    have hinside : inside (inside root ++ s) = inside root ++ s ++ ['/'] :=
      if_neg (not_or.mpr ⟨by simp [hempty], hlast⟩)
    rw [Text.splitOn_cons_of_not_mem hs, List.foldl_cons, push_eq, ih ht, hinside]
    simp

/-- A template with a plain name is below every root. -/
theorem joinUnder_plain (h : Plain name) (root : Text) :
    joinUnder root name = .ok (inside root ++ name) := by
  unfold joinUnder below?
  rw [h.components, descend?_names]
  simp [foldl_push h]

theorem dropTail_plain (h : Plain path) : dropTail path = path := by
  obtain ⟨rest, name, rfl, ⟨hempty, hhere, -⟩, hslash, -⟩ := h.exists_last
  obtain ⟨c, before, hname⟩ := List.exists_cons_of_ne_nil (List.reverse_ne_nil_iff.mpr hempty)
  have hmem : ∀ d ∈ c :: before, d ≠ '/' := fun d hd he =>
    hslash (List.mem_reverse.mp (hname ▸ he ▸ hd))
  have hpoint : c = '.' → before ≠ [] := by
    rintro rfl rfl
    exact hhere (List.reverse_eq_iff.mp hname)
  have hskip : dropTail.skip (c :: before ++ rest.reverse) = c :: before ++ rest.reverse := by
    unfold dropTail.skip
    split
    next he => exact absurd (List.cons.inj he).1 (hmem c List.mem_cons_self)
    next he => exact absurd (List.cons.inj he).1 (hmem c List.mem_cons_self)
    next he =>
      obtain ⟨rfl, hnext⟩ := List.cons.inj he
      obtain ⟨d, more, rfl⟩ := List.exists_cons_of_ne_nil (hpoint rfl)
      exact absurd (List.cons.inj hnext).1 (hmem d (by simp))
    next => rfl
  rw [dropTail, List.reverse_append, hname, hskip, ← hname, ← List.reverse_append,
    List.reverse_reverse]

/-- The components of a path below a root. -/
theorem components_inside (h : Plain name) (root : Text) :
    components (inside root ++ name) =
      components root ++ (Text.splitOn ['/'] name).map .name := by
  obtain ⟨parts, hparts, hinside, hroot⟩ := exists_parts root
  rw [hroot, hinside]
  cases parts with
  | nil =>
    rw [show directory [] = [] from rfl, components_nil]
    exact h.components
  | cons part parts =>
    obtain ⟨hpart, hparts⟩ := List.forall_mem_cons.mp hparts
    rw [components_directory hparts hpart, List.filterMap_append, h.ofParts,
      components_directory_cons hparts hpart, List.append_assoc]

/-- The extension of a template is that of its path below a root. -/
theorem extension?_inside (h : Plain name) {ext : Text} (hpoint : '.' ∉ ext) (hslash : '/' ∉ ext)
    (root : Text) : extension? (inside root ++ (name ++ '.' :: ext)) = some ext := by
  obtain ⟨-, stem, -, ⟨hempty, -, -⟩, -, hlast⟩ := h.exists_last
  have hparts := hlast ('.' :: ext) (by simp [hslash])
  have hcomponent : (components (inside root ++ (name ++ '.' :: ext))).getLast? =
      some (.name (stem ++ '.' :: ext)) := by
    rw [components_inside (h.extend hslash), List.getLast?_append, List.getLast?_map, hparts]
    rfl
  unfold extension?
  rw [hcomponent]
  simp [Text.cutLast?_append stem hpoint, hempty]

/-- What is below a root in the path of a template with a plain name is this name. -/
theorem strip?_inside (h : Plain name) (root : Text) :
    strip? root (inside root ++ name) = some name := by
  obtain ⟨parts, hparts, hinside, hroot⟩ := exists_parts root
  have hprefix : (components root).isPrefixOf (components (inside root ++ name)) := by
    rw [components_inside h, List.isPrefixOf_iff_prefix]
    exact List.prefix_append ..
  unfold strip?
  rw [if_pos hprefix, hroot, hinside, foldl_dropComponent_directory hparts h.skip,
    dropTail_plain h]

end Path

namespace Changes

/-- An extension that is told from the rest of a path by the last point. -/
structure PlainExtension (ext : Text) : Prop where
  point : '.' ∉ ext
  slash : '/' ∉ ext
  backslash : '\\' ∉ ext
  last : ∀ c ∈ ext.getLast?, isWhiteSpace c = false

/-- A file with the name of a template, changed below a root, is reported by this name. -/
theorem templates_plain {key ext : Text} (h : Path.Plain key) (he : PlainExtension ext)
    (root : Text) :
    templates [Path.inside root ++ (key ++ '.' :: ext)] root ext = [key ++ '.' :: ext] := by
  unfold templates
  simp [Path.extension?_inside h he.point he.slash, Path.strip?_inside (h.extend he.slash), dedupe]

end Changes

namespace Engine

/-- A key that is read from the name by which a change of its file is reported. -/
structure PlainKey (key : Text) : Prop where
  parts : Path.Plain key
  backslash : '\\' ∉ key
  first : ∀ c ∈ key.head?, isWhiteSpace c = false

theorem keyFor_plain {key ext : Text} (h : PlainKey key) (he : Changes.PlainExtension ext) :
    keyFor (key ++ '.' :: ext) ext = key := by
  obtain ⟨c, rest, rfl⟩ : ∃ c rest, key = c :: rest := by
    obtain ⟨name, rest, rfl, ⟨hempty, -, -⟩, -, -⟩ := h.parts.exists_name
    obtain ⟨c, name, rfl⟩ := List.exists_cons_of_ne_nil hempty
    exact ⟨c, name ++ rest, rfl⟩
  have hfirst : c ≠ '/' := by
    rintro rfl
    have hslash := h.parts []
    rw [show '/' :: rest = [] ++ '/' :: rest from rfl, Text.splitOn_cons_of_not_mem (by simp)]
      at hslash
    exact (hslash List.mem_cons_self).1 rfl
  have htrim : Text.trim (c :: rest ++ '.' :: ext) = c :: rest ++ '.' :: ext := by
    have hlast : ∀ d ∈ (c :: rest ++ '.' :: ext).getLast?, isWhiteSpace d = false := by
      intro d hd
      rw [List.getLast?_append_of_ne_nil _ (by simp), List.getLast?_cons] at hd
      cases hext : ext.getLast? with
      | none =>
        rw [hext] at hd
        obtain rfl := Option.some.inj hd
        decide
      | some d' =>
        rw [hext] at hd
        obtain rfl := Option.some.inj hd
        exact he.last d' hext
    have htrim : Text.trim ([] ++ (c :: rest ++ '.' :: ext) ++ []) = c :: rest ++ '.' :: ext :=
      Text.trim_append (by simp) (by simp) (by simpa using h.first) hlast
    simpa using htrim
  have hmap : (c :: rest ++ '.' :: ext).map (fun d => if d = '\\' then '/' else d) =
      c :: rest ++ '.' :: ext := by
    refine (List.map_congr_left fun d hd => if_neg ?_).trans (List.map_id' _)
    rintro rfl
    rcases List.mem_append.mp hd with hd | hd
    · exact h.backslash hd
    · exact he.backslash (by simpa using hd)
  have hending : Text.dropEnding? ('.' :: ext) (c :: rest ++ '.' :: ext) = some (c :: rest) := by
    rw [Text.dropEnding?, List.reverse_append, Text.strip?_append, Option.map_some,
      List.reverse_reverse]
  have hdrop : (c :: rest ++ '.' :: ext).dropWhile (· == '/') = c :: rest ++ '.' :: ext := by
    simp [hfirst]
  rw [keyFor, htrim, hmap, hdrop, hending, Option.getD_some]

end Engine

end Stencil
