import Mathlib.Logic.Relation
import Stencil.Proofs.Path

namespace Stencil.Path

def Component.isName : Component → Bool
  | .name _ => true
  | _ => false

/-- Do components never lead out of the directory where they start? -/
def Stays (cs : List Component) : Prop :=
  ∀ way, way <+: cs → way.count .up ≤ way.countP Component.isName

/-- Components become simpler without a look at files: the root and a point for the same directory
are left out, and so is a name together with the way up after it. -/
inductive Simplifies : List Component → List Component → Prop
  | root (before after : List Component) : Simplifies (before ++ .root :: after) (before ++ after)
  | here (before after : List Component) : Simplifies (before ++ .here :: after) (before ++ after)
  | back (before after : List Component) (n : Text) :
    Simplifies (before ++ .name n :: .up :: after) (before ++ after)

/-- The names that are left of components when they are as simple as can be. -/
def Normal (cs : List Component) (names : List Text) : Prop :=
  Relation.ReflTransGen Simplifies cs (names.map .name)

variable {cs ds : List Component} {names above : List Text} {path n : Text}

theorem descend?_append (above : List Text) (cs ds : List Component) :
    descend? above (cs ++ ds) =
      (descend? above cs).bind fun names => descend? names.reverse ds := by
  fun_induction descend? above cs with
  | case1 above => simp
  | case2 above n cs ih => simpa [descend?] using ih
  | case3 above cs ih => simpa [descend?] using ih
  | case4 above cs ih => simpa [descend?] using ih
  | case5 cs => rfl
  | case6 n above cs ih => simpa [descend?] using ih

/-- What is struck out makes no difference on the way down. -/
theorem Simplifies.descend?_eq (h : Simplifies cs ds) (above : List Text) :
    descend? above cs = descend? above ds := by
  cases h with
  | root before after => simp [descend?_append, descend?]
  | here before after => simp [descend?_append, descend?]
  | back before after n => simp [descend?_append, descend?]

/-- The way down is struck out step by step as it is gone. -/
theorem normal_of_descend? (h : descend? above cs = some names) :
    Normal (above.reverse.map .name ++ cs) names := by
  unfold Normal
  fun_induction descend? above cs with
  | case1 above =>
    cases h
    rw [List.append_nil]
  | case2 above n cs ih => simpa using ih h
  | case3 above cs ih => exact .head (.root _ _) (ih h)
  | case4 above cs ih => exact .head (.here _ _) (ih h)
  | case5 cs => cases h
  | case6 n above cs ih =>
    refine .head (b := above.reverse.map .name ++ cs) ?_ (ih h)
    rw [List.reverse_cons, List.map_append, List.append_assoc]
    exact .back _ _ n

/-- The names of the way down are those that are left. -/
theorem descend?_eq_some_iff : descend? [] cs = some names ↔ Normal cs names := by
  refine ⟨normal_of_descend?, fun h => ?_⟩
  induction h using Relation.ReflTransGen.head_induction_on with
  | refl => rw [descend?_names, List.reverse_nil, List.nil_append]
  | head hstep _ ih => rw [hstep.descend?_eq, ih]

theorem forall_prefix_cons {c : Component} {p : List Component → Prop} :
    (∀ way, way <+: c :: cs → p way) ↔ p [] ∧ ∀ way, way <+: cs → p (c :: way) := by
  simp only [List.prefix_cons_iff]
  constructor
  · exact fun h => ⟨h [] (.inl rfl), fun way hw => h _ (.inr ⟨way, rfl, hw⟩)⟩
  · rintro ⟨hnil, hcons⟩ way (rfl | ⟨rest, rfl, hrest⟩)
    · exact hnil
    · exact hcons rest hrest

/-- There is a way down if from below some names no part of it goes up more often than to these
names and down. -/
theorem descend?_isSome_iff : (descend? above cs).isSome ↔
    ∀ way, way <+: cs → way.count .up ≤ above.length + way.countP Component.isName := by
  fun_induction descend? above cs with
  | case1 above => simp
  | case2 above n cs ih =>
    rw [ih, forall_prefix_cons]
    simp [List.countP_cons, Component.isName, Nat.add_left_comm, Nat.add_comm]
  | case3 above cs ih =>
    rw [ih, forall_prefix_cons]
    simp [Component.isName]
  | case4 above cs ih =>
    rw [ih, forall_prefix_cons]
    simp [Component.isName]
  | case5 cs =>
    simp only [Option.isSome_none, Bool.false_eq_true, List.length_nil, false_iff]
    intro h
    have := h [.up] (by simp)
    simp [Component.isName] at this
  | case6 n above cs ih =>
    rw [ih, forall_prefix_cons]
    simp [Component.isName, Nat.add_right_comm]

theorem mem_of_descend? (h : descend? above cs = some names) (hn : n ∈ names) :
    n ∈ above ∨ .name n ∈ cs := by
  fun_induction descend? above cs with
  | case1 above =>
    cases h
    exact .inl (List.mem_reverse.mp hn)
  | case2 above m cs ih =>
    rcases ih h with hm | hm
    · rcases List.mem_cons.mp hm with rfl | hm
      · exact .inr List.mem_cons_self
      · exact .inl hm
    · exact .inr (List.mem_cons_of_mem _ hm)
  | case3 above cs ih => exact (ih h).imp id (List.mem_cons_of_mem _)
  | case4 above cs ih => exact (ih h).imp id (List.mem_cons_of_mem _)
  | case5 cs => cases h
  | case6 m above cs ih => exact (ih h).imp (List.mem_cons_of_mem _) (List.mem_cons_of_mem _)

/-- The names that a path leads down to are names of directories and files. -/
theorem isName_of_below? (h : below? path = some names) (hn : n ∈ names) :
    IsName n ∧ '/' ∉ n := by
  rw [below?, descend?_components] at h
  obtain hm | hm := mem_of_descend? h hn
  · cases hm
  obtain ⟨part, hpart, hof⟩ := List.mem_filterMap.mp hm
  unfold Component.ofPart? at hof
  split at hof
  · cases hof
  next hsilent =>
    split at hof
    · cases hof
    next hup =>
      cases hof
      exact ⟨⟨fun he => hsilent (.inl he), fun he => hsilent (.inr he), hup⟩,
        Text.not_mem_of_mem_splitOn hpart⟩

theorem components_push (hn : IsName n) (hslash : '/' ∉ n) (path : Text) :
    components (push path n) = components path ++ [.name n] := by
  have hplain : Plain n := by
    rw [Plain, Text.splitOn_of_not_mem hslash]
    simpa using hn
  rw [push_eq, components_inside hplain, Text.splitOn_of_not_mem hslash]
  rfl

/-- Names that are put below a root one after the other follow its components. -/
theorem components_foldl_push (h : ∀ n ∈ names, IsName n ∧ '/' ∉ n) (root : Text) :
    components (names.foldl push root) = components root ++ names.map .name := by
  induction names generalizing root with
  | nil => simp
  | cons n names ih =>
    obtain ⟨⟨hname, hslash⟩, hnames⟩ := List.forall_mem_cons.mp h
    rw [List.foldl_cons, ih hnames, components_push hname hslash]
    simp

theorem below?_foldl_push (h : ∀ n ∈ names, IsName n ∧ '/' ∉ n) :
    below? (names.foldl push []) = some names := by
  rw [below?, components_foldl_push h, components_nil, List.nil_append, descend?_names,
    List.reverse_nil, List.nil_append]

/-- A name is joined to a root by the names that are left of its components. It is refused, and the
refusal says which name it was, if the components lead out of the root. -/
structure IsConfined (root name : Text) : Prop where
  accepted : (∃ path, joinUnder root name = .ok path) ↔ Stays (components name)
  joined : ∀ path, joinUnder root name = .ok path ↔
    ∃ names, Normal (components name) names ∧ path = names.foldl push root
  below : ∀ names, Normal (components name) names →
    (∀ n ∈ names, IsName n ∧ '/' ∉ n) ∧
      components (names.foldl push root) = components root ++ names.map .name
  refused : ∀ e, joinUnder root name = .error e ↔
    ¬Stays (components name) ∧ e = .pathLeak name

theorem below?_eq_some_iff {name : Text} {names : List Text} :
    below? name = some names ↔ Normal (components name) names :=
  descend?_eq_some_iff

theorem below?_eq_none_iff {name : Text} : below? name = none ↔ ¬Stays (components name) := by
  rw [← Option.not_isSome_iff_eq_none, below?, descend?_isSome_iff]
  simp [Stays]

theorem isConfined (root name : Text) : IsConfined root name where
  accepted := by
    have h := @below?_eq_none_iff name
    unfold joinUnder
    cases hb : below? name with
    | none => simpa using h.mp hb
    | some names =>
      rw [hb] at h
      simpa using h
  joined path := by
    simp only [← below?_eq_some_iff, joinUnder]
    cases below? name <;> simp [eq_comm]
  below names h := by
    have hnames : ∀ n ∈ names, IsName n ∧ '/' ∉ n := fun n =>
      isName_of_below? (below?_eq_some_iff.mpr h)
    exact ⟨hnames, components_foldl_push hnames root⟩
  refused e := by
    rw [← below?_eq_none_iff, joinUnder]
    cases below? name <;> simp [eq_comm]

end Stencil.Path
