import Stencil.Proofs.Descent
import Stencil.Proofs.Dictionary
import Stencil.Source.Table

namespace Stencil

open Stencil.Path

namespace SourceTable

/-- A change of a table. -/
inductive Change where
  | add (path source : Text)
  | remove (path : Text)
  | clear
deriving Repr, DecidableEq

namespace Change

def perform (t : SourceTable) : Change → SourceTable
  | add path source => t.add path source
  | remove path => t.remove path
  | clear => []

/-- Is there no longer, after a change, the source that was at a place before? -/
def Ends (place : List Text) : Change → Prop
  | add path _ | remove path => Normal (components path) place
  | clear => True

end Change

/-- The table after a history of changes, empty before it. -/
def after (h : List Change) : SourceTable := h.foldl Change.perform []

/-- Is a source the one that was added last at a place, and neither removed nor cleared since? -/
def Kept (place : List Text) (source : Text) (h : List Change) : Prop :=
  ∃ earlier path later, h = earlier ++ .add path source :: later ∧
    Normal (components path) place ∧ ∀ c ∈ later, ¬c.Ends place

variable {place : List Text} {source path : Text} {h : List Change} {c : Change}

theorem not_kept_nil : ¬Kept place source [] := by
  rintro ⟨earlier, path, later, he, -⟩
  simp at he

theorem kept_concat : Kept place source (h ++ [c]) ↔
    (∃ path, c = .add path source ∧ Normal (components path) place) ∨
      Kept place source h ∧ ¬c.Ends place := by
  constructor
  · rintro ⟨earlier, path, later, he, hplace, hlater⟩
    rcases List.eq_nil_or_concat later with rfl | ⟨init, last, rfl⟩
    · obtain ⟨-, hc⟩ := List.append_inj' he rfl
      exact .inl ⟨path, List.singleton_inj.mp hc, hplace⟩
    · have he' : h ++ [c] = (earlier ++ .add path source :: init) ++ [last] := by simpa using he
      obtain ⟨rfl, hc⟩ := List.append_inj' he' rfl
      obtain rfl := List.singleton_inj.mp hc
      exact .inr ⟨⟨earlier, path, init, rfl, hplace, fun d hd => hlater d (by simp [hd])⟩,
        hlater c (by simp)⟩
  · rintro (⟨path, rfl, hplace⟩ | ⟨⟨earlier, path, later, rfl, hplace, hlater⟩, hc⟩)
    · exact ⟨h, path, [], rfl, hplace, by simp⟩
    · refine ⟨earlier, path, later ++ [c], by simp, hplace, fun d hd => ?_⟩
      rcases List.mem_append.mp hd with hd | hd
      · exact hlater d hd
      · exact List.mem_singleton.mp hd ▸ hc

theorem normalize_of_joinUnder {path file : Text} (h : Path.joinUnder [] path = .ok file) :
    normalize path = file := by
  have hsame : Path.joinUnder [] (path.dropWhile (· == '/')) = .ok file := by
    unfold Path.joinUnder at h ⊢
    rw [Path.below?_dropWhile]
    cases hb : Path.below? path with
    | none =>
      rw [hb] at h
      cases h
    | some names =>
      rw [hb] at h
      exact h
  unfold normalize
  dsimp only
  rw [hsame]
  rfl

/-- A path has the key of a place exactly if it leads there. -/
theorem normalize_eq_iff (hplace : ∀ n ∈ place, IsName n ∧ '/' ∉ n) :
    normalize path = place.foldl push [] ↔ Normal (components path) place := by
  rw [← below?_eq_some_iff]
  constructor
  · intro hkey
    cases hb : below? path with
    | some names =>
      have hjoin : joinUnder [] path = .ok (names.foldl push []) := by rw [joinUnder, hb]
      have hnames := below?_foldl_push fun n => isName_of_below? hb
      rw [← normalize_of_joinUnder hjoin, hkey, below?_foldl_push hplace] at hnames
      exact hnames.symm
    | none =>
      -- a path that leads out of the table is its own key, and a key leads nowhere else
      have hout : joinUnder [] (path.dropWhile (· == '/')) =
          .error (.pathLeak (path.dropWhile (· == '/'))) := by
        rw [joinUnder, below?_dropWhile, hb]
      rw [normalize, hout] at hkey
      have hnone : below? (path.dropWhile (· == '/')) = none := by rw [below?_dropWhile, hb]
      rw [show path.dropWhile (· == '/') = place.foldl push [] from hkey,
        below?_foldl_push hplace] at hnone
      cases hnone
  · intro hb
    exact normalize_of_joinUnder (by rw [joinUnder, hb])

/-- What is found at a place after a change, by what was found there before. -/
theorem get?_perform (hplace : ∀ n ∈ place, IsName n ∧ '/' ∉ n) (t : SourceTable) :
    Dictionary.get? (c.perform t) (place.foldl push []) = some source ↔
      (∃ path, c = .add path source ∧ Normal (components path) place) ∨
        Dictionary.get? t (place.foldl push []) = some source ∧ ¬c.Ends place := by
  cases c with
  | add path other =>
    simp only [Change.perform, add, Dictionary.get?_insert, Change.Ends]
    by_cases hp : Normal (components path) place
    · rw [if_pos ((normalize_eq_iff hplace).mpr hp)]
      simp [hp]
    · rw [if_neg fun he => hp ((normalize_eq_iff hplace).mp he)]
      simp [hp]
  | remove path =>
    have herase :=
      Dictionary.get?_filter t (fun name => name ≠ normalize path) (place.foldl push [])
    simp only [Change.perform, remove, Dictionary.erase, herase, Change.Ends]
    by_cases hp : Normal (components path) place
    · simp [hp, (normalize_eq_iff hplace).mpr hp]
    · simp [hp, Ne.symm fun he => hp ((normalize_eq_iff hplace).mp he)]
  | clear => simp [Change.perform, Change.Ends, Dictionary.get?]

/-- At a place there is what is kept there. -/
theorem get?_after (hplace : ∀ n ∈ place, IsName n ∧ '/' ∉ n) (h : List Change) :
    Dictionary.get? (after h) (place.foldl push []) = some source ↔ Kept place source h := by
  induction h using List.reverseRecOn with
  | nil => simp [after, Dictionary.get?, not_kept_nil]
  | append_singleton h c ih =>
    rw [after, List.foldl_concat, ← after, get?_perform hplace, ih, kept_concat]

/-- What a name finds in a table is what is under the key of the place to which it leads. -/
theorem resolve_of_normal {name : Text} (hname : Normal (components name) place) (t : SourceTable)
    (root : Text) : t.resolve root name =
      match Dictionary.get? t (place.foldl push []) with
      | some source => .ok ⟨place.foldl push [], source⟩
      | none => .error (.notFound (place.foldl push [])) := by
  have hjoin : joinUnder [] name = .ok (place.foldl push []) := by
    rw [joinUnder, below?_eq_some_iff.mpr hname]
  unfold resolve
  simp only [hjoin, normalize_of_joinUnder hjoin]
  rfl

theorem resolve_of_not_stays {name : Text} (hname : ¬Stays (components name)) (t : SourceTable)
    (root : Text) : t.resolve root name = .error (.pathLeak name) := by
  have hjoin : joinUnder [] name = .error (.pathLeak name) := by
    rw [joinUnder, below?_eq_none_iff.mpr hname]
  unfold resolve
  rw [hjoin]
  rfl

/-- A name leads to a place below the root, or it is refused. In a table with any history it finds
the source that was added last at this place, if it was neither removed nor cleared since. -/
theorem names_confined (root name : Text) :
    IsConfined root name ∧ ∀ h : List Change,
      (∀ found, (after h).resolve root name = .ok found ↔
        ∃ place, Normal (components name) place ∧ found.path = place.foldl push [] ∧
          Kept place found.text h) ∧
      ∀ e, (after h).resolve root name = .error e ↔
        ¬Stays (components name) ∧ e = .pathLeak name ∨
          ∃ place, Normal (components name) place ∧ (∀ source, ¬Kept place source h) ∧
            e = .notFound (place.foldl push []) := by
  refine ⟨isConfined root name, fun h => ?_⟩
  by_cases hname : Stays (components name)
  · obtain ⟨path, hpath⟩ := (isConfined root name).accepted.mpr hname
    obtain ⟨place, hplace, -⟩ := ((isConfined root name).joined path).mp hpath
    have honly : ∀ other, Normal (components name) other ↔ other = place := fun other => by
      rw [← below?_eq_some_iff, below?_eq_some_iff.mpr hplace, Option.some_inj, eq_comm]
    have hget : ∀ source, Kept place source h ↔
        Dictionary.get? (after h) (place.foldl push []) = some source := fun source =>
      (get?_after ((isConfined root name).below place hplace).1 h).symm
    simp only [honly, hname, resolve_of_normal hplace, hget, exists_eq_left, not_true_eq_false,
      false_and, false_or]
    cases Dictionary.get? (after h) (place.foldl push []) with
    | some source =>
      refine ⟨fun found => ?_, fun e => by simp⟩
      obtain ⟨path, text⟩ := found
      simp [eq_comm]
    | none => exact ⟨fun found => by simp, fun e => by simp [eq_comm]⟩
  · have hnone : ∀ place, ¬Normal (components name) place := fun place hplace => by
      have := below?_eq_none_iff.mpr hname
      rw [below?_eq_some_iff.mpr hplace] at this
      cases this
    simp [hname, hnone, resolve_of_not_stays hname, eq_comm]

end SourceTable

end Stencil
