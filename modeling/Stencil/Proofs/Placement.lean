import Stencil.Placeholder.Located
import Stencil.Proofs.Placeholder

namespace Stencil.Placeholder

open Text

variable {a s : Text} {c : Char} {i start : Nat} {l : Located}

/-- What is read after a lead is what is read of the text that follows it. -/
theorem readAt?_append (a s : Text) : readAt? (a ++ s) (byteLength a) =
    (read? s).map fun r => ⟨r.1, byteLength a, byteLength (a ++ s) - byteLength r.2⟩ := by
  rw [readAt?, dropBytes?_append, Option.bind_some]

/-- A place at which something is read is between two characters, before the end of the text. -/
theorem exists_of_readAt? (h : readAt? s i = some l) :
    ∃ a c t, s = a ++ c :: t ∧ byteLength a = i ∧ (read? (c :: t)).isSome := by
  obtain ⟨t, ht, h⟩ := Option.bind_eq_some_iff.mp h
  obtain ⟨r, hr, -⟩ := Option.map_eq_some_iff.mp h
  obtain ⟨a, rfl, ha⟩ := eq_of_dropBytes? ht
  cases t with
  | nil => cases hr
  | cons c t => exact ⟨a, c, t, rfl, ha, Option.isSome_of_eq_some hr⟩

theorem readAt?_nil (h : byteLength a ≤ i) : readAt? a i = none := by
  refine Option.eq_none_iff_forall_ne_some.mpr fun l hl => ?_
  obtain ⟨b, c, t, rfl, hb, -⟩ := exists_of_readAt? hl
  have := byteLength_cons_pos c t
  rw [byteLength_append] at h
  omega

/-- Nothing is read inside of a character. -/
theorem readAt?_inside (hlow : byteLength a < i) (hhigh : i < byteLength (a ++ [c])) :
    readAt? (a ++ c :: s) i = none := by
  refine Option.eq_none_iff_forall_ne_some.mpr fun l hl => ?_
  obtain ⟨b, d, t, he, hb, -⟩ := exists_of_readAt? hl
  rcases List.append_eq_append_iff.mp he with ⟨x, rfl, hx⟩ | ⟨x, rfl, -⟩
  · cases x with
    | nil =>
      rw [List.append_nil] at hb
      omega
    | cons e x =>
      obtain ⟨rfl, -⟩ := List.cons.inj hx
      simp only [byteLength_append, byteLength] at hb hhigh
      omega
  · rw [byteLength_append] at hlow
    omega

/-- Is this the first placeholder that is read in a text from a place on? -/
structure IsFirst (s : Text) (start : Nat) (l : Located) : Prop where
  read : readAt? s l.start = some l
  after : start ≤ l.start
  first : ∀ i, start ≤ i → i < l.start → readAt? s i = none

theorem IsFirst.unique {m : Located} (hl : IsFirst s start l) (hm : IsFirst s start m) : l = m := by
  have hle : ∀ {x y : Located}, IsFirst s start x → IsFirst s start y → x.start ≤ y.start := by
    intro x y hx hy
    by_contra hlt
    have hnone := hx.first y.start hy.after (by omega)
    rw [hy.read] at hnone
    cases hnone
  have hstart : l.start = m.start := Nat.le_antisymm (hle hl hm) (hle hm hl)
  exact Option.some.inj (hl.read.symm.trans (hstart ▸ hm.read))

/-- Where nothing is read, the search goes on after the next character. -/
theorem nextFrom?_step (h : read? (c :: s) = none) : nextFrom? (a ++ c :: s) (byteLength a) =
    nextFrom? (a ++ [c] ++ s) (byteLength (a ++ [c])) := by
  have hsplit : a ++ c :: s = a ++ [c] ++ s := by simp
  rw [nextFrom?, dropBytes?_append, Option.bind_some, next?_cons_of_read? h, nextFrom?,
    dropBytes?_append, Option.bind_some, Option.map_map, hsplit]
  refine congrArg (Option.map · (next? s)) (funext fun f => ?_)
  simp only [Function.comp_apply, byteLength_append, byteLength, Nat.add_assoc, Nat.add_zero]

theorem nextFrom?_of_read? {p : Placeholder} {rest : Text} (h : read? (c :: s) = some (p, rest)) :
    nextFrom? (a ++ c :: s) (byteLength a) = readAt? (a ++ c :: s) (byteLength a) := by
  rw [readAt?_append, h, nextFrom?, dropBytes?_append, Option.bind_some, next?, h]
  rfl

/-- What a search finds is the first placeholder that is read from its start on, and it finds
nothing only if none is read. -/
theorem nextFrom?_search (a s : Text) : match nextFrom? (a ++ s) (byteLength a) with
    | some l => IsFirst (a ++ s) (byteLength a) l
    | none => ∀ i, byteLength a ≤ i → readAt? (a ++ s) i = none := by
  induction s generalizing a with
  | nil =>
    have hnone : nextFrom? (a ++ []) (byteLength a) = none := by
      rw [nextFrom?, dropBytes?_append]
      rfl
    rw [hnone]
    intro i hi
    rw [List.append_nil]
    exact readAt?_nil hi
  | cons c s ih =>
    cases hr : read? (c :: s) with
    | some r =>
      have hat := readAt?_append a (c :: s)
      rw [nextFrom?_of_read? hr, hat, hr]
      refine ⟨hat.trans (by rw [hr]; rfl), Nat.le_refl _, fun i hlow hhigh => ?_⟩
      exact absurd hlow (Nat.not_le.mpr hhigh)
    | none =>
      -- nothing is read at this character or inside of it: the first place is one after it
      have hskip : ∀ i, byteLength a ≤ i → i < byteLength (a ++ [c]) →
          readAt? (a ++ c :: s) i = none := by
        intro i hlow hhigh
        rcases Nat.eq_or_lt_of_le hlow with rfl | hlow
        · rw [readAt?_append, hr]
          rfl
        · exact readAt?_inside hlow hhigh
      have hsearch := ih (a ++ [c])
      have hsplit : a ++ [c] ++ s = a ++ c :: s := by simp
      rw [← nextFrom?_step hr, hsplit] at hsearch
      have hle : byteLength a ≤ byteLength (a ++ [c]) := by
        rw [byteLength_append]
        exact Nat.le_add_right _ _
      split at hsearch
      next l hl =>
        rw [hl]
        refine ⟨hsearch.read, hle.trans hsearch.after, fun i hlow hhigh => ?_⟩
        by_cases hi : i < byteLength (a ++ [c])
        · exact hskip i hlow hi
        · exact hsearch.first i (Nat.not_lt.mp hi) hhigh
      next hl =>
        rw [hl]
        intro i hlow
        by_cases hi : i < byteLength (a ++ [c])
        · exact hskip i hlow hi
        · exact hsearch i (Nat.not_lt.mp hi)

theorem nextFrom?_eq_some_iff (a s : Text) (l : Located) :
    nextFrom? (a ++ s) (byteLength a) = some l ↔ IsFirst (a ++ s) (byteLength a) l := by
  have hsearch := nextFrom?_search a s
  constructor
  · intro h
    rwa [h] at hsearch
  · intro hl
    split at hsearch
    next m hm => rw [hm, hl.unique hsearch]
    next =>
      have hnone := hsearch l.start hl.after
      rw [hl.read] at hnone
      cases hnone

theorem nextFrom?_eq_none_iff (a s : Text) : nextFrom? (a ++ s) (byteLength a) = none ↔
    ∀ i, byteLength a ≤ i → readAt? (a ++ s) i = none := by
  have hsearch := nextFrom?_search a s
  constructor
  · intro h
    rwa [h] at hsearch
  · intro h
    split at hsearch
    next l _ =>
      have hnone := h l.start hsearch.after
      rw [hsearch.read] at hnone
      cases hnone
    next hn => exact hn

/-- A written placeholder is read at its place in any text, and takes up the bytes it is written
with. A search finds the first place at which a placeholder is read, if there is one. -/
theorem written_located {p : Placeholder} (h : p.WellFormed) (a b : Text) :
    readAt? (a ++ p.written ++ b) (byteLength a) =
      some ⟨p, byteLength a, byteLength (a ++ p.written)⟩ ∧
    ∀ before s, (∀ l, nextFrom? (before ++ s) (byteLength before) = some l ↔
        IsFirst (before ++ s) (byteLength before) l) ∧
      (nextFrom? (before ++ s) (byteLength before) = none ↔
        ∀ i, byteLength before ≤ i → readAt? (before ++ s) i = none) := by
  refine ⟨?_, fun before s => ⟨nextFrom?_eq_some_iff before s, nextFrom?_eq_none_iff before s⟩⟩
  have hread := readAt?_append a (p.written ++ b)
  rw [read?_written h b] at hread
  simp only [List.append_assoc, hread, byteLength_append, Option.map_some, Option.some_inj,
    Located.mk.injEq, true_and]
  omega

/-- A component with a colon and a number in its name, after the start of another tag. -/
theorem written_located_card :
    let p : Placeholder := ⟨"Card:2".toList, 14, some 3, .alone⟩
    let a := "<p>\u00e9<_if:".toList
    let b := "0/>".toList
    p.WellFormed ∧
    (readAt? (a ++ p.written ++ b) (byteLength a) =
      some ⟨p, byteLength a, byteLength (a ++ p.written)⟩ ∧
    ∀ before s, (∀ l, nextFrom? (before ++ s) (byteLength before) = some l ↔
        IsFirst (before ++ s) (byteLength before) l) ∧
      (nextFrom? (before ++ s) (byteLength before) = none ↔
        ∀ i, byteLength before ≤ i → readAt? (before ++ s) i = none)) ∧
    byteLength a = 10 ∧ p.written = "<Card:2:14 3/>".toList := by
  intro p a b
  have hname : ∀ c ∈ p.name, isNameChar c := List.all_eq_true.mp rfl
  have hp : p.WellFormed := ⟨hname, rfl, by decide +kernel, by decide +kernel, by decide⟩
  exact ⟨hp, written_located hp a b, by decide, by decide⟩

end Stencil.Placeholder
