import Stencil.Proofs.SideBySide
import Stencil.Proofs.Skeleton

namespace Stencil

open Placeholder

/-- What is folded: the tags of a template, each by itself, and the size of its table. -/
structure Origin where
  tags : List (Forest (Option Nat))
  size : Nat

namespace Origin

/-- What a fold leaves, when the table has come to a size: text, tags of the template, and
conditions that it writes itself, in which the marks between branches are its own, too. -/
inductive Folded (o : Origin) (size : Nat) : Bool → Forest (Option Nat) → Prop where
  | nil {inside : Bool} : Folded o size inside .nil
  | char {inside : Bool} {rest : Forest (Option Nat)} (c : Char) (h : Folded o size inside rest) :
      Folded o size inside (.char c rest)
  | alone {inside : Bool} {name : Text} {index : Option Nat} {rest : Forest (Option Nat)}
      (ht : .alone name index .nil ∈ o.tags) (h : Folded o size inside rest) :
      Folded o size inside (.alone name index rest)
  | around {inside : Bool} {name : Text} {index : Option Nat} {content rest : Forest (Option Nat)}
      (ht : .around name index content.skeleton .nil ∈ o.tags) (h : Folded o size inside rest) :
      Folded o size inside (.around name index content rest)
  | condition {inside : Bool} {n : Nat} {content rest : Forest (Option Nat)} (ho : o.size ≤ n)
      (hn : n < size) (hc : Folded o size true content) (h : Folded o size inside rest) :
      Folded o size inside (.around "_if".toList (some n) content rest)
  | elseIf {n : Nat} {rest : Forest (Option Nat)} (ho : o.size ≤ n) (hn : n < size)
      (h : Folded o size true rest) : Folded o size true (.alone "_elif".toList (some n) rest)
  | otherwise {rest : Forest (Option Nat)} (h : Folded o size true rest) :
      Folded o size true (.alone "_else".toList none rest)

variable {o : Origin} {size : Nat} {inside : Bool} {f g : Forest (Option Nat)}

namespace Folded

theorem mono {later : Nat} (hl : size ≤ later) (h : o.Folded size inside f) :
    o.Folded later inside f := by
  induction h with
  | nil => exact .nil
  | char c _ ih => exact .char c ih
  | alone ht _ ih => exact .alone ht ih
  | around ht _ ih => exact .around ht ih
  | condition ho hn _ _ ihc ihr => exact .condition ho (Nat.lt_of_lt_of_le hn hl) ihc ihr
  | elseIf ho hn _ ih => exact .elseIf ho (Nat.lt_of_lt_of_le hn hl) ih
  | otherwise _ ih => exact .otherwise ih

theorem append (hf : o.Folded size inside f) (hg : o.Folded size inside g) :
    o.Folded size inside (f.append g) := by
  induction hf with
  | nil => exact hg
  | char c _ ih => exact .char c (ih hg)
  | alone ht _ ih => exact .alone ht (ih hg)
  | around ht _ ih => exact .around ht (ih hg)
  | condition ho hn hc _ _ ih => exact .condition ho hn hc (ih hg)
  | elseIf ho hn _ ih => exact .elseIf ho hn (ih hg)
  | otherwise _ ih => exact .otherwise (ih hg)

theorem within (h : o.Folded size false f) : o.Folded size true f := by
  generalize hb : false = b at h
  induction h with
  | nil => exact .nil
  | char c _ ih => exact .char c (ih hb)
  | alone ht _ ih => exact .alone ht (ih hb)
  | around ht _ ih => exact .around ht (ih hb)
  | condition ho hn hc _ _ ih => exact .condition ho hn hc (ih hb)
  | elseIf => cases hb
  | otherwise => cases hb

theorem text (s : Text) : o.Folded size inside (Forest.textBefore s .nil) := by
  induction s with
  | nil => exact .nil
  | cons c s ih => exact .char c ih

/-- A forest of which all parts are tags of the template may be left. -/
theorem kept (h : f.parts ⊆ o.tags) : o.Folded size inside f := by
  induction f with
  | nil => exact .nil
  | char c rest ih => exact .char c (ih h)
  | alone name index rest ih =>
    obtain ⟨ht, hrest⟩ := List.cons_subset.mp h
    exact .alone ht (ih hrest)
  | around name index content rest _ ih =>
    obtain ⟨ht, hrest⟩ := List.cons_subset.mp h
    exact .around ht (ih (List.append_subset.mp hrest).2)

/-- The indices of what is left are in the table. -/
theorem index_lt (ho : o.size ≤ size) (hkept : ∀ p ∈ o.tags, ∀ n, some n ∈ p.tags → n < o.size)
    (h : o.Folded size inside f) : ∀ n, some n ∈ f.tags → n < size := by
  have hold : ∀ {p : Forest (Option Nat)}, p ∈ o.tags → ∀ {n}, some n ∈ p.tags → n < size :=
    fun hp _ hn => Nat.lt_of_lt_of_le (hkept _ hp _ hn) ho
  induction h with
  | nil => exact fun n hn => nomatch hn
  | char c _ ih => exact ih
  | alone ht _ ih =>
    intro n hn
    rcases List.mem_cons.mp hn with hn | hn
    · exact hold ht (hn ▸ List.mem_cons_self)
    · exact ih n hn
  | around ht _ ih =>
    intro n hn
    rw [Forest.tags] at hn
    rcases List.mem_append.mp hn with hn | hn
    · refine hold ht ?_
      rw [Forest.tags, Forest.tags_skeleton]
      exact List.mem_append_left _ hn
    · exact ih n hn
  | condition _ hlt _ _ ihc ihr =>
    intro n hn
    rw [Forest.tags] at hn
    rcases List.mem_append.mp hn with hn | hn
    · rcases List.mem_cons.mp hn with hn | hn
      · cases hn
        exact hlt
      · exact ihc n hn
    · exact ihr n hn
  | elseIf _ hlt _ ih =>
    intro n hn
    rcases List.mem_cons.mp hn with hn | hn
    · cases hn
      exact hlt
    · exact ih n hn
  | otherwise _ ih =>
    intro n hn
    rcases List.mem_cons.mp hn with hn | hn
    · cases hn
    · exact ih n hn

end Folded

/-- Text of the template at a level: a forest of its tags. -/
def Source (o : Origin) (level : Nat) (s : Text) : Prop :=
  ∃ f : Forest (Option Nat), s = write (f.pieces level) ∧ Sealed (f.pieces level) ∧
    f.parts ⊆ o.tags

/-- Text that a fold may leave at a level, when the table has come to a size. -/
def Left (o : Origin) (inside : Bool) (level size : Nat) (s : Text) : Prop :=
  ∃ f : Forest (Option Nat), s = write (f.pieces level) ∧ Sealed (f.pieces level) ∧
    o.Folded size inside f

variable {level : Nat} {s t : Text}

theorem Source.left (h : o.Source level s) : o.Left inside level size s := by
  obtain ⟨f, hs, hf, hparts⟩ := h
  exact ⟨f, hs, hf, .kept hparts⟩

theorem Source.nil : o.Source level [] := ⟨.nil, rfl, trivial, List.nil_subset _⟩

/-- The body of a loop when its shorthand is written out. -/
theorem Source.expand (l : Loop) (h : o.Source level s) : o.Source level (l.expand s) := by
  obtain ⟨f, rfl, hf, hparts⟩ := h
  obtain ⟨qs, hq, hsealed, htags⟩ := l.sealed_expand hf
  obtain ⟨g, rfl, hg⟩ := Forest.exists_pieces_of_tagsOf htags
  refine ⟨g, hq, hsealed, ?_⟩
  rw [← Forest.parts_skeleton, hg, Forest.parts_skeleton]
  exact hparts

namespace Left

theorem mono {later : Nat} (hl : size ≤ later) (h : o.Left inside level size s) :
    o.Left inside level later s := by
  obtain ⟨f, hs, hf, hfolded⟩ := h
  exact ⟨f, hs, hf, hfolded.mono hl⟩

theorem append (hs : o.Left inside level size s) (ht : o.Left inside level size t) :
    o.Left inside level size (s ++ t) := by
  obtain ⟨f, rfl, hf, hff⟩ := hs
  obtain ⟨g, rfl, hg, hgf⟩ := ht
  refine ⟨f.append g, ?_, ?_, hff.append hgf⟩
  · rw [Forest.pieces_append, write_append]
  · rw [Forest.pieces_append]
    exact hf.append hg

theorem within (h : o.Left false level size s) : o.Left true level size s := by
  obtain ⟨f, hs, hf, hfolded⟩ := h
  exact ⟨f, hs, hf, hfolded.within⟩

theorem text (h : Sealed (s.map .inl)) : o.Left inside level size s := by
  refine ⟨Forest.textBefore s .nil, ?_, ?_, .text s⟩
  · rw [Forest.pieces_textBefore_nil, write_map_inl]
  · rw [Forest.pieces_textBefore_nil]
    exact h

theorem nil : o.Left inside level size [] := text (s := []) trivial

theorem lowered (h : o.Left inside (level + 1) size s) :
    o.Left inside level size (lowerDepth s 1) := by
  obtain ⟨f, rfl, hf, hfolded⟩ := h
  have hlow := hf.lowered 1
  rw [Forest.map_lowerPiece] at hlow
  exact ⟨f, by rw [lowerDepth_write (hf.readBack []), Forest.map_lowerPiece], hlow, hfolded⟩

end Left

end Origin

namespace Node

/-- A node of a template: the texts that it is made of are of the template. -/
def Sound (o : Origin) (level : Nat) : Node → Prop
  | text s => Sealed (s.map .inl)
  | tag _ content source => level < Text.indexBound ∧ o.Source level source ∧
      ∀ inside ∈ content, o.Source (level + 1) inside
  | stray _ => True
  | unclosed source => o.Source level source

theorem ofFound_alone (name : Text) (level : Nat) (index : Option Nat) (s : Text) :
    ofFound ⟨[], ⟨name, level, index, .alone⟩,
        (⟨name, level, index, .alone⟩ : Placeholder).written, s⟩ =
      (if isBranchMark name then stray ⟨name, level, index, .alone⟩
        else tag ⟨name, level, index, .alone⟩ none
          (⟨name, level, index, .alone⟩ : Placeholder).written, s) := by
  by_cases hb : isBranchMark name <;> simp [ofFound, hb]

theorem ofFound_around {name s : Text} {level : Nat} {content : Forest (Option Nat)}
    (hinside : ReadBack (content.pieces (level + 1))
      ((⟨name, level, none, .closes⟩ : Placeholder).written ++ s))
    (hclose : (⟨name, level, none, .closes⟩ : Placeholder).WellFormed) (index : Option Nat) :
    ofFound ⟨[], ⟨name, level, index, .opens⟩,
        (⟨name, level, index, .opens⟩ : Placeholder).written,
        write (content.pieces (level + 1)) ++
          ((⟨name, level, none, .closes⟩ : Placeholder).written ++ s)⟩ =
      (tag ⟨name, level, index, .opens⟩ (some (write (content.pieces (level + 1))))
        (write ((Forest.around name index content .nil).pieces level)), s) := by
  have hne : .inr ⟨name, level, none, .closes⟩ ∉ content.pieces (level + 1) := fun hm =>
    absurd (Forest.depth_le_of_mem_pieces hm) (by simp)
  have hcut : cutCloser? name level (write (content.pieces (level + 1)) ++
      ((⟨name, level, none, .closes⟩ : Placeholder).written ++ s)) =
      some (write (content.pieces (level + 1)), s) :=
    cutCloser?_write hclose hinside hne
  simp only [ofFound, hcut, reduceCtorEq, if_false]
  simp [Forest.pieces, written]

/-- The nodes of a forest at its level. -/
theorem sound_listFrom {o : Origin} {level : Nat} {f : Forest (Option Nat)}
    (hparts : f.parts ⊆ o.tags) {before : Text} (h : Sealed (before.map .inl ++ f.pieces level)) :
    ∀ n ∈ listFrom level before (write (f.pieces level)), n.Sound o level := by
  induction f generalizing before with
  | nil =>
    rw [Forest.pieces, write_nil, listFrom_of_none rfl, List.append_nil]
    intro n hn
    rw [List.mem_singleton.mp hn]
    simpa [Sound, Forest.pieces] using h
  | char c rest ih =>
    have hread : read? (c :: write (rest.pieces level)) = none := by
      simpa using (h.right.readBack []).1
    rw [Forest.pieces, write_char, listFrom_cons hread]
    exact ih hparts (by simpa [Forest.pieces] using h)
  | alone name index rest ih =>
    obtain ⟨ht, hrest⟩ := List.cons_subset.mp hparts
    obtain ⟨hbefore, hp, hafter⟩ := Sealed.append_placeholder.mp h
    have hnodes : ∀ n ∈ listFrom level [] (write (rest.pieces level)), n.Sound o level :=
      ih hrest hafter
    rw [Forest.pieces, write_placeholder, listFrom_written hp (by simp)]
    have hsource : o.Source level (⟨name, level, index, .alone⟩ : Placeholder).written :=
      ⟨.alone name index .nil, (List.append_nil _).symm, ⟨hp, trivial⟩,
        List.cons_subset.mpr ⟨ht, List.nil_subset _⟩⟩
    rw [ofFound_alone]
    intro n hn
    rcases List.mem_cons.mp hn with rfl | hn
    · exact hbefore
    · rcases List.mem_cons.mp hn with rfl | hn
      · split
        · trivial
        · exact ⟨hp.depth, hsource, by simp⟩
      · exact hnodes n hn
  | around name index content rest _ ih =>
    obtain ⟨ht, hinner⟩ := List.cons_subset.mp hparts
    obtain ⟨hcontent, hrest⟩ := List.append_subset.mp hinner
    obtain ⟨hbefore, hopen, hafter⟩ := Sealed.append_placeholder.mp
      (by simpa [Forest.pieces] using h)
    obtain ⟨hinside, hclose, hend⟩ := Sealed.append_placeholder.mp hafter
    have hnodes : ∀ n ∈ listFrom level [] (write (rest.pieces level)), n.Sound o level :=
      ih hrest hend
    have htext : write ((Forest.around name index content rest).pieces level) =
        (⟨name, level, index, .opens⟩ : Placeholder).written ++
          (write (content.pieces (level + 1)) ++
            ((⟨name, level, none, .closes⟩ : Placeholder).written ++
              write (rest.pieces level))) := by
      simp [Forest.pieces]
    have hsource : o.Source level (write ((Forest.around name index content .nil).pieces level)) :=
      ⟨_, rfl, ⟨hopen, Sealed.append_placeholder.mpr ⟨hinside, hclose, trivial⟩⟩,
        List.cons_subset.mpr ⟨ht, by simpa [Forest.parts] using hcontent⟩⟩
    rw [htext, listFrom_written hopen (by simp), ofFound_around (hinside.readBack _) hclose]
    intro n hn
    rcases List.mem_cons.mp hn with rfl | hn
    · exact hbefore
    · rcases List.mem_cons.mp hn with rfl | hn
      · refine ⟨hopen.depth, hsource, ?_⟩
        rintro _ ⟨⟩
        exact ⟨content, rfl, hinside, hcontent⟩
      · exact hnodes n hn

end Node

namespace Branch

/-- What a placeholder says of the branch after it, if it is a mark at a depth. -/
def markAt? (depth : Nat) (p : Placeholder) : Option (Option (Option Nat)) :=
  if p.depth = depth ∧ p.kind = .alone then mark? p else none

variable {depth : Nat} {condition next : Option (Option Nat)} {before s : Text}

theorem listFrom_of_none (h : next? s = none) :
    listFrom depth condition before s = [⟨condition, before ++ s⟩] := by
  rw [listFrom]
  split
  next => rfl
  next hf => cases h.symm.trans hf

theorem listFrom_of_mark {f : Found} (h : next? s = some f)
    (hm : markAt? depth f.placeholder = some next) :
    listFrom depth condition before s =
      ⟨condition, before ++ f.before⟩ :: listFrom depth next [] f.after := by
  rw [listFrom]
  split
  next hn => cases h.symm.trans hn
  next hg =>
    cases h.symm.trans hg
    unfold markAt? at hm
    dsimp only
    rw [hm]

theorem listFrom_of_other {f : Found} (h : next? s = some f)
    (hm : markAt? depth f.placeholder = none) :
    listFrom depth condition before s =
      listFrom depth condition (before ++ f.before ++ f.source) f.after := by
  rw [listFrom]
  split
  next hn => cases h.symm.trans hn
  next hg =>
    cases h.symm.trans hg
    unfold markAt? at hm
    dsimp only
    rw [hm]

theorem listFrom_cons {c : Char} (h : read? (c :: s) = none) :
    listFrom depth condition before (c :: s) = listFrom depth condition (before ++ [c]) s := by
  have hn := next?_cons_of_read? h
  cases hs : next? s with
  | none =>
    rw [hs] at hn
    rw [listFrom_of_none hn, listFrom_of_none hs]
    simp
  | some f =>
    rw [hs] at hn
    cases hm : markAt? depth f.placeholder with
    | none =>
      rw [listFrom_of_other hn hm, listFrom_of_other hs hm]
      simp
    | some next =>
      rw [listFrom_of_mark hn hm, listFrom_of_mark hs hm]
      simp

/-- Pieces without a mark at the depth are part of one branch. -/
theorem listFrom_pass {ps : List Piece} (hp : ReadBack ps s)
    (hm : ∀ p, .inr p ∈ ps → markAt? depth p = none) :
    listFrom depth condition before (write ps ++ s) =
      listFrom depth condition (before ++ write ps) s := by
  induction ps generalizing before with
  | nil => rw [write_nil, List.append_nil, List.nil_append]
  | cons q ps ih =>
    have hmore : ∀ p, .inr p ∈ ps → markAt? depth p = none := fun p hq =>
      hm p (List.mem_cons_of_mem _ hq)
    cases q with
    | inl c =>
      rw [write_char, List.cons_append, listFrom_cons hp.1, ih hp.2 hmore]
      simp
    | inr p =>
      have hnext := next?_written hp.1 (write ps ++ s)
      rw [write_placeholder, List.append_assoc,
        listFrom_of_other hnext (hm p List.mem_cons_self), ih hp.2 hmore]
      simp

/-- A tag around others, and what is in it, has no mark at its own depth. -/
theorem markAt?_around {name : Text} {index : Option Nat} {content : Forest (Option Nat)}
    {p : Placeholder} (hp : .inr p ∈ (Forest.around name index content .nil).pieces depth) :
    markAt? depth p = none := by
  refine if_neg fun hmark => ?_
  simp only [Forest.pieces, List.cons_append, List.mem_cons, List.mem_append, Sum.inr.injEq,
    List.not_mem_nil, or_false] at hp
  rcases hp with rfl | hp | rfl
  · exact absurd hmark.2 (by simp)
  · exact absurd (Forest.depth_le_of_mem_pieces hp) (by omega)
  · exact absurd hmark.2 (by simp)

/-- A forest of a template is read in two parts: what was read last, up to which no mark stands at
the depth, and what is still to be read. -/
structure Begun (o : Origin) (depth : Nat) (g f : Forest (Option Nat)) : Prop where
  begun : g.parts ⊆ o.tags
  left : f.parts ⊆ o.tags
  isSealed : Sealed (g.pieces depth ++ f.pieces depth)

namespace Begun

variable {o : Origin} {f g more : Forest (Option Nat)}

/-- What comes next is read, too. -/
theorem move (h : Begun o depth g (f.append more)) : Begun o depth (g.append f) more := by
  obtain ⟨hbegun, hleft, hsealed⟩ := h
  rw [Forest.parts_append] at hleft
  obtain ⟨hf, hmore⟩ := List.append_subset.mp hleft
  refine ⟨?_, hmore, ?_⟩
  · rw [Forest.parts_append]
    exact List.append_subset.mpr ⟨hbegun, hf⟩
  · rw [Forest.pieces_append] at hsealed ⊢
    rw [List.append_assoc]
    exact hsealed

/-- In front of a placeholder there is a forest, and after it nothing was read yet. -/
theorem restart {p : Placeholder} (h : Begun o depth g f)
    (hf : f.pieces depth = .inr p :: more.pieces depth) (hmore : more.parts ⊆ f.parts) :
    o.Source depth (write (g.pieces depth)) ∧ p.WellFormed ∧ Begun o depth .nil more := by
  have hsealed := h.isSealed
  rw [hf] at hsealed
  obtain ⟨hbefore, hp, hafter⟩ := Sealed.append_placeholder.mp hsealed
  exact ⟨⟨g, rfl, hbefore, h.begun⟩, hp, List.nil_subset _, fun n hn => h.left (hmore hn), hafter⟩

end Begun

theorem write_append_pieces (g f : Forest (Option Nat)) :
    write ((g.append f).pieces depth) = write (g.pieces depth) ++ write (f.pieces depth) := by
  rw [Forest.pieces_append, write_append]

/-- The branches of a forest, some of which is read already. There is more than one only if a mark
stands at the depth. -/
theorem source_listFrom {o : Origin} {f g : Forest (Option Nat)} (h : Begun o depth g f) :
    (∀ b ∈ listFrom depth condition (write (g.pieces depth)) (write (f.pieces depth)),
      o.Source depth b.body) ∧
    (1 < (listFrom depth condition (write (g.pieces depth)) (write (f.pieces depth))).length →
      depth < Text.indexBound) := by
  induction f generalizing g condition with
  | nil =>
    rw [Forest.pieces, write_nil, listFrom_of_none rfl, List.append_nil]
    refine ⟨fun b hb => ?_, fun hl => absurd hl (by simp)⟩
    rw [List.mem_singleton.mp hb]
    exact ⟨g, rfl, by simpa [Forest.pieces] using h.isSealed, h.begun⟩
  | char c rest ih =>
    have hread : read? (c :: write (rest.pieces depth)) = none := by
      simpa using (h.isSealed.right.readBack []).1
    have hmoved : Begun o depth (g.append (.char c .nil)) rest := h.move
    have hnext := @ih condition _ hmoved
    rw [write_append_pieces] at hnext
    rw [Forest.pieces, write_char, listFrom_cons hread]
    exact hnext
  | alone name index rest ih =>
    obtain ⟨hsource, hp, hrest⟩ := h.restart rfl (List.subset_cons_self _ _)
    have hfound := next?_written hp (write (rest.pieces depth))
    rw [Forest.pieces, write_placeholder]
    cases hm : markAt? depth ⟨name, depth, index, .alone⟩ with
    | some next =>
      have hsources : ∀ b ∈ listFrom depth next [] (write (rest.pieces depth)),
          o.Source depth b.body := (ih hrest).1
      rw [listFrom_of_mark hfound hm, List.append_nil]
      refine ⟨fun b hb => ?_, fun _ => hp.depth⟩
      rcases List.mem_cons.mp hb with rfl | hb
      · exact hsource
      · exact hsources b hb
    | none =>
      have hmoved : Begun o depth (g.append (.alone name index .nil)) rest := h.move
      have hnext := @ih condition _ hmoved
      rw [write_append_pieces, Forest.pieces, write_placeholder] at hnext
      rw [listFrom_of_other hfound hm, List.append_nil]
      simpa [Forest.pieces] using hnext
  | around name index content rest _ ih =>
    have hmoved : Begun o depth (g.append (.around name index content .nil)) rest := h.move
    have hnext := @ih condition _ hmoved
    have hpieces : (Forest.around name index content rest).pieces depth =
        (Forest.around name index content .nil).pieces depth ++ rest.pieces depth := by
      simp [Forest.pieces]
    have hback := h.isSealed.right.readBack []
    rw [hpieces, readBack_append, List.append_nil] at hback
    rw [write_append_pieces] at hnext
    rw [hpieces, write_append, listFrom_pass hback.1 fun _ => markAt?_around]
    exact hnext

end Branch

namespace Selection

variable {outcome : Branch → Outcome}

theorem length_remaining_le (branches : List Branch) :
    (remaining outcome branches).length ≤ branches.length := by
  induction branches with
  | nil => exact Nat.le_refl _
  | cons b more ih =>
    unfold remaining
    split
    · simp
    · exact Nat.le_succ_of_le ih
    · exact Nat.succ_le_succ ih

/-- The first branch that is left has a condition, and there are no more than there were. -/
theorem left_of_ofBranches {branches : List Branch} {rest : List (Option Condition × Text)}
    (h : ofBranches outcome branches = .left rest) :
    rest = [] ∨ ∃ c body more, rest = (some c, body) :: more ∧ more.length < branches.length := by
  induction branches with
  | nil =>
    cases h
    exact .inl rfl
  | cons b more ih =>
    unfold ofBranches at h
    split at h
    · cases h
    · refine (ih h).imp id ?_
      rintro ⟨c, body, rest, rfl, hl⟩
      exact ⟨c, body, rest, rfl, Nat.lt_succ_of_lt hl⟩
    next c _ =>
      cases h
      exact .inr ⟨c, b.body, _, rfl, Nat.lt_succ_of_le (length_remaining_le more)⟩

end Selection

end Stencil
