import Stencil.Engine
import Stencil.Proofs.Appending
import Stencil.Proofs.Literal
import Stencil.Proofs.Mark

namespace Stencil

namespace Reference

open Mark

variable {k l a b : Text} {meaning : Text → Option Text}

/-- Does a text end as a reference does before its last percent sign? -/
def Opens (k s : Text) : Prop :=
  ∃ ds, isLabel k (k ++ ds) ∧ '%' :: '!' :: (k ++ ds ++ ['!']) <:+ s

/-- Does a text start as a reference does after its first percent sign? -/
def Closes (k s : Text) : Prop :=
  ∃ ds, isLabel k (k ++ ds) ∧ '!' :: (k ++ ds ++ ['!', '%']) <+: s

theorem isLabel_of_digits? {s ds rest : Text}
    (h : digits? (Marker.opening ++ k) s = some (ds, rest)) : isLabel k (k ++ ds) := by
  obtain ⟨-, hne, hd⟩ := digits?_eq_some_iff.mp h
  exact isLabel_iff.mpr ⟨ds, rfl, hne, hd⟩

/-- What is read at the end of a text before a percent sign is read without it. -/
theorem digits?_append_percent (hk : IsLabel k) {s t ds rest : Text} (hs : s ≠ [])
    (ho : ¬Opens k s)
    (h : digits? (Marker.opening ++ k) (s ++ '%' :: t) = some (ds, rest)) :
    ∃ rest', digits? (Marker.opening ++ k) s = some (ds, rest') ∧ rest = rest' ++ '%' :: t := by
  obtain ⟨he, hne, hd⟩ := digits?_eq_some_iff.mp h
  have hno : '%' ∉ '!' :: (k ++ ds ++ ['!']) := by
    have hk' : '%' ∉ k := fun hm => (hk _ hm).1 rfl
    have hd' : '%' ∉ ds := fun hm => (ne_of_isDecimalDigit (hd _ hm)).1 rfl
    simp [hk', hd']
  have he : s ++ '%' :: t = ('%' :: '!' :: (k ++ ds ++ ['!'])) ++ '%' :: rest := by simpa using he
  rcases List.append_eq_append_iff.mp he with ⟨u, hu, ht⟩ | ⟨u, rfl, ht⟩
  · -- The text ends within the reference, at the first percent sign after its start.
    cases u with
    | nil =>
      rw [List.append_nil] at hu
      exact absurd ⟨ds, isLabel_of_digits? h, hu ▸ List.suffix_rfl⟩ ho
    | cons c u =>
      obtain ⟨rfl, -⟩ := List.cons.inj ht
      cases s with
      | nil => exact absurd rfl hs
      | cons d s =>
        have hin : '%' ∈ '!' :: (k ++ ds ++ ['!']) := by
          rw [(List.cons.inj hu).2]
          simp
        exact absurd hin hno
  · cases u with
    | nil =>
      refine absurd ⟨ds, isLabel_of_digits? h, ?_⟩ ho
      rw [List.append_nil]
    | cons c u =>
      obtain ⟨rfl, hrest⟩ := List.cons.inj ht
      exact ⟨u, digits?_eq_some_iff.mpr ⟨by simp, hne, hd⟩, hrest⟩

/-- A text is read by itself before a percent sign, unless its end makes a reference with it. -/
theorem substitute_append_percent (hk : IsLabel k) (ha : ¬Opens k a) (t : Text) :
    substitute (Marker.opening ++ k) meaning (a ++ '%' :: t) =
      substitute (Marker.opening ++ k) meaning a ++
        substitute (Marker.opening ++ k) meaning ('%' :: t) := by
  induction hn : a.length using Nat.strongRecOn generalizing a with
  | ind n ih =>
    cases a with
    | nil => rw [substitute, List.nil_append, List.nil_append]
    | cons c a =>
      have hright : ∀ {s u : Text}, c :: a = u ++ s → ¬Opens k s := by
        rintro s u hs ⟨ds, hl, hsuffix⟩
        exact ha ⟨ds, hl, hsuffix.trans ⟨u, hs.symm⟩⟩
      cases hd : digits? (Marker.opening ++ k) (c :: a) with
      | none =>
        have hnone : digits? (Marker.opening ++ k) (c :: a ++ '%' :: t) = none := by
          refine Option.eq_none_iff_forall_ne_some.mpr ?_
          rintro ⟨ds, rest⟩ h
          obtain ⟨rest', hsome, -⟩ := digits?_append_percent hk (List.cons_ne_nil c a) ha h
          rw [hd] at hsome
          cases hsome
        have hrest : ¬Opens k a := hright (u := [c]) rfl
        have ih := ih a.length (by simp [← hn]) hrest rfl
        rw [List.cons_append] at hnone ⊢
        rw [substitute_cons_of_none hnone, substitute_cons_of_none hd, ih, List.cons_append]
      | some r =>
        obtain ⟨ds, rest⟩ := r
        have hrest : ¬Opens k rest := hright (eq_of_digits? hd)
        have ih := ih rest.length (hn ▸ length_of_digits? hd) hrest rfl
        rw [substitute_of_some (digits?_append hd), substitute_of_some hd, ih, ← List.append_assoc]

/-- A mark is replaced by what it stands for, and what is after it is read by itself, unless its
start makes a reference with the last percent sign. -/
theorem substitute_sign (hk : IsLabel k) (hl : IsLabel l) (hb : ¬Closes k b) :
    substitute (Marker.opening ++ k) meaning ((sign l).written ++ b) =
      substituted k meaning (sign l) ++ substitute (Marker.opening ++ k) meaning b := by
  have hwrite : (sign l).written ++ b = Mark.write (sign l :: b.map char) := by
    rw [← List.singleton_append, Mark.write_append, Mark.write_map_char]
    simp [Mark.write]
  have hsub : substituted k meaning (sign l) =
      if isLabel k l then (meaning (l.drop k.length)).getD (sign l).written else (sign l).written :=
    rfl
  cases hr : isLabel k l with
  | true =>
    obtain ⟨ds, rfl, hne, hd⟩ := isLabel_iff.mp hr
    have hread : digits? (Marker.opening ++ k) ((sign (k ++ ds)).written ++ b) = some (ds, b) := by
      rw [digits?_eq_some_iff]
      exact ⟨by simp [written, Marker.opening, Marker.closing], hne, hd⟩
    rw [substitute_of_some hread, hsub, if_pos hr, List.drop_left]
    simp [written]
  | false =>
    have hunread : digits? (Marker.opening ++ k) ((sign l).written ++ b) = none := by
      rw [hwrite]
      exact digits?_of_unread hk hl hr _
    have hlast : digits? (Marker.opening ++ k) ('%' :: b) = none := by
      refine Option.eq_none_iff_forall_ne_some.mpr ?_
      rintro ⟨ds, rest⟩ h
      refine hb ⟨ds, isLabel_of_digits? h, rest, ?_⟩
      have he := (List.cons.inj (digits?_eq_some_iff.mp h).1).2
      rw [he]
      simp
    have hno : '%' ∉ '!' :: (l ++ ['!']) := by
      have hl' : '%' ∉ l := fun hm => (hl _ hm).1 rfl
      simp [hl']
    have hshape : (sign l).written ++ b = '%' :: ('!' :: (l ++ ['!']) ++ '%' :: b) := by
      simp [written, Marker.opening, Marker.closing]
    rw [hshape] at hunread ⊢
    rw [substitute_cons_of_none hunread, substitute_append_of_not_mem hno,
      substitute_cons_of_none hlast, hsub, hr]
    simp [written, Marker.opening, Marker.closing]

/-- What stands around a mark is read by itself. -/
theorem substitute_around (hk : IsLabel k) (hl : IsLabel l) (ha : ¬Opens k a) (hb : ¬Closes k b) :
    substitute (Marker.opening ++ k) meaning (a ++ (sign l).written ++ b) =
      substitute (Marker.opening ++ k) meaning a ++ substituted k meaning (sign l) ++
        substitute (Marker.opening ++ k) meaning b := by
  have hstart : (sign l).written ++ b = '%' :: ('!' :: (l ++ ['!', '%']) ++ b) := by
    simp [written, Marker.opening, Marker.closing]
  rw [List.append_assoc, hstart, substitute_append_percent hk ha, ← hstart,
    substitute_sign hk hl hb, List.append_assoc]

/-- Does no text around a mark make a reference with a percent sign of the mark? -/
def Alone (k a b : Text) : Prop := ¬Opens k a ∧ ¬Closes k b

/-- A mark is alone if no exclamation mark stands directly before or after it. -/
theorem alone_of_calm (k : Text) (ha : a.getLast? ≠ some '!') (hb : b.head? ≠ some '!') :
    Alone k a b := by
  refine ⟨?_, ?_⟩
  · rintro ⟨ds, -, u, rfl⟩
    have hlast : u ++ '%' :: '!' :: (k ++ ds ++ ['!']) =
        (u ++ '%' :: '!' :: (k ++ ds)) ++ ['!'] := by simp
    exact ha (hlast ▸ List.getLast?_concat)
  · rintro ⟨ds, -, u, rfl⟩
    exact hb rfl

theorem isLabel_fragment (n : Nat) : IsLabel ('v' :: Text.ofNat n) :=
  IsLabel.ofNat (k := ['v']) (by simp [IsLabel]) n

theorem write_fragment (n : Nat) : write fragment n = (sign ('v' :: Text.ofNat n)).written := rfl

end Reference

namespace Fragments

open Reference

variable {F G : Fragments} {limit n : Nat} {a b : Text}

/-- What a text expands to depends on the fragments alone that it may refer to. -/
theorem expand_congr (h : ∀ n < limit, F.items[n]? = G.items[n]?) (s : Text) :
    F.expand limit s = G.expand limit s := by
  induction limit using Nat.strongRecOn generalizing s with
  | ind limit ih =>
    rw [expand, expand]
    refine congrArg (fun meaning => substitute fragment meaning s) (funext fun digits => ?_)
    cases Text.toIndex? digits with
    | none => rfl
    | some n =>
      dsimp only
      split
      next hn => rw [h n hn, ih n hn fun m hm => h m (hm.trans hn)]
      next => rfl

/-- A reference that is alone is replaced by its fragment. -/
theorem expand_around (hn : n < limit) (hb : n < Text.indexBound) (h : Alone ['v'] a b) :
    F.expand limit (a ++ write fragment n ++ b) =
      F.expand limit a ++ F.expand n (F.items[n]?.getD []) ++ F.expand limit b := by
  have hk : Mark.IsLabel ['v'] := by simp [Mark.IsLabel]
  have hl : isLabel ['v'] ('v' :: Text.ofNat n) = true := isLabel_ofNat ['v'] n
  -- On the right only the texts around the reference are unfolded, not its fragment.
  conv_lhs => rw [expand]
  conv_rhs => rw [expand.eq_1 F limit a, expand.eq_1 F limit b]
  rw [write_fragment]
  refine (substitute_around hk (isLabel_fragment n) h.1 h.2).trans ?_
  simp [substituted, hl, Text.toIndex?_ofNat hb, hn]
  rfl

theorem expand_of_not_mem {s : Text} (h : '%' ∉ s) : F.expand limit s = s := by
  rw [expand]
  refine (congrArg _ (List.append_nil s).symm).trans ?_
  rw [show fragment = Marker.opening ++ ['v'] from rfl, substitute_append_of_not_mem h, substitute,
    List.append_nil]

end Fragments

namespace Block

variable {blocks : List Block}

/-- What is read as a marker is its start, the digits and its end. -/
theorem marker?_eq_some_iff {s ds rest : Text} :
    marker? s = some (ds, rest) ↔
      s = "<!_script ".toList ++ (ds ++ '/' :: '>' :: rest) ∧ ds ≠ [] ∧
        ∀ c ∈ ds, isDecimalDigit c := by
  constructor
  · intro h
    obtain ⟨t, ht, h⟩ := Option.bind_eq_some_iff.mp h
    split at h
    next => cases h
    next hne =>
      obtain ⟨r, hr, he⟩ := Option.map_eq_some_iff.mp h
      cases he
      have hsplit : t.takeWhile isDecimalDigit ++ '/' :: '>' :: rest = t := by
        have hdrop : t.dropWhile isDecimalDigit = '/' :: '>' :: rest :=
          Text.strip?_eq_some_iff.mp hr
        rw [← hdrop, List.takeWhile_append_dropWhile]
      refine ⟨?_, by simpa using hne, List.all_eq_true.mp List.all_takeWhile⟩
      rw [hsplit]
      exact Text.strip?_eq_some_iff.mp ht
  · rintro ⟨rfl, hne, hd⟩
    have hstop : ∀ c ∈ ('/' :: '>' :: rest).head?, isDecimalDigit c = false := by
      intro c hc
      cases Option.some.inj hc
      decide
    rw [marker?, Text.strip?_append, Option.bind_some, Text.takeWhile_append_stop hd hstop,
      Text.dropWhile_append_stop hd hstop]
    simp [hne, Text.strip?]

theorem marker?_of_ne {c : Char} (h : c ≠ '<') (s : Text) : marker? (c :: s) = none := by
  refine Option.eq_none_iff_forall_ne_some.mpr ?_
  rintro ⟨ds, rest⟩ hm
  exact h (List.cons.inj (marker?_eq_some_iff.mp hm).1).1

theorem marker?_append {s ds rest : Text} (h : marker? s = some (ds, rest)) (t : Text) :
    marker? (s ++ t) = some (ds, rest ++ t) := by
  obtain ⟨rfl, hne, hd⟩ := marker?_eq_some_iff.mp h
  exact marker?_eq_some_iff.mpr ⟨by simp, hne, hd⟩

/-- No percent sign stands in a marker. -/
theorem marker?_append_percent {s t ds rest : Text}
    (h : marker? (s ++ '%' :: t) = some (ds, rest)) :
    ∃ rest', marker? s = some (ds, rest') ∧ rest = rest' ++ '%' :: t := by
  obtain ⟨he, hne, hd⟩ := marker?_eq_some_iff.mp h
  have hno : '%' ∉ "<!_script ".toList ++ (ds ++ ['/', '>']) := by
    have hd' : '%' ∉ ds := fun hm => absurd (hd _ hm) (by decide)
    simp [hd']
  have he : s ++ '%' :: t = ("<!_script ".toList ++ (ds ++ ['/', '>'])) ++ rest := by
    simpa using he
  rcases List.append_eq_append_iff.mp he with ⟨u, hu, ht⟩ | ⟨u, rfl, hrest⟩
  · cases u with
    | nil =>
      refine ⟨[], marker?_eq_some_iff.mpr ⟨?_, hne, hd⟩, by simpa using ht.symm⟩
      simpa using hu.symm
    | cons c u =>
      obtain ⟨rfl, -⟩ := List.cons.inj ht
      refine absurd ?_ hno
      rw [hu]
      simp
  · exact ⟨u, marker?_eq_some_iff.mpr ⟨by simp, hne, hd⟩, hrest⟩

theorem pieces_of_marker? {s ds rest : Text} (h : marker? s = some (ds, rest)) :
    pieces blocks s =
      .inr ((Text.toIndex? ds).bind fun n => blocks[n]?) :: pieces blocks rest := by
  cases s with
  | nil => cases h
  | cons c s =>
    rw [pieces]
    split
    next hm =>
      cases h.symm.trans hm
      rfl
    next hm => cases h.symm.trans hm

theorem pieces_cons {c : Char} {s : Text} (h : marker? (c :: s) = none) :
    pieces blocks (c :: s) = .inl c :: pieces blocks s := by
  rw [pieces]
  split
  next hm => cases h.symm.trans hm
  next => rfl

theorem pieces_append_of_not_mem {s : Text} (h : '<' ∉ s) (t : Text) :
    pieces blocks (s ++ t) = s.map .inl ++ pieces blocks t := by
  induction s with
  | nil => rfl
  | cons c s ih =>
    have hc : c ≠ '<' := fun hc => h (hc ▸ List.mem_cons_self)
    rw [List.cons_append, pieces_cons (marker?_of_ne hc _), ih (List.not_mem_of_not_mem_cons h)]
    rfl

/-- A text is parted by itself before a percent sign. -/
theorem pieces_append_percent (a t : Text) :
    pieces blocks (a ++ '%' :: t) = pieces blocks a ++ pieces blocks ('%' :: t) := by
  induction hn : a.length using Nat.strongRecOn generalizing a with
  | ind n ih =>
    cases a with
    | nil => simp [pieces]
    | cons c a =>
      cases hm : marker? (c :: a) with
      | none =>
        have hnone : marker? (c :: a ++ '%' :: t) = none := by
          refine Option.eq_none_iff_forall_ne_some.mpr ?_
          rintro ⟨ds, rest⟩ h
          obtain ⟨rest', hsome, -⟩ := marker?_append_percent h
          rw [hm] at hsome
          cases hsome
        have ih := ih a.length (by simp [← hn]) a rfl
        rw [List.cons_append] at hnone ⊢
        rw [pieces_cons hnone, pieces_cons hm, ih, List.cons_append]
      | some r =>
        obtain ⟨ds, rest⟩ := r
        have hlength := length_of_marker? hm
        have ih := ih rest.length (by omega) rest rfl
        rw [pieces_of_marker? (marker?_append hm _), pieces_of_marker? hm, ih, List.cons_append]

end Block

/-- A name that is no literal and that the scope does not have has no text. -/
theorem Resolver.text?_unbound {r : Resolver} {name : Text}
    (hp : Expression.parts '|' name = [name]) (ht : Text.trim name = name)
    (hl : (Expression.literal? r.literals name).isNone)
    (hs : name.all fun c => !Expression.startsStep c) (hr : r.pre = false)
    (hn : Dictionary.get? r.scope name = none) : r.text? name = some [] := by
  rw [text?, Expression.read_bare hp ht hl hs, firstText, alternative, hn, hr]
  simp [Value.isNull, firstText]

namespace Rendering

open Reference

variable {σ : Type} {frame : Frame σ} {f : Hole → Rendering σ (Option Text)} {t : Text}

theorem bind_of_run {α β : Type} {x : Rendering σ α} {g : α → Rendering σ β} {a : α}
    {p q : Progress σ} (hx : x p = (a, q)) : (x >>= g) p = g a q := by
  simp only [bind, StateT.bind, hx]

/-- Fills the holes of pieces one after the other. -/
def fillAll (f : Hole → Rendering σ (Option Text)) (ps : List Hole.Piece) : Rendering σ Text :=
  return (← ps.mapM (fillPiece f)).flatten

theorem fillM_around {u : Text} {before after : List Hole.Piece} {h : Hole}
    (hu : Hole.pieces u = before ++ .inr h :: after) (hf : f h = pure (some t)) :
    Hole.fillM f u = do return (← fillAll f before) ++ t ++ (← fillAll f after) := by
  rw [fillM_eq, hu]
  simp [fillAll, List.mapM_append, fillPiece, hf]

theorem not_mem_fragment (n : Nat) : '<' ∉ write fragment n := by
  have hdigits : '<' ∉ Text.ofNat n := fun h => absurd (Text.isDigit_of_mem_ofNat h) (by decide)
  simp [write, fragment, Marker.closing, hdigits]

/-- Blocks are put back around a reference. -/
theorem reinjectM_around {hooks : Hooks} {blocks : List Block} {a b : Text} (n : Nat) :
    (Block.reinjectM hooks blocks stash (a ++ write fragment n ++ b) : Rendering σ Text) = do
      return (← Block.reinjectM hooks blocks stash a) ++ write fragment n ++
        (← Block.reinjectM hooks blocks stash b) := by
  have hchars : ∀ (s : Text) (g : Char ⊕ Option Block → Rendering σ Text),
      (∀ c, g (.inl c) = pure [c]) → (s.map .inl).mapM g = pure (s.map fun c => [c]) := by
    intro s g hg
    induction s with
    | nil => rfl
    | cons c s ih => simp [hg, ih]
  have hflat : ∀ s : Text, (s.map fun c => [c]).flatten = s := fun s => by
    rw [← List.flatMap_def, List.flatMap_singleton']
  have hpieces : Block.pieces blocks (a ++ write fragment n ++ b) =
      Block.pieces blocks a ++ ((write fragment n).map .inl ++ Block.pieces blocks b) := by
    rw [← Block.pieces_append_of_not_mem (not_mem_fragment n), List.append_assoc]
    exact Block.pieces_append_percent a _
  rw [Block.reinjectM, Block.reinjectM, Block.reinjectM, hpieces]
  simp [List.mapM_append, hchars, hflat]

/-- A reference stays in a text while the blocks and the literals are put back around it. -/
theorem restore_around {a b a' b' : Text} {p q r : Progress σ} {n : Nat}
    (ha : Block.reinjectM frame.site.hooks frame.template.blocks stash a p = (a', q))
    (hb : Block.reinjectM frame.site.hooks frame.template.blocks stash b q = (b', r))
    (h : Alone [] a' b') :
    restore frame (a ++ write fragment n ++ b) p =
      (frame.template.literals.requoteKept a' ++ write fragment n ++
        frame.template.literals.requoteKept b', r) := by
  have hkept : ∀ s : Text, isLabel [] ('v' :: s) = false := fun s => by
    rw [Bool.eq_false_iff]
    intro hl
    obtain ⟨ds, hs, -, hd⟩ := isLabel_iff.mp hl
    rw [List.nil_append] at hs
    exact absurd (hd 'v' (hs ▸ List.mem_cons_self)) (by decide)
  have hrequote : frame.template.literals.requoteKept (a' ++ write fragment n ++ b') =
      frame.template.literals.requoteKept a' ++ write fragment n ++
        frame.template.literals.requoteKept b' := by
    rw [write_fragment]
    refine (substitute_around (k := []) (by simp [Mark.IsLabel]) (isLabel_fragment n) h.1
      h.2).trans ?_
    simp [substituted, hkept]
    rfl
  rw [restore, reinjectM_around, ← hrequote]
  simp only [bind, StateT.bind, ha, hb]
  rfl

section Call

variable {child : Text → Scope → Rendering σ Output} {kind : TemplateKind} {name source : Text}
  {attrs : Attributes} {content : Option Text} {scope : Scope} {template : Template}
  {p p₀ : Progress σ}

/-- The frame of a template that a tag calls. -/
def called (frame : Frame σ) (template : Template) (attrs : Attributes) (body : Option Text) :
    Frame σ :=
  { frame with template, body, mayImport := frame.mayImport && !forbidsImports attrs }

/-- The scope of a template that a tag calls. -/
def given (frame : Frame σ) (attrs : Attributes) (scope : Scope) (body : Option Text) : Scope :=
  bindBody (arguments (frame.resolver scope) attrs) body

/-- The text that the content of a call renders to in the frame of the caller. -/
def contentText (frame : Frame σ) (child : Text → Scope → Rendering σ Output) (scope : Scope)
    (content : Text) : Rendering σ Text := do
  let (out, _) ← child content scope
  restore frame out

/-- A template with a body: a reference is put wherever the template has a hole for it, and stays
there; in a page that has the given fragments and more, the inserted text stands in its place. -/
structure Inserts (frame : Frame σ) (known : Array Text) (n : Nat) (inserted : Text) : Prop where
  filled : ∀ (scope : Scope) (u : Text) (before : List Hole.Piece) (h : Hole)
    (after : List Hole.Piece), Hole.pieces u = before ++ .inr h :: after →
    (Expression.binding h.expr).2 = "body".toList →
    Hole.fillM (textHole frame (frame.resolver scope)) u = do
      return (← fillAll (textHole frame (frame.resolver scope)) before) ++ write fragment n ++
        (← fillAll (textHole frame (frame.resolver scope)) after)
  restored : ∀ (a b a' b' : Text) (p q r : Progress σ),
    Block.reinjectM frame.site.hooks frame.template.blocks stash a p = (a', q) →
    Block.reinjectM frame.site.hooks frame.template.blocks stash b q = (b', r) → Alone [] a' b' →
    restore frame (a ++ write fragment n ++ b) p =
      (frame.template.literals.requoteKept a' ++ write fragment n ++
        frame.template.literals.requoteKept b', r)
  assembled : ∀ (more : Array Text) (limit : Nat) (a b : Text), known.size ≤ limit →
    Alone ['v'] a b → Fragments.expand ⟨known ++ more⟩ limit (a ++ write fragment n ++ b) =
      Fragments.expand ⟨known ++ more⟩ limit a ++ inserted ++
        Fragments.expand ⟨known ++ more⟩ limit b

/-- A template without a body: the name of the body has no value, and a hole for it is filled with
an empty fragment. -/
structure Bodiless (frame : Frame σ) (scope : Scope) : Prop where
  unbound : Dictionary.get? scope "body".toList = none
  value : ((frame.resolver scope).value "body".toList) = .found .null
  filled : ∀ h : Hole, (Expression.binding h.expr).2 = "body".toList →
    textHole frame (frame.resolver scope) h = some <$> stash []

theorem inserts {t : Text} (hf : frame.body = some (write fragment p.size))
    (hb : p.size < Text.indexBound) :
    Inserts frame (p.fragments.items.push t) p.size (p.fragments.assemble t) where
  filled scope u before h after hu hh := by
    refine fillM_around hu ?_
    unfold textHole
    simp [hh, hf]
  restored a b a' b' p q r ha hb h := restore_around ha hb h
  assembled more limit a b hlimit h := by
    have hsize : p.fragments.items.size = p.size := rfl
    have hlt : p.size < limit := by simpa [hsize] using hlimit
    have hitem : (p.fragments.items.push t ++ more)[p.size]? = some t := by
      rw [Array.getElem?_append_left (by simp [hsize]), ← hsize, Array.getElem?_push_size]
    have hbefore : ∀ m < p.size,
        (p.fragments.items.push t ++ more)[m]? = p.fragments.items[m]? := fun m hm => by
      rw [Array.getElem?_append_left (by simp [hsize]; omega), Array.getElem?_push_lt (hsize ▸ hm)]
      exact (Array.getElem?_eq_getElem (hsize ▸ hm)).symm
    rw [Fragments.expand_around hlt hb h, hitem, Option.getD_some, Fragments.assemble]
    exact congrArg (fun s => _ ++ s ++ _) (Fragments.expand_congr hbefore t)

theorem bodiless {scope : Scope} (hlate : frame.pass.isEarly = false) (hf : frame.body = none)
    (hs : Dictionary.get? scope "body".toList = none) : Bodiless frame scope where
  unbound := hs
  value := by
    have hpre : (frame.resolver scope).pre = false := hlate
    have hget : Dictionary.get? (frame.resolver scope).scope "body".toList = none := hs
    rw [Resolver.value_name (by decide) (by decide) rfl (by decide), hget, hpre]
    rfl
  filled h hh := by
    have htext : (frame.resolver scope).text? "body".toList = some [] :=
      Resolver.text?_unbound (by decide) (by decide) rfl (by decide) hlate hs
    have hescape : (if h.raw then ([] : Text) else Escape.runningText []) = [] := by
      cases h.raw <;> rfl
    simp only [textHole, hh, hf, htext, hescape, emit, hlate, Option.isSome_none,
      Bool.false_eq_true, false_and, if_false, reduceCtorEq]
    rfl

/-- A call of a template that there is. -/
theorem component_run {inner : Frame σ → Scope → Rendering σ Text}
    (hlate : frame.pass.isEarly = false)
    (hload : load frame kind name p = (some template, p₀))
    (hallowed : kind = .imported → allowsImports frame scope = true) :
    component frame child (some inner) kind name attrs content source scope p = (do
      let body ← content.mapM (slot frame child scope)
      let html ← inner (called frame template attrs body) (given frame attrs scope body)
      put scope (← stash html)) p₀ := by
  have hforbid : ¬(kind = .imported ∧ (!allowsImports frame scope) = true) := fun h => by
    rw [hallowed h.1] at h
    exact absurd h.2 (by decide)
  unfold component
  rw [if_neg (by simp [hlate])]
  dsimp only
  rw [if_neg hforbid]
  simp only [bind, StateT.bind, hload]
  rfl

/-- What the content of a call renders to in the frame of the caller is in the page wherever the
called template has a hole for its body, whatever the template and its arguments are, and what the
template puts out around its body does not depend on it. A template that is called without content
has no body. -/
theorem component_slot (ways : Ways σ) (m level depth : Nat) (attrs : Attributes) (source : Text)
    (hlate : frame.pass.isEarly = false)
    (hload : load frame kind name p = (some template, p₀))
    (hallowed : kind = .imported → allowsImports frame scope = true) :
    (∀ s t q, contentText frame (levels ways frame m level) scope s p₀ = (t, q) →
      q.size < Text.indexBound →
      ∃ (html : Text) (r : Progress σ) (new : Array Text),
        (∀ body, nested depth (called frame template attrs (some (write fragment q.size)))
            (given frame attrs scope (some (write fragment q.size))) (q.stashAll [body]) =
          (html, r.having (q.fragments.items.push body ++ new))) ∧
        component frame (levels ways frame m level) (some (nested depth)) kind name attrs (some s)
            source scope p =
          (stash html >>= put scope) (r.having (q.fragments.items.push t ++ new)) ∧
        Inserts (called frame template attrs (some (write fragment q.size)))
          (q.fragments.items.push t) q.size (q.fragments.assemble t)) ∧
      component frame (levels ways frame m level) (some (nested depth)) kind name attrs none source
          scope p = (nested depth (called frame template attrs none) (given frame attrs scope none)
            >>= stash >>= put scope) p₀ ∧
      Bodiless (called frame template attrs none) (given frame attrs scope none) := by
  refine ⟨fun s t q ht hq => ?_, ?_, ?_⟩
  · have hslot : slot frame (levels ways frame m level) scope s p₀ =
        (write fragment q.size, q.stashAll [t]) := by
      change (contentText frame (levels ways frame m level) scope s >>= stash) p₀ = _
      rw [bind_of_run ht]
      simp [stash, Fragments.stash, Progress.stashAll, Progress.size]
    have hbody : (some s).mapM (slot frame (levels ways frame m level) scope) p₀ =
        (some (write fragment q.size), q.stashAll [t]) := by
      rw [Option.mapM_some]
      simp only [Functor.map, StateT.map, hslot]
      rfl
    have happends : Appends (nested depth
        (called frame template attrs (some (write fragment q.size)))
        (given frame attrs scope (some (write fragment q.size)))) := appends_nested depth _
    -- The run that is taken from the lemma is the same for any other text under the reference.
    obtain ⟨html, r, new, hrun⟩ := happends (q.stashAll [t])
    have hnested : ∀ body, nested depth (called frame template attrs (some (write fragment q.size)))
        (given frame attrs scope (some (write fragment q.size))) (q.stashAll [body]) =
          (html, r.having (q.fragments.items.push body ++ new)) := fun body => by
      have hbegin : q.stashAll [body] = (q.stashAll [t]).having (q.fragments.items.push body) := by
        simp [Progress.stashAll, Progress.having]
      rw [hbegin]
      exact hrun _ (by simp [Progress.stashAll, Progress.size])
    refine ⟨html, r, new, hnested, ?_, inserts rfl hq⟩
    rw [component_run hlate hload hallowed, bind_of_run hbody, bind_of_run (hnested t)]
  · rw [component_run hlate hload hallowed]
    rfl
  · exact bodiless hlate rfl (Dictionary.get?_erase _ _)

end Call

/-- A template with a hole for its body. -/
def box : Template := ⟨"components/Box".toList, "[\x7b\x7bbody\x7d\x7d]".toList, [], [], [], []⟩

/-- A site with one template, which stands for all others. -/
def boxes : Site Unit := ⟨⟨[], .none, none, [], 1⟩, fun _ _ => pure (some box)⟩

/-- A page that calls it. -/
def parcel : Frame Unit :=
  .root boxes .late ⟨"index".toList, "<Box:0>hi</Box:0>".toList, [.empty], [], [], []⟩

/-- A rendering that has just begun. -/
def outset : Progress Unit := ⟨.empty, [], ⟨(), []⟩⟩

/-- The walk through the content of its calls. -/
def content : Text → Scope → Rendering Unit Output :=
  levels ⟨fun _ s scope => put scope s, none⟩ parcel 1 1

/-- In the page the content of the call stands between the brackets of the template. -/
theorem component_slot_box :
    parcel.pass.isEarly = false ∧
      load parcel .component "Box".toList outset = (some box, outset) ∧
      ∃ q html r, contentText parcel content [] "hi".toList outset = ("hi".toList, q) ∧
        nested 0 (called parcel box .empty (some (write fragment q.size)))
          (given parcel .empty [] (some (write fragment q.size))) (q.stashAll ["hi".toList]) =
            (html, r) ∧ r.fragments.assemble html = "[hi]".toList := by
  have hload : load parcel .component "Box".toList outset = (some box, outset) := rfl
  have hallowed : TemplateKind.component = .imported → allowsImports parcel [] = true := nofun
  have hcontent : contentText parcel content [] "hi".toList outset =
      ("hi".toList, (contentText parcel content [] "hi".toList outset).2) :=
    Prod.ext (by decide +kernel) rfl
  obtain ⟨html, r, new, hrun, -, hinserts⟩ :=
    (component_slot _ 1 1 0 .empty [] rfl hload hallowed).1 _ _ _ hcontent (by decide +kernel)
  generalize hq : (contentText parcel content [] "hi".toList outset).2 = q at *
  have hhtml : html = "[".toList ++ write fragment q.size ++ "]".toList := by
    have hfirst := congrArg Prod.fst (hrun [])
    rw [← hq] at hfirst ⊢
    exact hfirst.symm.trans (by decide +kernel)
  refine ⟨rfl, hload, q, html, _, hcontent, hrun "hi".toList, ?_⟩
  have hpage := hinserts.assembled new (q.fragments.items.push "hi".toList ++ new).size "[".toList
    "]".toList (by simp) (alone_of_calm _ (by decide) (by decide))
  rw [← hhtml, Fragments.assemble, Fragments.expand_of_not_mem (s := "[".toList) (by decide),
    Fragments.expand_of_not_mem (s := "hi".toList) (by decide),
    Fragments.expand_of_not_mem (s := "]".toList) (by decide)] at hpage
  exact hpage

/-- Text between two holes for the body that reads as a reference with their percent signs. -/
def straddling : Engine := .ofSources 1 fun _ path =>
  .ok ⟨path, if path = "index.xhtml".toList then "<Box>hi</Box>".toList
    else "\x7b\x7bbody\x7d\x7d!0!\x7b\x7bbody\x7d\x7d\"s\"".toList⟩

/-- The literal is put between the two bodies, and the signs around them are left. -/
theorem page_straddling :
    (straddling.compile "index".toList [] (⟨.ofCapacity 1, []⟩ : World Cache)).1.toOption =
      some "%!v0!\"s\"!v0!%\"s\"".toList := by
  decide +kernel

end Rendering

end Stencil
