import Stencil.Codec.Base64
import Stencil.Proofs.Origin

namespace Stencil

open Placeholder

theorem Placeholder.WellFormed.of_name {name : Text} {depth : Nat} {index : Option Nat}
    {kind : Kind} (hn : name.all isNameChar) (hs : isSpecialName name)
    (hd : depth < Text.indexBound)
    (hi : ∀ n ∈ index, n < Text.indexBound) (hk : kind = .closes → index = none) :
    WellFormed ⟨name, depth, index, kind⟩ :=
  ⟨List.all_eq_true.mp hn, hs, hd, hi, hk⟩

theorem Residual.angle_not_mem_write (block : Text) : '<' ∉ write block := by
  have hpayload : '<' ∉ Payload.ofText block := Base64.angle_not_mem_encode _
  simp only [write, List.mem_append, not_or]
  exact ⟨⟨by decide, hpayload⟩, by decide⟩

namespace Rendering

variable {σ α β : Type}

/-- A rendering adds to the table of its template, and of what it gives something holds when the
table has come to its size, unless no index goes so far. -/
def Ensures (start : Nat) (r : Rendering σ α) (post : Nat → α → Prop) : Prop :=
  ∀ p, p.added.length ≤ (r p).2.added.length ∧
    (start + (r p).2.added.length ≤ Text.indexBound →
      post (start + (r p).2.added.length) (r p).1)

namespace Ensures

variable {start : Nat} {r : Rendering σ α} {k : α → Rendering σ β} {post : Nat → α → Prop}
  {later : Nat → β → Prop}

theorem pure {a : α} (h : ∀ size ≤ Text.indexBound, post size a) :
    Ensures start (pure a : Rendering σ α) post :=
  fun _ => ⟨Nat.le_refl _, fun hsize => h _ hsize⟩

theorem bind (hpost : ∀ {a m n}, m ≤ n → post m a → post n a) (hr : Ensures start r post)
    (hk : ∀ a, Ensures start (k a) fun size b => post size a → later size b) :
    Ensures start (r >>= k) later := by
  intro p
  obtain ⟨hle, hfirst⟩ := hr p
  obtain ⟨hle', hsecond⟩ := hk (r p).1 (r p).2
  refine ⟨Nat.le_trans hle hle', fun hsize => hsecond hsize ?_⟩
  exact hpost (Nat.add_le_add_left hle' start)
    (hfirst (Nat.le_trans (Nat.add_le_add_left hle' start) hsize))

/-- What comes from the world alone does not matter. -/
theorem afterWorld {act : StateM (World σ) α} (hk : ∀ a, Ensures start (k a) later) :
    Ensures start (onWorld act >>= k) later :=
  fun p => hk (act p.world).1 { p with world := (act p.world).2 }

end Ensures

/-- A frame in which a template is folded. -/
structure IsFolding (o : Origin) (frame : Frame σ) : Prop where
  pass : frame.pass = .early o.size
  body : frame.body = none

theorem IsFolding.isEarly {o : Origin} {frame : Frame σ} (h : IsFolding o frame) :
    frame.pass.isEarly := by
  rw [h.pass]
  rfl

/-- A rendering whose text may be left at a level. -/
def Leaves (o : Origin) (level : Nat) (r : Rendering σ Output) : Prop :=
  Ensures o.size r fun size out => o.Left false level size out.1

variable {o : Origin} {frame : Frame σ} {level : Nat} {scope : Scope} {s : Text}
  {child : Text → Scope → Rendering σ Output}

theorem leaves_put (h : ∀ size, o.Left false level size s) :
    Leaves o level (put scope s : Rendering σ Output) :=
  .pure fun size _ => h size

theorem ensures_addAttributes (h : IsFolding o frame) (attrs : Attributes) :
    Ensures o.size (addAttributes frame attrs) fun size n => o.size ≤ n ∧ n < size := by
  intro p
  have hadd : addAttributes frame attrs p =
      (o.size + p.added.length, { p with added := p.added ++ [attrs] }) := by
    simp only [addAttributes, h.pass]
  rw [hadd]
  simp

theorem leaves_inTurn {as : List α} {render : α → Scope → Rendering σ Output}
    (h : ∀ a ∈ as, ∀ scope, Leaves o level (render a scope)) (scope : Scope) :
    Leaves o level (inTurn render as scope) := by
  induction as generalizing scope with
  | nil => exact leaves_put fun _ => .nil
  | cons a more ih =>
    refine Ensures.bind (fun hl hp => hp.mono hl) (h a List.mem_cons_self scope) fun first => ?_
    refine Ensures.bind (fun hl hp => hp.mono hl)
      (ih (fun b hb => h b (List.mem_cons_of_mem _ hb)) first.2) fun rest => ?_
    exact .pure fun _ _ hrest hfirst => hfirst.append hrest

theorem leaves_inPlace (h : IsFolding o frame) {content : Text}
    (hc : Leaves o (level + 1) (child content scope)) :
    Leaves o level (inPlace frame child content scope) := by
  refine Ensures.bind (fun hl hp => hp.mono hl) hc fun out => ?_
  refine .pure fun _ _ hout => ?_
  rw [if_pos h.isEarly]
  exact hout.lowered

theorem ensures_mapM {f : α → Rendering σ Output} {as : List α}
    (h : ∀ a ∈ as, Leaves o level (f a)) :
    Ensures o.size (as.mapM f) fun size outs =>
      o.Left false level size (outs.map Prod.fst).flatten := by
  induction as with
  | nil => exact .pure fun _ _ => .nil
  | cons a more ih =>
    rw [List.mapM_cons]
    refine Ensures.bind (fun hl hp => hp.mono hl) (h a List.mem_cons_self) fun first => ?_
    refine Ensures.bind (fun hl hp => hp.mono hl)
      (ih fun b hb => h b (List.mem_cons_of_mem _ hb)) fun rest => ?_
    exact .pure fun _ _ hrest hfirst => hfirst.append hrest

theorem leaves_loop (h : IsFolding o frame) {content source : Text}
    (hc : ∀ s, o.Source (level + 1) s → ∀ scope, Leaves o (level + 1) (child s scope))
    (hcontent : o.Source (level + 1) content) (hsource : o.Source level source)
    (attrs : Attributes) : Leaves o level (loop frame child attrs content source scope) := by
  unfold loop
  split
  · exact leaves_put fun _ => .nil
  next l _ =>
    split
    · exact leaves_put fun _ => hsource.left
    next items _ =>
      split
      · exact leaves_put fun _ => hsource.left
      · have hitems : ∀ item ∈ items,
            Leaves o level (inPlace frame child (l.expand content) (l.bind scope item)) :=
          fun item _ => leaves_inPlace h (hc _ (hcontent.expand l) _)
        refine Ensures.bind (fun hl hp => hp.mono hl) (ensures_mapM hitems) fun outs => ?_
        exact .pure fun _ _ houts => houts

theorem left_residual (source : Text) (size : Nat) :
    o.Left false level size (Residual.write source) :=
  .text (.text (Residual.angle_not_mem_write source))

theorem leaves_assignment (h : IsFolding o frame) (attrs : Attributes) (source : Text) :
    Leaves o level (assignment frame attrs source scope) := by
  unfold assignment
  rw [if_pos h.isEarly]
  exact leaves_put (left_residual source)

theorem leaves_randomWord (attrs : Attributes) (source : Text) :
    Leaves o level (randomWord frame attrs source scope) := by
  unfold randomWord
  split
  · exact leaves_put fun _ => .nil
  · split
    · exact leaves_put (left_residual source)
    · exact .afterWorld fun w => .pure fun _ _ => .nil

theorem leaves_function (h : IsFolding o frame) (name : Text) (attrs : Attributes)
    (content : Option Text) (source : Text) :
    Leaves o level (function frame name attrs content source scope) := by
  unfold function
  dsimp only
  rw [if_pos h.isEarly]
  split
  · exact leaves_put (left_residual source)
  · split
    · exact leaves_put (left_residual source)
    · refine .afterWorld fun answer => ?_
      split
      next html _ =>
        rw [emit, if_pos h.isEarly, pure_bind]
        exact .pure fun _ _ => .text (.text (Marker.angle_not_mem_shield html))
      next => exact .pure fun size _ => left_residual source size

theorem leaves_component (h : IsFolding o frame) (hsource : o.Source level s)
    (inner : Option (Frame σ → Scope → Rendering σ Text)) (kind : TemplateKind) (name : Text)
    (attrs : Attributes) (content : Option Text) :
    Leaves o level (component frame child inner kind name attrs content s scope) := by
  unfold component
  rw [if_pos h.isEarly]
  exact leaves_put fun _ => hsource.left

theorem left_chosen {branches : List Branch} (h : ∀ b ∈ branches, o.Source level b.body)
    (outcome : Branch → Outcome) :
    (∀ body, Selection.ofBranches outcome branches = .chosen body → o.Source level body) ∧
      ∀ rest, Selection.ofBranches outcome branches = .left rest →
        ∀ b ∈ rest, o.Source level b.2 := by
  have hmem := Selection.mem_ofBranches outcome branches
  refine ⟨fun body hs => ?_, fun rest hs b hb => ?_⟩
  · rw [hs] at hmem
    obtain ⟨branch, hbranch, rfl⟩ := hmem
    exact h branch hbranch
  · rw [hs] at hmem
    obtain ⟨branch, hbranch, hbody⟩ := hmem b hb
    rw [hbody]
    exact h branch hbranch

/-- The tag before a branch that is not the first one, before the branches after it. -/
theorem left_mark {size : Nat} {index : Option Nat} {t : Text}
    (hlevel : level + 1 < Text.indexBound) (hindex : ∀ n ∈ index, o.size ≤ n ∧ n < size)
    (hsize : size ≤ Text.indexBound) (ht : o.Left true (level + 1) size t) :
    o.Left true (level + 1) size ((branchTag level false index).written ++ t) := by
  have hbound : ∀ n ∈ index, n < Text.indexBound := fun n hn =>
    Nat.lt_of_lt_of_le (hindex n hn).2 hsize
  obtain ⟨f, rfl, hf, hfolded⟩ := ht
  cases index with
  | none =>
    refine ⟨.alone "_else".toList none f, rfl, ⟨?_, hf⟩, .otherwise hfolded⟩
    exact .of_name (by decide) (by decide) hlevel hbound (by simp)
  | some n =>
    obtain ⟨ho, hn⟩ := hindex n rfl
    refine ⟨.alone "_elif".toList (some n) f, rfl, ⟨?_, hf⟩, .elseIf ho hn hfolded⟩
    exact .of_name (by decide) (by decide) hlevel hbound (by simp)

/-- A condition that is left: its first branch, and the branches after it. -/
theorem left_condition {size n : Nat} {s t : Text} (hlevel : level < Text.indexBound)
    (ho : o.size ≤ n) (hn : n < size) (hsize : size ≤ Text.indexBound)
    (hs : o.Left false (level + 1) size s) (ht : o.Left true (level + 1) size t) :
    o.Left false level size ((branchTag level true (some n)).written ++ s ++ t ++
      closer "_if".toList level) := by
  have hbound : ∀ m ∈ some n, m < Text.indexBound := by
    rintro _ ⟨⟩
    exact Nat.lt_of_lt_of_le hn hsize
  obtain ⟨f, hf, hsealed, hfolded⟩ := hs.within.append ht
  have hopen : (branchTag level true (some n)).WellFormed :=
    .of_name (by decide) (by decide) hlevel hbound (by simp)
  have hclose : (⟨"_if".toList, level, none, .closes⟩ : Placeholder).WellFormed :=
    .of_name (by decide) (by decide) hlevel (by simp) (by simp)
  refine ⟨.around "_if".toList (some n) f .nil, ?_, ?_, .condition ho hn hfolded .nil⟩
  · rw [List.append_assoc _ s t, hf]
    simp [Forest.pieces, branchTag, written]
  · exact ⟨hopen, Sealed.append_placeholder.mpr ⟨hsealed, hclose, trivial⟩⟩

theorem ensures_writeBranches (h : IsFolding o frame)
    (hc : ∀ s, o.Source (level + 1) s → ∀ scope, Leaves o (level + 1) (child s scope))
    {branches : List (Option Condition × Text)} (hb : ∀ b ∈ branches, o.Source (level + 1) b.2)
    (hlevel : branches ≠ [] → level + 1 < Text.indexBound) :
    Ensures o.size (writeBranches frame child level scope false branches) fun size s =>
      o.Left true (level + 1) size s := by
  induction branches with
  | nil => exact .pure fun _ _ => .nil
  | cons b more ih =>
    obtain ⟨condition, body⟩ := b
    have hindex : Ensures o.size (condition.mapM fun c =>
        addAttributes frame (Attributes.positional c.tokens)) fun size index =>
        ∀ n ∈ index, o.size ≤ n ∧ n < size := by
      cases condition with
      | none => exact .pure fun _ _ => by simp
      | some c =>
        rw [Option.mapM_some, map_eq_pure_bind]
        refine Ensures.bind (fun hl hp => ⟨hp.1, Nat.lt_of_lt_of_le hp.2 hl⟩)
          (ensures_addAttributes h _) fun n => ?_
        exact .pure fun _ _ hn => by simpa using hn
    rw [writeBranches]
    refine Ensures.bind (fun hl hp n hn => ⟨(hp n hn).1, Nat.lt_of_lt_of_le (hp n hn).2 hl⟩) hindex
      fun index => ?_
    refine Ensures.bind (fun hl hp => hp.mono hl) (hc body (hb _ List.mem_cons_self) scope)
      fun out => ?_
    refine Ensures.bind (fun hl hp => hp.mono hl)
      (ih (fun b hm => hb b (List.mem_cons_of_mem _ hm)) fun _ => hlevel (by simp)) fun rest => ?_
    refine .pure fun size hsize hrest hout hindices => ?_
    rw [List.append_assoc]
    exact left_mark (hlevel (by simp)) hindices hsize (hout.within.append hrest)

/-- The branches of a condition that is left, before its closer. -/
theorem ensures_firstBranch (h : IsFolding o frame)
    (hc : ∀ s, o.Source (level + 1) s → ∀ scope, Leaves o (level + 1) (child s scope))
    {c : Condition} {body : Text} {more : List (Option Condition × Text)}
    (hb : ∀ b ∈ (some c, body) :: more, o.Source (level + 1) b.2) (hlevel : level < Text.indexBound)
    (hmore : more ≠ [] → level + 1 < Text.indexBound) :
    Ensures o.size (writeBranches frame child level scope true ((some c, body) :: more))
      fun size s => o.Left false level size (s ++ closer "_if".toList level) := by
  rw [writeBranches, Option.mapM_some, map_eq_pure_bind, bind_assoc]
  refine Ensures.bind (fun hl hp => ⟨hp.1, Nat.lt_of_lt_of_le hp.2 hl⟩)
    (ensures_addAttributes h _) fun n => ?_
  rw [pure_bind]
  refine Ensures.bind (fun hl hp => hp.mono hl) (hc body (hb _ List.mem_cons_self) scope)
    fun out => ?_
  refine Ensures.bind (fun hl hp => hp.mono hl)
    (ensures_writeBranches h hc (fun b hm => hb b (List.mem_cons_of_mem _ hm)) hmore) fun rest => ?_
  exact .pure fun size hsize hrest hout hn => left_condition hlevel hn.1 hn.2 hsize hout hrest

theorem leaves_condition (h : IsFolding o frame)
    (hc : ∀ s, o.Source (level + 1) s → ∀ scope, Leaves o (level + 1) (child s scope))
    {content : Text} (hcontent : o.Source (level + 1) content) (hlevel : level < Text.indexBound)
    (p : Placeholder) : Leaves o level (condition frame child p content level scope) := by
  obtain ⟨f, rfl, hsealed, hparts⟩ := hcontent
  obtain ⟨hbodies, hmarks⟩ : (∀ b ∈ Branch.list (level + 1) p.attrs (write (f.pieces (level + 1))),
      o.Source (level + 1) b.body) ∧ _ :=
    Branch.source_listFrom (g := .nil) ⟨List.nil_subset _, hparts, hsealed⟩
  obtain ⟨hchosen, hleft⟩ := left_chosen hbodies
    (Selection.outcome (frame.resolver scope) frame.template.attributes)
  unfold condition
  dsimp only
  split
  next body hsel => exact leaves_inPlace h (hc body (hchosen body hsel) scope)
  next => exact leaves_put fun _ => .nil
  next rest hne hsel =>
    rcases Selection.left_of_ofBranches hsel with rfl | ⟨c, body, more, rfl, hlength⟩
    · exact absurd rfl hne
    · have hmore : more ≠ [] → level + 1 < Text.indexBound := fun hmore =>
        hmarks (Nat.lt_of_le_of_lt (List.length_pos_iff.mpr hmore) hlength)
      refine Ensures.bind (fun hl hp => hp.mono hl)
        (ensures_firstBranch h hc (hleft _ hsel) hlevel hmore) fun out => ?_
      exact .pure fun _ _ hout => hout

/-- The ways down are not gone in the early pass. -/
theorem leaves_tag (h : IsFolding o frame) (ways : Ways σ)
    (hc : ∀ s, o.Source (level + 1) s → ∀ scope, Leaves o (level + 1) (child s scope))
    (p : Placeholder) {content : Option Text} {source : Text} (hlevel : level < Text.indexBound)
    (hsource : o.Source level source) (hcontent : ∀ inside ∈ content, o.Source (level + 1) inside) :
    Leaves o level (tag ways frame child level p content source scope) := by
  have hinside : o.Source (level + 1) (content.getD []) := by
    cases content with
    | none => exact .nil
    | some inside => exact hcontent inside rfl
  unfold tag
  dsimp only
  split
  · exact leaves_condition h hc hinside hlevel p
  · exact leaves_loop h hc hinside hsource _
  · exact leaves_component h hsource _ _ _ _ _
  · exact leaves_component h hsource _ _ _ _ _
  · exact leaves_assignment h _ source
  · exact leaves_randomWord _ source
  · exact leaves_function h _ _ content source

theorem leaves_node (h : IsFolding o frame) (ways : Ways σ)
    (hc : ∀ s, o.Source (level + 1) s → ∀ scope, Leaves o (level + 1) (child s scope))
    {n : Node} (hn : n.Sound o level) (scope : Scope) :
    Leaves o level (node ways frame child level n scope) := by
  cases n with
  | text s =>
    intro p
    obtain ⟨t, ht, hsealed⟩ := interpolate_early h.isEarly h.body scope hn p
    have htext : node ways frame child level (.text s) scope p = ((t, scope), p) := by
      rw [node, text, if_pos h.isEarly]
      simp only [bind, StateT.bind, ht]
      rfl
    rw [htext]
    exact ⟨Nat.le_refl _, fun _ => .text hsealed⟩
  | tag p content source => exact leaves_tag h ways hc p hn.1 hn.2.1 hn.2.2
  | stray p => exact leaves_put fun _ => .nil
  | unclosed source => exact leaves_put fun _ => hn.left

/-- Folding text of the template at a level leaves text that may be left there. -/
theorem leaves_levels (h : IsFolding o frame) (ways : Ways σ) (n : Nat) {level : Nat} {s : Text}
    (hs : o.Source level s) (scope : Scope) :
    Leaves o level (levels ways frame n level s scope) := by
  induction n generalizing level s scope with
  | zero => exact leaves_put fun _ => .nil
  | succ n ih =>
    obtain ⟨f, rfl, hsealed, hparts⟩ := hs
    have hnodes : ∀ node ∈ Node.list level (write (f.pieces level)), node.Sound o level :=
      Node.sound_listFrom hparts hsealed
    exact leaves_inTurn (fun node hm scope =>
      leaves_node h ways (fun s hs scope => ih hs scope) (hnodes node hm) scope) scope

theorem ensures_template (h : IsFolding o frame) (hs : o.Source 0 frame.template.html)
    (scope : Scope) :
    Ensures o.size (template frame scope) fun size s => o.Left false 0 size s := by
  have hblocks : ∀ way n, Leaves o 0 (blocks way n frame 0 frame.template.html scope) := by
    intro way n
    cases n with
    | zero => exact leaves_levels h _ _ hs scope
    | succ n => exact leaves_levels h _ _ hs scope
  have hwith : ∀ way, Ensures o.size (templateWith way frame scope) fun size s =>
      o.Left false 0 size s := by
    intro way
    refine Ensures.bind (fun hl hp => hp.mono hl) (hblocks way _) fun out => ?_
    dsimp only
    rw [if_pos h.isEarly]
    exact .pure fun _ _ hout => hout
  have hnested : ∀ n, Ensures o.size (nested n frame scope) fun size s =>
      o.Left false 0 size s := by
    intro n
    cases n with
    | zero => exact hwith none
    | succ n => exact hwith (some (nested n))
  exact hnested maxDepth

end Rendering

/-- What folding a template leaves. If the text of the template is a forest of tags in which no
other placeholder can arise, then the placeholders of the folded one are those of a forest of tags
of the template and of conditions that the fold writes. The walk of the rendering finds this forest,
each tag with its closer, and the indices are in the table that the fold returns. -/
theorem Page.fold_forest {σ : Type} (site : Site σ) {template : Template} (constants : Scope)
    (world : World σ) {f : Forest (Option Nat)} (hform : template.html = write (f.pieces 0))
    (hsealed : Sealed (f.pieces 0)) (hindex : ∀ n, some n ∈ f.tags → n < template.attrs.length)
    {html : Text} {attrs : List Attributes}
    (hfold : (Page.fold site template constants world).1 = (html, attrs))
    (hsize : attrs.length ≤ Text.indexBound) :
    ∃ g : Forest (Option Nat), Placeholder.pieces html = g.pieces 0 ∧ Forest.walk 0 html = g ∧
      Origin.Folded ⟨f.parts, template.attrs.length⟩ attrs.length false g ∧
      ∀ n, some n ∈ g.tags → n < attrs.length := by
  let o : Origin := ⟨f.parts, template.attrs.length⟩
  let frame := Frame.root site (.early template.attrs.length) template
  have hfolding : Rendering.IsFolding o frame := ⟨rfl, rfl⟩
  have hsource : o.Source 0 template.html := ⟨f, hform, hsealed, List.Subset.refl _⟩
  obtain ⟨-, hleft⟩ := Rendering.ensures_template hfolding hsource constants ⟨.empty, [], world⟩
  obtain ⟨rfl, rfl⟩ := Prod.mk.inj hfold
  rw [List.length_append] at hsize ⊢
  obtain ⟨g, hg, hgsealed, hfolded⟩ := hleft hsize
  have hkept : ∀ p ∈ f.parts, ∀ n, some n ∈ p.tags → n < template.attrs.length :=
    fun p hp n hn => hindex n (Forest.mem_tags_of_mem_parts hp hn)
  refine ⟨g, ?_, ?_, hfolded, hfolded.index_lt (Nat.le_add_right _ _) hkept⟩
  · exact (congrArg Placeholder.pieces hg).trans (pieces_write (hgsealed.readBack []))
  · exact (congrArg (Forest.walk 0) hg).trans (Forest.walk_write (hgsealed.readBack []))

namespace Page

/-- A site without functions and templates. -/
def emptySite : Site Unit := ⟨⟨[], .none, none, [], 1⟩, fun _ _ => pure none⟩

theorem fold_forest_box :
    let box : Forest (Option Nat) :=
      .around "Box".toList (some 0) (.textBefore "{{x}}".toList .nil) .nil
    let f := Forest.textBefore "<b>{{$c}}</b>".toList box
    let template : Template := ⟨[], "<b>{{$c}}</b><Box:0 0>{{x}}</Box:0>".toList,
      [.positional ["x".toList]], [], [], []⟩
    let constants : Scope := [("$c".toList, .str "a".toList)]
    let html := "<b>a</b><Box:0 0>{{x}}</Box:0>".toList
    (fold emptySite template constants ⟨(), []⟩).1 = (html, template.attrs) ∧
      ∃ g : Forest (Option Nat), Placeholder.pieces html = g.pieces 0 ∧ Forest.walk 0 html = g ∧
        Origin.Folded ⟨f.parts, 1⟩ 1 false g ∧ ∀ n, some n ∈ g.tags → n < 1 := by
  intro box f template constants html
  have hfold : (fold emptySite template constants ⟨(), []⟩).1 = (html, template.attrs) := by
    decide +kernel
  have htext : Sealed ("<b>{{$c}}</b>".toList.map .inl) := by
    simp [Sealed, lead, fixed, inert_of_ne, inert_opening, inert_closing]
  have hopen : (⟨"Box".toList, 0, some 0, .opens⟩ : Placeholder).WellFormed :=
    .of_name (by decide) (by decide) (by decide) (by decide) (by decide)
  have hclose : (⟨"Box".toList, 0, none, .closes⟩ : Placeholder).WellFormed :=
    .of_name (by decide) (by decide) (by decide) (by decide) (by decide)
  have hcontent : Sealed ("{{x}}".toList.map .inl) := .text (by decide)
  have hbox : Sealed (box.pieces 0) :=
    ⟨hopen, Sealed.append_placeholder.mpr ⟨hcontent, hclose, trivial⟩⟩
  have hindex : ∀ n, some n ∈ f.tags → n < template.attrs.length := by
    intro n hn
    obtain rfl : n = 0 := by simpa [f, box, Forest.tags, Forest.textBefore] using hn
    decide
  have hsealed : Sealed (f.pieces 0) := htext.append hbox
  exact ⟨hfold, fold_forest emptySite constants _ rfl hsealed hindex hfold (by decide)⟩

/-- The value of a constant, and the brackets of the text around it, make a tag that the template
does not have. -/
theorem fold_forest_unsealed :
    let template : Template := ⟨[], "<{{$x}}/>".toList, [], [], [], []⟩
    let f : Forest (Option Nat) := .textBefore template.html .nil
    let html := "<_x:0/>".toList
    Placeholder.pieces template.html = f.pieces 0 ∧ f.parts = [] ∧
      (fold emptySite template [("$x".toList, .str "_x:0".toList)] ⟨(), []⟩).1 = (html, []) ∧
      ¬∃ g : Forest (Option Nat), Placeholder.pieces html = g.pieces 0 ∧
        Origin.Folded ⟨f.parts, 0⟩ 0 false g := by
  intro template f html
  refine ⟨by decide +kernel, rfl, by decide +kernel, ?_⟩
  rintro ⟨g, hg, hfolded⟩
  have hpieces : Placeholder.pieces html = [.inr ⟨"_x".toList, 0, none, .alone⟩] := by
    decide +kernel
  rw [hpieces] at hg
  cases hfolded with
  | nil => cases hg
  | char c h => cases hg
  | alone ht h => cases ht
  | around ht h => cases ht
  | condition ho hn hc h => exact absurd hn (Nat.not_lt_zero _)

end Page

end Stencil
