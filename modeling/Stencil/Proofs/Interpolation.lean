import Stencil.Page
import Stencil.Proofs.Insertion
import Stencil.Proofs.Lookup
import Stencil.Proofs.StartTag

namespace Stencil

/-- The text that is inserted for a hole in running text. -/
def Hole.inserted (r : Resolver) (h : Hole) : Text :=
  let value := (r.text? (Expression.binding h.expr).2).getD []
  if h.raw then value else Escape.runningText value

theorem Filling.inText_late {r : Resolver} (hr : r.pre = false) (h : Hole) :
    Filling.inText none r h = .fragment (h.inserted r) := by
  obtain ⟨value, hv⟩ := Option.isSome_iff_exists.mp
    (Resolver.text?_isSome hr (Expression.binding h.expr).2)
  simp [Filling.inText, Hole.inserted, hv]

namespace Rendering

variable {σ : Type} {frame : Frame σ}

theorem list_of_none {s : Text} (h : Placeholder.next? s = none) (level : Nat) :
    Node.list level s = [.text s] := by
  unfold Node.list
  rw [Node.listFrom]
  split
  next => rfl
  next hf =>
    rw [h] at hf
    simp at hf

theorem whole_plain {ways : Ways σ} (hlate : frame.pass = .late) {s : Text}
    (hnext : Placeholder.next? s = none) (hblock : Residual.pieces s = [.inl s]) (level : Nat)
    (scope : Scope) (p : Progress σ) : whole ways frame level s scope p =
      (((interpolate frame scope s p).1, scope), (interpolate frame scope s p).2) := by
  have hearly : frame.pass.isEarly = false := by rw [hlate]; rfl
  rcases hout : interpolate frame scope s p with ⟨out, q⟩
  simp [whole, levels, list_of_none hnext, inTurn, node, text, hearly, hblock, piece,
    put, bind, StateT.bind, pure, StateT.pure, hout]

theorem blocks_plain {template : Option (Frame σ → Scope → Rendering σ Text)}
    (hlate : frame.pass = .late) {s : Text} (hnext : Placeholder.next? s = none)
    (hblock : Residual.pieces s = [.inl s]) (n level : Nat) (scope : Scope)
    (p : Progress σ) : blocks template n frame level s scope p =
      (((interpolate frame scope s p).1, scope), (interpolate frame scope s p).2) := by
  cases n <;> exact whole_plain hlate hnext hblock level scope p

/-- The last rendering of a template without tags fills its holes and puts its blocks back. -/
theorem template_plain (hlate : frame.pass = .late)
    (hnext : Placeholder.next? frame.template.html = none)
    (hblock : Residual.pieces frame.template.html = [.inl frame.template.html]) (scope : Scope)
    (p : Progress σ) : template frame scope p =
      restore frame (interpolate frame scope frame.template.html p).1
        (interpolate frame scope frame.template.html p).2 := by
  have hwith : ∀ t, templateWith t frame scope p =
      restore frame (interpolate frame scope frame.template.html p).1
        (interpolate frame scope frame.template.html p).2 := fun t => by
    have hearly : frame.pass.isEarly = false := by rw [hlate]; rfl
    have hblocks := @blocks_plain σ frame t hlate _ hnext hblock frame.site.maxBlocks 0 scope p
    simp only [templateWith, bind, StateT.bind, hblocks, hearly]
    rfl
  unfold template
  cases maxDepth <;> exact hwith _

/-- The last rendering puts references into the holes of a text without tags, and the inserted texts
are the new fragments. -/
theorem interpolate_encoded (hlate : frame.pass = .late) (hbody : frame.body = none) (scope : Scope)
    {ps : List Hole.Piece} (hp : Hole.Parted ps) (hb : Bare (Hole.write ps)) (p : Progress σ) :
    interpolate frame scope (Hole.write (Hole.encoded ps)) p =
      let page := Insertion.ofPieces (Hole.inserted (frame.resolver scope)) ps
      (Mark.write (page.marks p.size), p.stashAll (page.values.map Marker.encode)) := by
  have hearly : frame.pass.isEarly = false := by rw [hlate]; rfl
  have hpre : (frame.resolver scope).pre = false := hearly
  have hrun : (Markup.last (Hole.encoded ps)).WellFormed :=
    ⟨Hole.parted_encoded hp, fun a c b he =>
      (isBareAfter_iff.mp ((Hole.bare_encoded hb).after he)).1⟩
  have hfill : (Filling.inText none (frame.resolver scope)) =
      fun h => .fragment (h.inserted (frame.resolver scope)) :=
    funext fun h => Filling.inText_late hpre h
  refine (interpolate_written frame scope hrun (by simp [Markup.tags]) p).trans ?_
  simp only [Markup.attributeFragments, Markup.tags, Markup.texts, Markup.once, List.flatMap_nil,
    Progress.stashAll_nil, hearly, hbody, hfill, Insertion.write_pieces,
    Insertion.fragments_pieces]

theorem respelled_pieces (insert : Hole → Text) (ps : List Hole.Piece) (n : Nat) :
    Respelled (Hole.write ps)
      (Hole.write
        (Filling.pieces false n (ps.map (Sum.map id fun h => .fragment (insert h))))) := by
  induction ps generalizing n with
  | nil => exact .nil
  | cons p ps ih =>
    cases p with
    | inl c => exact .char c (ih n)
    | inr h =>
      have hdigits : '<' ∉ Text.ofNat n := Text.not_mem_ofNat (by decide) n
      have := Respelled.other h.written (c := '%')
        (w := '!' :: 'v' :: (Text.ofNat n ++ Marker.closing)) rfl
        (by simp [Marker.closing, hdigits]) (ih (n + 1))
      simpa [Filling.pieces, Reference.write, Reference.fragment, Hole.write_map_inl] using this

theorem mapM_chars {α : Type} {f : Char ⊕ α → Rendering σ Text} (hf : ∀ c, f (.inl c) = pure [c])
    (s : Text) (p : Progress σ) : (s.map Sum.inl).mapM f p = (s.map fun c => [c], p) := by
  induction s with
  | nil => rfl
  | cons c s ih =>
    have hc : f (.inl c) p = ([c], p) := by rw [hf]; rfl
    exact mapM_cons_run hc ih

theorem reinject_bare {s : Text} (h : Bare s) (hooks : Hooks) (blocks : List Block)
    (p : Progress σ) : Block.reinjectM hooks blocks stash s p = (s, p) := by
  have hflat : (s.map fun c => [c]).flatten = s := by
    induction s with
    | nil => rfl
    | cons c s ih => exact congrArg (List.cons c) (ih h.2)
  rw [Block.reinjectM, h.blockPieces]
  simp only [bind, StateT.bind]
  rw [mapM_chars (fun c => rfl)]
  exact Prod.ext hflat rfl

/-- There are no blocks and no literals to put back into a page whose references are told apart. -/
theorem restore_marks {page : Insertion} {n : Nat} (hb : Bare (Mark.write (page.marks n)))
    (ha : Reference.Apart [] (fun ds => (frame.template.literals.find? ds).isSome) (page.marks n))
    (p : Progress σ) :
    restore frame (Mark.write (page.marks n)) p = (Mark.write (page.marks n), p) := by
  have hk : Mark.IsLabel [] := by simp [Mark.IsLabel]
  have hkept : frame.template.literals.requoteKept (Mark.write (page.marks n)) =
      Mark.write (page.marks n) := by
    rw [LiteralTable.requoteKept]
    refine (Reference.substitute_write hk (fun _ => by rw [Option.isSome_map])
      (Insertion.settled_marks n page) ha).trans ?_
    refine Mark.flatMap_ofPage (fun c => rfl) rfl rfl fun v _ => ?_
    have : Reference.isLabel [] ('v' :: Text.ofNat v.1) = false := by
      simp [Reference.isLabel, Text.strip?, isDecimalDigit]
    simp [Reference.substituted, this, Mark.write]
  simp only [restore, bind, StateT.bind, reinject_bare hb, hkept]
  rfl

end Rendering

namespace Page

variable {σ : Type}

/-- What the last rendering of a template looks names and literals up in. -/
def resolver (template : Template) (scope : Scope) : Resolver := ⟨scope, template.literals, false⟩

/-- A page of text and holes comes out with the holes replaced by what is inserted for them. -/
theorem compile_encoded (site : Site σ) {template : Template} {ps : List Hole.Piece}
    (hhtml : template.html = Hole.write (Hole.encoded ps)) (hp : Hole.Parted ps)
    (hb : Bare (Hole.write ps)) (hblock : Residual.pieces template.html = [.inl template.html])
    {scope : Scope} {page : Insertion}
    (hpage : page = .ofPieces (Hole.inserted (resolver template scope)) ps)
    (hn : page.values.length < Text.indexBound) (hi : page.Isolated template.literals)
    (world : World σ) :
    compile site template scope none world =
      (Video.inject (Layout.injectPublic page.text scope) site.assets, world) := by
  have hbare : Bare template.html := hhtml ▸ Hole.bare_encoded hb
  let frame : Frame σ := .root site .late template
  let p : Progress σ := ⟨.empty, [], world⟩
  have hmarks : Bare (Mark.write (page.marks 0)) := by
    rw [hpage, ← Insertion.write_pieces]
    exact (Rendering.respelled_pieces _ _ 0).bare (hhtml ▸ hbare)
  have htemplate : Rendering.template frame scope p =
      (Mark.write (page.marks 0), p.stashAll (page.values.map Marker.encode)) := by
    have hout : Rendering.interpolate frame scope template.html p =
        (Mark.write (page.marks 0), p.stashAll (page.values.map Marker.encode)) := by
      rw [hhtml, hpage]
      exact Rendering.interpolate_encoded rfl rfl scope hp hb p
    have hplain := @Rendering.template_plain σ frame rfl hbare.next?_eq_none hblock scope p
    refine hplain.trans ?_
    rw [show frame.template.html = template.html from rfl, hout]
    exact Rendering.restore_marks hmarks hi.literals _
  have hassemble : (p.stashAll (page.values.map Marker.encode)).fragments.assemble
      (Mark.write (page.marks 0)) = Mark.write page.filled := by
    have : (p.stashAll (page.values.map Marker.encode)).fragments =
        ⟨(page.values.map Marker.encode).toArray⟩ := by
      simp [Progress.stashAll, p, Fragments.empty]
    rw [this]
    exact Fragments.assemble_marks hn hi.fragments hi.values
  have hfinish : finish site scope (p.stashAll (page.values.map Marker.encode)).fragments
      (Mark.write (page.marks 0)) none =
        Video.inject (Layout.injectPublic page.text scope) site.assets := by
    simp only [finish, hassemble, Insertion.decode_filled hi.markers]
  simp only [compile, layout?, start, bind, StateT.bind, pure, StateT.pure, Option.map_none,
    Option.filter_none, Option.mapM_none]
  rw [show Rendering.template (.root site .late template) scope ⟨.empty, [], world⟩ = _ from
    htemplate]
  exact Prod.ext hfinish rfl

end Page

end Stencil
