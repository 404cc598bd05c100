import Stencil.Page
import Stencil.Proofs.Coupling
import Stencil.Proofs.Occurrence

namespace Stencil.Rendering

variable {σ τ : Type}

/-- Two frames of one template that can be compared on certain texts: the parts of a text that count
as it does, and on them the effects on the world are alike. In the late pass, where templates are
loaded and residual blocks opened, every text has to count. -/
structure Beside (c : Coupling (World σ) (World τ)) (ok : Text → Prop) (f : Frame σ) (g : Frame τ) :
    Prop where
  host : f.site.toHost = g.site.toHost
  pass : f.pass = g.pass
  template : f.template = g.template
  body : f.body = g.body
  mayImport : f.mayImport = g.mayImport
  part : ∀ {s t : Text}, ok s → t <:+: s → ok t
  unfolded : ∀ {s : Text} (l : Loop), ok s → ok (l.expand s)
  late : f.pass.isEarly = false → (∀ s, ok s) ∧
    ∀ kind name, c.Alike (f.site.load kind name) (g.site.load kind name)
  word : ∀ {s : Text} {p : Placeholder}, ok s → p.Occurs s →
    TagRole.ofName p.name = .randomWord → ∀ r : Random Text, c.Alike (World.draw r) (World.draw r)
  call : ∀ {s name : Text} {p : Placeholder} {h : TagFunction}, ok s → p.Occurs s →
    TagRole.ofName p.name = .function name → f.site.functions.find? name = some h →
      ∀ call : Call, c.Alike (World.draw (h.call call)) (World.draw (h.call call))

/-- The ways down from two frames are alike. -/
structure WaysAlike (c : Coupling (World σ) (World τ)) (ok : Text → Prop) (v : Ways σ)
    (w : Ways τ) : Prop where
  block : ∀ {f g}, Beside c ok f g → f.pass.isEarly = false → ∀ s scope,
    c.progress.Alike (v.block f s scope) (w.block g s scope)
  template : Option.Rel (fun inner other => ∀ {f g}, Beside c ok f g → f.pass.isEarly = false →
    ∀ scope, c.progress.Alike (inner f scope) (other g scope)) v.template w.template

variable {c : Coupling (World σ) (World τ)} {ok : Text → Prop} {f : Frame σ} {g : Frame τ}

theorem Beside.resolver (h : Beside c ok f g) (scope : Scope) :
    f.resolver scope = g.resolver scope := by
  simp only [Frame.resolver, h.template, h.pass]

/-- The frame of a template that is called. -/
theorem Beside.called (h : Beside c ok f g) (template : Template) (body : Option Text)
    (mayImport : Bool) :
    Beside c ok { f with template, body, mayImport } { g with template, body, mayImport } :=
  { h with template := rfl, body := rfl, mayImport := rfl }

theorem alike_emit (h : Beside c ok f g) (html : Text) :
    c.progress.Alike (emit f html) (emit g html) := by
  unfold emit
  rw [h.pass]
  split
  · exact .pure _
  · exact alike_stash _

theorem alike_addAttributes (h : Beside c ok f g) (attrs : Attributes) :
    c.progress.Alike (addAttributes f attrs) (addAttributes g attrs) :=
  alike_of_world (fun _ => rfl) (fun _ => rfl) fun p q hf ha => by
    simp [addAttributes, h.pass, hf, ha]

theorem alike_restore (h : Beside c ok f g) (s : Text) :
    c.progress.Alike (restore f s) (restore g s) := by
  unfold restore
  rw [h.template, show f.site.hooks = g.site.hooks by rw [h.host]]
  refine (Coupling.Alike.mapM _ fun piece _ => ?_).map List.flatten |>.bind fun s => .pure _
  rcases piece with ch | _ | b
  · exact .pure [ch]
  · exact .pure []
  · exact alike_stash _

theorem alike_attributeHole (h : Beside c ok f g) (r : Resolver) (hole : Hole) :
    c.progress.Alike (attributeHole f r hole) (attributeHole g r hole) := by
  unfold attributeHole
  dsimp only
  split
  · exact .pure none
  · split
    · exact .pure _
    · exact (alike_emit h _).bind fun a => .pure (some a)
  · exact (alike_emit h _).bind fun a => .pure (some a)

theorem alike_textHole (h : Beside c ok f g) (r : Resolver) (hole : Hole) :
    c.progress.Alike (textHole f r hole) (textHole g r hole) := by
  unfold textHole
  dsimp only
  rw [h.body]
  split
  · exact .pure _
  · split
    · exact .pure none
    · split
      · exact .pure _
      · exact (alike_emit h _).bind fun a => .pure (some a)

theorem alike_interpolate (h : Beside c ok f g) (scope : Scope) (s : Text) :
    c.progress.Alike (interpolate f scope s) (interpolate g scope s) := by
  unfold interpolate
  rw [h.resolver]
  exact (alike_fillTagsM (alike_attributeHole h _) s).bind fun s =>
    alike_fillM (alike_textHole h _) s

theorem alike_inPlace (h : Beside c ok f g) {child : Text → Scope → Rendering σ Output}
    {other : Text → Scope → Rendering τ Output} {content : Text} {scope : Scope}
    (hc : c.progress.Alike (child content scope) (other content scope)) :
    c.progress.Alike (inPlace f child content scope) (inPlace g other content scope) := by
  unfold inPlace
  rw [h.pass]
  exact hc.bind fun out => alike_put _ _

section Tags

variable {child : Text → Scope → Rendering σ Output} {other : Text → Scope → Rendering τ Output}

theorem alike_writeBranches (h : Beside c ok f g)
    (hc : ∀ s, ok s → ∀ scope, c.progress.Alike (child s scope) (other s scope)) (level : Nat)
    (scope : Scope) (isFirst : Bool) {branches : List (Option Condition × Text)}
    (hb : ∀ b ∈ branches, ok b.2) :
    c.progress.Alike (writeBranches f child level scope isFirst branches)
      (writeBranches g other level scope isFirst branches) := by
  induction branches generalizing isFirst with
  | nil => exact .pure []
  | cons b branches ih =>
    refine (Coupling.Alike.mapOption b.1 fun c _ => alike_addAttributes h _).bind fun index => ?_
    refine (hc b.2 (hb b List.mem_cons_self) scope).bind fun out => ?_
    refine (ih false fun b hm => hb b (List.mem_cons_of_mem _ hm)).bind fun rest => ?_
    exact .pure _

end Tags

end Stencil.Rendering

namespace Stencil.Selection

theorem mem_of_remaining {outcome : Branch → Outcome} {branches : List Branch}
    {b : Option Condition × Text} (h : b ∈ remaining outcome branches) :
    ∃ branch ∈ branches, b.2 = branch.body := by
  induction branches with
  | nil => simp [remaining] at h
  | cons first more ih =>
    have hmore : b ∈ remaining outcome more → ∃ branch ∈ first :: more, b.2 = branch.body :=
      fun h => (ih h).imp fun branch hb => ⟨List.mem_cons_of_mem _ hb.1, hb.2⟩
    unfold remaining at h
    split at h
    · exact ⟨first, List.mem_cons_self, by rw [List.mem_singleton.mp h]⟩
    · exact hmore h
    · rcases List.mem_cons.mp h with rfl | h
      · exact ⟨first, List.mem_cons_self, rfl⟩
      · exact hmore h

/-- What is selected are bodies of the branches. -/
theorem mem_ofBranches (outcome : Branch → Outcome) (branches : List Branch) :
    match ofBranches outcome branches with
    | .chosen body => ∃ branch ∈ branches, body = branch.body
    | .left rest => ∀ b ∈ rest, ∃ branch ∈ branches, b.2 = branch.body := by
  induction branches with
  | nil => simp [ofBranches]
  | cons first more ih =>
    unfold ofBranches
    cases hf : outcome first with
    | known b =>
      cases b with
      | true => exact ⟨first, List.mem_cons_self, rfl⟩
      | false =>
        dsimp only
        split
        next hs =>
          rw [hs] at ih
          exact ih.imp fun branch hb => ⟨List.mem_cons_of_mem _ hb.1, hb.2⟩
        next hs =>
          rw [hs] at ih
          exact fun b hb => (ih b hb).imp fun branch hb => ⟨List.mem_cons_of_mem _ hb.1, hb.2⟩
    | residual condition =>
      intro b hb
      rcases List.mem_cons.mp hb with rfl | hb
      · exact ⟨first, List.mem_cons_self, rfl⟩
      · exact (mem_of_remaining hb).imp fun branch hb => ⟨List.mem_cons_of_mem _ hb.1, hb.2⟩

end Stencil.Selection

namespace Stencil.Rendering

variable {σ τ : Type} {c : Coupling (World σ) (World τ)} {ok : Text → Prop} {f : Frame σ}
  {g : Frame τ} {child : Text → Scope → Rendering σ Output}
  {other : Text → Scope → Rendering τ Output} {s source : Text} {p : Placeholder}
  {content : Option Text}

theorem alike_condition (h : Beside c ok f g)
    (hc : ∀ s, ok s → ∀ scope, c.progress.Alike (child s scope) (other s scope)) {content : Text}
    (hok : ok content) (level : Nat) (scope : Scope) :
    c.progress.Alike (condition f child p content level scope)
      (condition g other p content level scope) := by
  unfold condition
  dsimp only
  rw [h.resolver, h.template]
  have hbody : ∀ b ∈ Branch.list (level + 1) p.attrs content, ok b.body := fun b hb =>
    h.part hok (Branch.infix_of_mem_list hb)
  have hsel := Selection.mem_ofBranches
    (Selection.outcome (g.resolver scope) g.template.attributes)
    (Branch.list (level + 1) p.attrs content)
  split
  next body hs =>
    rw [hs] at hsel
    obtain ⟨b, hb, rfl⟩ := hsel
    exact alike_inPlace h (hc _ (hbody b hb) scope)
  next => exact alike_put _ _
  next left _ hs =>
    rw [hs] at hsel
    refine (alike_writeBranches h hc level scope true fun b hb => ?_).bind fun out => alike_put _ _
    obtain ⟨branch, hm, he⟩ := hsel b hb
    exact he ▸ hbody branch hm

theorem alike_loop (h : Beside c ok f g)
    (hc : ∀ s, ok s → ∀ scope, c.progress.Alike (child s scope) (other s scope)) {content : Text}
    (hok : ok content) (attrs : Attributes) (source : Text) (scope : Scope) :
    c.progress.Alike (loop f child attrs content source scope)
      (loop g other attrs content source scope) := by
  unfold loop
  split
  next => exact alike_put _ _
  next l _ =>
    rw [h.resolver, h.pass]
    split
    next => exact alike_put _ _
    next items _ =>
      split
      · exact alike_put _ _
      · refine (Coupling.Alike.mapM items fun item _ => ?_).bind fun outs => alike_put _ _
        exact alike_inPlace h (hc _ (h.unfolded l hok) _)

theorem alike_assignment (h : Beside c ok f g) (attrs : Attributes) (source : Text)
    (scope : Scope) :
    c.progress.Alike (assignment f attrs source scope) (assignment g attrs source scope) := by
  unfold assignment
  rw [h.pass, h.resolver]
  split
  · exact alike_put _ _
  · exact alike_put _ _

theorem alike_randomWord (h : Beside c ok f g) (hok : ok s) (hp : p.Occurs s)
    (hr : TagRole.ofName p.name = .randomWord) (attrs : Attributes) (source : Text)
    (scope : Scope) :
    c.progress.Alike (randomWord f attrs source scope) (randomWord g attrs source scope) := by
  unfold randomWord
  split
  next => exact alike_put _ _
  next name _ =>
    rw [h.pass, h.template]
    split
    · exact alike_put _ _
    · exact (alike_onWorld (h.word hok hp hr _)).bind fun w => alike_put _ _

theorem alike_function (h : Beside c ok f g) (hok : ok s) (hp : p.Occurs s) {name : Text}
    (hr : TagRole.ofName p.name = .function name) (attrs : Attributes) (content : Option Text)
    (source : Text) (scope : Scope) :
    c.progress.Alike (function f name attrs content source scope)
      (function g name attrs content source scope) := by
  unfold function
  have hcall := @h.call s name p
  rw [← h.pass, ← h.resolver, ← h.host]
  dsimp only
  split
  next => exact alike_put _ _
  next fn hfn =>
    split
    · exact alike_put _ _
    · refine (alike_onWorld (hcall hok hp hr hfn _)).bind fun out => ?_
      split
      · exact (alike_emit h _).bind fun a => alike_put _ _
      · exact alike_put _ _

theorem alike_slot (h : Beside c ok f g)
    (hc : ∀ s, ok s → ∀ scope, c.progress.Alike (child s scope) (other s scope)) (scope : Scope)
    {content : Text} (hok : ok content) :
    c.progress.Alike (slot f child scope content) (slot g other scope content) :=
  (hc content hok scope).bind fun _ => (alike_restore h _).bind fun s => alike_stash s

theorem alike_component (h : Beside c ok f g)
    (hc : ∀ s, ok s → ∀ scope, c.progress.Alike (child s scope) (other s scope)) {v : Ways σ}
    {w : Ways τ} (hw : WaysAlike c ok v w) (kind : TemplateKind) (name : Text) (attrs : Attributes)
    (hok : ∀ inside ∈ content, ok inside) (source : Text) (scope : Scope) :
    c.progress.Alike (component f child v.template kind name attrs content source scope)
      (component g other w.template kind name attrs content source scope) := by
  unfold component
  rw [← h.pass]
  split
  · exact alike_put _ _
  next hlate =>
    have hlate : f.pass.isEarly = false := by simpa using hlate
    have himport : allowsImports f scope = allowsImports g scope := by
      simp only [allowsImports, h.mayImport]
    have hinner := hw.template
    generalize v.template = inner, w.template = outer at hinner
    cases hinner with
    | none => exact alike_put _ _
    | some hinner =>
      rw [himport]
      dsimp only
      split
      · exact alike_put _ _
      · refine (alike_onWorld ((h.late hlate).2 kind name)).bind fun found => ?_
        cases found with
        | none => exact alike_put _ _
        | some template =>
          dsimp only
          rw [h.resolver]
          refine (Coupling.Alike.mapOption content fun inside hm =>
            alike_slot h hc scope (hok inside hm)).bind fun body => ?_
          rw [h.mayImport]
          have hcalled := h.called template body (g.mayImport && !forbidsImports attrs)
          rw [← h.pass] at hcalled
          exact (hinner hcalled hlate _).bind fun html =>
            (alike_stash html).bind fun s => alike_put _ _

theorem alike_piece (h : Beside c ok f g) (hlate : f.pass.isEarly = false) {v : Ways σ} {w : Ways τ}
    (hw : WaysAlike c ok v w) (q : Text ⊕ Text) (scope : Scope) :
    c.progress.Alike (piece v f q scope) (piece w g q scope) := by
  unfold piece
  cases q with
  | inl s => exact (alike_interpolate h scope s).bind fun s => alike_put _ _
  | inr payload =>
    dsimp only
    split
    · exact hw.block h hlate _ scope
    · exact alike_put _ _

theorem alike_text (h : Beside c ok f g) {v : Ways σ} {w : Ways τ} (hw : WaysAlike c ok v w)
    (s : Text) (scope : Scope) : c.progress.Alike (text v f s scope) (text w g s scope) := by
  unfold text
  rw [← h.pass]
  split
  · exact (alike_interpolate h scope s).bind fun s => alike_put _ _
  next hlate => exact alike_inTurn _ (fun q _ => alike_piece h (by simpa using hlate) hw q) scope

/-- A tag that occurs in a text that counts. -/
theorem alike_tag (h : Beside c ok f g) {v : Ways σ} {w : Ways τ} (hw : WaysAlike c ok v w)
    (hc : ∀ s, ok s → ∀ scope, c.progress.Alike (child s scope) (other s scope)) (hok : ok s)
    (hp : p.Occurs s) (hin : ∀ inside ∈ content, inside <:+: s) (level : Nat) (source : Text)
    (scope : Scope) :
    c.progress.Alike (tag v f child level p content source scope)
      (tag w g other level p content source scope) := by
  have hcontent : ∀ inside ∈ content, ok inside := fun inside hm => h.part hok (hin inside hm)
  have hgiven : ok (content.getD []) := by
    cases content with
    | none => exact h.part hok List.nil_infix
    | some inside => exact hcontent inside rfl
  unfold tag
  dsimp only
  rw [h.template]
  cases hr : TagRole.ofName p.name with
  | condition => exact alike_condition h hc hgiven level scope
  | loop => exact alike_loop h hc hgiven _ source scope
  | imports name => exact alike_component h hc hw .imported name _ hcontent source scope
  | component name => exact alike_component h hc hw .component name _ hcontent source scope
  | assignment => exact alike_assignment h _ source scope
  | randomWord => exact alike_randomWord h hok hp hr _ source scope
  | function name => exact alike_function h hok hp hr _ content source scope

theorem alike_levels (h : Beside c ok f g) {v : Ways σ} {w : Ways τ} (hw : WaysAlike c ok v w)
    (n level : Nat) (hok : ok s) (scope : Scope) :
    c.progress.Alike (levels v f n level s scope) (levels w g n level s scope) := by
  induction n generalizing level s scope with
  | zero => exact alike_put _ _
  | succ n ih =>
    refine alike_inTurn _ (fun node hm scope => ?_) scope
    cases node with
    | text s => exact alike_text h hw s scope
    | tag p content source =>
      obtain ⟨hp, hin⟩ := Node.occurs_of_mem_list hm
      exact alike_tag h hw (fun s hok scope => ih (level + 1) hok scope) hok hp hin level source
        scope
    | stray p => exact alike_put _ _
    | unclosed source => exact alike_put _ _

theorem alike_blocks {a : Option (Frame σ → Scope → Rendering σ Text)}
    {b : Option (Frame τ → Scope → Rendering τ Text)}
    (ht : Option.Rel (fun inner other => ∀ {f g}, Beside c ok f g → f.pass.isEarly = false →
      ∀ scope, c.progress.Alike (inner f scope) (other g scope)) a b)
    (h : Beside c ok f g) (n level : Nat) (hok : ok s) (scope : Scope) :
    c.progress.Alike (blocks a n f level s scope) (blocks b n g level s scope) := by
  induction n generalizing f g level s scope with
  | zero => exact alike_levels h ⟨fun _ _ _ _ => alike_put _ _, ht⟩ _ level hok scope
  | succ n ih =>
    refine alike_levels h ⟨fun h hlate block scope => ?_, ht⟩ _ level hok scope
    exact ih h _ ((h.late hlate).1 block) scope

theorem alike_templateWith {a : Option (Frame σ → Scope → Rendering σ Text)}
    {b : Option (Frame τ → Scope → Rendering τ Text)}
    (ht : Option.Rel (fun inner other => ∀ {f g}, Beside c ok f g → f.pass.isEarly = false →
      ∀ scope, c.progress.Alike (inner f scope) (other g scope)) a b)
    (h : Beside c ok f g) (hok : ok f.template.html) (scope : Scope) :
    c.progress.Alike (templateWith a f scope) (templateWith b g scope) := by
  have hbound : f.site.maxBlocks = g.site.maxBlocks := congrArg Host.maxBlocks h.host
  unfold templateWith
  rw [← h.template, ← h.pass, hbound]
  refine (alike_blocks ht h g.site.maxBlocks 0 hok scope).bind fun out => ?_
  by_cases hp : f.pass.isEarly = true
  · simp only [hp, if_true]
    exact .pure _
  · simp only [hp]
    exact alike_restore h _

theorem alike_nested (n : Nat) (h : Beside c ok f g) (hok : ok f.template.html) (scope : Scope) :
    c.progress.Alike (nested n f scope) (nested n g scope) := by
  induction n generalizing f g scope with
  | zero => exact alike_templateWith .none h hok scope
  | succ n ih =>
    refine alike_templateWith (.some fun {f g} h hlate scope => ?_) h hok scope
    exact ih h ((h.late hlate).1 _) scope

/-- The renderings of a template at two sites are alike if what they do to the world is. -/
theorem alike_template (h : Beside c ok f g) (hok : ok f.template.html) (scope : Scope) :
    c.progress.Alike (template f scope) (template g scope) :=
  alike_nested maxDepth h hok scope

end Stencil.Rendering
