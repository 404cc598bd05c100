import Stencil.Page
import Stencil.Proofs.SideBySide

namespace Stencil

variable {σ : Type}

/-- Can a site load this template under a name, in some state of the world? -/
def Site.Gives (site : Site σ) (kind : TemplateKind) (name : Text) (t : Template) : Prop :=
  ∃ world, (site.load kind name world).1 = some t

/-- The kind and the name of the template that a tag calls. -/
def TagRole.called? : TagRole → Option (TemplateKind × Text)
  | imports name => some (.imported, name)
  | component name => some (.component, name)
  | _ => none

namespace Node

/-- The texts that are rendered for a tag, one level below it: its content, the bodies of its
branches, and its content with the shorthand of a loop written out. -/
inductive Inside (level : Nat) : Node → Text → Prop
  | content {p : Placeholder} {content source : Text} :
      Inside level (.tag p (some content) source) content
  | branch {p : Placeholder} {content : Option Text} {source : Text} {b : Branch}
      (h : b ∈ Branch.list (level + 1) p.attrs (content.getD [])) :
      Inside level (.tag p content source) b.body
  | unfolded {p : Placeholder} {content : Option Text} {source : Text} (l : Loop) :
      Inside level (.tag p content source) (l.expand (content.getD []))

/-- The blocks that are sealed in running text. -/
inductive Seals : Node → Text → Prop
  | text {s payload block : Text} (h : .inr payload ∈ Residual.pieces s)
      (hb : Residual.block? payload = some block) : Seals (.text s) block

/-- The templates that a tag names. -/
inductive Names : Node → TemplateKind → Text → Prop
  | tag {p : Placeholder} {content : Option Text} {source : Text} {kind : TemplateKind}
      {name : Text} (h : (TagRole.ofName p.name).called? = some (kind, name)) :
      Names (.tag p content source) kind name

end Node

namespace Rendering

variable {frame : Frame σ} {child other : Text → Scope → Rendering σ Output}

theorem inTurn_congr {α : Type} {f g : α → Scope → Rendering σ Output} {as : List α}
    (h : ∀ a ∈ as, f a = g a) : inTurn f as = inTurn g as := by
  induction as with
  | nil => rfl
  | cons a as ih =>
    have ha := h a List.mem_cons_self
    have has := ih fun b hb => h b (List.mem_cons_of_mem a hb)
    funext scope
    simp only [inTurn, ha, has]

theorem inPlace_congr {s : Text} (h : child s = other s) :
    inPlace frame child s = inPlace frame other s := by
  funext scope
  simp only [inPlace, h]

theorem writeBranches_congr {branches : List (Option Condition × Text)}
    (h : ∀ b ∈ branches, child b.2 = other b.2) (level : Nat) (scope : Scope) (isFirst : Bool) :
    writeBranches frame child level scope isFirst branches =
      writeBranches frame other level scope isFirst branches := by
  induction branches generalizing isFirst with
  | nil => rfl
  | cons b branches ih =>
    obtain ⟨condition, body⟩ := b
    have hbody : child body = other body := h (condition, body) List.mem_cons_self
    have hmore := ih (fun b hb => h b (List.mem_cons_of_mem _ hb)) false
    simp only [writeBranches, hbody, hmore]

theorem condition_congr {p : Placeholder} {content : Text} {level : Nat}
    (h : ∀ b ∈ Branch.list (level + 1) p.attrs content, child b.body = other b.body)
    (scope : Scope) : condition frame child p content level scope =
      condition frame other p content level scope := by
  have hsel := Selection.mem_ofBranches
    (Selection.outcome (frame.resolver scope) frame.template.attributes)
    (Branch.list (level + 1) p.attrs content)
  simp only [condition]
  generalize Selection.ofBranches _ _ = selection at hsel
  match selection with
  | .chosen body =>
    obtain ⟨b, hb, rfl⟩ := hsel
    exact congrFun (inPlace_congr (h b hb)) scope
  | .left [] => rfl
  | .left (b :: more) =>
    have hbranches : ∀ c ∈ b :: more, child c.2 = other c.2 := by
      intro c hc
      obtain ⟨branch, hm, he⟩ := hsel c hc
      rw [he, h branch hm]
    simp only [writeBranches_congr hbranches]

theorem loop_congr {content : Text}
    (h : ∀ l : Loop, child (l.expand content) = other (l.expand content)) (attrs : Attributes)
    (source : Text) (scope : Scope) :
    loop frame child attrs content source scope = loop frame other attrs content source scope := by
  have hplace : ∀ l : Loop, inPlace frame child (l.expand content) =
      inPlace frame other (l.expand content) := fun l => inPlace_congr (h l)
  simp only [loop, hplace]

theorem slot_congr {s : Text} (h : child s = other s) (scope : Scope) :
    slot frame child scope s = slot frame other scope s := by
  simp only [slot, h]

/-- What is done with a template depends on what it does with those that the site can load. -/
theorem load_bind_congr {α : Type} {kind : TemplateKind} {name : Text}
    {f g : Option Template → Rendering σ α} (hnone : f none = g none)
    (hsome : ∀ t, frame.site.Gives kind name t → f (some t) = g (some t)) :
    (load frame kind name >>= f) = (load frame kind name >>= g) := by
  funext p
  change f (frame.site.load kind name p.world).1 _ = g (frame.site.load kind name p.world).1 _
  cases hl : (frame.site.load kind name p.world).1 with
  | none => rw [hnone]
  | some t => rw [hsome t ⟨p.world, hl⟩]

/-- Two ways into templates that do the same for those that a tag can call. -/
def SameInto (frame : Frame σ) (kind : TemplateKind) (name : Text) :
    Option (Frame σ → Scope → Rendering σ Text) → Option (Frame σ → Scope → Rendering σ Text) →
      Prop :=
  Option.Rel fun f g => ∀ template body mayImport, frame.site.Gives kind name template →
    f { frame with template, body, mayImport } = g { frame with template, body, mayImport }

theorem component_congr {v w : Option (Frame σ → Scope → Rendering σ Text)} {kind : TemplateKind}
    {name : Text} {content : Option Text} (hc : ∀ s ∈ content, child s = other s)
    (hw : frame.pass.isEarly = false → SameInto frame kind name v w) (attrs : Attributes)
    (source : Text) (scope : Scope) :
    component frame child v kind name attrs content source scope =
      component frame other w kind name attrs content source scope := by
  unfold component
  split
  · rfl
  next hlate =>
    have hslot : content.mapM (slot frame child scope) = content.mapM (slot frame other scope) := by
      cases content with
      | none => rfl
      | some s =>
        have hs : slot frame child scope s = slot frame other scope s := slot_congr (hc s rfl) scope
        simp only [Option.mapM_some, hs]
    cases hw (by simpa using hlate) with
    | none => rfl
    | some hinner =>
      dsimp only
      split
      · rfl
      · refine load_bind_congr rfl fun t ht => ?_
        simp only [hslot, fun body mayImport => hinner t body mayImport ht]

/-- Two ways down, and two ways into what is inside tags, that do the same where a node goes. -/
structure Agree (frame : Frame σ) (level : Nat) (n : Node) (v w : Ways σ)
    (child other : Text → Scope → Rendering σ Output) : Prop where
  inside : ∀ s, n.Inside level s → child s = other s
  block : frame.pass.isEarly = false → ∀ s, n.Seals s → v.block frame s = w.block frame s
  template : frame.pass.isEarly = false → ∀ kind name, n.Names kind name →
    SameInto frame kind name v.template w.template

theorem piece_congr {v w : Ways σ} {p : Text ⊕ Text}
    (h : ∀ payload block, p = .inr payload → Residual.block? payload = some block →
      v.block frame block = w.block frame block) : piece v frame p = piece w frame p := by
  funext scope
  unfold piece
  cases p with
  | inl s => rfl
  | inr payload =>
    dsimp only
    split
    next block hb => rw [h payload block rfl hb]
    next => rfl

/-- What a node puts out depends on what is done where it goes, and on nothing else. -/
theorem node_congr {level : Nat} {n : Node} {v w : Ways σ}
    (h : Agree frame level n v w child other) :
    node v frame child level n = node w frame other level n := by
  funext scope
  cases n with
  | text s =>
    change text v frame s scope = text w frame s scope
    unfold text
    split
    · rfl
    next hlate =>
      have hlate : frame.pass.isEarly = false := by simpa using hlate
      refine congrFun (inTurn_congr fun p hp => piece_congr ?_) scope
      rintro payload block rfl hb
      exact h.block hlate block (.text hp hb)
  | tag p content source =>
    have hcontent : ∀ s ∈ content, child s = other s := by
      rintro s rfl
      exact h.inside s .content
    change tag v frame child level p content source scope =
      tag w frame other level p content source scope
    simp only [tag]
    cases hr : TagRole.ofName p.name with
    | condition => exact condition_congr (fun b hb => h.inside b.body (.branch hb)) scope
    | loop => exact loop_congr (fun l => h.inside _ (.unfolded l)) _ source scope
    | imports name =>
      refine component_congr hcontent (fun hlate => h.template hlate _ _ (.tag ?_)) _ source scope
      rw [hr]
      rfl
    | component name =>
      refine component_congr hcontent (fun hlate => h.template hlate _ _ (.tag ?_)) _ source scope
      rw [hr]
      rfl
    | assignment => rfl
    | randomWord => rfl
    | function name => rfl
  | stray p => rfl
  | unclosed source => rfl

end Rendering

/-- A text that is to be rendered: how many templates it is nested in, in which frame and at which
level. -/
structure Job (σ : Type) where
  depth : Nat
  frame : Frame σ
  level : Nat
  text : Text

namespace Job

open Rendering

/-- The template of a frame. -/
def ofFrame (depth : Nat) (frame : Frame σ) : Job σ := ⟨depth, frame, 0, frame.template.html⟩

/-- The jobs that a job calls. -/
inductive Calls (j : Job σ) : Job σ → Prop
  | inside {n : Node} {s : Text} (hn : n ∈ Node.list j.level j.text) (hs : n.Inside j.level s) :
      Calls j { j with level := j.level + 1, text := s }
  | block {n : Node} {s : Text} (hlate : j.frame.pass.isEarly = false)
      (hn : n ∈ Node.list j.level j.text) (hs : n.Seals s) :
      Calls j { j with level := Residual.depth s, text := s }
  | template {n : Node} {kind : TemplateKind} {name : Text} {template : Template}
      (hlate : j.frame.pass.isEarly = false) (hdepth : j.depth < maxDepth)
      (hn : n ∈ Node.list j.level j.text) (hname : n.Names kind name)
      (ht : j.frame.site.Gives kind name template) (body : Option Text) (mayImport : Bool) :
      Calls j (ofFrame (j.depth + 1) { j.frame with template, body, mayImport })

/-- Renders the template of a frame by the given rendering of its text. -/
def whole (run : Job σ → Scope → Rendering σ Output) (depth : Nat) (frame : Frame σ)
    (scope : Scope) : Rendering σ Text := do
  let (out, _) ← run (ofFrame depth frame) scope
  if frame.pass.isEarly then return out else restore frame out

/-- The ways from a job, by the given rendering of others. -/
def ways (run : Job σ → Scope → Rendering σ Output) (j : Job σ) : Ways σ where
  block frame s := run { j with frame, level := Residual.depth s, text := s }
  template := if j.depth < maxDepth then some (whole run (j.depth + 1)) else none

/-- The rendering of a job, by the given rendering of others. There is no bound on how often a step
may be taken but the one on nested templates, so that it can be asked whether the calls come to an
end. -/
def step (run : Job σ → Scope → Rendering σ Output) (j : Job σ) : Scope → Rendering σ Output :=
  inTurn (node (j.ways run) j.frame
    (fun s => run { j with level := j.level + 1, text := s }) j.level) (Node.list j.level j.text)

theorem whole_congr {run other : Job σ → Scope → Rendering σ Output} {depth : Nat}
    {frame : Frame σ} (h : run (ofFrame depth frame) = other (ofFrame depth frame)) :
    whole run depth frame = whole other depth frame := by
  funext scope
  simp only [whole, h]

/-- The rendering of a job depends on those of the jobs that it calls. -/
theorem step_congr {run other : Job σ → Scope → Rendering σ Output} {j : Job σ}
    (h : ∀ k, j.Calls k → run k = other k) : step run j = step other j := by
  refine inTurn_congr fun n hn => node_congr ⟨?_, ?_, ?_⟩
  · intro s hs
    exact h _ (.inside hn hs)
  · intro hlate s hs
    exact h _ (.block hlate hn hs)
  · intro hlate kind name hname
    unfold ways
    by_cases hdepth : j.depth < maxDepth
    · rw [if_pos hdepth, if_pos hdepth]
      exact .some fun template body mayImport ht =>
        whole_congr (h _ (.template hlate hdepth hn hname ht body mayImport))
    · rw [if_neg hdepth, if_neg hdepth]
      exact .none

end Job

end Stencil
