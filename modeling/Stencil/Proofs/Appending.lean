import Stencil.Page
import Stencil.Proofs.Filling

namespace Stencil

variable {σ α β : Type}

/-- The same progress with other fragments. -/
def Progress.having (p : Progress σ) (items : Array Text) : Progress σ :=
  { p with fragments := ⟨items⟩ }

@[simp] theorem Progress.having_having (p : Progress σ) (items more : Array Text) :
    (p.having items).having more = p.having more := rfl

@[simp] theorem Progress.size_having (p : Progress σ) (items : Array Text) :
    (p.having items).size = items.size := rfl

/-- A rendering that adds fragments, whatever those say that there are. -/
def Appends (r : Rendering σ α) : Prop :=
  ∀ p : Progress σ, ∃ (a : α) (q : Progress σ) (new : Array Text),
    ∀ items : Array Text, items.size = p.size → r (p.having items) = (a, q.having (items ++ new))

namespace Appends

variable {r : Rendering σ α}

theorem pure (a : α) : Appends (pure a : Rendering σ α) := fun p =>
  ⟨a, p, #[], fun items _ => by simp [Pure.pure, StateT.pure]⟩

theorem bind {f : α → Rendering σ β} (hr : Appends r) (hf : ∀ a, Appends (f a)) :
    Appends (r >>= f) := by
  intro p
  obtain ⟨a, q, new, hrun⟩ := hr p
  obtain ⟨b, q', more, hthen⟩ := hf a (q.having (p.fragments.items ++ new))
  refine ⟨b, q', new ++ more, fun items hsize => ?_⟩
  have hlater : (items ++ new).size = (q.having (p.fragments.items ++ new)).size := by
    rw [Progress.size_having, Array.size_append, Array.size_append, hsize]
    rfl
  have hnext := hthen (items ++ new) hlater
  change f (r (p.having items)).1 (r (p.having items)).2 = _
  rw [hrun items hsize]
  simpa [Array.append_assoc] using hnext

theorem map (hr : Appends r) (f : α → β) : Appends (f <$> r) := hr.bind fun a => .pure (f a)

theorem mapM {f : α → Rendering σ β} (as : List α) (h : ∀ a ∈ as, Appends (f a)) :
    Appends (as.mapM f) := by
  induction as with
  | nil =>
    rw [List.mapM_nil]
    exact .pure []
  | cons a as ih =>
    rw [List.mapM_cons]
    refine (h a List.mem_cons_self).bind fun b => ?_
    exact (ih fun c hc => h c (List.mem_cons_of_mem a hc)).bind fun bs => .pure (b :: bs)

theorem mapOption {f : α → Rendering σ β} (a : Option α) (h : ∀ b ∈ a, Appends (f b)) :
    Appends (a.mapM f) := by
  cases a with
  | none => exact .pure none
  | some b => exact (h b rfl).map some

end Appends

namespace Rendering

variable {frame : Frame σ} {child : Text → Scope → Rendering σ Output}

theorem appends_stash (s : Text) : Appends (stash s : Rendering σ Text) := fun p =>
  ⟨Reference.write Reference.fragment p.size, p, #[s], fun items hsize => by
    rw [← hsize]
    simp [stash, Fragments.stash, Progress.having]⟩

theorem appends_onWorld (act : StateM (World σ) α) : Appends (onWorld act) := fun p =>
  ⟨(act p.world).1, { p with world := (act p.world).2 }, #[], fun items _ => by
    rw [Array.append_empty]
    rfl⟩

theorem appends_addAttributes (attrs : Attributes) : Appends (addAttributes frame attrs) :=
  fun p => ⟨(addAttributes frame attrs p).1, (addAttributes frame attrs p).2, #[],
    fun items _ => by simp [addAttributes, Progress.having]⟩

theorem appends_put (scope : Scope) (s : Text) : Appends (put scope s : Rendering σ Output) :=
  .pure (s, scope)

theorem appends_emit (html : Text) : Appends (emit frame html) := by
  unfold emit
  split
  · exact .pure _
  · exact appends_stash _

theorem appends_inTurn {f : α → Scope → Rendering σ Output} {as : List α}
    (h : ∀ a ∈ as, ∀ scope, Appends (f a scope)) (scope : Scope) :
    Appends (inTurn f as scope) := by
  induction as generalizing scope with
  | nil => exact appends_put scope []
  | cons a as ih =>
    refine (h a List.mem_cons_self scope).bind fun first => ?_
    refine (ih (fun b hb => h b (List.mem_cons_of_mem a hb)) first.2).bind fun rest => ?_
    exact .pure (first.1 ++ rest.1, rest.2)

theorem appends_fillM {f : Hole → Rendering σ (Option Text)} (h : ∀ hole, Appends (f hole))
    (s : Text) : Appends (Hole.fillM f s) := by
  refine (Appends.mapM _ fun piece _ => ?_).bind fun parts => .pure parts.flatten
  cases piece with
  | inl c => exact .pure [c]
  | inr hole => exact (h hole).bind fun filled => .pure (filled.getD hole.written)

theorem appends_fillTagsM {f : Hole → Rendering σ (Option Text)} (h : ∀ hole, Appends (f hole))
    (s : Text) : Appends (InlineTag.fillM f s) := by
  refine (Appends.mapM _ fun piece _ => ?_).bind fun parts => .pure parts.flatten
  cases piece with
  | inl t => exact .pure t
  | inr tag => exact appends_fillM h tag

theorem appends_place (f : Filling) : Appends (place frame f) := by
  cases f with
  | verbatim s => exact .pure (some s)
  | fragment html => exact (appends_emit html).bind fun a => .pure (some a)
  | stays h => exact .pure none

theorem appends_interpolate (scope : Scope) (s : Text) : Appends (interpolate frame scope s) := by
  have hinTag : ∀ h, Appends (attributeHole frame (frame.resolver scope) h) := fun h => by
    rw [attributeHole_eq]
    exact appends_place _
  have hinText : ∀ h, Appends (textHole frame (frame.resolver scope) h) := fun h => by
    rw [textHole_eq]
    exact appends_place _
  exact (appends_fillTagsM hinTag s).bind fun t => appends_fillM hinText t

theorem appends_restore (s : Text) : Appends (restore frame s) := by
  have hreinject : Appends (Block.reinjectM frame.site.hooks frame.template.blocks stash s :
      Rendering σ Text) := by
    refine (Appends.mapM _ fun piece _ => ?_).bind fun parts => .pure parts.flatten
    rcases piece with c | _ | b
    · exact .pure [c]
    · exact .pure []
    · exact appends_stash _
  exact hreinject.bind fun t => .pure _

section Tags

variable {p : Placeholder} {content : Text} {attrs : Attributes}

theorem appends_inPlace (hc : ∀ s scope, Appends (child s scope)) (s : Text) (scope : Scope) :
    Appends (inPlace frame child s scope) :=
  (hc s scope).bind fun out => appends_put out.2 _

theorem appends_writeBranches (hc : ∀ s scope, Appends (child s scope)) (level : Nat)
    (scope : Scope) (isFirst : Bool) (branches : List (Option Condition × Text)) :
    Appends (writeBranches frame child level scope isFirst branches) := by
  induction branches generalizing isFirst with
  | nil => exact .pure []
  | cons b branches ih =>
    refine (Appends.mapOption b.1 fun c _ => appends_addAttributes _).bind fun index => ?_
    exact (hc b.2 scope).bind fun out => (ih false).bind fun rest => .pure _

theorem appends_condition (hc : ∀ s scope, Appends (child s scope)) (level : Nat)
    (scope : Scope) : Appends (condition frame child p content level scope) := by
  unfold condition
  dsimp only
  split
  · exact appends_inPlace hc _ scope
  · exact appends_put scope []
  · exact (appends_writeBranches hc level scope true _).bind fun out => appends_put scope _

theorem appends_loop (hc : ∀ s scope, Appends (child s scope)) (source : Text) (scope : Scope) :
    Appends (loop frame child attrs content source scope) := by
  unfold loop
  split
  · exact appends_put scope []
  · split
    · exact appends_put scope source
    · split
      · exact appends_put scope source
      · refine (Appends.mapM _ fun item _ => ?_).bind fun outs => appends_put scope _
        exact appends_inPlace hc _ _

theorem appends_assignment (source : Text) (scope : Scope) :
    Appends (assignment frame attrs source scope) := by
  unfold assignment
  split
  · exact appends_put scope _
  · exact appends_put _ []

theorem appends_randomWord (source : Text) (scope : Scope) :
    Appends (randomWord frame attrs source scope) := by
  unfold randomWord
  split
  · exact appends_put scope []
  · split
    · exact appends_put scope _
    · exact (appends_onWorld _).bind fun w => appends_put _ []

theorem appends_function {name : Text} {content : Option Text} (source : Text) (scope : Scope) :
    Appends (function frame name attrs content source scope) := by
  unfold function
  dsimp only
  split
  · exact appends_put scope _
  · split
    · exact appends_put scope _
    · refine (appends_onWorld _).bind fun out => ?_
      split
      · exact (appends_emit _).bind fun s => appends_put scope s
      · exact appends_put scope _

theorem appends_slot (hc : ∀ s scope, Appends (child s scope)) (scope : Scope) (s : Text) :
    Appends (slot frame child scope s) :=
  (hc s scope).bind fun out => (appends_restore out.1).bind fun t => appends_stash t

theorem appends_component {inner : Option (Frame σ → Scope → Rendering σ Text)}
    {kind : TemplateKind} {name : Text} {content : Option Text}
    (hc : ∀ s scope, Appends (child s scope)) (hi : ∀ f ∈ inner, ∀ g scope, Appends (f g scope))
    (source : Text) (scope : Scope) :
    Appends (component frame child inner kind name attrs content source scope) := by
  unfold component
  split
  · exact appends_put scope source
  · cases inner with
    | none => exact appends_put scope []
    | some f =>
      dsimp only
      split
      · exact appends_put scope []
      · refine (appends_onWorld _).bind fun found => ?_
        cases found with
        | none => exact appends_put scope []
        | some template =>
          refine (Appends.mapOption content fun s _ => appends_slot hc scope s).bind fun body => ?_
          refine (hi f rfl _ _).bind fun html => ?_
          exact (appends_stash html).bind fun s => appends_put scope s

end Tags

variable {ways : Ways σ}

/-- Ways down that add fragments only. -/
structure WaysAppend (ways : Ways σ) : Prop where
  block : ∀ f s scope, Appends (ways.block f s scope)
  template : ∀ inner ∈ ways.template, ∀ f scope, Appends (inner f scope)

theorem appends_text (hw : WaysAppend ways) (s : Text) (scope : Scope) :
    Appends (text ways frame s scope) := by
  have hrun : ∀ s scope, Appends (interpolate frame scope s >>= put scope) := fun s scope =>
    (appends_interpolate scope s).bind fun t => appends_put scope t
  unfold text
  split
  · exact hrun s scope
  · refine appends_inTurn (fun p _ scope => ?_) scope
    unfold piece
    cases p with
    | inl s => exact hrun s scope
    | inr payload =>
      dsimp only
      split
      · exact hw.block _ _ scope
      · exact appends_put scope []

theorem appends_tag (hw : WaysAppend ways) (hc : ∀ s scope, Appends (child s scope)) (level : Nat)
    (p : Placeholder) (content : Option Text) (source : Text) (scope : Scope) :
    Appends (tag ways frame child level p content source scope) := by
  unfold tag
  cases TagRole.ofName p.name with
  | condition => exact appends_condition hc level scope
  | loop => exact appends_loop hc source scope
  | imports name => exact appends_component hc hw.template source scope
  | component name => exact appends_component hc hw.template source scope
  | assignment => exact appends_assignment source scope
  | randomWord => exact appends_randomWord source scope
  | function name => exact appends_function source scope

theorem appends_levels (hw : WaysAppend ways) (n level : Nat) (s : Text) (scope : Scope) :
    Appends (levels ways frame n level s scope) := by
  induction n generalizing level s scope with
  | zero => exact appends_put scope []
  | succ n ih =>
    refine appends_inTurn (fun node _ scope => ?_) scope
    cases node with
    | text s => exact appends_text hw s scope
    | tag p content source => exact appends_tag hw (ih (level + 1)) level p content source scope
    | stray p => exact appends_put scope []
    | unclosed source => exact appends_put scope source

theorem appends_blocks {inner : Option (Frame σ → Scope → Rendering σ Text)}
    (hi : ∀ f ∈ inner, ∀ g scope, Appends (f g scope)) (n level : Nat) (s : Text) (scope : Scope) :
    Appends (blocks inner n frame level s scope) := by
  induction n generalizing frame level s scope with
  | zero => exact appends_levels ⟨fun _ _ scope => appends_put scope [], hi⟩ _ level s scope
  | succ n ih => exact appends_levels ⟨fun _ s scope => ih _ s scope, hi⟩ _ level s scope

theorem appends_templateWith {inner : Option (Frame σ → Scope → Rendering σ Text)}
    (hi : ∀ f ∈ inner, ∀ g scope, Appends (f g scope)) (scope : Scope) :
    Appends (templateWith inner frame scope) := by
  refine (appends_blocks hi frame.site.maxBlocks 0 frame.template.html scope).bind fun out => ?_
  by_cases hp : frame.pass.isEarly = true
  · simp only [hp, if_true]
    exact .pure _
  · simp only [hp]
    exact appends_restore _

/-- Rendering a template adds fragments, whatever those say that there are. -/
theorem appends_nested (n : Nat) (scope : Scope) : Appends (nested n frame scope) := by
  induction n generalizing frame scope with
  | zero => exact appends_templateWith (by rintro f ⟨⟩) scope
  | succ n ih =>
    refine appends_templateWith ?_ scope
    rintro f ⟨⟩ g scope
    exact ih scope

end Rendering

end Stencil
