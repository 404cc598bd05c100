import Mathlib.Data.Prod.Lex
import Stencil.Proofs.Holding

namespace Stencil

open Rendering

variable {σ : Type}

namespace Rendering

variable {frame : Frame σ} {v w : Ways σ} {level : Nat} {s : Text}

theorem SameInto.refl (frame : Frame σ) (kind : TemplateKind) (name : Text)
    (v : Option (Frame σ → Scope → Rendering σ Text)) : SameInto frame kind name v v := by
  cases v with
  | none => exact .none
  | some f => exact .some fun _ _ _ _ => rfl

/-- How many levels may be nested does not count if it is more than there are angle brackets, and of
the ways into blocks only those count that the text holds. -/
theorem levels_congr {n m : Nat} (hn : s.count '<' < n) (hm : s.count '<' < m)
    (hblock : ∀ block, Residual.Holds s block → v.block frame block = w.block frame block)
    (htemplate : v.template = w.template) :
    levels v frame n level s = levels w frame m level s := by
  induction n generalizing m level s with
  | zero => omega
  | succ n ih =>
    cases m with
    | zero => omega
    | succ m =>
      refine inTurn_congr fun node hnode => node_congr ⟨?_, ?_, ?_⟩
      · intro t ht
        have hcount := Node.count_inside_lt hnode ht
        exact ih (by omega) (by omega) fun block hb => hblock block (hb.of_inside hnode ht)
      · intro _ block hb
        exact hblock block (Residual.holds_of_seals hnode hb)
      · intro _ kind name _
        rw [htemplate]
        exact .refl frame kind name w.template

/-- The way into blocks when so many may be nested. -/
def opened (template : Option (Frame σ → Scope → Rendering σ Text)) :
    Nat → Frame σ → Text → Scope → Rendering σ Output
  | 0 => fun _ _ scope => put scope []
  | n + 1 => fun frame block scope =>
    blocks template n frame (Residual.depth block) block scope

theorem blocks_eq (template : Option (Frame σ → Scope → Rendering σ Text)) (n : Nat) :
    blocks template n = whole ⟨opened template n, template⟩ := by
  cases n <;> rfl

/-- How deep blocks may be nested does not count, if it is no less than they are. -/
theorem blocks_congr (template : Option (Frame σ → Scope → Rendering σ Text)) {n m : Nat}
    (h : Residual.Within n s) (hnm : n ≤ m) :
    blocks template n frame level s = blocks template m frame level s := by
  induction n generalizing m level s with
  | zero =>
    rw [blocks_eq, blocks_eq]
    exact levels_congr (Nat.lt_succ_self _) (Nat.lt_succ_self _) (fun b hb => absurd hb (h b)) rfl
  | succ n ih =>
    obtain ⟨m, rfl⟩ : ∃ k, m = k + 1 := ⟨m - 1, by omega⟩
    rw [blocks_eq, blocks_eq]
    exact levels_congr (Nat.lt_succ_self _) (Nat.lt_succ_self _)
      (fun b hb => ih (h b hb) (by omega)) rfl

/-- The way into templates when so many more may be nested. -/
def below : Nat → Option (Frame σ → Scope → Rendering σ Text)
  | 0 => none
  | n + 1 => some (nested n)

theorem nested_eq (n : Nat) :
    (nested n : Frame σ → Scope → Rendering σ Text) = templateWith (below n) := by
  cases n <;> rfl

end Rendering

namespace Job

/-- A job comes to an end, with a rendering, if all jobs that it calls do: it is one step of
theirs. -/
inductive Finishes : Job σ → (Scope → Rendering σ Output) → Prop
  | step {j : Job σ} (run : Job σ → Scope → Rendering σ Output)
      (h : ∀ k, j.Calls k → Finishes k (run k)) : Finishes j (Job.step run j)

/-- A job does not come to an end with two renderings. -/
theorem Finishes.unique {j : Job σ} {r r' : Scope → Rendering σ Output} (h : Finishes j r)
    (h' : Finishes j r') : r = r' := by
  induction h generalizing r' with
  | step run h ih =>
    cases h' with
    | step other h' => exact step_congr fun k hk => ih k hk (h' k hk)

/-- In a job, and in all templates that it can come to, blocks are nested no deeper than they
may be. -/
structure Fits (j : Job σ) : Prop where
  text : Residual.Within j.frame.site.maxBlocks j.text
  site : ∀ kind name t, j.frame.site.Gives kind name t →
    Residual.Within j.frame.site.maxBlocks t.html

variable {j k : Job σ}

theorem Fits.of_calls (h : j.Fits) (hk : j.Calls k) : k.Fits := by
  cases hk with
  | inside hn hs => exact ⟨h.text.of_inside hn hs, h.site⟩
  | block hlate hn hs =>
    refine ⟨?_, h.site⟩
    have htext := h.text
    dsimp only
    generalize j.frame.site.maxBlocks = bound at htext ⊢
    cases bound with
    | zero => exact absurd (Residual.holds_of_seals hn hs) (htext _)
    | succ n => exact (htext _ (Residual.holds_of_seals hn hs)).mono (Nat.le_succ n)
  | template hlate hdepth hn hname ht body mayImport => exact ⟨h.site _ _ _ ht, h.site⟩

/-- What a job is rendered to. -/
def rendered (j : Job σ) : Scope → Rendering σ Output :=
  blocks (below (maxDepth - j.depth)) j.frame.site.maxBlocks j.frame j.level j.text

theorem whole_rendered (n depth : Nat) (h : maxDepth - depth = n) (frame : Frame σ) :
    whole rendered depth frame = nested n frame := by
  subst h
  rw [nested_eq]
  rfl

/-- The rendering of a job is one step of those of the jobs that it calls. -/
theorem rendered_eq (h : j.Fits) : rendered j = step rendered j := by
  have hrendered : ∀ level s, rendered { j with level, text := s } =
      Rendering.whole ⟨opened (below (maxDepth - j.depth)) j.frame.site.maxBlocks,
        below (maxDepth - j.depth)⟩ j.frame level s := fun level s => by
    rw [rendered, blocks_eq]
  refine (hrendered j.level j.text).trans (inTurn_congr fun n hn => node_congr ⟨?_, ?_, ?_⟩)
  · intro s hs
    rw [hrendered]
    exact levels_congr (Node.count_inside_lt hn hs) (Nat.lt_succ_self _) (fun _ _ => rfl) rfl
  · intro _ s hs
    change opened _ _ j.frame s = rendered { j with level := Residual.depth s, text := s }
    have htext := h.text
    unfold rendered
    dsimp only
    generalize j.frame.site.maxBlocks = bound at htext
    cases bound with
    | zero => exact absurd (Residual.holds_of_seals hn hs) (htext _)
    | succ n =>
      exact blocks_congr _ (htext _ (Residual.holds_of_seals hn hs)) (Nat.le_succ n)
  · intro _ kind name _
    unfold ways
    by_cases hdepth : j.depth < maxDepth
    · obtain ⟨n, hn⟩ : ∃ n, maxDepth - j.depth = n + 1 := ⟨maxDepth - j.depth - 1, by omega⟩
      rw [if_pos hdepth, hn]
      refine .some fun template body mayImport _ => ?_
      exact (whole_rendered n (j.depth + 1) (by omega) _).symm
    · rw [if_neg hdepth, show maxDepth - j.depth = 0 by omega]
      exact .none

/-- How many more templates may be nested in a job in which blocks are nested so deep, then how deep
they are, and then how many angle brackets there are. Every call makes this smaller. -/
def size (j : Job σ) (nesting : Nat) : Nat ×ₗ Nat ×ₗ Nat :=
  toLex (maxDepth - j.depth, toLex (nesting, j.text.count '<'))

/-- A call makes a job smaller. -/
theorem exists_size_lt (h : j.Fits) {m : Nat} (hm : Residual.Within m j.text) (hk : j.Calls k) :
    ∃ l, Residual.Within l k.text ∧ k.size l < j.size m := by
  cases hk with
  | inside hn hs =>
    refine ⟨m, hm.of_inside hn hs, Prod.Lex.toLex_lt_toLex.mpr (.inr ⟨rfl, ?_⟩)⟩
    exact Prod.Lex.toLex_lt_toLex.mpr (.inr ⟨rfl, Node.count_inside_lt hn hs⟩)
  | block hlate hn hs =>
    have hholds := Residual.holds_of_seals hn hs
    cases m with
    | zero => exact absurd hholds (hm _)
    | succ m =>
      refine ⟨m, hm _ hholds, Prod.Lex.toLex_lt_toLex.mpr (.inr ⟨rfl, ?_⟩)⟩
      exact Prod.Lex.toLex_lt_toLex.mpr (.inl (Nat.lt_succ_self m))
  | template hlate hdepth hn hname ht body mayImport =>
    refine ⟨_, h.site _ _ _ ht, Prod.Lex.toLex_lt_toLex.mpr (.inl ?_)⟩
    change maxDepth - (j.depth + 1) < maxDepth - j.depth
    omega

theorem finishes_rendered (h : j.Fits) : Finishes j (rendered j) := by
  have hwithin : ∀ p : Job σ × Nat, p.1.Fits → Residual.Within p.2 p.1.text →
      Finishes p.1 (rendered p.1) := by
    intro p
    induction p using (InvImage.wf (fun p : Job σ × Nat => p.1.size p.2) wellFounded_lt).induction
      with
    | _ p ih =>
      intro h hm
      rw [rendered_eq h]
      refine .step rendered fun k hk => ?_
      obtain ⟨l, hl, hlt⟩ := exists_size_lt h hm hk
      exact ih (k, l) hlt (h.of_calls hk) hl
  exact hwithin (j, _) h h.text

/-- A job comes to an end, and with what it is rendered to. -/
theorem finishes_iff (h : j.Fits) {r : Scope → Rendering σ Output} :
    Finishes j r ↔ r = rendered j := by
  constructor
  · exact fun hr => hr.unique (finishes_rendered h)
  · rintro rfl
    exact finishes_rendered h

theorem depth_le_of_calls (hj : j.depth ≤ maxDepth) (h : j.Calls k) : k.depth ≤ maxDepth := by
  cases h with
  | inside => exact hj
  | block => exact hj
  | template hlate hdepth => exact hdepth

/-- Nothing that a job comes to is nested deeper in templates than they may be. -/
theorem depth_le_of_reaches (hj : j.depth ≤ maxDepth) (h : Relation.ReflTransGen Calls j k) :
    k.depth ≤ maxDepth := by
  induction h with
  | refl => exact hj
  | tail _ hcall ih => exact depth_le_of_calls ih hcall

end Job

namespace Rendering

variable {frame : Frame σ}

/-- The rendering of a text is that of its nodes. -/
theorem whole_eq (ways : Ways σ) (frame : Frame σ) (level : Nat) (s : Text) :
    whole ways frame level s =
      inTurn (node ways frame (whole ways frame (level + 1)) level) (Node.list level s) := by
  refine inTurn_congr fun n hn => node_congr ⟨?_, ?_, ?_⟩
  · intro t ht
    exact levels_congr (Node.count_inside_lt hn ht) (Nat.lt_succ_self _) (fun _ _ => rfl) rfl
  · exact fun _ _ _ => rfl
  · exact fun _ kind name _ => .refl frame kind name ways.template

/-- What stands first is rendered first, and leaves its scope to what stands after it. -/
theorem inTurn_append {α : Type} (render : α → Scope → Rendering σ Output) (as bs : List α)
    (scope : Scope) :
    inTurn render (as ++ bs) scope = do
      let (first, scope) ← inTurn render as scope
      let (rest, scope) ← inTurn render bs scope
      return (first ++ rest, scope) := by
  induction as generalizing scope with
  | nil => simp [inTurn, put]
  | cons a as ih => simp [inTurn, ih]

/-- In the late pass content is put in the place of its tag as it is rendered. -/
theorem inPlace_late (hlate : frame.pass.isEarly = false)
    (child : Text → Scope → Rendering σ Output) (content : Text) :
    inPlace frame child content = child content := by
  funext scope
  simp [inPlace, hlate, put]

end Rendering

namespace Page

variable {site : Site σ} {template : Template} {scope : Scope} {layout : Option Text}

/-- A page and its layout, by the given rendering of templates. -/
def compileBy (render : Frame σ → Scope → Rendering σ Text) (site : Site σ) (template : Template)
    (scope : Scope) (layout : Option Text) : StateM (World σ) Text := do
  let layout ← layout? site template layout
  let ((page, layout), fragments, _) ← start do
    let page ← render (.root site .late template) scope
    let layout ← layout.mapM fun l => render (.root site .late l) scope
    return (page, layout)
  return finish site scope fragments page layout

/-- A folded template, by the given rendering of templates. -/
def foldBy (render : Frame σ → Scope → Rendering σ Text) (site : Site σ) (template : Template)
    (constants : Scope) : StateM (World σ) (Text × List Attributes) := do
  let frame := Frame.root site (.early template.attrs.length) template
  let (html, _, added) ← start (render frame constants)
  return (html, template.attrs ++ added)

/-- The jobs that a page starts with: to render the template, to fold it, and to render a layout. -/
inductive Starts (site : Site σ) (template : Template) : Job σ → Prop
  | page : Starts site template (.ofFrame 0 (.root site .late template))
  | folded (size : Nat) : Starts site template (.ofFrame 0 (.root site (.early size) template))
  | layout {name : Text} {l : Template} (h : site.Gives .layout name l) :
      Starts site template (.ofFrame 0 (.root site .late l))

theorem gives_of_layout? {l : Template} {world : World σ}
    (h : (layout? site template layout world).1 = some l) : ∃ name, site.Gives .layout name l := by
  unfold layout? at h
  generalize (layout.map Text.trim).filter _ = name at h
  cases name with
  | none => cases h
  | some name => exact ⟨name, world, (Option.filter_eq_some_iff.mp h).1⟩

theorem compileBy_congr {f g : Frame σ → Scope → Rendering σ Text}
    (hpage : f (.root site .late template) = g (.root site .late template))
    (hlayout : ∀ name l, site.Gives .layout name l →
      f (.root site .late l) = g (.root site .late l)) :
    compileBy f site template scope layout = compileBy g site template scope layout := by
  funext world
  obtain ⟨found, later, hfound⟩ : ∃ found later, layout? site template layout world =
      (found, later) := ⟨_, _, rfl⟩
  have hsame : found.mapM (fun l => f (.root site .late l) scope) =
      found.mapM fun l => g (.root site .late l) scope := by
    cases found with
    | none => rfl
    | some l =>
      obtain ⟨name, hl⟩ := gives_of_layout? (congrArg Prod.fst hfound)
      simp only [Option.mapM_some, hlayout name l hl]
  simp only [compileBy, bind, StateT.bind, hfound, hpage, hsame]

/-- A page comes to an end if all jobs that it starts with do. -/
def Finishes (site : Site σ) (template : Template) (scope : Scope) (layout : Option Text)
    (r : StateM (World σ) Text) : Prop :=
  ∃ run, (∀ j, Starts site template j → j.Finishes (run j)) ∧
    r = compileBy (Job.whole run 0) site template scope layout

/-- The folding of a template comes to an end if the jobs that it starts with do. -/
def FoldFinishes (site : Site σ) (template : Template) (constants : Scope)
    (r : StateM (World σ) (Text × List Attributes)) : Prop :=
  ∃ run, (∀ j, Starts site template j → j.Finishes (run j)) ∧
    r = foldBy (Job.whole run 0) site template constants

theorem fits_of_starts (ht : Residual.Within site.maxBlocks template.html)
    (hs : ∀ kind name t, site.Gives kind name t → Residual.Within site.maxBlocks t.html)
    {j : Job σ} (h : Starts site template j) : j.Fits := by
  cases h with
  | page => exact ⟨ht, hs⟩
  | folded size => exact ⟨ht, hs⟩
  | layout hl => exact ⟨hs _ _ _ hl, hs⟩

theorem whole_rendered_zero :
    (Job.whole Job.rendered 0 : Frame σ → Scope → Rendering σ Text) = Rendering.template :=
  funext fun frame => Job.whole_rendered maxDepth 0 rfl frame

theorem depth_of_starts {j : Job σ} (h : Starts site template j) : j.depth = 0 := by
  cases h <;> rfl

/-- If blocks are nested in templates no deeper than they may be, a page comes to an end, and with
what it is compiled to, whatever templates call each other, and so does the folding of a template.
Nothing on the way is nested in more templates than it may be. -/
theorem finishes_iff (ht : Residual.Within site.maxBlocks template.html)
    (hs : ∀ kind name t, site.Gives kind name t → Residual.Within site.maxBlocks t.html)
    (scope : Scope) (layout : Option Text) :
    (∀ r, Finishes site template scope layout r ↔ r = compile site template scope layout) ∧
      (∀ r, FoldFinishes site template scope r ↔ r = fold site template scope) ∧
      ∀ j k, Starts site template j → Relation.ReflTransGen Job.Calls j k → k.depth ≤ maxDepth := by
  have hfinishes : ∀ j, Starts site template j → ∀ r, j.Finishes r ↔ r = Job.rendered j :=
    fun j hj r => Job.finishes_iff (fits_of_starts ht hs hj)
  have hrendered : ∀ j, Starts site template j → j.Finishes (Job.rendered j) := fun j hj =>
    (hfinishes j hj _).mpr rfl
  have hrun : ∀ run : Job σ → Scope → Rendering σ Output,
      (∀ j, Starts site template j → j.Finishes (run j)) →
        ∀ frame, Starts site template (.ofFrame 0 frame) →
          Job.whole run 0 frame = Rendering.template frame := by
    intro run h frame hframe
    have hsame := (hfinishes _ hframe _).mp (h _ hframe)
    rw [Job.whole_congr hsame, whole_rendered_zero]
  refine ⟨fun r => ⟨?_, ?_⟩, fun r => ⟨?_, ?_⟩, ?_⟩
  · rintro ⟨run, h, rfl⟩
    exact compileBy_congr (hrun run h _ .page) fun name l hl => hrun run h _ (.layout hl)
  · rintro rfl
    refine ⟨Job.rendered, hrendered, ?_⟩
    rw [whole_rendered_zero]
    rfl
  · rintro ⟨run, h, rfl⟩
    have hfold := hrun run h _ (.folded template.attrs.length)
    simp only [foldBy, hfold]
    rfl
  · rintro rfl
    refine ⟨Job.rendered, hrendered, ?_⟩
    rw [whole_rendered_zero]
    rfl
  · intro j k hj hk
    exact Job.depth_le_of_reaches (by rw [depth_of_starts hj]; exact Nat.zero_le _) hk

end Page

end Stencil
