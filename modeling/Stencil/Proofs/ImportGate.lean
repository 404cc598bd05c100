import Stencil.Proofs.Argument
import Stencil.Proofs.Slot
import Stencil.Proofs.Termination

namespace Stencil

open Rendering

variable {σ : Type}

/-- The attributes of the calls on the way to a template, those of the innermost call first. -/
abbrev Route := List Attributes

namespace Route

/-- Is an import open here? No call on the way may forbid it, and the scope must allow it. -/
def isOpen (route : Route) (scope : Scope) : Bool :=
  route.all (fun attrs => !forbidsImports attrs) &&
    (Dictionary.get? scope "allowImport".toList).any Value.isTruthy

/-- The route into the template that a node of a template calls. -/
def enter (route : Route) (template : Template) : Node → Route
  | .tag p _ _ => template.attributes p.attrs :: route
  | _ => route

end Route

/-- A frame for whose tags templates come from elsewhere. -/
def Frame.loading (frame : Frame σ)
    (load : TemplateKind → Text → StateM (World σ) (Option Template)) : Frame σ :=
  { frame with site := { frame.site with load } }

/-- A watched walk: where templates come from, and what is done for an import that is not open. The
walk carries the attributes of all calls on the way to a template with it. -/
structure Watch (σ : Type) where
  load : TemplateKind → Text → StateM (World σ) (Option Template)
  refuse : Text → StateM (World σ) (Option Template)

namespace Watch

variable (w : Watch σ)

/-- Loads a template for a tag at which imports are open or not. -/
def loadIf (isOpen : Bool) (kind : TemplateKind) (name : Text) :
    StateM (World σ) (Option Template) :=
  if kind = .imported ∧ !isOpen then w.refuse name else w.load kind name

/-- The levels of a text. Nothing of the frame is asked whether imports are open. -/
def levels (ways : Route → Ways σ) (route : Route) (frame : Frame σ) :
    Nat → Nat → Text → Scope → Rendering σ Output
  | 0, _, _, scope => put scope []
  | n + 1, level, s, scope =>
    inTurn (fun node scope => Rendering.node (ways (route.enter frame.template node))
      (frame.loading (w.loadIf (route.isOpen scope))) (levels ways route frame n (level + 1)) level
      node scope) (Node.list level s) scope

def whole (ways : Route → Ways σ) (route : Route) (frame : Frame σ) (level : Nat) (s : Text)
    (scope : Scope) : Rendering σ Output :=
  w.levels ways route frame (s.count '<' + 1) level s scope

def blocks (template : Route → Option (Frame σ → Scope → Rendering σ Text)) :
    Nat → Route → Frame σ → Nat → Text → Scope → Rendering σ Output
  | 0 => w.whole fun route => ⟨fun _ _ scope => put scope [], template route⟩
  | n + 1 => w.whole fun route => ⟨fun frame block scope =>
      blocks template n route frame (Residual.depth block) block scope, template route⟩

def templateWith (template : Route → Option (Frame σ → Scope → Rendering σ Text)) (route : Route)
    (frame : Frame σ) (scope : Scope) : Rendering σ Text := do
  let (out, _) ← w.blocks template frame.site.maxBlocks route frame 0 frame.template.html scope
  if frame.pass.isEarly then return out else restore frame out

def nested : Nat → Route → Frame σ → Scope → Rendering σ Text
  | 0 => w.templateWith fun _ => none
  | n + 1 => w.templateWith fun route => some (nested n route)

/-- Renders the template of a frame, to which no call leads. -/
def template (frame : Frame σ) (scope : Scope) : Rendering σ Text :=
  w.nested maxDepth [] frame scope

end Watch

namespace Rendering

variable {frame : Frame σ} {load : TemplateKind → Text → StateM (World σ) (Option Template)}
  {child : Text → Scope → Rendering σ Output} {scope : Scope}

theorem writeBranches_loading (level : Nat) (isFirst : Bool)
    (branches : List (Option Condition × Text)) :
    writeBranches (frame.loading load) child level scope isFirst branches =
      writeBranches frame child level scope isFirst branches := by
  induction branches generalizing isFirst with
  | nil => rfl
  | cons b branches ih =>
    have hadd : addAttributes (frame.loading load) = addAttributes frame := rfl
    simp only [writeBranches, hadd, ih]

theorem condition_loading (p : Placeholder) (content : Text) (level : Nat) :
    condition (frame.loading load) child p content level scope =
      condition frame child p content level scope := by
  have hplace : ∀ s, inPlace (frame.loading load) child s = inPlace frame child s := fun _ => rfl
  have hselect : Selection.ofBranches (Selection.outcome ((frame.loading load).resolver scope)
      (frame.loading load).template.attributes) =
        Selection.ofBranches (Selection.outcome (frame.resolver scope) frame.template.attributes) :=
    rfl
  simp only [condition, hselect, hplace, writeBranches_loading]

/-- Two ways into templates, of which the first one does for templates that are called from a frame
with other templates what the second one does. -/
def SameLoading (frame : Frame σ)
    (load : TemplateKind → Text → StateM (World σ) (Option Template)) (attrs : Attributes) :
    Option (Frame σ → Scope → Rendering σ Text) → Option (Frame σ → Scope → Rendering σ Text) →
      Prop :=
  Option.Rel fun f g => ∀ template body,
    f ((called frame template attrs body).loading load) = g (called frame template attrs body)

/-- A call is the same with other templates, if they are the same where the call may be made. -/
theorem component_loading {v w : Option (Frame σ → Scope → Rendering σ Text)} {kind : TemplateKind}
    {name : Text} {attrs : Attributes} (hways : SameLoading frame load attrs v w)
    (hload : (kind = .imported → allowsImports frame scope) →
      load kind name = frame.site.load kind name) (content : Option Text) (source : Text) :
    component (frame.loading load) child v kind name attrs content source scope =
      component frame child w kind name attrs content source scope := by
  unfold component
  have hpass : (frame.loading load).pass = frame.pass := rfl
  rw [hpass]
  split
  · rfl
  · cases hways with
    | none => rfl
    | @some f g hinner =>
      have hallowed : allowsImports (frame.loading load) scope = allowsImports frame scope := rfl
      dsimp only
      rw [hallowed]
      split
      · rfl
      next hopen =>
        have hloaded : Rendering.load (frame.loading load) kind name =
            Rendering.load frame kind name :=
          congrArg onWorld (hload fun hk => by simpa [hk] using hopen)
        rw [hloaded]
        refine congrArg (Rendering.load frame kind name >>= ·) (funext fun found => ?_)
        cases found with
        | none => rfl
        | some template =>
          change (content.mapM (slot frame child scope) >>= fun body =>
              f ((called frame template attrs body).loading load) (given frame attrs scope body) >>=
                fun html => stash html >>= put scope) =
            (content.mapM (slot frame child scope) >>= fun body =>
              g (called frame template attrs body) (given frame attrs scope body) >>=
                fun html => stash html >>= put scope)
          simp only [hinner]

/-- A node is the same with other templates, if they are the same where it may call one. -/
theorem node_loading {v w : Ways σ} {other : Text → Scope → Rendering σ Output} {n : Node}
    (hchild : child = other)
    (hblock : ∀ s, n = .text s → v.block (frame.loading load) = w.block frame)
    (htemplate : ∀ p content source, n = .tag p content source →
      SameLoading frame load (frame.template.attributes p.attrs) v.template w.template)
    (hload : ∀ kind name, (kind = .imported → allowsImports frame scope) →
      load kind name = frame.site.load kind name) (level : Nat) :
    node v (frame.loading load) child level n scope = node w frame other level n scope := by
  subst hchild
  cases n with
  | text s =>
    have hpiece : piece v (frame.loading load) = piece w frame := by
      funext p scope
      cases p with
      | inl t => rfl
      | inr payload => simp only [piece, hblock s rfl]
    change text v (frame.loading load) s scope = text w frame s scope
    unfold text
    rw [hpiece]
    rfl
  | tag p content source =>
    change tag v (frame.loading load) child level p content source scope =
      tag w frame child level p content source scope
    simp only [tag]
    cases TagRole.ofName p.name with
    | condition => exact condition_loading p _ level
    | loop => rfl
    | imports name => exact component_loading (htemplate p _ _ rfl) (hload _ _) content source
    | component name => exact component_loading (htemplate p _ _ rfl) (hload _ _) content source
    | assignment => rfl
    | randomWord => rfl
    | function name => rfl
  | stray p => rfl
  | unclosed source => rfl

end Rendering

namespace Watch

variable {w : Watch σ} {route : Route} {frame : Frame σ}
  {load : TemplateKind → Text → StateM (World σ) (Option Template)}

/-- Does a frame get its templates from where a watched walk gets them, and does it say of imports
what the route to it says? -/
structure Follows (w : Watch σ) (route : Route) (frame : Frame σ) : Prop where
  load : frame.site.load = w.load
  mayImport : frame.mayImport = route.all fun attrs => !forbidsImports attrs

theorem Follows.isOpen (h : w.Follows route frame) (scope : Scope) :
    route.isOpen scope = allowsImports frame scope := by
  rw [Route.isOpen, allowsImports, h.mayImport]

theorem Follows.loadIf (h : w.Follows route frame) {scope : Scope} {kind : TemplateKind}
    (hopen : kind = .imported → allowsImports frame scope) (name : Text) :
    w.loadIf (route.isOpen scope) kind name = frame.site.load kind name := by
  rw [h.isOpen, Watch.loadIf, if_neg, h.load]
  rintro ⟨hk, hclosed⟩
  rw [hopen hk] at hclosed
  cases hclosed

theorem Follows.called (h : w.Follows route frame) (template : Template) (attrs : Attributes)
    (body : Option Text) : w.Follows (attrs :: route) (called frame template attrs body) where
  load := h.load
  mayImport := by
    change (frame.mayImport && !forbidsImports attrs) = _
    rw [h.mayImport, List.all_cons, Bool.and_comm]

/-- A watched way into the templates on a route, and one that does the same, wherever the frame gets
its templates from. -/
def SameOn (w : Watch σ) (route : Route) :
    Option (Frame σ → Scope → Rendering σ Text) → Option (Frame σ → Scope → Rendering σ Text) →
      Prop :=
  Option.Rel fun f g => ∀ frame load, w.Follows route frame → f (frame.loading load) = g frame

theorem SameOn.sameLoading {f g : Option (Frame σ → Scope → Rendering σ Text)}
    {attrs : Attributes} (hways : w.SameOn (attrs :: route) f g) (h : w.Follows route frame) :
    SameLoading frame load attrs f g := by
  cases hways with
  | none => exact .none
  | some hsame => exact .some fun template body => hsame _ _ (h.called template attrs body)

theorem levels_eq {ways : Route → Ways σ} {v : Ways σ} (h : w.Follows route frame)
    (hblock : ∀ load, (ways route).block (frame.loading load) = v.block frame)
    (htemplate : ∀ route, w.SameOn route (ways route).template v.template) (n level : Nat)
    (s : Text) :
    w.levels ways route (frame.loading load) n level s = Rendering.levels v frame n level s := by
  induction n generalizing level s with
  | zero => rfl
  | succ n ih =>
    refine inTurn_congr fun node hnode => funext fun scope => ?_
    have hchild : w.levels ways route (frame.loading load) n (level + 1) =
        Rendering.levels v frame n (level + 1) := funext fun s => ih (level + 1) s
    have hloaded : ∀ kind name, (kind = .imported → allowsImports frame scope) →
        w.loadIf (route.isOpen scope) kind name = frame.site.load kind name := fun kind name hk =>
      h.loadIf hk name
    change Rendering.node _ (frame.loading _) _ level node scope = _
    refine node_loading hchild ?_ ?_ hloaded level
    · rintro s rfl
      exact hblock _
    · rintro p content source rfl
      exact (htemplate (route.enter frame.template (.tag p content source))).sameLoading h

theorem blocks_eq {template : Route → Option (Frame σ → Scope → Rendering σ Text)}
    {inner : Option (Frame σ → Scope → Rendering σ Text)} (h : w.Follows route frame)
    (htemplate : ∀ route, w.SameOn route (template route) inner) (n level : Nat) (s : Text) :
    w.blocks template n route (frame.loading load) level s =
      Rendering.blocks inner n frame level s := by
  induction n generalizing level load s with
  | zero => exact levels_eq h (fun _ => rfl) htemplate _ level s
  | succ n ih => exact levels_eq h (fun _ => funext fun block => ih _ block) htemplate _ level s

theorem templateWith_eq {template : Route → Option (Frame σ → Scope → Rendering σ Text)}
    {inner : Option (Frame σ → Scope → Rendering σ Text)} (h : w.Follows route frame)
    (htemplate : ∀ route, w.SameOn route (template route) inner) :
    w.templateWith template route (frame.loading load) = Rendering.templateWith inner frame := by
  funext scope
  have hblocks : w.blocks template frame.site.maxBlocks route (frame.loading load) 0
      (frame.loading load).template.html = Rendering.blocks inner frame.site.maxBlocks frame 0
        frame.template.html := blocks_eq h htemplate _ 0 _
  have hbound : (frame.loading load).site.maxBlocks = frame.site.maxBlocks := rfl
  have hrestore : restore (frame.loading load) = restore frame := rfl
  simp only [templateWith, Rendering.templateWith, hbound, hblocks, hrestore]
  rfl

/-- The template of a frame is the same when it is watched, however deep templates are nested. -/
theorem nested_eq (h : w.Follows route frame) (n : Nat) :
    w.nested n route (frame.loading load) = Rendering.nested n frame := by
  induction n generalizing route frame load with
  | zero => exact templateWith_eq h fun _ => .none
  | succ n ih => exact templateWith_eq h fun _ => .some fun _ _ hinner => ih hinner

/-- In a frame to which no call leads imports are not forbidden. -/
theorem follows_root (site : Site σ) (refuse : Text → StateM (World σ) (Option Template))
    (pass : Pass) (template : Template) :
    (Watch.mk site.load refuse).Follows [] (.root site pass template) :=
  ⟨rfl, rfl⟩

end Watch

namespace Page

theorem compile_watched (site : Site σ) (refuse : Text → StateM (World σ) (Option Template))
    (template : Template) (scope : Scope) (layout : Option Text) :
    compileBy (Watch.template ⟨site.load, refuse⟩) site template scope layout =
      compile site template scope layout := by
  have hroot : ∀ t, Watch.template ⟨site.load, refuse⟩ (.root site .late t) =
      Rendering.template (.root site .late t) := by
    intro t
    change Watch.nested _ maxDepth [] ((Frame.root site .late t).loading site.load) = _
    exact Watch.nested_eq (Watch.follows_root site refuse .late t) maxDepth
  exact compileBy_congr (hroot template) fun _ l _ => hroot l

end Page

namespace Tag

variable {literals : LiteralTable}

def noImport : Text := "_noimport".toList

theorem substitute_noImport {k : Text} (meaning : Text → Option Text) :
    Reference.substitute (Marker.opening ++ k) meaning noImport = noImport := by
  have hmark : '%' ∉ noImport := by decide
  have h : Reference.substitute (Marker.opening ++ k) meaning (noImport ++ []) =
      noImport ++ Reference.substitute (Marker.opening ++ k) meaning [] :=
    Reference.substitute_append_of_not_mem hmark []
  rwa [Reference.substitute, List.append_nil] at h

theorem argument?_noImport : argument? literals noImport = some noImport := by
  have hhole : Hole.ofText? noImport = none := Hole.ofText?_of_ne _ (by decide) (by decide)
  have hcut : Text.cut? ['='] noImport = none := by decide
  have hindex : Reference.index? Reference.literal noImport = none := by decide
  rw [argument?, if_neg (by simp [hhole, hcut]), storedValue, hindex]
  exact congrArg some (substitute_noImport (k := ['s']) _)

theorem writtenKey?_noImport (value : Text) :
    writtenKey? literals (noImport ++ '=' :: value) = some noImport := by
  have hhole : Hole.ofText? (noImport ++ '=' :: value) = none :=
    Hole.ofText?_of_ne _ (by decide) (by decide)
  have hcut : Text.cut? ['='] (noImport ++ '=' :: value) = some (noImport, value) :=
    Text.cut?_append_cons (by decide) value
  rw [writtenKey?, if_neg (by simp [hhole]), hcut]
  exact congrArg some (substitute_noImport (k := ['s']) _)

/-- A tag forbids imports if it names the attribute for that, or has it as a bare argument and no
other attribute is named by a position. -/
def ForbidsImports (literals : LiteralTable) (tail : Text) : Prop :=
  (∃ value, noImport ++ '=' :: value ∈ attributeTokens [] [] tail) ∨
    noImport ∈ attributeTokens [] [] tail ∧
      ∀ token ∈ attributeTokens [] [] tail, ∀ key ∈ writtenKey? literals token, ∀ n,
        key ≠ Attributes.position n

theorem forbidsImports_attributes? {name tail : Text} {attrs : Attributes}
    (hname : isConditional name = false) (h : attributes? literals name tail = some attrs)
    (hforbid : ForbidsImports literals tail) : Rendering.forbidsImports attrs := by
  rcases hforbid with ⟨value, hvalue⟩ | ⟨hbare, hkeys⟩
  · have hcontains : attrs.contains noImport :=
      contains_attributes? hname h hvalue (writtenKey?_noImport value)
    exact Bool.or_eq_true_iff.mpr (.inl hcontains)
  · have hargs : noImport ∈ attrs.args := by
      rw [args_attributes? hname h hkeys]
      exact List.mem_filterMap.mpr ⟨noImport, hbare, argument?_noImport⟩
    exact Bool.or_eq_true_iff.mpr (.inr (List.contains_iff_mem.mpr hargs))

end Tag

namespace Page

/-- On every page an import is loaded only where it is open, so never behind a call whose tag
forbids imports: whatever is done elsewhere for an import, the page is the same. -/
theorem imports_open (site : Site σ) (template : Template) (scope : Scope) (layout : Option Text) :
    (∀ refuse, compileBy (Watch.template ⟨site.load, refuse⟩) site template scope layout =
      compile site template scope layout) ∧
      ∀ (literals : LiteralTable) (name tail : Text) (attrs : Attributes),
        Tag.isConditional name = false → Tag.attributes? literals name tail = some attrs →
          Tag.ForbidsImports literals tail → ∀ (route : Route) (scope : Scope), attrs ∈ route →
            route.isOpen scope = false := by
  refine ⟨fun refuse => compile_watched site refuse template scope layout, ?_⟩
  intro literals name tail attrs hname hattrs htail route scope hroute
  have hforbids : forbidsImports attrs := Tag.forbidsImports_attributes? hname hattrs htail
  have hclosed : route.all (fun attrs => !forbidsImports attrs) = false :=
    List.all_eq_false.mpr ⟨attrs, hroute, by simp [hforbids]⟩
  rw [Route.isOpen, hclosed, Bool.false_and]

/-- A page that calls a template and forbids imports in it. -/
def guarded : Template :=
  ⟨"index".toList, "<Box:0 0/>".toList, [.positional [Tag.noImport]], [], [], []⟩

/-- A site where every template that is called imports another one. -/
def vault : Site Unit := ⟨⟨[], .none, none, [], 1⟩, fun kind name =>
  let html := if kind = .imported then "secret".toList else "[<_:part:0/>]".toList
  pure (some ⟨name, html, [], [], [], []⟩)⟩

/-- Data that allow imports. -/
def allowing : Scope := [("allowImport".toList, .bool true)]

theorem imports_open_guarded :
    Tag.isConditional "Box".toList = false ∧
      Tag.attributes? [] "Box".toList Tag.noImport = some (.positional [Tag.noImport]) ∧
      Tag.ForbidsImports [] Tag.noImport ∧
      Route.isOpen [.positional [Tag.noImport]] allowing = false ∧
      (∀ refuse, compileBy (Watch.template ⟨vault.load, refuse⟩) vault guarded allowing none =
        compile vault guarded allowing none) ∧
      (compile vault guarded allowing none ⟨(), []⟩).1 = "[]".toList := by
  have hattrs : Tag.attributes? [] "Box".toList Tag.noImport =
      some (.positional [Tag.noImport]) := by decide +kernel
  have htokens : Tag.attributeTokens [] [] Tag.noImport = [Tag.noImport] := by decide +kernel
  have hnone : Tag.writtenKey? [] Tag.noImport = none := by decide +kernel
  have hforbids : Tag.ForbidsImports [] Tag.noImport := by
    rw [Tag.ForbidsImports, htokens]
    refine .inr ⟨List.mem_singleton_self _, fun token htoken key hkey => ?_⟩
    rw [List.mem_singleton.mp htoken, hnone] at hkey
    cases hkey
  obtain ⟨hwatched, hclosed⟩ := imports_open vault guarded allowing none
  exact ⟨rfl, hattrs, hforbids,
    hclosed [] _ _ _ rfl hattrs hforbids [.positional [Tag.noImport]] allowing
      (List.mem_singleton_self _), hwatched, by decide +kernel⟩

/-- A template that imports another one is called with a bare argument that forbids it, and with an
attribute that is named by the position of the argument. -/
def displaced : Engine := .ofSources 1 fun _ path =>
  .ok ⟨path, if path = "index.xhtml".toList then "<Box _noimport 0=x/>".toList
    else if path = "part.xhtml".toList then "secret".toList else "[<_:part/>]".toList⟩

/-- The attribute takes the place of the argument, and the import is loaded. -/
theorem page_displaced :
    Tag.noImport ∈ Tag.attributeTokens [] [] "_noimport 0=x".toList ∧
      (displaced.compile "index".toList allowing (⟨.ofCapacity 1, []⟩ : World Cache)).1.toOption =
        some "[secret]".toList := by
  decide +kernel

end Page

end Stencil
