import Mathlib.Data.Set.Function
import Mathlib.Logic.Relation
import Stencil.Proofs.Cache
import Stencil.Proofs.Json
namespace Stencil

/-- An access to a storage: a template that was looked for, with what was found, or one that was
set. -/
inductive Access where
  | get (key : Text) (found : Option Template)
  | set (key : Text) (template : Template)

namespace Access

/-- Makes an access to a storage, whatever one like it found before. -/
def perform {σ : Type} [Storage σ] (source : σ) : Access → Access × σ
  | get key _ =>
    let (found, source) := Storage.get source key
    (get key found, source)
  | set key template => (set key template, Storage.set source key template)

/-- What was found under a key. -/
def found? (key : Text) : Access → Option Template
  | get other found => if other = key then found else none
  | set .. => none

/-- An access that finds what another one found. -/
def like (a other : Access) : Access :=
  match a with
  | get key _ => get key (other.found? key)
  | set key template => set key template

def Sound (sound : Text → Template → Prop) : Access → Prop
  | get key found => ∀ t ∈ found, sound key t
  | set key template => sound key template

theorem like_perform {σ : Type} [Storage σ] (source : σ) (a : Access) :
    a.like (a.perform source).1 = (a.perform source).1 := by
  cases a <;> simp [perform, like, found?]

theorem Sound.found? {sound : Text → Template → Prop} {a : Access} (h : a.Sound sound)
    (key : Text) : ∀ t ∈ a.found? key, sound key t := by
  cases a with
  | set => exact fun t ht => (Option.not_mem_none t ht).elim
  | get other found =>
    change ∀ t ∈ if other = key then found else none, sound key t
    split
    next hk =>
      subst hk
      exact h
    next => exact fun t ht => (Option.not_mem_none t ht).elim

/-- An access to a cache of sound templates finds sound ones and sets them. -/
theorem Sound.perform {sound : Text → Template → Prop} {a : Access} (h : a.Sound sound) {c : Cache}
    (hc : c.Holds sound) : (a.perform c).1.Sound sound ∧ (a.perform c).2.Holds sound := by
  cases a with
  | get key found => exact hc.get key
  | set key template => exact ⟨h, hc.set h⟩

end Access

/-- A storage in which the accesses of some computation are repeated: those that are left of it, and
all that were made. If none is left, there is nothing in it. -/
structure Replay where
  left : List Access
  made : List Access

instance : Storage Replay where
  get r key :=
    let found := r.left.head?.bind (Access.found? key)
    (found, ⟨r.left.tail, r.made ++ [.get key found]⟩)
  set r key template := ⟨r.left.tail, r.made ++ [.set key template]⟩

namespace Replay

/-- Are all accesses sound, and is this the number of those that were made, with some before them?
-/
def Holds (sound : Text → Template → Prop) (before n : Nat) (r : Replay) : Prop :=
  before + r.made.length = n ∧ (∀ a ∈ r.left, a.Sound sound) ∧ ∀ a ∈ r.made, a.Sound sound

theorem keeps (sound : Text → Template → Prop) (before : Nat) :
    Storage.Keeps (Holds sound before) sound where
  get n r key h := by
    obtain ⟨hlength, hleft, hmade⟩ := h
    have hfound : ∀ t ∈ r.left.head?.bind (Access.found? key), sound key t := by
      intro t ht
      obtain ⟨a, ha, ht⟩ := Option.bind_eq_some_iff.mp ht
      exact (hleft a (List.mem_of_head? ha)).found? key t ht
    refine ⟨hfound, ?_, fun a ha => hleft a (List.mem_of_mem_tail ha), fun a ha => ?_⟩
    · simp only [Storage.get, List.length_append, List.length_singleton]
      omega
    · rcases List.mem_append.mp ha with ha | ha
      · exact hmade a ha
      · exact List.mem_singleton.mp ha ▸ hfound
  set n r key t h ht := by
    obtain ⟨hlength, hleft, hmade⟩ := h
    refine ⟨?_, fun a ha => hleft a (List.mem_of_mem_tail ha), fun a ha => ?_⟩
    · simp only [Storage.set, List.length_append, List.length_singleton]
      omega
    · rcases List.mem_append.mp ha with ha | ha
      · exact hmade a ha
      · exact List.mem_singleton.mp ha ▸ ht

/-- Two runs of which the second can repeat one access more. They are the same up to this one, which
is the last that they have in common. -/
def further (n : Nat) (last : Access) : Coupling (World Replay) (World Replay) where
  inStep s t :=
    s.words = t.words ∧ s.source.made = t.source.made ∧
      t.source.left = s.source.left ++ [last] ∧ s.source.made.length + s.source.left.length = n
  lost s t := ∃ before a, before.length = n ∧ before ++ [a] <+: s.source.made ∧
    before ++ [a.like last] <+: t.source.made

variable {n : Nat} {last : Access}

theorem alike_draw {α : Type} (r : Random α) :
    (further n last).Alike (World.draw r) (World.draw r) :=
  World.alike_draw (c := further n last) (fun _ _ h => h.1) (fun _ _ _ h => ⟨rfl, h.2⟩)
    (fun _ _ _ h => h) (fun _ _ _ h => h) r

theorem alike_get (key : Text) :
    (further n last).Alike (Engine.cached key) (Engine.cached key) where
  left _ _ h := by
    obtain ⟨before, a, hn, hs, ht⟩ := h
    exact ⟨before, a, hn, hs.trans (List.prefix_append ..), ht⟩
  right _ _ h := by
    obtain ⟨before, a, hn, hs, ht⟩ := h
    exact ⟨before, a, hn, hs, ht.trans (List.prefix_append ..)⟩
  step s t h := by
    obtain ⟨hwords, hmade, hleft, hn⟩ := h
    cases hl : s.source.left with
    | nil =>
      refine .inl ⟨s.source.made, .get key none, by simpa [hl] using hn, ?_, ?_⟩
      · simp [Engine.cached, Storage.get, hl]
      · simp [Engine.cached, Storage.get, hl, hleft, hmade, Access.like]
    | cons a rest =>
      rw [hl] at hleft hn
      refine .inr ⟨?_, hwords, ?_, ?_, ?_⟩
      · simp [Engine.cached, Storage.get, hl, hleft]
      · simp [Engine.cached, Storage.get, hl, hleft, hmade]
      · simp [Engine.cached, Storage.get, hl, hleft]
      · simp only [Engine.cached, Storage.get, hl, List.length_append, List.length_cons,
          List.length_nil, List.tail_cons] at hn ⊢
        omega

theorem alike_set (key : Text) (template : Template) :
    (further n last).Alike (Engine.keep key template) (Engine.keep key template) where
  left _ _ h := by
    obtain ⟨before, a, hn, hs, ht⟩ := h
    exact ⟨before, a, hn, hs.trans (List.prefix_append ..), ht⟩
  right _ _ h := by
    obtain ⟨before, a, hn, hs, ht⟩ := h
    exact ⟨before, a, hn, hs, ht.trans (List.prefix_append ..)⟩
  step s t h := by
    obtain ⟨hwords, hmade, hleft, hn⟩ := h
    cases hl : s.source.left with
    | nil =>
      refine .inl ⟨s.source.made, .set key template, by simpa [hl] using hn, ?_, ?_⟩
      · simp [Engine.keep, Storage.set]
      · simp [Engine.keep, Storage.set, hmade, Access.like]
    | cons a rest =>
      rw [hl] at hleft hn
      refine .inr ⟨rfl, hwords, ?_, ?_, ?_⟩
      · simp [Engine.keep, Storage.set, hmade]
      · simp [Engine.keep, Storage.set, hl, hleft]
      · simp only [Engine.keep, Storage.set, hl, List.length_append, List.length_cons,
          List.length_nil, List.tail_cons] at hn ⊢
        omega

/-- A computation that can repeat one access more makes the accesses before it again, and this one.
-/
theorem prefix_append {α : Type} {m : StateM (World Replay) α}
    (hm : ∀ n last, (further n last).Alike m m) {made : List Access} {words : List UInt32}
    {a : Access} (h : made <+: (m ⟨⟨made, []⟩, words⟩).2.source.made)
    (ha : (m ⟨⟨made, []⟩, words⟩).2.source.made[made.length]? = some a) {σ : Type} [Storage σ]
    (source : σ) :
    made ++ [(a.perform source).1] <+:
      (m ⟨⟨made ++ [(a.perform source).1], []⟩, words⟩).2.source.made := by
  have hrun := (hm made.length (a.perform source).1).step ⟨⟨made, []⟩, words⟩
    ⟨⟨made ++ [(a.perform source).1], []⟩, words⟩ ⟨rfl, rfl, rfl, Nat.zero_add _⟩
  obtain ⟨hlength, -⟩ := List.getElem?_eq_some_iff.mp ha
  rcases hrun with ⟨before, b, hn, hs, ht⟩ | ⟨-, -, -, -, hn⟩
  · have hmade : before = made :=
      List.IsPrefix.eq_of_length
        (List.prefix_of_prefix_length_le ((List.prefix_append ..).trans hs) h (by omega)) hn
    subst hmade
    have hb : (m ⟨⟨before, []⟩, words⟩).2.source.made[before.length]? = some b := by
      obtain ⟨rest, hrest⟩ := hs
      rw [← hrest]
      simp
    cases Option.some.inj (ha.symm.trans hb)
    rwa [Access.like_perform] at ht
  · omega

end Replay

namespace Rendering

variable {σ τ α : Type}

/-- A rendering that goes on from some fragments and sets of attributes. -/
def goOn (fragments : Fragments) (added : List Attributes) (r : Rendering σ α) :
    StateM (World σ) (α × Fragments × List Attributes) := fun world =>
  let (a, p) := r ⟨fragments, added, world⟩
  ((a, p.fragments, p.added), p.world)

theorem alike_goOn {c : Coupling (World σ) (World τ)} {m : Rendering σ α} {n : Rendering τ α}
    (h : c.progress.Alike m n) (fragments : Fragments) (added : List Attributes) :
    c.Alike (goOn fragments added m) (goOn fragments added n) where
  left s t hl := h.left ⟨fragments, added, s⟩ ⟨fragments, added, t⟩ hl
  right s t hl := h.right ⟨fragments, added, s⟩ ⟨fragments, added, t⟩ hl
  step s t hs := by
    rcases h.step ⟨fragments, added, s⟩ ⟨fragments, added, t⟩ ⟨rfl, rfl, hs⟩ with
      hl | ⟨hr, hf, ha, hw⟩
    · exact .inl hl
    · exact .inr ⟨Prod.ext hr (Prod.ext hf ha), hw⟩

end Rendering

namespace Engine

variable {σ : Type} [Storage σ]

/-- The rendering of a page, with no fragments yet. -/
def pageAct (e : Engine) (scope : Scope) (template : Template) :
    StateM (World σ) (Text × Fragments × List Attributes) :=
  Rendering.goOn .empty [] (e.rendering scope template)

/-- The rendering of a layout, if there is one. Its fragments are counted on from those of the page.
-/
def layoutAct (e : Engine) (scope : Scope) (layout : Option Template)
    (page : Text × Fragments × List Attributes) :
    StateM (World σ) (Option Text × Fragments × List Attributes) :=
  Rendering.goOn page.2.1 page.2.2 (layout.mapM (e.rendering scope))

/-- A page and its layout put together. -/
def wholePage (e : Engine) (scope : Scope) (page : Text × Fragments × List Attributes)
    (layout : Option Text × Fragments × List Attributes) : Text :=
  Page.finish (e.site e.options : Site Cache) (Constants.expose scope) layout.2.1 page.1 layout.1

end Engine

/-- A request for a page. -/
structure Request where
  path : Text
  scope : Scope
  words : List UInt32

/-- What a request does: it readies the templates of its page, and then renders the page and its
layout, the two side by side. -/
inductive Thread where
  | ready
  | page
  | layout
deriving DecidableEq

namespace Request

def constants (r : Request) : Scope := Constants.ofScope r.scope

/-- Are the constants of two requests the same if their JSON texts are? -/
def ToldApart (r s : Request) : Prop :=
  Json.compact (.map r.constants) = Json.compact (.map s.constants) → r.constants = s.constants

theorem toldApart_of_isJson {r s : Request} (hr : ∀ entry ∈ r.scope, entry.2.IsJson)
    (hs : ∀ entry ∈ s.scope, entry.2.IsJson) : r.ToldApart s := fun h =>
  Value.map.inj (Json.compact_inj (Constants.isJson_ofScope hr) (Constants.isJson_ofScope hs) h)

/-- The page of a request on an engine of its own, with a cache that is new. -/
def alone (e : Engine) (r : Request) (capacity : Nat) : Except Error Text :=
  (e.compile r.path r.scope ⟨Cache.ofCapacity capacity, r.words⟩).1

/-- The keys of the templates that a request asks for. -/
def keys (e : Engine) (r : Request) : List Text := e.requestedKeys r.path r.scope r.words

section Threads

variable (e : Engine) (r : Request) (made : Thread → List Access)

/-- Readies the templates of a request, with the accesses that it has made for that. -/
def readyRun : Except Error (Template × Option Template) × World Replay :=
  e.readied r.path r.scope ⟨⟨made .ready, []⟩, r.words⟩

/-- Renders the page as far as it has come with the accesses that were made for it. -/
def pageRun (template : Template) : (Text × Fragments × List Attributes) × World Replay :=
  e.pageAct r.scope template ⟨⟨made .page, []⟩, (r.readyRun e made).2.words⟩

/-- Renders the layout as far as it has come with the accesses that were made for it. -/
def layoutRun (templates : Template × Option Template) :
    (Option Text × Fragments × List Attributes) × World Replay :=
  let page := r.pageRun e made templates.1
  e.layoutAct r.scope templates.2 page.1 ⟨⟨made .layout, []⟩, page.2.words⟩

/-- The accesses of a thread that goes on from those that it has made. -/
def accesses : Thread → List Access
  | .ready => (r.readyRun e made).2.source.made
  | .page =>
    match (r.readyRun e made).1 with
    | .error _ => []
    | .ok templates => (r.pageRun e made templates.1).2.source.made
  | .layout =>
    match (r.readyRun e made).1 with
    | .error _ => []
    | .ok templates => (r.layoutRun e made templates).2.source.made

/-- Have all accesses been made that ready the templates of a request? -/
def IsReady : Prop := (r.accesses e made .ready).length = (made .ready).length

instance : Decidable (r.IsReady e made) := inferInstanceAs (Decidable (_ = _))

/-- The next access of a thread, if it is not finished. Nothing is rendered before all is ready. -/
def next? (thread : Thread) : Option Access :=
  if thread = .ready ∨ r.IsReady e made then (r.accesses e made thread)[(made thread).length]?
  else none

/-- The page of a request that is finished. -/
def page : Except Error Text :=
  match (r.readyRun e made).1 with
  | .error err => .error err
  | .ok templates =>
    .ok (e.wholePage r.scope (r.pageRun e made templates.1).1 (r.layoutRun e made templates).1)

end Threads

variable {e : Engine} {r : Request} {made : Thread → List Access}

/-- What a thread can do next. -/
theorem next?_eq_some_iff {thread : Thread} {a : Access} :
    r.next? e made thread = some a ↔
      (thread = .ready ∨ r.IsReady e made) ∧
        (r.accesses e made thread)[(made thread).length]? = some a := by
  unfold next?
  split
  next hcan => exact ⟨fun ha => ⟨hcan, ha⟩, And.right⟩
  next hnot => exact ⟨fun ha => (nomatch ha), fun ha => absurd ha.1 hnot⟩

/-- A thread that goes on from the accesses that it has made makes these again. -/
theorem prefix_update {thread : Thread} {a : Access} {σ : Type} [Storage σ] (source : σ)
    (h : made thread <+: r.accesses e made thread) (ha : r.next? e made thread = some a) :
    made thread ++ [(a.perform source).1] <+:
      r.accesses e (Function.update made thread (made thread ++ [(a.perform source).1]))
        thread := by
  have hload := fun n last => Engine.alike_load (e := e) (c := Replay.further n last)
    (Engine.alike_precompile Replay.alike_get Replay.alike_set Replay.alike_draw)
  have hrender := fun n last =>
    Engine.alike_rendering (hload n last) Replay.alike_draw r.scope
  replace ha := (next?_eq_some_iff.mp ha).2
  cases thread with
  | ready =>
    simp only [accesses, readyRun, Function.update_self] at h ha ⊢
    exact Replay.prefix_append (m := e.readied r.path r.scope)
      (fun _ _ => Engine.alike_readied Replay.alike_get Replay.alike_set Replay.alike_draw _ _)
      h ha source
  | page =>
    have hready : r.readyRun e (Function.update made .page (made .page ++ [(a.perform source).1])) =
        r.readyRun e made := by simp [readyRun]
    simp only [accesses, hready] at h ha ⊢
    cases hr : (r.readyRun e made).1 with
    | error err =>
      rw [hr] at ha
      cases ha
    | ok templates =>
      rw [hr] at h ha
      have happend := Replay.prefix_append (m := e.pageAct r.scope templates.1)
        (fun _ _ => Rendering.alike_goOn (hrender _ _ templates.1) .empty []) h ha source
      simpa only [pageRun, hready, Function.update_self] using happend
  | layout =>
    have hready : r.readyRun e
        (Function.update made .layout (made .layout ++ [(a.perform source).1])) =
          r.readyRun e made := by simp [readyRun]
    have hpage : ∀ template, r.pageRun e
        (Function.update made .layout (made .layout ++ [(a.perform source).1])) template =
          r.pageRun e made template := by simp [pageRun, hready]
    simp only [accesses, hready] at h ha ⊢
    cases hr : (r.readyRun e made).1 with
    | error err =>
      rw [hr] at ha
      cases ha
    | ok templates =>
      rw [hr] at h ha
      have happend := Replay.prefix_append
        (m := e.layoutAct r.scope templates.2 (r.pageRun e made templates.1).1)
        (fun _ _ => Rendering.alike_goOn (Coupling.Alike.mapOption templates.2 fun layout _ =>
          hrender _ _ layout) _ _) h ha source
      simpa only [layoutRun, hpage, Function.update_self] using happend

end Request

namespace Request

section Alone

variable (e : Engine) (r : Request)

/-- Readies the templates of a request when nothing is stored. -/
def readyAlone : Except Error (Template × Option Template) × World Notes :=
  e.readiedAfresh r.path r.scope (Engine.noting r.words)

def pageRunAlone (template : Template) : (Text × Fragments × List Attributes) × World Notes :=
  e.pageAct r.scope template (r.readyAlone e).2

def layoutRunAlone (templates : Template × Option Template) :
    (Option Text × Fragments × List Attributes) × World Notes :=
  let page := r.pageRunAlone e templates.1
  e.layoutAct r.scope templates.2 page.1 page.2

end Alone

variable {e : Engine} {r : Request}

/-- The page that is compiled when nothing is stored, thread by thread. -/
theorem compileAfresh_eq (e : Engine) (r : Request) :
    e.compileAfresh r.path r.scope (Engine.noting r.words) =
      match (r.readyAlone e).1 with
      | .error err => (.error err, (r.readyAlone e).2)
      | .ok templates =>
        (.ok (e.wholePage r.scope (r.pageRunAlone e templates.1).1
            (r.layoutRunAlone e templates).1),
          (r.layoutRunAlone e templates).2) := by
  change e.pageOf r.scope (r.readyAlone e).1 (r.readyAlone e).2 = _
  cases (r.readyAlone e).1 with
  | error err => rfl
  | ok templates => rfl

end Request

/-- A cache that requests share, and the accesses that the threads of each of them have made. -/
structure Traffic (ι : Type) where
  cache : Cache
  made : ι → Thread → List Access

namespace Traffic

variable {ι : Type} {e : Engine} {requests : ι → Request}

/-- No request has made an access, and there is nothing in the cache. -/
def start (capacity keepMs : Nat) : Traffic ι :=
  ⟨(Cache.ofCapacity capacity).setKeep keepMs, fun _ _ => []⟩

/-- Makes an access of a thread of a request. -/
def afterAccess [DecidableEq ι] (s : Traffic ι) (i : ι) (thread : Thread) (a : Access) :
    Traffic ι where
  cache := (a.perform s.cache).2
  made := Function.update s.made i
    (Function.update (s.made i) thread (s.made i thread ++ [(a.perform s.cache).1]))

/-- What can happen: a thread of a request makes its next access, a template is taken out of the
cache, or time goes by. -/
inductive Step [DecidableEq ι] (e : Engine) (requests : ι → Request) :
    Traffic ι → Traffic ι → Prop
  | access (s : Traffic ι) (i : ι) (thread : Thread) (a : Access)
    (h : (requests i).next? e (s.made i) thread = some a) :
    Step e requests s (s.afterAccess i thread a)
  | evict (s : Traffic ι) (key : Text) : Step e requests s { s with cache := s.cache.remove key }
  | elapse (s : Traffic ι) (ms : Nat) :
    Step e requests s { s with cache := s.cache.modify (·.advance ms) }

/-- The texts whose fingerprints tell what is left of a template from what was left of it for other
requests. -/
def fingerprinted (e : Engine) (requests : ι → Request) : Set Text :=
  {text | ∃ i template, e.built e.options (e.key (requests i).path) = .ok template ∧
    text = template.fingerprint ++ Json.compact (.map (requests i).constants)}

/-- Requests for templates without random choices. Distinct texts have distinct fingerprints, what
is constant for requests for one page is told apart by its JSON text, and no template that is asked
for has the key of what is left of one. -/
structure Steady (e : Engine) (requests : ι → Request) : Prop where
  functions : e.functions.Deterministic
  calm : ∀ i, ∀ key ∈ (requests i).keys e, e.Calm e.options key
  fingerprints : Set.InjOn Sha256.fingerprint (fingerprinted e requests)
  constants : ∀ i j, e.key (requests i).path = e.key (requests j).path →
    (requests i).ToldApart (requests j)
  keys : ∀ i j, ∀ key ∈ (requests i).keys e, ∀ other ∈ (requests j).keys e,
    key ≠ Engine.foldedKey other

def demand (e : Engine) (requests : ι → Request) : Demand where
  keys key := ∃ i, key ∈ (requests i).keys e
  folds key constants := ∃ i, key = e.key (requests i).path ∧ constants = (requests i).constants

theorem Steady.apart (h : Steady e requests) : (demand e requests).Apart e where
  functions := h.functions
  calm key hk := hk.elim fun i hi => h.calm i key hi
  keys key other hk ho := hk.elim fun i hi => ho.elim fun j hj => h.keys i j key hi other hj
  folds key template constants others hc ho hb hf := by
    obtain ⟨i, rfl, rfl⟩ := hc
    obtain ⟨j, hj, rfl⟩ := ho
    have htext := h.fingerprints ⟨i, template, hb, rfl⟩ ⟨j, template, hj ▸ hb, rfl⟩ hf
    exact h.constants i j hj (List.append_cancel_left htext)

abbrev Sound (e : Engine) (requests : ι → Request) : Text → Template → Prop :=
  (demand e requests).Sound e

/-- The accesses of a storage that repeats some, with the notes of the keys that are asked for when
nothing is stored. -/
abbrev repeated (e : Engine) (requests : ι → Request) (before : Nat) :
    Coupling (World Replay) (World Notes) :=
  Engine.noted (demand e requests) (Replay.Holds (Sound e requests) before) 2

section Threads

variable {made : Thread → List Access} {i : ι} {templates : Template × Option Template}

theorem alike_pageAct (h : Steady e requests) (before : Nat) (scope : Scope) (template : Template) :
    (repeated e requests before).Alike (e.pageAct scope template) (e.pageAct scope template) :=
  Rendering.alike_goOn (Engine.alike_rendering_noted h.apart (Replay.keeps _ _) scope template) _ _

theorem alike_layoutAct (h : Steady e requests) (before : Nat) (scope : Scope)
    (layout : Option Template) (page : Text × Fragments × List Attributes) :
    (repeated e requests before).Alike (e.layoutAct scope layout page)
      (e.layoutAct scope layout page) :=
  Rendering.alike_goOn (Coupling.Alike.mapOption layout fun l _ =>
    Engine.alike_rendering_noted h.apart (Replay.keeps _ _) scope l) _ _

/-- No key is asked for that nobody was to ask for, and the threads before the last one ask for none
either. -/
theorem not_exceeded (h : Steady e requests) (i : ι) :
    ¬(demand e requests).Exceeded ((requests i).readyAlone e).2.source ∧
      ∀ templates, ((requests i).readyAlone e).1 = .ok templates →
        ¬(demand e requests).Exceeded ((requests i).pageRunAlone e templates.1).2.source ∧
          ¬(demand e requests).Exceeded ((requests i).layoutRunAlone e templates).2.source := by
  have hwhole : ¬(demand e requests).Exceeded (e.compileAfresh (requests i).path
      (requests i).scope (Engine.noting (requests i).words)).2.source := by
    rintro ⟨key, hm, hk⟩
    exact hk ⟨i, hm⟩
  rw [Request.compileAfresh_eq] at hwhole
  -- any world will do on the side of the storage, which has no part in what is asked for
  have hpage := fun template => (alike_pageAct h 0 (requests i).scope template).right
    ⟨⟨[], []⟩, []⟩ ((requests i).readyAlone e).2
  cases hr : ((requests i).readyAlone e).1 with
  | error err =>
    rw [hr] at hwhole
    exact ⟨hwhole, fun templates ht => nomatch ht⟩
  | ok templates =>
    rw [hr] at hwhole
    have hlayout := (alike_layoutAct h 0 (requests i).scope templates.2
      ((requests i).pageRunAlone e templates.1).1).right ⟨⟨[], []⟩, []⟩
        ((requests i).pageRunAlone e templates.1).2
    refine ⟨fun hl => hwhole (hlayout (hpage templates.1 hl)), fun other ht => ?_⟩
    cases ht
    exact ⟨fun hl => hwhole (hlayout hl), hwhole⟩

variable (h : Steady e requests) (hmade : ∀ thread, ∀ a ∈ made thread, a.Sound (Sound e requests))

include h hmade

theorem readyRun_step :
    ((requests i).readyRun e made).1 = ((requests i).readyAlone e).1 ∧
      (repeated e requests 0).inStep ((requests i).readyRun e made).2
        ((requests i).readyAlone e).2 := by
  have hholds : Replay.Holds (Sound e requests) 0 0 ⟨made .ready, []⟩ :=
    ⟨rfl, hmade .ready, fun a ha => absurd ha List.not_mem_nil⟩
  exact (Engine.readied_step h.apart (Replay.keeps _ 0) (fun _ => ⟨i, rfl, rfl⟩)
    ⟨rfl, 0, Nat.zero_le _, hholds⟩).resolve_left (not_exceeded h i).1

theorem pageRun_step (hok : ((requests i).readyAlone e).1 = .ok templates) :
    ((requests i).pageRun e made templates.1).1 = ((requests i).pageRunAlone e templates.1).1 ∧
      (repeated e requests ((requests i).accesses e made .ready).length).inStep
        ((requests i).pageRun e made templates.1).2
        ((requests i).pageRunAlone e templates.1).2 := by
  obtain ⟨-, hwords, n, hn, hlength, -⟩ := readyRun_step (i := i) h hmade
  rw [Nat.zero_add] at hlength
  have hholds : Replay.Holds (Sound e requests) ((requests i).accesses e made .ready).length n
      ⟨made .page, []⟩ := ⟨hlength, hmade .page, fun a ha => absurd ha List.not_mem_nil⟩
  exact ((alike_pageAct h _ (requests i).scope templates.1).step
    ⟨⟨made .page, []⟩, ((requests i).readyRun e made).2.words⟩ ((requests i).readyAlone e).2
    ⟨hwords, n, hn, hholds⟩).resolve_left ((not_exceeded h i).2 templates hok).1

theorem layoutRun_step (hok : ((requests i).readyAlone e).1 = .ok templates) :
    ((requests i).layoutRun e made templates).1 = ((requests i).layoutRunAlone e templates).1 ∧
      (repeated e requests (((requests i).accesses e made .ready).length +
          ((requests i).pageRun e made templates.1).2.source.made.length)).inStep
        ((requests i).layoutRun e made templates).2
        ((requests i).layoutRunAlone e templates).2 := by
  obtain ⟨hr, hwords, n, hn, hlength, -⟩ := pageRun_step (i := i) h hmade hok
  have hholds : Replay.Holds (Sound e requests) (((requests i).accesses e made .ready).length +
      ((requests i).pageRun e made templates.1).2.source.made.length) n ⟨made .layout, []⟩ :=
    ⟨hlength, hmade .layout, fun a ha => absurd ha List.not_mem_nil⟩
  have hstep := (alike_layoutAct h _ (requests i).scope templates.2
    ((requests i).pageRunAlone e templates.1).1).step
    ⟨⟨made .layout, []⟩, ((requests i).pageRun e made templates.1).2.words⟩
    ((requests i).pageRunAlone e templates.1).2 ⟨hwords, n, hn, hholds⟩
  simp only [Request.layoutRun, hr]
  exact hstep.resolve_left ((not_exceeded h i).2 templates hok).2

/-- A request that has found nothing but sound templates comes to the page that is compiled when
nothing is stored, and sets sound templates only. -/
theorem runs_eq :
    (requests i).page e made =
        e.pageAlone (requests i).path (requests i).scope (requests i).words ∧
      ((requests i).accesses e made .ready).length + ((requests i).accesses e made .page).length +
          ((requests i).accesses e made .layout).length ≤ 2 * ((requests i).keys e).length + 2 ∧
        ∀ thread, ∀ a ∈ (requests i).accesses e made thread, a.Sound (Sound e requests) := by
  obtain ⟨hr, -, n, hn, hlength, -, hsound⟩ := readyRun_step (i := i) h hmade
  rw [Nat.zero_add] at hlength
  have hready : ∀ a ∈ (requests i).accesses e made .ready, a.Sound (Sound e requests) := hsound
  rw [Engine.pageAlone, Request.keys, Engine.requestedKeys, Request.compileAfresh_eq]
  cases hok : ((requests i).readyAlone e).1 with
  | error err =>
    rw [hok] at hr
    have hnone : (requests i).accesses e made .page = [] ∧
        (requests i).accesses e made .layout = [] := by simp [Request.accesses, hr]
    refine ⟨by simp [Request.page, hr], ?_, fun thread => ?_⟩
    · have : ((requests i).accesses e made .ready).length = n := hlength
      rw [hnone.1, hnone.2]
      dsimp only [List.length_nil]
      omega
    · cases thread with
      | ready => exact hready
      | page => exact hnone.1 ▸ fun a ha => absurd ha List.not_mem_nil
      | layout => exact hnone.2 ▸ fun a ha => absurd ha List.not_mem_nil
  | ok templates =>
    obtain ⟨hpage, -, -, -, -, -, hpages⟩ := pageRun_step (i := i) h hmade hok
    obtain ⟨hlayout, -, n, hn, hlength, -, hlayouts⟩ := layoutRun_step (i := i) h hmade hok
    rw [hok] at hr
    have hp : (requests i).accesses e made .page =
        ((requests i).pageRun e made templates.1).2.source.made := by simp [Request.accesses, hr]
    have hl : (requests i).accesses e made .layout =
        ((requests i).layoutRun e made templates).2.source.made := by simp [Request.accesses, hr]
    refine ⟨by simp only [Request.page, hr, hpage, hlayout], ?_, fun thread => ?_⟩
    · rw [hp, hl, hlength]
      exact hn
    · cases thread with
      | ready => exact hready
      | page => exact hp ▸ hpages
      | layout => exact hl ▸ hlayouts

end Threads

theorem alone_eq (h : Steady e requests) (i : ι) (capacity : Nat) :
    (requests i).alone e capacity =
      e.pageAlone (requests i).path (requests i).scope (requests i).words :=
  (Engine.compile_eq h.apart Cache.keeps
    (s := ⟨Cache.ofCapacity capacity, (requests i).words⟩)
    (MemoryCache.holds_of_entries_eq_nil rfl) (fun _ hk => ⟨i, hk⟩) fun _ => ⟨i, rfl, rfl⟩).1

/-- What holds at all times of the accesses of one request: they have found sound templates only,
its threads make again what they have made, and nothing is rendered before all is ready. -/
structure Coherent (e : Engine) (requests : ι → Request) (i : ι) (made : Thread → List Access) :
    Prop where
  sound : ∀ thread, ∀ a ∈ made thread, a.Sound (Sound e requests)
  again : ∀ thread, made thread <+: (requests i).accesses e made thread
  begun : ¬(requests i).IsReady e made → ∀ thread, thread ≠ .ready → made thread = []

/-- What holds at all times: the cache holds sound templates, and so is what the requests did. -/
structure Orderly (e : Engine) (requests : ι → Request) (s : Traffic ι) : Prop where
  cache : s.cache.Holds (Sound e requests)
  coherent : ∀ i, Coherent e requests i (s.made i)

theorem orderly_start (capacity keepMs : Nat) : Orderly e requests (start capacity keepMs) where
  cache := MemoryCache.holds_of_entries_eq_nil rfl
  coherent _ :=
    ⟨fun _ _ ha => absurd ha List.not_mem_nil, fun _ => List.nil_prefix, fun _ _ _ => rfl⟩

theorem sound_update {made : Thread → List Access} (thread : Thread) {a : Access}
    (hmade : ∀ thread, ∀ b ∈ made thread, b.Sound (Sound e requests))
    (ha : a.Sound (Sound e requests))
    (other : Thread) : ∀ b ∈ Function.update made thread (made thread ++ [a]) other,
      b.Sound (Sound e requests) := by
  by_cases ho : other = thread
  · subst ho
    rw [Function.update_self]
    intro b hb
    rcases List.mem_append.mp hb with hb | hb
    · exact hmade other b hb
    · exact List.mem_singleton.mp hb ▸ ha
  · rw [Function.update_of_ne ho]
    exact hmade other

/-- What a thread makes does not depend on how far those are that go on beside it. -/
theorem accesses_update (h : Steady e requests) {i : ι} {made : Thread → List Access}
    (hmade : ∀ thread, ∀ a ∈ made thread, a.Sound (Sound e requests)) {thread other : Thread}
    {a : Access}
    (hsound : a.Sound (Sound e requests)) (hthread : thread ≠ .ready) (hne : other ≠ thread) :
    (requests i).accesses e (Function.update made thread (made thread ++ [a])) other =
      (requests i).accesses e made other := by
  have hready : (requests i).readyRun e (Function.update made thread (made thread ++ [a])) =
      (requests i).readyRun e made := by
    simp [Request.readyRun, Function.update_of_ne hthread.symm]
  have hupdate := sound_update thread hmade hsound
  obtain ⟨hr, -⟩ := readyRun_step (i := i) h hmade
  cases other with
  | ready => simp only [Request.accesses, hready]
  | page =>
    have hsame : Function.update made thread (made thread ++ [a]) .page = made .page :=
      Function.update_of_ne hne _ _
    simp only [Request.accesses, Request.pageRun, hready, hsame]
  | layout =>
    have hsame : Function.update made thread (made thread ++ [a]) .layout = made .layout :=
      Function.update_of_ne hne _ _
    simp only [Request.accesses, hready]
    cases hok : ((requests i).readyRun e made).1 with
    | error err => rfl
    | ok templates =>
      obtain ⟨hpage, hwords, -⟩ := pageRun_step h hmade (hr.symm.trans hok)
      obtain ⟨hpage', hwords', -⟩ := pageRun_step h hupdate (hr.symm.trans hok)
      simp only [Request.layoutRun, hpage, hpage', hwords, hwords', hsame]

/-- A thread goes on with an access that finds what is sound. -/
theorem Coherent.update (h : Steady e requests) {i : ι} {made : Thread → List Access}
    (hi : Coherent e requests i made) {thread : Thread} {a : Access}
    (ha : (requests i).next? e made thread = some a) {σ : Type} [Storage σ] (source : σ)
    (hsound : (a.perform source).1.Sound (Sound e requests)) :
    Coherent e requests i
      (Function.update made thread (made thread ++ [(a.perform source).1])) := by
  obtain ⟨hcan, hnext⟩ := Request.next?_eq_some_iff.mp ha
  -- what readies the templates ends before anything is rendered
  have hunready : thread = .ready → ∀ other, other ≠ .ready → made other = [] := by
    rintro rfl
    refine hi.begun fun hready => ?_
    have hlt := (List.getElem?_eq_some_iff.mp hnext).1
    unfold Request.IsReady at hready
    omega
  refine ⟨sound_update thread hi.sound hsound, fun other => ?_, fun hnot other hother => ?_⟩
  · by_cases ho : other = thread
    · subst ho
      rw [Function.update_self]
      exact Request.prefix_update source (hi.again other) ha
    · rw [Function.update_of_ne ho]
      by_cases hthread : thread = .ready
      · rw [hunready hthread other (hthread ▸ ho)]
        exact List.nil_prefix
      · rw [accesses_update h hi.sound hsound hthread ho]
        exact hi.again other
  · by_cases hthread : thread = .ready
    · rw [Function.update_of_ne (hthread ▸ hother)]
      exact hunready hthread other hother
    · refine absurd (hcan.resolve_left hthread) fun hready => hnot ?_
      unfold Request.IsReady at hready ⊢
      rwa [accesses_update h hi.sound hsound hthread (Ne.symm hthread),
        Function.update_of_ne (Ne.symm hthread)]

variable [DecidableEq ι]

theorem Orderly.access (h : Steady e requests) {s : Traffic ι} (hs : Orderly e requests s) {i : ι}
    {thread : Thread} {a : Access} (ha : (requests i).next? e (s.made i) thread = some a) :
    Orderly e requests (s.afterAccess i thread a) := by
  have hi := hs.coherent i
  have hsound := (runs_eq h hi.sound).2.2 thread a
    (List.mem_of_getElem? (Request.next?_eq_some_iff.mp ha).2)
  obtain ⟨hfound, hcache⟩ := hsound.perform hs.cache
  refine ⟨hcache, fun j => ?_⟩
  dsimp only [afterAccess]
  by_cases hj : j = i
  · subst hj
    rw [Function.update_self]
    exact hi.update h ha s.cache hfound
  · rw [Function.update_of_ne hj]
    exact hs.coherent j

theorem Orderly.step (h : Steady e requests) {s t : Traffic ι} (hs : Orderly e requests s)
    (hst : Step e requests s t) : Orderly e requests t := by
  cases hst with
  | access i thread a ha => exact hs.access h ha
  | evict key => exact { hs with cache := hs.cache.modify fun _ hm => hm.remove key }
  | elapse ms => exact { hs with cache := hs.cache.modify fun _ hm => hm }

theorem orderly_of_reachable (h : Steady e requests) {capacity keepMs : Nat} {s : Traffic ι}
    (hs : Relation.ReflTransGen (Step e requests) (start capacity keepMs) s) :
    Orderly e requests s := by
  induction hs with
  | refl => exact orderly_start capacity keepMs
  | tail _ hstep ih => exact ih.step h hstep

/-- Whatever requests share a cache, and in whatever order the accesses of their threads are made: a
request ends after two accesses for each template that it asks for and two for its own, at most, and
its page is the one that it has alone. -/
theorem page_eq_alone (h : Steady e requests) {capacity keepMs : Nat} {s : Traffic ι}
    (hs : Relation.ReflTransGen (Step e requests) (start capacity keepMs) s) (i : ι) :
    (∀ thread a, (requests i).next? e (s.made i) thread = some a →
      (s.made i .ready).length + (s.made i .page).length + (s.made i .layout).length <
        2 * ((requests i).keys e).length + 2) ∧
      ((∀ thread, (requests i).next? e (s.made i) thread = none) →
        (∀ thread, (requests i).accesses e (s.made i) thread = s.made i thread) ∧
          ∀ room, (requests i).page e (s.made i) = (requests i).alone e room) := by
  have hi := (orderly_of_reachable h hs).coherent i
  obtain ⟨hpage, hlength, -⟩ := runs_eq (i := i) h hi.sound
  have hle := fun thread => (hi.again thread).length_le
  refine ⟨fun thread a ha => ?_, fun hdone => ⟨fun thread => ?_, fun room => ?_⟩⟩
  · have hlt := (List.getElem?_eq_some_iff.mp (Request.next?_eq_some_iff.mp ha).2).1
    have hready := hle .ready
    have hpages := hle .page
    have hlayouts := hle .layout
    cases thread <;> omega
  · have hready : (requests i).IsReady e (s.made i) := by
      have hnone := hdone .ready
      rw [Request.next?, if_pos (.inl rfl)] at hnone
      exact le_antisymm (List.getElem?_eq_none_iff.mp hnone) (hle .ready)
    have hnone := hdone thread
    rw [Request.next?, if_pos (.inr hready)] at hnone
    exact ((hi.again thread).eq_of_length_le (List.getElem?_eq_none_iff.mp hnone)).symm
  · exact hpage.trans (alone_eq h i room).symm

end Traffic

namespace Traffic

variable {ι : Type} [DecidableEq ι] {e : Engine} {requests : ι → Request}

/-- Makes the next access of a thread of a request, if the thread is not finished. -/
def serve (e : Engine) (requests : ι → Request) (s : Traffic ι) (turn : ι × Thread) : Traffic ι :=
  match (requests turn.1).next? e (s.made turn.1) turn.2 with
  | some a => s.afterAccess turn.1 turn.2 a
  | none => s

theorem reachable_serve (s : Traffic ι) (order : List (ι × Thread)) :
    Relation.ReflTransGen (Step e requests) s (order.foldl (serve e requests) s) := by
  induction order generalizing s with
  | nil => exact .refl
  | cons turn order ih =>
    refine .trans ?_ (ih _)
    unfold serve
    split
    next a ha => exact .single (.access s turn.1 turn.2 a ha)
    next => exact .refl

/-- Two guests, who ask for the same page. -/
def guest (first : Bool) : Request :=
  ⟨"hall".toList, [("$name".toList, .str (if first then "Ann" else "Bob").toList)], []⟩

theorem isJson_guest (first : Bool) : ∀ entry ∈ (guest first).scope, entry.2.IsJson := fun _ h =>
  List.mem_singleton.mp h ▸ .str _

theorem toldApart_guest (first second : Bool) : (guest first).ToldApart (guest second) :=
  Request.toldApart_of_isJson (isJson_guest first) (isJson_guest second)

/-- The two guests again. They may import, and name a layout. -/
def visitor (first : Bool) : Request :=
  { guest first with scope := (guest first).scope ++
      [("allowImport".toList, .bool true), ("template".toList, .str "door".toList)] }

theorem toldApart_visitor (first second : Bool) : (visitor first).ToldApart (visitor second) := by
  have hjson : ∀ first, ∀ entry ∈ (visitor first).scope, entry.2.IsJson := by
    intro first entry h
    rcases List.mem_append.mp h with h | h
    · exact isJson_guest first entry h
    · simp only [List.mem_cons, List.not_mem_nil, or_false] at h
      rcases h with rfl | rfl
      · exact .bool _
      · exact .str _
  exact Request.toldApart_of_isJson (hjson first) (hjson second)

/-- The files of a house: the page in the hall calls a component and an import, and the layout at
the door calls the component too. -/
def rooms : List (String × String) :=
  [("hall.xhtml", "<Box/><_:foot/>"), ("door.xhtml", "<Box/> <BODY/>"),
    ("components/Box.xhtml", "\x7b\x7b$name\x7d\x7d"), ("foot.xhtml", "!")]

def house : Engine := .ofSources 1 fun _ path =>
  match rooms.find? fun room => room.1.toList = path with
  | some room => .ok ⟨path, room.2.toList⟩
  | none => .error (.notFound path)

theorem steady_visitor : Steady house visitor := by
  have hkeys : ∀ first, (visitor first).keys house =
      ["hall".toList, "door".toList, "components/Box".toList, "foot".toList,
        "components/Box".toList] := by decide +kernel
  refine ⟨fun name f hf => (Option.not_mem_none _ hf).elim, fun first key hk => ?_, ?_,
    fun i j _ => toldApart_visitor i j, fun i j => ?_⟩
  · have hquiet : ∀ key ∈ (visitor first).keys house,
        (∀ source ∈ (house.sources house.options.root
            (key ++ ['.'] ++ house.options.ext)).toOption,
          ∀ t ∈ Engine.draft? house.options key source.text, Placeholder.IsQuiet t.html) ∧
        ∀ t ∈ (house.built house.options key).toOption, Placeholder.IsQuiet t.html := by
      rw [hkeys]
      decide +kernel
    obtain ⟨hsource, hrecord⟩ := hquiet key hk
    exact Engine.calm_of_isQuiet (fun source hs => hsource source (by rw [hs]; rfl)) hrecord
  · -- two different texts only, one for each visitor
    have hprints : ∀ t ∈ (house.built house.options "hall".toList).toOption,
        Engine.foldedFingerprint t (visitor true).constants ≠
          Engine.foldedFingerprint t (visitor false).constants := by decide +kernel
    rintro _ ⟨first, t, ht, rfl⟩ _ ⟨second, t', ht', rfl⟩ h
    cases ht.symm.trans ht'
    have hb : house.built house.options "hall".toList = .ok t := ht
    have hne := hprints t (by rw [hb]; rfl)
    cases first <;> cases second
    · rfl
    · exact absurd h.symm hne
    · exact absurd h hne
    · rfl
  · rw [hkeys, hkeys]
    decide +kernel

/-- Is a request finished? -/
def isDone (e : Engine) (r : Request) (made : Thread → List Access) : Bool :=
  (r.next? e made .ready).isNone && (r.next? e made .page).isNone &&
    (r.next? e made .layout).isNone

/-- The visitors take turns. The layout is begun before the page for one of them. -/
def turns : List (Bool × Thread) :=
  List.replicate 5 (true, .ready) ++ List.replicate 5 (false, .ready) ++
    [(true, .ready), (true, .page), (false, .layout), (true, .layout), (false, .page),
      (true, .page), (false, .page), (true, .page), (false, .page), (true, .layout),
      (true, .page), (false, .page), (false, .layout)]

def served : Traffic Bool := turns.foldl (serve house visitor) (start 3 1000)

theorem page_eq_alone_visitor :
    (visitor true).page house (served.made true) = (visitor true).alone house 3 ∧
      (visitor false).page house (served.made false) = (visitor false).alone house 3 := by
  have hreach : Relation.ReflTransGen (Step house visitor) (start 3 1000) served :=
    reachable_serve _ _
  have hdone : ∀ first, isDone house (visitor first) (served.made first) = true := by decide +kernel
  have hthreads : ∀ first thread,
      (visitor first).next? house (served.made first) thread = none := by
    intro first thread
    have hthread := hdone first
    simp only [isDone, Bool.and_eq_true, Option.isNone_iff_eq_none] at hthread
    cases thread with
    | ready => exact hthread.1.1
    | page => exact hthread.1.2
    | layout => exact hthread.2
  have hpage := fun first => ((page_eq_alone steady_visitor hreach first).2 (hthreads first)).2 3
  exact ⟨hpage true, hpage false⟩

/-- A site whose templates are all `{{$name}}`. -/
def hall : Engine := .ofSources 1 fun _ path => .ok ⟨path, "\x7b\x7b$name\x7d\x7d".toList⟩

/-- A guest without a name, or with one that is no number. -/
def nobody (isNull : Bool) : Request :=
  ⟨"hall".toList, [("$name".toList, if isNull then .null else .float .nan)], []⟩

/-- What is no number has the JSON text of null: the page of one guest is shown to the other. -/
theorem page_ne_alone :
    let s := (List.replicate 4 (false, Thread.ready) ++ List.replicate 2 (true, Thread.ready)).foldl
      (serve hall nobody) (start 3 1000)
    isDone hall (nobody true) (s.made true) ∧
      (nobody true).page hall (s.made true) = .ok "NaN".toList ∧
        (nobody true).alone hall 3 = .ok [] := by
  decide +kernel

end Traffic

end Stencil
