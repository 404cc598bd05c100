import Stencil.Proofs.Interleaving

namespace Stencil

namespace MemoryCache

/-- What can be told of an entry: its key, its template, and whether it is live. -/
def seen (now : Nat) (e : CacheEntry) : Text × Template × Bool :=
  (e.key, e.template, now < e.expires)

/-- Two caches in which the same is found, and which both keep what is set. -/
structure Same (c d : MemoryCache) : Prop where
  capacity : c.capacity = d.capacity
  now : c.now = d.now
  entries : c.entries.map (seen c.now) = d.entries.map (seen d.now)
  left : 0 < c.keepMs
  right : 0 < d.keepMs

namespace Same

variable {c d : MemoryCache}

theorem without (h : c.Same d) (key : Text) :
    (c.without key).map (seen c.now) = (d.without key).map (seen d.now) := by
  have hfilter : ∀ m : MemoryCache, (m.without key).map (seen m.now) =
      (m.entries.map (seen m.now)).filter fun s => s.1 ≠ key := fun m => by
    rw [MemoryCache.without, List.filter_map]
    rfl
  rw [hfilter, hfilter, h.entries]

theorem entry? (h : c.Same d) (key : Text) :
    (c.entry? key).map (seen c.now) = (d.entry? key).map (seen d.now) := by
  have hfind : ∀ m : MemoryCache, (m.entry? key).map (seen m.now) =
      (m.entries.map (seen m.now)).find? fun s => s.1 = key := fun m => by
    rw [MemoryCache.entry?, List.find?_map]
    rfl
  rw [hfind, hfind, h.entries]

/-- An entry of one cache is like one of the other. -/
theorem entry?_cases (h : c.Same d) (key : Text) :
    c.entry? key = none ∧ d.entry? key = none ∨ ∃ e f, c.entry? key = some e ∧
      d.entry? key = some f ∧ seen c.now e = seen d.now f := by
  have hseen := h.entry? key
  cases hc : c.entry? key with
  | none =>
    rw [hc] at hseen
    exact .inl ⟨rfl, Option.map_eq_none_iff.mp hseen.symm⟩
  | some e =>
    rw [hc] at hseen
    obtain ⟨f, hd, hf⟩ := Option.map_eq_some_iff.mp hseen.symm
    exact .inr ⟨e, f, rfl, hd, hf.symm⟩

theorem get (h : c.Same d) (key : Text) :
    (c.get key).1 = (d.get key).1 ∧ (c.get key).2.Same (d.get key).2 := by
  unfold MemoryCache.get
  rcases h.entry?_cases key with ⟨hc, hd⟩ | ⟨e, f, hc, hd, hseen⟩
  · rw [hc, hd]
    exact ⟨rfl, h⟩
  · rw [hc, hd]
    obtain ⟨hkey, htemplate, hlive⟩ : e.key = f.key ∧ e.template = f.template ∧
        c.isLive e = d.isLive f := by simpa [seen, isLive] using hseen
    dsimp only
    rw [hlive]
    split
    · refine ⟨by rw [htemplate], ⟨h.capacity, h.now, ?_, h.left, h.right⟩⟩
      simp only [List.map_cons, h.without key, hseen]
    · exact ⟨rfl, ⟨h.capacity, h.now, h.without key, h.left, h.right⟩⟩

theorem makeRoom (h : c.Same d) (key : Text) :
    (c.makeRoom key).map (seen c.now) = (d.makeRoom key).map (seen d.now) := by
  have htake : (c.entries.take (c.capacity - 1)).map (seen c.now) =
      (d.entries.take (d.capacity - 1)).map (seen d.now) := by
    rw [List.map_take, List.map_take, h.entries, h.capacity]
  unfold MemoryCache.makeRoom
  rcases h.entry?_cases key with ⟨hc, hd⟩ | ⟨e, f, hc, hd, -⟩
  · rw [hc, hd]
    exact htake
  · rw [hc, hd]
    exact h.without key

theorem set (h : c.Same d) (key : Text) (template : Template) :
    (c.set key template).Same (d.set key template) := by
  have hheld : c.isKept key template = d.isKept key template := by
    unfold isKept
    rcases h.entry?_cases key with ⟨hc, hd⟩ | ⟨e, f, hc, hd, hseen⟩
    · rw [hc, hd]
      rfl
    · rw [hc, hd]
      obtain ⟨-, htemplate, hlive⟩ : e.key = f.key ∧ e.template = f.template ∧
          c.isLive e = d.isLive f := by simpa [seen, isLive] using hseen
      simp only [Option.any_some, htemplate, hlive]
  unfold MemoryCache.set
  rw [hheld]
  split
  · exact h
  · refine ⟨h.capacity, h.now, ?_, h.left, h.right⟩
    -- what is set now is live in both
    have hlive : ∀ m : MemoryCache, 0 < m.keepMs →
        seen m.now ⟨key, template, m.now + m.keepMs⟩ = (key, template, true) := fun m hm => by
      simp [seen, hm]
    simp only [List.map_cons, h.makeRoom key, hlive c h.left, hlive d h.right]

theorem setKeep (h : c.Same d) {ms : Nat} (hms : 0 < ms) : (c.setKeep ms).Same d :=
  ⟨h.capacity, h.now, h.entries, hms, h.right⟩

end Same

end MemoryCache

namespace Cache

/-- Two caches in which the same is found, if there are any. -/
def Same : Cache → Cache → Prop
  | off, off => True
  | memory c, memory d => c.Same d
  | _, _ => False

variable {c d : Cache}

theorem Same.get (h : c.Same d) (key : Text) :
    (c.get key).1 = (d.get key).1 ∧ (c.get key).2.Same (d.get key).2 := by
  cases c with
  | off =>
    cases d with
    | off => exact ⟨rfl, trivial⟩
    | memory d => exact h.elim
  | memory c =>
    cases d with
    | off => exact h.elim
    | memory d => exact MemoryCache.Same.get h key

theorem Same.modify (h : c.Same d) {f g : MemoryCache → MemoryCache}
    (hf : ∀ m n : MemoryCache, m.Same n → (f m).Same (g n)) : (c.modify f).Same (d.modify g) := by
  cases c with
  | off =>
    cases d with
    | off => trivial
    | memory d => exact h.elim
  | memory c =>
    cases d with
    | off => exact h.elim
    | memory d => exact hf c d h

theorem Same.setKeep (h : c.Same d) {ms : Nat} (hms : 0 < ms) : (c.setKeep ms).Same d := by
  cases c with
  | off => exact h
  | memory c =>
    cases d with
    | off => exact h.elim
    | memory d => exact MemoryCache.Same.setKeep h hms

/-- A cache that keeps what is set for some time. -/
def Keeps : Cache → Prop
  | off => True
  | memory c => 0 < c.keepMs

theorem same_refl (h : c.Keeps) : c.Same c := by
  cases c with
  | off => trivial
  | memory c => exact ⟨rfl, rfl, rfl, h, h⟩

end Cache

namespace Options

/-- Options that differ in nothing but the layout and for how long templates are kept. -/
structure Agree (o p : Options) : Prop where
  root : o.root = p.root
  components : o.components = p.components
  ext : o.ext = p.ext
  assets : o.assets = p.assets
  markdown : o.markdown = p.markdown

instance (o p : Options) : Decidable (o.Agree p) :=
  decidable_of_iff (o.root = p.root ∧ o.components = p.components ∧ o.ext = p.ext ∧
    o.assets = p.assets ∧ o.markdown = p.markdown)
    ⟨fun ⟨hr, hc, he, ha, hm⟩ => ⟨hr, hc, he, ha, hm⟩, fun ⟨hr, hc, he, ha, hm⟩ =>
      ⟨hr, hc, he, ha, hm⟩⟩

/-- Options that agree with the same options agree. -/
theorem Agree.of_common {o p q : Options} (ho : o.Agree q) (hp : p.Agree q) : o.Agree p :=
  ⟨ho.root.trans hp.root.symm, ho.components.trans hp.components.symm, ho.ext.trans hp.ext.symm,
    ho.assets.trans hp.assets.symm, ho.markdown.trans hp.markdown.symm⟩

end Options

namespace Live

variable {σ : Type} [Surroundings σ]

/-- Options that agree make no difference for a record. -/
theorem obtain_congr (e : Engine) {o p : Options} (h : o.Agree p) (path : Text) :
    (obtain e.host o path : StateM (World σ) (Except Error Template)) = obtain e.host p path := by
  have hhost : e.host o = e.host p := by rw [Engine.host, Engine.host, h.assets]
  have hbuild : ∀ key source, (Engine.build (e.host o) o key source :
      StateM (World σ) (Except Error Template)) = Engine.build (e.host p) p key source := by
    intro key source
    rw [Engine.build, Engine.build, hhost, h.markdown]
  unfold obtain
  simp only [h.root, h.ext, hbuild]

theorem candidates_congr {o p : Options} (h : o.Agree p) (kind : TemplateKind) (name : Text) :
    Engine.candidates o kind name = Engine.candidates p kind name := by
  unfold Engine.candidates
  rw [h.components]

end Live

namespace Event

/-- The same event, if it is no query for the options; else the one that these are answered with. -/
def pin (o : Options) (event : Event) : Event :=
  match event with
  | ⟨.options, _⟩ => ⟨.options, o⟩
  | ⟨.read root name, a⟩ => ⟨.read root name, a⟩
  | ⟨.get key, a⟩ => ⟨.get key, a⟩
  | ⟨.set key template, a⟩ => ⟨.set key template, a⟩

theorem pin_of_ne (o : Options) {q : Query} (hq : q ≠ .options) (a : q.Answer) :
    pin o ⟨q, a⟩ = ⟨q, a⟩ := by
  cases q with
  | options => exact absurd rfl hq
  | read => rfl
  | get => rfl
  | set => rfl

/-- Are options read that agree with these? -/
def Agrees (o : Options) (event : Event) : Prop :=
  ∀ p, event = ⟨.options, p⟩ → Options.Agree p o

end Event

namespace Echo

variable {o : Options} {events : List Event} {e : Engine}

/-- The events of a request repeated, and repeated with the same options throughout. The comparison
is lost when something else is asked. -/
def pinned (o : Options) (events : List Event) : Coupling (World Echo) (World Echo) where
  inStep s t := s.words = t.words ∧ s.source.made ++ s.source.left = events ∧
    t.source = ⟨s.source.left.map (Event.pin o), s.source.made.map (Event.pin o)⟩
  lost s _ := ¬s.source.made <+: events

theorem alike_draw_pinned {α : Type} (r : Random α) :
    (pinned o events).Alike (World.draw r) (World.draw r) :=
  World.alike_draw (c := pinned o events) (fun _ _ h => h.1) (fun _ _ _ h => ⟨rfl, h.2⟩)
    (fun _ _ _ h => h) (fun _ _ _ h => h) r

theorem alike_ask_pinned (q : Query) (hq : q ≠ .options) :
    (pinned o events).Alike (Live.ask q) (Live.ask q) where
  left _ _ h hp := h ((List.prefix_append ..).trans hp)
  right _ _ h := h
  step s t h := by
    obtain ⟨hwords, hevents, ht⟩ := h
    rcases ask_cases q s with ⟨a, rest, hleft, hask⟩ | hother
    · have hanswer : t.source.answer q = a := by
        simp [answer, ht, hleft, Event.pin_of_ne o hq, Event.answerTo_self]
      rw [hask, ask_eq, hanswer]
      refine .inr ⟨rfl, hwords, ?_, ?_⟩
      · rw [← hevents, hleft, List.append_assoc]
        rfl
      · simp [ht, hleft, Event.pin_of_ne o hq]
    · rw [hevents] at hother
      exact .inl hother

/-- What depends on options only so far as these agree is alike when they are read. -/
theorem alike_options_pinned {α : Type} {f g : Options → StateM (World Echo) α}
    (h : ∀ event ∈ events, event.Agrees o) (hself : ∀ p, (pinned o events).Alike (f p) (g p))
    (hf : ∀ p, p.Agree o → f p = f o) :
    (pinned o events).Alike (Live.options >>= f) (Live.options >>= g) where
  left s t hl := (hself _).left _ _ fun hp => hl ((List.prefix_append ..).trans hp)
  right s t hl := (hself _).right _ _ hl
  step s t hs := by
    obtain ⟨hwords, hevents, ht⟩ := hs
    rcases ask_cases .options s with ⟨p, rest, hleft, hask⟩ | hother
    · have hagree : p.Agree o := by
        refine h ⟨.options, p⟩ ?_ p rfl
        rw [← hevents, hleft]
        exact List.mem_append_right _ List.mem_cons_self
      have hanswer : t.source.answer .options = o := by
        simp only [answer, ht, hleft, List.map_cons]
        exact Event.answerTo_self .options o
      have hfirst : (Live.options >>= f) s =
          f o ⟨⟨rest, s.source.made ++ [⟨.options, p⟩]⟩, s.words⟩ := by
        simp only [← hf p hagree, bind, StateT.bind, Live.options, hask]
      have hsecond : (Live.options >>= g) t =
          g o ⟨⟨t.source.left.tail, t.source.made ++ [⟨.options, o⟩]⟩, t.words⟩ := by
        simp only [bind, StateT.bind, Live.options, ask_eq, hanswer]
      rw [hfirst, hsecond]
      refine (hself o).step _ _ ⟨hwords, ?_, ?_⟩
      · rw [← hevents, hleft, List.append_assoc]
        rfl
      · simp [ht, hleft, Event.pin]
    · rw [hevents] at hother
      exact .inl ((hself _).left _ _ ((hself _).right _ _ hother))

theorem alike_compileUnder_pinned (h : ∀ event ∈ events, event.Agrees o) (path : Text)
    (scope : Scope) : (pinned o events).Alike (Live.compileUnder e.host o path scope)
      (Live.compileUnder e.host o path scope) := by
  have hmade : ∀ path,
      (pinned o events).Alike (Live.precompile e.host path) (Live.precompile e.host path) :=
    fun path => alike_options_pinned h
      (fun p => Live.alike_obtain alike_ask_pinned alike_draw_pinned p path)
      fun p hp => Live.obtain_congr e hp path
  refine Live.alike_compileUnder alike_ask_pinned alike_draw_pinned hmade (fun kind name => ?_) o
    path scope
  cases kind with
  | component =>
    exact alike_options_pinned h (fun p => Live.alike_firstOf hmade _) fun p hp => by
      rw [Live.candidates_congr hp]
  | imported => exact Live.alike_firstOf hmade _
  | layout => exact Live.alike_firstOf hmade _

end Echo

namespace Request

variable {e : Engine} {r : Request} {o : Options} {made : List Event}

/-- A request that is finished comes to the same page, and is finished as well, if the options that
it read first are in force throughout. -/
theorem outcome_pin (hfirst : made.head? = some ⟨.options, o⟩)
    (h : ∀ event ∈ made, event.Agrees o) (hdone : (r.repeated e.host made).2.source.made = made) :
    r.outcome e.host made = r.outcome e.host (made.map (Event.pin o)) ∧
      (r.repeated e.host (made.map (Event.pin o))).2.source.made = made.map (Event.pin o) := by
  obtain ⟨rest, rfl⟩ := List.head?_eq_some_iff.mp hfirst
  have hrun : ∀ rest, r.repeated e.host (⟨.options, o⟩ :: rest) =
      Live.compileUnder e.host o r.path r.scope ⟨⟨rest, [⟨.options, o⟩]⟩, r.words⟩ := fun rest => by
    have hanswer : (Echo.mk (⟨.options, o⟩ :: rest) []).answer .options = o :=
      Event.answerTo_self .options o
    simp only [repeated, Live.compile, bind, StateT.bind, Live.options, Echo.ask_eq, hanswer]
    rfl
  rw [hrun] at hdone
  rw [List.map_cons, show Event.pin o ⟨.options, o⟩ = ⟨.options, o⟩ from rfl, outcome, outcome,
    hrun,
    hrun]
  rcases (Echo.alike_compileUnder_pinned h r.path r.scope).step ⟨⟨rest, [⟨.options, o⟩]⟩, r.words⟩
    ⟨⟨rest.map (Event.pin o), [⟨.options, o⟩]⟩, r.words⟩ ⟨rfl, rfl, rfl⟩ with
    hl | ⟨hpage, -, -, hsource⟩
  · exact absurd (by rw [hdone]) hl
  · refine ⟨hpage, ?_⟩
    rw [hsource, hdone]
    rfl

end Request

namespace Affairs

variable {ι : Type} [DecidableEq ι] {e : Engine} {requests : ι → Request} {i : ι}

/-- What one request and others do who set options of which no record depends: the request makes its
queries, options are written, and the cache is told for how long to keep templates. -/
def IsSetting (i : ι) : Act ι → Prop
  | .proceed j => j = i
  | .write _ _ => True
  | .keepFor ms => 0 < ms
  | _ => False

/-- What a request was answered, when the options that it reads agree with those around it before:
it is what it is answered if these are in force throughout, up to what tells the cache for how long
templates are kept. -/
structure Pinned (a : Around) (made : List Event) (cache : Cache) : Prop where
  first : made.head? = some ⟨.options, a.options⟩
  agrees : ∀ event ∈ made, event.Agrees a.options
  answers : Surroundings.Answers a (made.map (Event.pin a.options))
  past : ∃ c, Surroundings.past a (made.map (Event.pin a.options)) = { a with cache := c } ∧
    cache.Same c

theorem Pinned.start {a : Around} {cache : Cache} (h : cache.Same a.cache) :
    Pinned a [⟨.options, a.options⟩] cache where
  first := rfl
  agrees event he p hp := by
    cases List.mem_singleton.mp he
    cases hp
    exact ⟨rfl, rfl, rfl, rfl, rfl⟩
  answers := ⟨rfl, trivial⟩
  past := ⟨a.cache, rfl, h⟩

theorem Pinned.head? {a : Around} {made : List Event} {cache : Cache} (h : Pinned a made cache)
    (event : Event) : (made ++ [event]).head? = some ⟨.options, a.options⟩ := by
  rw [List.head?_append, h.first]
  rfl

/-- One query more, that is not for the options and is answered in the same way. -/
theorem Pinned.concat {a : Around} {made : List Event} {cache later : Cache}
    (h : Pinned a made cache) {q : Query} (hq : q ≠ .options) {answer : q.Answer}
    (hask : ∀ c, cache.Same c → (Surroundings.ask { a with cache := c } q).1 = answer ∧
      ∃ d, (Surroundings.ask { a with cache := c } q).2 = { a with cache := d } ∧ later.Same d) :
    Pinned a (made ++ [⟨q, answer⟩]) later := by
  obtain ⟨c, hpast, hsame⟩ := h.past
  obtain ⟨hanswer, d, hafter, hlater⟩ := hask c hsame
  have hpin : (made ++ [(⟨q, answer⟩ : Event)]).map (Event.pin a.options) =
      made.map (Event.pin a.options) ++ [⟨q, answer⟩] := by
    rw [List.map_append, List.map_singleton, Event.pin_of_ne _ hq]
  refine ⟨h.head? _, fun event he p hp => ?_, ?_, d, ?_, hlater⟩
  · rcases List.mem_append.mp he with he | he
    · exact h.agrees event he p hp
    · obtain rfl := List.mem_singleton.mp he
      exact absurd (congrArg Event.query hp) hq
  · have hconcat := Surroundings.answers_concat h.answers q
    rw [hpast, hanswer] at hconcat
    rwa [hpin]
  · rw [hpin, Surroundings.past_concat, hpast, hafter]

/-- The options are read once more. -/
theorem Pinned.options {a : Around} {made : List Event} {cache : Cache} (h : Pinned a made cache)
    {o : Options} (ho : o.Agree a.options) : Pinned a (made ++ [⟨.options, o⟩]) cache := by
  have hpin : (made ++ [(⟨.options, o⟩ : Event)]).map (Event.pin a.options) =
      made.map (Event.pin a.options) ++ [⟨.options, a.options⟩] := by
    rw [List.map_append]
    rfl
  obtain ⟨c, hpast, hsame⟩ := h.past
  refine ⟨h.head? _, fun event he p hp => ?_, ?_, c, ?_, hsame⟩
  · rcases List.mem_append.mp he with he | he
    · exact h.agrees event he p hp
    · cases List.mem_singleton.mp he
      cases hp
      exact ho
  · have hconcat := Surroundings.answers_concat h.answers .options
    rw [hpast] at hconcat
    rw [hpin]
    exact hconcat
  · rw [hpin, Surroundings.past_concat, hpast]
    rfl

/-- One query more, answered by what is around now. -/
theorem Pinned.ask {a b : Around} {made : List Event} (h : Pinned a made b.cache)
    (hsources : b.sources = a.sources) (hoptions : b.options.Agree a.options) (q : Query) :
    Pinned a (made ++ [⟨q, (Surroundings.ask b q).1⟩]) (Surroundings.ask b q).2.cache := by
  cases q with
  | options => exact h.options hoptions
  | read root name =>
    refine h.concat (q := .read root name) nofun fun c hc => ⟨?_, c, rfl, hc⟩
    simp only [Surroundings.ask, hsources]
    rfl
  | get key =>
    refine h.concat (q := .get key) nofun fun c hc => ?_
    obtain ⟨hfound, hsame⟩ := hc.get key
    exact ⟨hfound.symm, _, rfl, hsame⟩
  | set key template =>
    refine h.concat (q := .set key template) nofun fun c hc => ⟨rfl, _, rfl, ?_⟩
    exact hc.modify fun m n hm => hm.set key template

/-- The surroundings of the start, with the options that are in force after some acts. -/
def underOptions (s : Affairs ι) (host : Options → Host) (requests : ι → Request)
    (acts : List (Act ι)) : Around :=
  { s.around with store := (s.afterAll host requests acts).around.store }

/-- How far a request is, after some acts: it has not begun, or its options are pinned. -/
structure Steadily (s t : Affairs ι) (i : ι) (e : Engine) (requests : ι → Request)
    (acts : List (Act ι)) : Prop where
  sources : t.around.sources = s.around.sources
  run : (requests i).IsRun e.host (t.made i)
  state : t.made i = [] ∧ t.around.cache.Same s.around.cache ∨ ∃ before, before <+: acts ∧
    Pinned (s.underOptions e.host requests before) (t.made i) t.around.cache

theorem Steadily.start {s : Affairs ι} (hmade : s.made i = []) (hkeeps : s.around.cache.Keeps) :
    Steadily s s i e requests [] where
  sources := rfl
  run := by
    rw [hmade]
    exact List.nil_prefix
  state := .inl ⟨hmade, Cache.same_refl hkeeps⟩

/-- One act more. -/
theorem Steadily.after {s t : Affairs ι} {acts : List (Act ι)} {act : Act ι}
    (h : Steadily s t i e requests acts) (hact : IsSetting i act)
    (ht : t = s.afterAll e.host requests acts)
    (hagree : ∀ before, before <+: acts → t.around.options.Agree
      (s.underOptions e.host requests before).options) :
    Steadily s (t.after e.host requests act) i e requests (acts ++ [act]) := by
  have hlonger : ∀ {before}, before <+: acts → before <+: acts ++ [act] := fun hb =>
    hb.trans (List.prefix_append ..)
  cases act with
  | proceed j =>
    obtain rfl : j = i := hact
    cases hq : (requests j).query? e.host (t.made j) with
    | none =>
      rw [Affairs.after, proceed_of_none hq]
      exact ⟨h.sources, h.run, h.state.imp id fun hs => hs.imp fun _ hb => ⟨hlonger hb.1, hb.2⟩⟩
    | some q =>
      rw [Affairs.after]
      refine ⟨?_, ?_, .inr ?_⟩
      · rw [around_proceed hq, Around.sources_ask, h.sources]
      · rw [made_proceed hq]
        exact h.run.append hq _
      · rw [made_proceed hq, around_proceed hq]
        rcases h.state with ⟨hmade, hsame⟩ | ⟨before, hbefore, hpinned⟩
        · rw [hmade, Request.query?_nil] at hq
          obtain rfl := Option.some.inj hq
          refine ⟨acts, List.prefix_append .., ?_⟩
          have hoptions : (s.underOptions e.host requests acts).options = t.around.options := by
            rw [ht]
            rfl
          have hstart := Pinned.start (a := s.underOptions e.host requests acts) hsame
          rw [hoptions] at hstart
          rw [hmade]
          exact hstart
        · exact ⟨before, hlonger hbefore, hpinned.ask h.sources (hagree before hbefore) q⟩
  | write name value =>
    exact ⟨h.sources, h.run, h.state.imp id fun hs => hs.imp fun _ hb => ⟨hlonger hb.1, hb.2⟩⟩
  | keepFor ms =>
    refine ⟨h.sources, h.run, h.state.imp (fun hs => ⟨hs.1, hs.2.setKeep hact⟩) fun hs =>
      hs.imp fun before hb => ⟨hlonger hb.1, ?_⟩⟩
    obtain ⟨hfirst, hagrees, hanswers, c, hpast, hsame⟩ := hb.2
    exact ⟨hfirst, hagrees, hanswers, c, hpast, hsame.setKeep hact⟩
  | replace => exact hact.elim
  | remove => exact hact.elim
  | clear => exact hact.elim
  | elapse => exact hact.elim

theorem steadily_afterAll {s : Affairs ι} {acts : List (Act ι)} (hmade : s.made i = [])
    (hkeeps : s.around.cache.Keeps) (hacts : ∀ act ∈ acts, IsSetting i act)
    (hagree : ∀ before, before <+: acts →
      (s.afterAll e.host requests before).around.options.Agree s.around.options) :
    Steadily s (s.afterAll e.host requests acts) i e requests acts := by
  induction acts using List.reverseRecOn with
  | nil => exact .start hmade hkeeps
  | append_singleton acts act ih =>
    have hbefore : ∀ before, before <+: acts → before <+: acts ++ [act] := fun _ hb =>
      hb.trans (List.prefix_append ..)
    have hsteady := ih (fun act ha => hacts act (List.mem_append_left _ ha))
      fun before hb => hagree before (hbefore before hb)
    rw [afterAll_concat]
    refine hsteady.after (hacts act (by simp)) rfl fun before hb => ?_
    exact (hagree acts (List.prefix_append ..)).of_common (hagree before (hbefore before hb))

/-- One request and others who set options: if these set neither the place of templates, of
components or of assets, nor the extension or markdown, to something else, and do not tell the cache
to keep nothing, the page is the one that the engine compiles under the options that were in force
at one moment. -/
theorem outcome_snapshot {s : Affairs ι} {acts : List (Act ι)} (hmade : s.made i = [])
    (hkeeps : s.around.cache.Keeps) (hacts : ∀ act ∈ acts, IsSetting i act)
    (hagree : ∀ before, before <+: acts →
      (s.afterAll e.host requests before).around.options.Agree s.around.options)
    (hdone : (requests i).query? e.host ((s.afterAll e.host requests acts).made i) = none) :
    ∃ before, before <+: acts ∧
      (requests i).outcome e.host ((s.afterAll e.host requests acts).made i) =
        (Engine.compile
          { e with
            sources := s.around.sources
            store := (s.afterAll e.host requests before).around.store }
          (requests i).path (requests i).scope ⟨s.around.cache, (requests i).words⟩).1 := by
  obtain ⟨-, hrun, hstate⟩ := steadily_afterAll hmade hkeeps hacts hagree
  rcases hstate with ⟨hnone, -⟩ | ⟨before, hbefore, hpinned⟩
  · rw [hnone, Request.query?_nil] at hdone
    cases hdone
  · refine ⟨before, hbefore, ?_⟩
    obtain ⟨hpin, hdone⟩ := Request.outcome_pin hpinned.first hpinned.agrees (hrun.made_eq hdone)
    rw [hpin, Request.outcome_of_answers hdone hpinned.answers]
    have hengine := Around.compile_eq
      { e with
        sources := s.around.sources
        store := (s.afterAll e.host requests before).around.store }
      (requests i).path (requests i).scope ⟨s.around.cache, (requests i).words⟩
    exact congrArg Prod.fst hengine

/-- A request for the page of a site, without data. -/
def visit (_ : Unit) : Request := ⟨"index".toList, [], []⟩

def proceeding (n : Nat) : List (Act Unit) := List.replicate n (.proceed ())

/-- A page, a layout, and an option that is set when the page has read its options. -/
def framed : Affairs Unit :=
  start (place [("index.xhtml", "page"), ("frame.xhtml", "frame")]) [] 4

def framing : List (Act Unit) :=
  proceeding 2 ++ [.keepFor 5, .write "template".toList "frame".toList] ++ proceeding 3

def bare : Engine := .ofSources 1 (place [])

theorem outcome_snapshot_framed :
    (visit ()).outcome bare.host ((framed.afterAll bare.host visit framing).made ()) =
        .ok "page".toList ∧
      ∃ before, before <+: framing ∧
        (visit ()).outcome bare.host ((framed.afterAll bare.host visit framing).made ()) =
          (Engine.compile
            { bare with
              sources := framed.around.sources
              store := (framed.afterAll bare.host visit before).around.store }
            (visit ()).path (visit ()).scope ⟨framed.around.cache, (visit ()).words⟩).1 := by
  have hagree : ∀ k ≤ framing.length, (framed.afterAll bare.host visit
      (framing.take k)).around.options.Agree framed.around.options := by decide +kernel
  have hkeeps : 0 < MemoryCache.defaultKeepMs := by decide
  refine ⟨by decide +kernel, outcome_snapshot (s := framed) rfl hkeeps ?_ ?_ ?_⟩
  · intro act hact
    simp only [framing, proceeding, List.mem_append, List.mem_replicate, List.mem_cons,
      List.not_mem_nil, or_false] at hact
    rcases hact with (⟨-, rfl⟩ | rfl | rfl) | ⟨-, rfl⟩
    · rfl
    · exact Nat.succ_pos 4
    · trivial
    · rfl
  · intro before hbefore
    rw [List.prefix_iff_eq_take.mp hbefore]
    exact hagree _ hbefore.length_le
  · decide +kernel

/-- A page with two components, of which there are two kinds. -/
def assembled : Affairs Unit :=
  start (place [("index.xhtml", "<A/><B/>"), ("components/A.xhtml", "1"),
    ("components/B.xhtml", "2"), ("parts/A.xhtml", "3"), ("parts/B.xhtml", "4")]) [] 4

/-- The place of the components is set when the first one is loaded, and the second one is loaded
from the new place: no options that were in force give this page. -/
theorem outcome_mixed :
    let page := fun store => (Engine.compile
      { bare with sources := assembled.around.sources, store } (visit ()).path (visit ()).scope
        ⟨assembled.around.cache, (visit ()).words⟩).1
    let setting := [.write "components".toList "parts".toList]
    (visit ()).outcome bare.host ((assembled.afterAll bare.host visit
        (proceeding 10 ++ setting ++ proceeding 5)).made ()) = .ok "14".toList ∧
      page [] = .ok "12".toList ∧
        page (assembled.afterAll bare.host visit setting).around.store = .ok "34".toList := by
  decide +kernel

end Affairs

end Stencil
