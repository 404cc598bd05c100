import Stencil.Proofs.Interleaving

namespace Stencil

namespace Template

/-- Is this what a source is compiled to under a name? -/
def Built (host : Host) (options : Options) (name source : Text) (t : Template) : Prop :=
  ∃ words, (Engine.build host options name source (⟨.off, words⟩ : World Cache)).1 = .ok t

variable {host : Host} {options : Options} {name source : Text} {t : Template}

theorem Built.path_eq (h : t.Built host options name source) : t.path = name :=
  h.elim fun _ h => (Engine.path_of_build h).1

theorem Built.fingerprint_eq (h : t.Built host options name source) :
    t.fingerprint = Sha256.fingerprint source :=
  h.elim fun _ h => (Engine.path_of_build h).2

end Template

namespace Live

/-- The name of the file of a template. -/
def file (options : Options) (key : Text) : Text := key ++ ['.'] ++ options.ext

/-- A template was found at a path, or compiled from its source, among some events. -/
inductive Obtained (host : Options → Host) (path : Text) (events : List Event) : Template → Prop
  | found (p : Options) {t : Template} (hp : ⟨.options, p⟩ ∈ events)
      (h : ⟨.get (Engine.keyFor path p.ext), some t⟩ ∈ events) : Obtained host path events t
  | built (p : Options) (source : Source) {t : Template} (hp : ⟨.options, p⟩ ∈ events)
      (h : ⟨.read p.root (file p (Engine.keyFor path p.ext)), .ok source⟩ ∈ events)
      (ht : t.Built (host p) p (Engine.keyFor path p.ext) source.text) :
      Obtained host path events t

/-- A template was not to be had at a path: its source was not there, or cannot be compiled. -/
inductive Failed (host : Options → Host) (path : Text) (events : List Event) : Error → Prop
  | missing (p : Options) {err : Error} (hp : ⟨.options, p⟩ ∈ events)
      (h : ⟨.read p.root (file p (Engine.keyFor path p.ext)), .error err⟩ ∈ events) :
      Failed host path events err
  | unbuilt (p : Options) (source : Source) {err : Error} (hp : ⟨.options, p⟩ ∈ events)
      (h : ⟨.read p.root (file p (Engine.keyFor path p.ext)), .ok source⟩ ∈ events)
      (words : List UInt32)
      (ht : (Engine.build (host p) p (Engine.keyFor path p.ext) source.text
        (⟨.off, words⟩ : World Cache)).1 = .error err) : Failed host path events err

/-- A template follows some events as what is set next: its source was read last, or it is what is
left of the one that was obtained at a path. -/
inductive Follows (host : Options → Host) (path : Text) (constants : Scope) (events : List Event) :
    Text → Template → Prop
  | compiled (p : Options) (source : Source) {key : Text} {t : Template}
      (hp : ⟨.options, p⟩ ∈ events)
      (h : events.getLast? = some ⟨.read p.root (file p key), .ok source⟩)
      (ht : t.Built (host p) p key source.text) : Follows host path constants events key t
  | folded (p : Options) {base : Template} (hp : ⟨.options, p⟩ ∈ events)
      (hc : constants.isEmpty = false) (hb : Obtained host path events base)
      (words : List UInt32) : Follows host path constants events (Engine.foldedKey base.path)
        (base.left (host p) constants words)

/-- Each template that is set follows what was before. -/
def Orderly (host : Options → Host) (path : Text) (constants : Scope) (events : List Event) :
    Prop :=
  ∀ before key t, before ++ [⟨.set key t, ()⟩] <+: events →
    Follows host path constants before key t

section Events

variable {host : Options → Host} {path : Text} {constants : Scope} {events more : List Event}

theorem Obtained.mono {t : Template} (h : Obtained host path events t) (hs : events ⊆ more) :
    Obtained host path more t := by
  cases h with
  | found p hp h => exact .found p (hs hp) (hs h)
  | built p source hp h ht => exact .built p source (hs hp) (hs h) ht

theorem orderly_nil (host : Options → Host) (path : Text) (constants : Scope) :
    Orderly host path constants [] := fun before key t hp => by
  simp at hp

theorem Orderly.concat (h : Orderly host path constants events) {event : Event}
    (hset : ∀ key t, event = ⟨.set key t, ()⟩ → Follows host path constants events key t) :
    Orderly host path constants (events ++ [event]) := by
  intro before key t hp
  rcases List.prefix_concat_iff.mp hp with he | hp
  · obtain ⟨rfl, hevent⟩ := List.append_inj' he rfl
    exact hset key t (List.singleton_inj.mp hevent).symm
  · exact h before key t hp

theorem Orderly.concat_of_ne (h : Orderly host path constants events) {q : Query} {a : q.Answer}
    (hq : ∀ key t, q ≠ .set key t) : Orderly host path constants (events ++ [⟨q, a⟩]) :=
  h.concat fun key t he => absurd (congrArg Event.query he) (hq key t)

end Events

section Adding

variable {α β : Type} {pre : List Event → Prop} {mid : α → List Event → Prop}
  {post : β → List Event → Prop} {made : List Event}

/-- From events of which one thing holds, a computation comes to a result and to events of which
another holds. -/
def Triple (pre : List Event → Prop) (m : StateM (World Echo) α) (post : α → List Event → Prop) :
    Prop :=
  ∀ w, pre w.source.made → post (m w).1 (m w).2.source.made

theorem Triple.pure {a : α} (h : ∀ made, pre made → mid a made) :
    Triple pre (Pure.pure a) mid := fun w => h w.source.made

theorem Triple.bind {m : StateM (World Echo) α} {f : α → StateM (World Echo) β}
    (hm : Triple pre m mid) (hf : ∀ a, Triple (mid a) (f a) post) : Triple pre (m >>= f) post :=
  fun w h => hf _ _ (hm w h)

theorem Triple.mono {last : α → List Event → Prop} {m : StateM (World Echo) α}
    (hm : Triple pre m mid) (h : ∀ a made, mid a made → last a made) : Triple pre m last :=
  fun w hw => h _ _ (hm w hw)

theorem Triple.of_and {p : Prop} {m : StateM (World Echo) α} (h : p → Triple pre m mid) :
    Triple (fun made => pre made ∧ p) m mid := fun w hw => h hw.2 w hw.1

theorem Triple.of_made {m : StateM (World Echo) α}
    (h : ∀ made, pre made → Triple (· = made) m mid) : Triple pre m mid := fun w hw =>
  h _ hw w rfl

theorem triple_ask (made : List Event) (q : Query) :
    Triple (· = made) (ask q) fun a after => after = made ++ [⟨q, a⟩] := by
  rintro w rfl
  rfl

theorem triple_cached (made : List Event) (key : Text) :
    Triple (· = made) (cached key) fun found after => after = made ++ [⟨.get key, found⟩] :=
  triple_ask made (.get key)

theorem triple_read (made : List Event) (root name : Text) :
    Triple (· = made) (read root name) fun answer after =>
      after = made ++ [⟨.read root name, answer⟩] :=
  triple_ask made (.read root name)

theorem triple_keep (made : List Event) (key : Text) (template : Template) :
    Triple (· = made) (keep key template) fun _ after =>
      after = made ++ [⟨.set key template, ()⟩] :=
  triple_ask made (.set key template)

theorem triple_options (made : List Event) :
    Triple (· = made) options fun o after => after = made ++ [⟨.options, o⟩] :=
  triple_ask made .options

theorem triple_build (made : List Event) (host : Host) (options : Options) (key source : Text) :
    Triple (· = made) (Engine.build host options key source) fun result after => after = made ∧
      ∃ words, (Engine.build host options key source (⟨.off, words⟩ : World Cache)).1 = result := by
  rintro w rfl
  obtain ⟨words, hrun⟩ := Engine.build_run host options key source w
  rw [hrun]
  exact ⟨rfl, w.words, rfl⟩

theorem triple_buildFolded (made : List Event) (host : Options → Host) (o : Options)
    (base : Template) (constants : Scope) :
    Triple (· = made) (buildFolded host o base constants) fun t after => after = made ∧
      ∃ words, t = base.left (host o) constants words := by
  rintro w rfl
  obtain ⟨words, hrun⟩ := Page.fold_run (site host o) base constants w
  simp only [buildFolded, bind, StateT.bind, hrun]
  exact ⟨rfl, w.words, rfl⟩

variable {host : Options → Host} {o : Options} {path : Text} {constants : Scope}

/-- A template is found; or it is not there, and its source is missing, or cannot be compiled, or is
compiled and stored. -/
theorem triple_obtain (made : List Event) (host : Options → Host) (o : Options) (path : Text) :
    let key := Engine.keyFor path o.ext
    Triple (· = made) (obtain host o path) fun result after =>
      (∃ t, result = .ok t ∧ after = made ++ [⟨.get key, some t⟩]) ∨
      (∃ err, result = .error err ∧
        after = made ++ [⟨.get key, none⟩] ++ [⟨.read o.root (file o key), .error err⟩]) ∨
      ∃ source words, result = (Engine.build (host o) o key source.text
          (⟨.off, words⟩ : World Cache)).1 ∧
        ∃ stored, after = made ++ [⟨.get key, none⟩] ++
            [⟨.read o.root (file o key), .ok source⟩] ++ stored ∧
          stored = match result with
            | .ok t => [⟨.set key t, ()⟩]
            | .error _ => [] := by
  intro key
  refine (triple_cached made key).bind fun found => ?_
  cases found with
  | some t => exact .pure fun after h => .inl ⟨t, rfl, h⟩
  | none =>
    have hread : Triple (fun after => after = made ++ [⟨.get key, none⟩]) (read o.root (file o key))
        fun answer after => after = made ++ [⟨.get key, none⟩] ++
          [⟨.read o.root (file o key), answer⟩] := triple_read _ _ _
    refine hread.bind fun answer => ?_
    cases answer with
    | error err => exact .pure fun after h => .inr (.inl ⟨err, rfl, h⟩)
    | ok source =>
      refine Triple.bind (triple_build _ _ _ _ _) fun result => ?_
      refine .of_and fun ⟨words, hmade⟩ => ?_
      cases result with
      | error err =>
        exact .pure fun after h =>
          .inr (.inr ⟨source, words, hmade.symm, [], by simpa using h, rfl⟩)
      | ok t =>
        refine Triple.bind (triple_keep _ _ _) fun _ => .pure fun after h => ?_
        exact .inr (.inr ⟨source, words, hmade.symm, [⟨.set key t, ()⟩], h, rfl⟩)

theorem precompile_orderly (h : Orderly host path constants made) (name : Text) :
    Triple (· = made) (precompile host name) fun result after =>
      (Orderly host path constants after ∧ made <+: after) ∧
        match result with
        | .ok t => Obtained host name after t
        | .error err => Failed host name after err := by
  refine Triple.bind (triple_options made) fun p => (triple_obtain _ host p name).mono ?_
  have hoptions : Orderly host path constants (made ++ [⟨.options, p⟩]) := h.concat_of_ne nofun
  have hget := fun found =>
    hoptions.concat_of_ne (q := .get (Engine.keyFor name p.ext)) (a := found) nofun
  have hread := fun answer => (hget none).concat_of_ne
    (q := .read p.root (file p (Engine.keyFor name p.ext))) (a := answer) nofun
  rintro result after (⟨t, rfl, rfl⟩ | ⟨err, rfl, rfl⟩ | ⟨source, words, hresult, stored, rfl, hs⟩)
  · exact ⟨⟨hget _, by simp⟩, .found p (by simp) (by simp)⟩
  · exact ⟨⟨hread _, by simp⟩, .missing p (by simp) (by simp)⟩
  · cases result with
    | error err =>
      subst hs
      rw [List.append_nil]
      exact ⟨⟨hread _, by simp⟩,
        .unbuilt p source (by simp) (by simp) words hresult.symm⟩
    | ok t =>
      subst hs
      have ht : t.Built (host p) p (Engine.keyFor name p.ext) source.text := ⟨words, hresult.symm⟩
      refine ⟨⟨(hread _).concat fun key u he => ?_, by simp⟩,
        .built p source (by simp) (by simp) ht⟩
      cases he
      exact .compiled p source (by simp) (by simp) ht

/-- What is left of a template is found, or is made and stored. -/
theorem triple_folded (made : List Event) (host : Options → Host) (o : Options) (base : Template)
    (constants : Scope) : Triple (· = made) (folded host o base constants) fun t after =>
      (t.fingerprint = Engine.foldedFingerprint base constants ∧
        after = made ++ [⟨.get (Engine.foldedKey base.path), some t⟩]) ∨
      ∃ found words, t = base.left (host o) constants words ∧
        after = made ++ [⟨.get (Engine.foldedKey base.path), found⟩] ++
          [⟨.set (Engine.foldedKey base.path) t, ()⟩] := by
  refine Triple.bind (triple_cached made _) fun found => ?_
  cases hf : found.filter fun t => t.fingerprint = Engine.foldedFingerprint base constants with
  | some t =>
    obtain ⟨rfl, hprint⟩ := Option.filter_eq_some_iff.mp hf
    exact .pure fun after h => .inl ⟨of_decide_eq_true hprint, h⟩
  | none =>
    refine Triple.bind (triple_buildFolded _ host o base constants) fun t => ?_
    refine .of_and fun hmade => (triple_keep _ _ t).bind fun _ => .pure fun after h => ?_
    obtain ⟨words, ht⟩ := hmade
    exact .inr ⟨found, words, ht, h⟩

/-- The template that is rendered for a page is the one that was obtained at its path, if there are
no constants, or what is left of it, as it was found or as it was made. -/
inductive Prepared (host : Options → Host) (o : Options) (path : Text) (constants : Scope)
    (events : List Event) : Template → Prop
  | whole {t : Template} (hc : constants.isEmpty) (h : Obtained host path events t) :
      Prepared host o path constants events t
  | found {base t : Template} (hc : constants.isEmpty = false) (hb : Obtained host path events base)
      (h : ⟨.get (Engine.foldedKey base.path), some t⟩ ∈ events)
      (hf : t.fingerprint = Engine.foldedFingerprint base constants) :
      Prepared host o path constants events t
  | folded {base : Template} (hc : constants.isEmpty = false) (hb : Obtained host path events base)
      (words : List UInt32) :
      Prepared host o path constants events (base.left (host o) constants words)

theorem Prepared.mono {events more : List Event} {t : Template}
    (h : Prepared host o path constants events t) (hs : events ⊆ more) :
    Prepared host o path constants more t := by
  cases h with
  | whole hc h => exact .whole hc (h.mono hs)
  | found hc hb h hf => exact .found hc (hb.mono hs) (hs h) hf
  | folded hc hb words => exact .folded hc (hb.mono hs) words

theorem prepare_orderly (scope : Scope) (ho : ⟨.options, o⟩ ∈ made)
    (h : Orderly host path (Constants.ofScope scope) made) :
    Triple (· = made) (prepare host o path scope) fun result after =>
      (Orderly host path (Constants.ofScope scope) after ∧ made <+: after) ∧
        match result with
        | .ok t => Prepared host o path (Constants.ofScope scope) after t
        | .error err => Failed host path after err := by
  refine Triple.bind (precompile_orderly h path) fun result => ?_
  cases result with
  | error err => exact .pure fun after h => h
  | ok base =>
    dsimp only
    cases hc : (Constants.ofScope scope).isEmpty with
    | true =>
      rw [if_pos rfl]
      exact .pure fun after h => ⟨h.1, .whole hc h.2⟩
    | false =>
      rw [if_neg Bool.false_ne_true]
      refine .of_made fun now ⟨⟨horderly, hmade⟩, hbase⟩ => ?_
      refine (triple_folded now host o base _).bind fun t => .pure fun after hafter => ?_
      rcases hafter with ⟨hf, rfl⟩ | ⟨found, words, rfl, rfl⟩
      · refine ⟨⟨horderly.concat_of_ne (q := .get _) nofun,
          hmade.trans (List.prefix_append ..)⟩, ?_⟩
        exact .found hc (hbase.mono (List.subset_append_left ..)) (by simp) hf
      · have hget :=
          horderly.concat_of_ne (q := .get (Engine.foldedKey base.path)) (a := found) nofun
        have hfound := List.subset_append_left now [⟨.get (Engine.foldedKey base.path), found⟩]
        refine ⟨⟨hget.concat fun key t he => ?_, ?_⟩, ?_⟩
        · cases he
          exact .folded o (hfound (hmade.subset ho)) hc (hbase.mono hfound) words
        · exact (hmade.trans (List.prefix_append ..)).trans (List.prefix_append ..)
        · exact .folded hc ((hbase.mono hfound).mono (List.subset_append_left ..)) words

/-- Runs of the same computation, of whose events something holds at all times. -/
def holding (P : List Event → Prop) : Coupling (World Echo) (World Echo) where
  inStep s t := s = t ∧ P s.source.made
  lost _ _ := False

theorem alike_holding {P : List Event → Prop} {m : StateM (World Echo) α}
    (h : Triple P m fun _ => P) : (holding P).Alike m m where
  left _ _ hl := hl
  right _ _ hl := hl
  step s t hs := by
    obtain ⟨rfl, hp⟩ := hs
    exact .inr ⟨rfl, rfl, h s hp⟩

theorem triple_of_alike {P : List Event → Prop} {m : StateM (World Echo) α}
    (h : (holding P).Alike m m) : Triple P m fun _ => P := fun w hw =>
  ((h.step w w ⟨rfl, hw⟩).resolve_left id).2.2

/-- Templates that are called while a page is rendered are stored in order. -/
theorem render_orderly (made : List Event) (host : Options → Host) (o : Options)
    (template : Template) (scope : Scope) :
    let P := fun after => Orderly host path constants after ∧ made <+: after
    Triple P (render host o template scope) fun _ => P := by
  intro P
  have hmade : ∀ name, (holding P).Alike (precompile host name) (precompile host name) :=
    fun name =>
    alike_holding fun w hw => by
      obtain ⟨hafter, -⟩ := precompile_orderly hw.1 name w rfl
      exact ⟨hafter.1, hw.2.trans hafter.2⟩
  have hoptions : (holding P).Alike options options :=
    alike_holding fun w hw => ⟨hw.1.concat_of_ne nofun, hw.2.trans (List.prefix_append ..)⟩
  have hdraw : ∀ {α : Type} (r : Random α), (holding P).Alike (World.draw r) (World.draw r) :=
    fun r => alike_holding fun w hw => by
      unfold World.draw
      split
      · exact hw
      · exact hw
  refine triple_of_alike (alike_render (fun kind name => ?_) hdraw o template scope)
  cases kind with
  | component => exact hoptions.bind fun o => alike_firstOf hmade _
  | imported => exact alike_firstOf hmade _
  | layout => exact alike_firstOf hmade _

end Adding

end Live

namespace Request

variable {host : Options → Host} {r : Request} {o : Options} {made : List Event}

/-- The template that is rendered for a request whose options are known, and what is around it then.
-/
def prepared (host : Options → Host) (o : Options) (r : Request) (made : List Event) :
    Except Error Template × World Echo :=
  Live.prepare host o r.path r.scope ⟨⟨made.tail, [⟨.options, o⟩]⟩, r.words⟩

/-- A request is prepared, and then rendered. -/
theorem repeated_eq (host : Options → Host) (r : Request) {made : List Event} {o : Options}
    (ho : (Echo.mk made []).answer .options = o) :
    r.repeated host made =
      match r.prepared host o made with
      | (.error err, w) => (.error err, w)
      | (.ok t, w) => Prod.map .ok id (Live.render host o t (Constants.expose r.scope) w) := by
  have hrun : r.repeated host made = Live.compileUnder host o r.path r.scope
      ⟨⟨made.tail, [⟨.options, o⟩]⟩, r.words⟩ := by
    subst ho
    rfl
  rw [hrun]
  unfold Live.compileUnder
  simp only [bind, StateT.bind]
  rcases hp : r.prepared host o made with ⟨err | t, w⟩
  · unfold prepared at hp
    rw [hp]
    rfl
  · unfold prepared at hp
    rw [hp]
    rfl

/-- What a request is prepared to when its options are known, and the events up to then. -/
theorem prepared_orderly (host : Options → Host) (o : Options) (r : Request) (made : List Event) :
    let (result, w) := r.prepared host o made
    Live.Orderly host r.path r.constants w.source.made ∧
      match result with
      | .ok t => Live.Prepared host o r.path r.constants w.source.made t
      | .error err => Live.Failed host r.path w.source.made err := by
  have hfirst : Live.Orderly host r.path r.constants [⟨.options, o⟩] :=
    (Live.orderly_nil host r.path r.constants).concat_of_ne nofun
  obtain ⟨⟨horderly, -⟩, hresult⟩ :=
    Live.prepare_orderly r.scope (List.mem_singleton_self _) hfirst
      ⟨⟨made.tail, [⟨.options, o⟩]⟩, r.words⟩ rfl
  exact ⟨horderly, hresult⟩

theorem repeated_orderly (host : Options → Host) (r : Request) (made : List Event) :
    Live.Orderly host r.path r.constants (r.repeated host made).2.source.made := by
  have hprepared := prepared_orderly host ((Echo.mk made []).answer .options) r made
  rw [repeated_eq host r rfl]
  rcases hp : r.prepared host ((Echo.mk made []).answer .options) made with ⟨err | t, w⟩
  · rw [hp] at hprepared
    exact hprepared.1
  · rw [hp] at hprepared
    exact (Live.render_orderly w.source.made host _ t (Constants.expose r.scope) w
      ⟨hprepared.1, List.prefix_refl _⟩).1

/-- A request that is finished has read the options first. -/
theorem IsRun.head? (h : r.IsRun host made) (hdone : r.query? host made = none) :
    ∃ o, made.head? = some ⟨.options, o⟩ := by
  cases made with
  | nil => cases hdone.symm.trans (query?_nil host r)
  | cons event rest =>
    have hfirst : [⟨.options, (Echo.mk (event :: rest) []).answer .options⟩] <+:
        (r.repeated host (event :: rest)).2.source.made :=
      Echo.prefix_compileUnder host _ r.path r.scope
        (w := ⟨⟨rest, [⟨.options, (Echo.mk (event :: rest) []).answer .options⟩]⟩, r.words⟩)
        (List.prefix_refl _)
    have hhead := List.prefix_of_prefix_length_le hfirst h (Nat.succ_pos _)
    exact ⟨_, by rw [(List.cons_prefix_cons.mp hhead).1]; rfl⟩

/-- A template that a request sets next follows what there was before. -/
theorem follows_of_query? (h : r.IsRun host made) {key : Text} {t : Template}
    (hq : r.query? host made = some (.set key t)) :
    Live.Follows host r.path r.constants made key t := by
  obtain ⟨event, hevent, hset⟩ := Option.map_eq_some_iff.mp hq
  obtain ⟨query, answer⟩ := event
  obtain rfl : query = .set key t := hset
  obtain ⟨more, hmore⟩ := h
  rw [← hmore] at hevent
  refine repeated_orderly host r made made key t ?_
  rw [← hmore, List.prefix_append_right_inj]
  rw [List.getElem?_append_right (Nat.le_refl _), Nat.sub_self] at hevent
  obtain ⟨rest, rfl⟩ := List.head?_eq_some_iff.mp (List.head?_eq_getElem? (l := more) ▸ hevent)
  exact List.prefix_append [_] rest

/-- The page of a request that is finished is that of the template that was prepared. -/
theorem outcome_cases (hfirst : made.head? = some ⟨.options, o⟩)
    (hdone : (r.repeated host made).2.source.made = made) :
    match r.prepared host o made with
    | (.error err, _) => r.outcome host made = .error err ∧ Live.Failed host r.path made err
    | (.ok t, w) =>
      r.outcome host made = .ok (Live.render host o t (Constants.expose r.scope) w).1 ∧
        Live.Prepared host o r.path r.constants made t := by
  have ho : (Echo.mk made []).answer .options = o := by
    obtain ⟨rest, rfl⟩ := List.head?_eq_some_iff.mp hfirst
    exact Event.answerTo_self .options o
  have hprepared := prepared_orderly host o r made
  have hrun := repeated_eq host r ho
  rcases hp : r.prepared host o made with ⟨err | t, w⟩
  · rw [hp] at hprepared hrun
    refine ⟨congrArg Prod.fst hrun, ?_⟩
    rw [hrun] at hdone
    rw [← hdone]
    exact hprepared.2
  · rw [hp] at hprepared hrun
    refine ⟨congrArg Prod.fst hrun, ?_⟩
    rw [hrun] at hdone
    rw [← hdone]
    refine hprepared.2.mono (List.IsPrefix.subset ?_)
    exact (Live.render_orderly w.source.made host o t (Constants.expose r.scope) w
      ⟨hprepared.1, List.prefix_refl _⟩).2

end Request


end Stencil
