import Stencil.Proofs.Trail

namespace Stencil

theorem Sha256.length_fingerprint (s : Text) : (fingerprint s).length = 64 := by
  have hhex : ∀ w, (hex w).length = 8 := fun w => by simp [hex]
  simp [fingerprint, hash, hhex]

theorem Engine.foldedKey_ne (key : Text) : foldedKey key ≠ key := by
  intro h
  have hlength := congrArg List.length h
  simp [foldedKey] at hlength

/-- Is this what is rendered for some constants if the source of a page is given: the template that
this is compiled to, or what is left of it when it is folded? -/
inductive Template.Made (host : Host) (options : Options) (name source : Text) (constants : Scope) :
    Template → Prop
  | whole {t : Template} (hc : constants.isEmpty) (h : t.Built host options name source) :
      Made host options name source constants t
  | folded {base : Template} (hc : constants.isEmpty = false)
      (h : base.Built host options name source) (words : List UInt32) :
      Made host options name source constants (base.left host constants words)

/-- A template that is taken out of a cache when its source was replaced: the engine and the cache
at the start, the requests, the key of the template and its new source, and what happens before it
is taken out and after. -/
structure Renewal (ι : Type) where
  engine : Engine
  capacity : Nat
  requests : ι → Request
  key : Text
  new : Source
  earlier : List (Act ι)
  later : List (Act ι)

namespace Renewal

variable {ι : Type}

section Readings

variable (r : Renewal ι)

def options : Options := r.engine.options

/-- The file of the template. -/
def file : Text := Live.file r.options r.key

/-- The file that a template with the key of its folded twin would have. -/
def twinFile : Text := Live.file r.options (Engine.foldedKey r.key)

def places : Set SourcePlace :=
  {place | place = r.engine.sources ∨ .replace place ∈ r.earlier ++ r.later}

/-- What can be read in the file at some time. -/
def answers : Set (Except Error Source) :=
  {answer | ∃ place ∈ r.places, answer = place r.options.root r.file}

/-- The texts whose fingerprints tell of what source and of what data a folded twin is. -/
def fingerprinted : Set Text :=
  {text | ∃ source, .ok source ∈ r.answers ∧ (text = source.text ∨
    ∃ i, text = Sha256.fingerprint source.text ++ Json.compact (.map (r.requests i).constants))}

/-- Is a template what may be under a key? Under that of the template, it is from one of the sources
that are current. -/
structure Sound (current : Set (Except Error Source)) (key : Text) (t : Template) : Prop where
  key_eq : key = t.path ∨ key = Engine.foldedKey t.path
  own : key = r.key → ∃ source, .ok source ∈ current ∧
    t.Built (r.engine.host r.options) r.options r.key source.text
  twin : key = Engine.foldedKey r.key →
    ∃ (source : Source) (base : Template) (i : ι) (words : List UInt32),
    .ok source ∈ r.answers ∧ base.Built (r.engine.host r.options) r.options r.key source.text ∧
      t = base.left (r.engine.host r.options) (r.requests i).constants words

/-- Is a query answered as it may be, if some answers of the file are known? -/
def Told (known : Set (Except Error Source)) : Event → Prop
  | ⟨.options, p⟩ => p = r.options
  | ⟨.read root name, answer⟩ => root = r.options.root →
    (name = r.file → answer ∈ known) ∧ (name = r.twinFile → ∀ source, answer ≠ .ok source)
  | ⟨.get key, found⟩ => ∀ t : Template, found = some t → r.Sound known key t
  | ⟨.set _ _, _⟩ => True

variable {r} {current known : Set (Except Error Source)}

theorem answers_of_place {place : SourcePlace} (h : place ∈ r.places) :
    place r.options.root r.file ∈ r.answers :=
  ⟨place, h, rfl⟩

theorem Sound.mono {key : Text} {t : Template} (h : r.Sound current key t) (hs : current ⊆ known) :
    r.Sound known key t where
  key_eq := h.key_eq
  own hk := by
    obtain ⟨source, hsource, ht⟩ := h.own hk
    exact ⟨source, hs hsource, ht⟩
  twin := h.twin

theorem Told.mono {event : Event} (h : r.Told current event) (hs : current ⊆ known) :
    r.Told known event := by
  obtain ⟨q, answer⟩ := event
  cases q with
  | options => exact h
  | read root name => exact fun hroot => ⟨fun hn => hs ((h hroot).1 hn), (h hroot).2⟩
  | get key => exact fun t ht => (h t ht).mono hs
  | set key t => trivial

variable {i : ι} {made : List Event} {t : Template}

/-- A template that was compiled from what was read is sound. -/
theorem sound_of_read {key : Text} {source : Source}
    (hread : r.Told known ⟨.read r.options.root (Live.file r.options key), .ok source⟩)
    (hown : key = r.key → .ok source ∈ current)
    (ht : t.Built (r.engine.host r.options) r.options key source.text) :
    r.Sound current key t where
  key_eq := .inl ht.path_eq.symm
  own := by
    rintro rfl
    exact ⟨source, hown rfl, ht⟩
  twin := by
    rintro rfl
    exact absurd rfl ((hread rfl).2 rfl source)

/-- What a request obtains at its path is sound. -/
theorem sound_of_obtained {path : Text} (h : Live.Obtained r.engine.host path made t)
    (htold : ∀ event ∈ made, r.Told known event) :
    r.Sound known (Engine.keyFor path r.options.ext) t := by
  cases h with
  | found p hp h =>
    obtain rfl := htold _ hp
    exact htold _ h t rfl
  | built p source hp h ht =>
    obtain rfl := htold _ hp
    have hread := htold _ h
    refine sound_of_read hread (fun hk => ?_) ht
    exact (hread rfl).1 (congrArg (Live.file r.options) hk)

/-- Pages that are rendered with constants have neither the folded twin of the template for theirs,
nor the template for the folded twin of theirs. -/
def Apart (r : Renewal ι) : Prop :=
  ∀ i, (r.requests i).constants.isEmpty = false →
    Engine.keyFor (r.requests i).path r.options.ext ≠ Engine.foldedKey r.key ∧
      Engine.foldedKey (Engine.keyFor (r.requests i).path r.options.ext) ≠ r.key

/-- There is never a template with the key of the folded twin. -/
def Single (r : Renewal ι) : Prop :=
  ∀ place ∈ r.places, ∀ source, place r.options.root r.twinFile ≠ .ok source

/-- What holds at all times. The sources that are current are those from which the template may be
stored, and of each request it is known what it may have read of them. -/
structure Current (r : Renewal ι) (current : Set (Except Error Source))
    (known : ι → Set (Except Error Source)) (s : Affairs ι) : Prop where
  options : s.around.options = r.options
  place : s.around.sources ∈ r.places
  source : s.around.sources r.options.root r.file ∈ current
  cache : s.around.cache.Holds (r.Sound current)
  run : ∀ i, (r.requests i).IsRun r.engine.host (s.made i)
  told : ∀ i, ∀ event ∈ s.made i, r.Told (known i) event
  last : ∀ i source, (s.made i).getLast? = some ⟨.read r.options.root r.file, .ok source⟩ →
    .ok source ∈ current

namespace Current

variable {knowns : ι → Set (Except Error Source)} {s : Affairs ι}

/-- A template that a request sets is sound. -/
theorem sound_of_query? (h : r.Current current knowns s) (hapart : r.Apart)
    (hknown : knowns i ⊆ r.answers) {key : Text} {t : Template}
    (hq : (r.requests i).query? r.engine.host (s.made i) = some (.set key t)) :
    r.Sound current key t := by
  cases Request.follows_of_query? (h.run i) hq with
  | compiled p source hp hlast ht =>
    obtain rfl := h.told i _ hp
    refine sound_of_read (h.told i _ (List.mem_of_getLast? hlast)) (fun hk => ?_) ht
    subst hk
    exact h.last i _ hlast
  | @folded p base hp hc hb words =>
    obtain rfl := h.told i _ hp
    obtain ⟨htwin, hown⟩ := hapart i hc
    have hbase := sound_of_obtained hb (h.told i)
    refine ⟨.inr rfl, fun hk => ?_, fun hk => ?_⟩
    · -- the template would be the folded twin of the page
      rcases hbase.key_eq with hkey | hkey
      · exact absurd (hkey ▸ hk) hown
      · obtain ⟨source, -, ht⟩ := hbase.own (hkey.trans hk)
        exact absurd (ht.path_eq ▸ hk) (Engine.foldedKey_ne _)
    · rcases hbase.key_eq with hkey | hkey
      · obtain ⟨source, hsource, ht⟩ := hbase.own (hkey.trans (Engine.foldedKey_inj.mp hk))
        exact ⟨source, base, i, words, hknown hsource, ht, rfl⟩
      · exact absurd (hkey.trans hk) htwin

/-- A query finds what is current, and keeps the cache so. -/
theorem ask (h : r.Current current knowns s) (hsingle : r.Single) {q : Query}
    (hset : ∀ key t, q = .set key t → r.Sound current key t) :
    (Surroundings.ask s.around q).2.cache.Holds (r.Sound current) ∧
      r.Told current ⟨q, (Surroundings.ask s.around q).1⟩ := by
  cases q with
  | options => exact ⟨h.cache, h.options⟩
  | read root name =>
    refine ⟨h.cache, ?_⟩
    rintro rfl
    exact ⟨fun hn => hn ▸ h.source, fun hn => hn ▸ hsingle _ h.place⟩
  | get key =>
    obtain ⟨hfound, hcache⟩ := h.cache.get key
    exact ⟨hcache, hfound⟩
  | set key t => exact ⟨h.cache.set (hset key t rfl), trivial⟩

theorem onCache (h : r.Current current knowns s) {f : Cache → Cache}
    (hf : (f s.around.cache).Holds (r.Sound current)) : r.Current current knowns (s.onCache f) :=
  { h with cache := hf }

variable [DecidableEq ι]

/-- A request that makes its next query. -/
theorem proceed (h : r.Current current knowns s) (hapart : r.Apart) (hsingle : r.Single)
    (hcurrent : ∀ i, current ⊆ knowns i) (hknown : ∀ i, knowns i ⊆ r.answers) (i : ι) :
    r.Current current knowns (s.proceed r.engine.host r.requests i) := by
  cases hq : (r.requests i).query? r.engine.host (s.made i) with
  | none => rwa [Affairs.proceed_of_none hq]
  | some q =>
    obtain ⟨hcache, htold⟩ := h.ask hsingle (q := q) fun key t he =>
      h.sound_of_query? hapart (hknown i) (he ▸ hq)
    have haround := Affairs.around_proceed hq
    have hmade := Affairs.made_proceed hq
    refine ⟨?_, ?_, ?_, ?_, fun j => ?_, fun j event hevent => ?_, fun j source hlast => ?_⟩
    · rw [haround, Around.options, Around.store_ask]
      exact h.options
    · rw [haround, Around.sources_ask]
      exact h.place
    · rw [haround, Around.sources_ask]
      exact h.source
    · rw [haround]
      exact hcache
    all_goals by_cases hj : j = i
    · subst hj
      rw [hmade]
      exact (h.run j).append hq _
    · rw [Affairs.made_proceed_of_ne hj]
      exact h.run j
    · subst hj
      rw [hmade] at hevent
      rcases List.mem_append.mp hevent with hevent | hevent
      · exact h.told j event hevent
      · exact List.mem_singleton.mp hevent ▸ htold.mono (hcurrent j)
    · rw [Affairs.made_proceed_of_ne hj] at hevent
      exact h.told j event hevent
    · subst hj
      rw [hmade, List.getLast?_concat] at hlast
      rw [Option.some.inj hlast] at htold
      exact (htold rfl).1 rfl
    · rw [Affairs.made_proceed_of_ne hj] at hlast
      exact h.last j source hlast

/-- One act more. -/
theorem after (h : r.Current current knowns s) (hapart : r.Apart) (hsingle : r.Single)
    (hcurrent : ∀ i, current ⊆ knowns i) (hknown : ∀ i, knowns i ⊆ r.answers) {act : Act ι}
    (hwrite : ∀ name value, act ≠ .write name value)
    (hplace : ∀ place, act = .replace place →
      place ∈ r.places ∧ place r.options.root r.file ∈ current) :
    r.Current current knowns (s.after r.engine.host r.requests act) := by
  cases act with
  | proceed i => exact h.proceed hapart hsingle hcurrent hknown i
  | replace place =>
    obtain ⟨hin, hread⟩ := hplace place rfl
    exact { h with place := hin, source := hread }
  | write name value => exact absurd rfl (hwrite name value)
  | keepFor ms => exact h.onCache (h.cache.modify fun _ hm => hm)
  | remove key => exact h.onCache (h.cache.modify fun _ hm => hm.remove key)
  | clear => exact h.onCache (Cache.holds_clear _)
  | elapse ms => exact h.onCache (h.cache.modify fun _ hm => hm)

theorem afterAll (h : r.Current current knowns s) (hapart : r.Apart) (hsingle : r.Single)
    (hcurrent : ∀ i, current ⊆ knowns i) (hknown : ∀ i, knowns i ⊆ r.answers) {acts : List (Act ι)}
    (hwrite : ∀ name value, .write name value ∉ acts)
    (hplace : ∀ place, .replace place ∈ acts →
      place ∈ r.places ∧ place r.options.root r.file ∈ current) :
    r.Current current knowns (s.afterAll r.engine.host r.requests acts) := by
  induction acts generalizing s with
  | nil => exact h
  | cons act acts ih =>
    have hfirst : r.Current current knowns (s.after r.engine.host r.requests act) :=
      h.after hapart hsingle hcurrent hknown
        (fun name value he => hwrite name value (he ▸ List.mem_cons_self))
        fun place he => hplace place (he ▸ List.mem_cons_self)
    exact ih hfirst (fun name value hw => hwrite name value (List.mem_cons_of_mem _ hw))
      fun place hp => hplace place (List.mem_cons_of_mem _ hp)

end Current

end Readings

section Running

variable (r : Renewal ι) [DecidableEq ι]

def start : Affairs ι := .start r.engine.sources r.engine.store r.capacity

/-- When the template is about to be taken out. -/
def before : Affairs ι := r.start.afterAll r.engine.host r.requests r.earlier

def removed : Affairs ι := r.before.onCache (·.remove r.key)

def after : Affairs ι := r.removed.afterAll r.engine.host r.requests r.later

/-- The template is taken out when nobody has read another source than the new one and not yet
stored what was made of it. Options stay as they are, the new source stays in its file, distinct
texts have distinct fingerprints, and constants are told apart by their JSON texts. -/
structure Settled : Prop where
  lasting : ∀ name value, .write name value ∉ r.earlier ++ r.later
  replaced : r.before.around.sources r.options.root r.file = .ok r.new
  kept : ∀ place, .replace place ∈ r.later → place r.options.root r.file = .ok r.new
  single : r.Single
  apart : r.Apart
  fingerprints : Set.InjOn Sha256.fingerprint r.fingerprinted
  constants : ∀ i j, (r.requests i).ToldApart (r.requests j)
  idle : ∀ i source, (r.before.made i).getLast? =
    some ⟨.read r.options.root r.file, .ok source⟩ → source = r.new

variable {r} {j : ι}

theorem Settled.current_before (h : r.Settled) :
    r.Current r.answers (fun _ => r.answers) r.before := by
  have hstart : r.Current r.answers (fun _ => r.answers) r.start :=
    { options := rfl
      place := .inl rfl
      source := answers_of_place (.inl rfl)
      cache := MemoryCache.holds_of_entries_eq_nil rfl
      run := fun _ => List.nil_prefix
      told := fun _ event he => absurd he List.not_mem_nil
      last := fun _ source hl => by cases hl }
  refine hstart.afterAll h.apart h.single (fun _ => le_rfl) (fun _ => le_rfl)
    (fun name value hw => h.lasting name value (List.mem_append_left _ hw)) fun place hp => ?_
  have hplace : place ∈ r.places := .inr (List.mem_append_left _ hp)
  exact ⟨hplace, answers_of_place hplace⟩

/-- When the template is taken out, the new source is the only current one, and of a request that
starts then no other is known. -/
theorem Settled.current_after (h : r.Settled) (hj : r.before.made j = []) :
    r.Current {.ok r.new} (Function.update (fun _ => r.answers) j {.ok r.new}) r.after := by
  have hbefore := h.current_before
  have hnew : {.ok r.new} ⊆ r.answers := by
    rintro answer rfl
    exact h.replaced ▸ answers_of_place hbefore.place
  have hremoved : r.Current {.ok r.new} (Function.update (fun _ => r.answers) j {.ok r.new})
      r.removed :=
    { options := hbefore.options
      place := hbefore.place
      source := h.replaced
      cache := (hbefore.cache.remove_ne r.key).mono fun key t ht =>
        ⟨ht.1.key_eq, fun hk => absurd hk ht.2, ht.1.twin⟩
      run := hbefore.run
      told := fun i event he => by
        by_cases hi : i = j
        · subst hi
          exact absurd (hj ▸ he) List.not_mem_nil
        · rw [Function.update_of_ne hi]
          exact hbefore.told i event he
      last := fun i source hl => congrArg Except.ok (h.idle i source hl) }
  refine hremoved.afterAll h.apart h.single (fun i => ?_) (fun i => ?_)
    (fun name value hw => h.lasting name value (List.mem_append_right _ hw)) fun place hp =>
      ⟨.inr (List.mem_append_right _ hp), h.kept place hp⟩
  · by_cases hi : i = j
    · rw [hi, Function.update_self]
    · rw [Function.update_of_ne hi]
      exact hnew
  · by_cases hi : i = j
    · rw [hi, Function.update_self]
      exact hnew
    · rw [Function.update_of_ne hi]

/-- The folded twin that is found with the right fingerprint is of the new source and of the same
data. -/
theorem Settled.made_of_twin (h : r.Settled) {base t : Template}
    (hc : (r.requests j).constants.isEmpty = false) (hnew : .ok r.new ∈ r.answers)
    (hbase : base.Built (r.engine.host r.options) r.options r.key r.new.text)
    (ht : r.Sound {.ok r.new} (Engine.foldedKey r.key) t)
    (hf : t.fingerprint = Engine.foldedFingerprint base (r.requests j).constants) :
    t.Made (r.engine.host r.options) r.options r.key r.new.text (r.requests j).constants := by
  obtain ⟨source, other, i, words, hsource, hother, rfl⟩ := ht.twin rfl
  have htext : other.fingerprint ++ Json.compact (.map (r.requests i).constants) =
      base.fingerprint ++ Json.compact (.map (r.requests j).constants) := by
    refine h.fingerprints ⟨source, hsource, .inr ⟨i, ?_⟩⟩ ⟨r.new, hnew, .inr ⟨j, ?_⟩⟩ hf
    · rw [hother.fingerprint_eq]
    · rw [hbase.fingerprint_eq]
  rw [hother.fingerprint_eq, hbase.fingerprint_eq] at htext
  obtain ⟨hprint, hjson⟩ := List.append_inj htext
    ((Sha256.length_fingerprint _).trans (Sha256.length_fingerprint _).symm)
  have hsame : source.text = r.new.text :=
    h.fingerprints ⟨source, hsource, .inl rfl⟩ ⟨r.new, hnew, .inl rfl⟩ hprint
  have hconstants : (r.requests i).constants = (r.requests j).constants :=
    h.constants i j hjson
  rw [hconstants]
  exact .folded hc (hsame ▸ hother) words

/-- A request for a template that starts when this was taken out of the cache comes to the page of
its new source, whatever other requests do and however the steps of all are interleaved. -/
theorem outcome_new (h : r.Settled)
    (hpath : Engine.keyFor (r.requests j).path r.options.ext = r.key)
    (hstart : r.before.made j = [])
    (hdone : (r.requests j).query? r.engine.host (r.after.made j) = none) :
    (∃ err w words,
      (r.requests j).prepared r.engine.host r.options (r.after.made j) = (.error err, w) ∧
        (r.requests j).outcome r.engine.host (r.after.made j) = .error err ∧
          (Engine.build (r.engine.host r.options) r.options r.key r.new.text
            (⟨.off, words⟩ : World Cache)).1 = .error err) ∨
      ∃ t w, (r.requests j).prepared r.engine.host r.options (r.after.made j) = (.ok t, w) ∧
        t.Made (r.engine.host r.options) r.options r.key r.new.text (r.requests j).constants ∧
          (r.requests j).outcome r.engine.host (r.after.made j) = .ok (Live.render r.engine.host
            r.options t (Constants.expose (r.requests j).scope) w).1 := by
  have hafter := h.current_after hstart
  have htold := hafter.told j
  rw [Function.update_self] at htold
  have hrun := hafter.run j
  obtain ⟨o, hfirst⟩ := hrun.head? hdone
  obtain rfl : o = r.options := htold _ (List.mem_of_head? hfirst)
  have hnew : .ok r.new ∈ r.answers := h.replaced ▸ answers_of_place h.current_before.place
  have hobtained : ∀ {t}, Live.Obtained r.engine.host (r.requests j).path (r.after.made j) t →
      t.Built (r.engine.host r.options) r.options r.key r.new.text := fun {t} ht => by
    obtain ⟨source, hsource, hbuilt⟩ := (sound_of_obtained ht htold).own hpath
    cases Except.ok.inj hsource
    exact hbuilt
  have hcases := Request.outcome_cases hfirst (hrun.made_eq hdone)
  rcases hp : (r.requests j).prepared r.engine.host r.options (r.after.made j) with ⟨err | t, w⟩
  · rw [hp] at hcases
    cases hcases.2 with
    | missing p hp h =>
      obtain rfl := htold _ hp
      rw [hpath] at h
      exact absurd ((htold _ h rfl).1 rfl) nofun
    | unbuilt p source hp h words ht =>
      obtain rfl := htold _ hp
      rw [hpath] at h ht
      cases Except.ok.inj ((htold _ h rfl).1 rfl)
      exact .inl ⟨err, w, words, rfl, hcases.1, ht⟩
  · rw [hp] at hcases
    refine .inr ⟨t, w, rfl, ?_, hcases.1⟩
    cases hcases.2 with
    | whole hc ht => exact .whole hc (hobtained ht)
    | found hc hb ht hf =>
      have hbase := hobtained hb
      rw [hbase.path_eq] at ht
      exact h.made_of_twin hc hnew hbase (htold _ ht t rfl) hf
    | folded hc hb words => exact .folded hc (hobtained hb) words

end Running

/-- A page by its source, and the same page when this was replaced. -/
def oldPage : SourcePlace := Affairs.place [("index.xhtml", "old \x7b\x7b$name\x7d\x7d")]

def newPage : SourcePlace := Affairs.place [("index.xhtml", "new \x7b\x7b$name\x7d\x7d")]

/-- Two guests ask for the page, the second when the first has its page and the source was
replaced. -/
def greeting : Renewal Bool where
  engine := .ofSources 1 oldPage
  capacity := 4
  requests first := { Traffic.guest first with path := "index".toList }
  key := "index".toList
  new := ⟨"index.xhtml".toList, "new \x7b\x7b$name\x7d\x7d".toList⟩
  earlier := List.replicate 7 (.proceed true) ++ [.replace newPage]
  later := List.replicate 7 (.proceed false)

theorem places_greeting {place : SourcePlace} (h : place ∈ greeting.places) :
    place = oldPage ∨ place = newPage := by
  rcases h with rfl | h
  · exact .inl rfl
  · simp only [greeting, List.mem_append, List.mem_replicate, List.mem_singleton, reduceCtorEq,
      and_false, false_or, or_false, Act.replace.injEq] at h
    exact .inr h

theorem fingerprinted_greeting : Set.InjOn Sha256.fingerprint greeting.fingerprinted := by
  let texts := ["old \x7b\x7b$name\x7d\x7d".toList, "new \x7b\x7b$name\x7d\x7d".toList]
  let all := texts ++ texts.flatMap fun text => [true, false].map fun first =>
    Sha256.fingerprint text ++ Json.compact (.map (greeting.requests first).constants)
  have hprints : (all.map Sha256.fingerprint).Nodup := by decide +kernel
  have hall : ∀ text ∈ greeting.fingerprinted, text ∈ all := by
    rintro text ⟨source, ⟨place, hplace, hread⟩, htext⟩
    have hsource : source.text ∈ texts := by
      rcases places_greeting hplace with rfl | rfl
      · cases Except.ok.inj hread
        exact List.mem_cons_self
      · cases Except.ok.inj hread
        exact List.mem_cons_of_mem _ (List.mem_singleton_self _)
    rcases htext with rfl | ⟨first, rfl⟩
    · exact List.mem_append_left _ hsource
    · refine List.mem_append_right _ (List.mem_flatMap.mpr ⟨_, hsource, ?_⟩)
      exact List.mem_map.mpr ⟨first, by cases first <;> decide, rfl⟩
  intro text htext other hother he
  exact List.inj_on_of_nodup_map hprints (hall text htext) (hall other hother) he

theorem settled_greeting : greeting.Settled where
  lasting name value h := by
    simp [greeting] at h
  replaced := by decide +kernel
  kept place h := by
    simp [greeting] at h
  single place hplace source h := by
    rcases places_greeting hplace with rfl | rfl
    · cases h
    · cases h
  apart first _ := by
    cases first <;> decide +kernel
  fingerprints := fingerprinted_greeting
  constants := Traffic.toldApart_guest
  idle first source h := by
    have hlast : (greeting.before.made first).getLast?.map Event.query ≠
        some (.read greeting.options.root greeting.file) := by
      cases first <;> decide +kernel
    exact absurd (congrArg (Option.map Event.query) h) hlast

theorem outcome_new_greeting :
    (greeting.requests false).outcome greeting.engine.host (greeting.after.made false) =
        .ok "new Bob".toList ∧
      ∃ t w, (greeting.requests false).prepared greeting.engine.host greeting.options
          (greeting.after.made false) = (.ok t, w) ∧
        t.Made (greeting.engine.host greeting.options) greeting.options greeting.key
          greeting.new.text (greeting.requests false).constants := by
  have hpage : (greeting.requests false).outcome greeting.engine.host
      (greeting.after.made false) = .ok "new Bob".toList := by decide +kernel
  refine ⟨hpage, ?_⟩
  rcases outcome_new settled_greeting (j := false) (by decide +kernel)
    (List.isEmpty_iff.mp (by decide +kernel)) (by decide +kernel) with
    ⟨err, w, words, -, herr, -⟩ | ⟨t, w, hp, ht, -⟩
  · exact absurd (hpage.symm.trans herr) nofun
  · exact ⟨t, w, hp, ht⟩

/-- The first guest has read the old source when this is replaced, and stores its template when this
was taken out together with its folded twin: the second guest, who comes after that, is greeted from
the old source. -/
theorem outcome_old :
    let e := greeting.engine
    let removed := greeting.start.afterAll e.host greeting.requests
      (List.replicate 4 (.proceed true) ++ .replace newPage :: e.invalidation "index.xhtml".toList)
    let after := removed.afterAll e.host greeting.requests
      (.proceed true :: List.replicate 7 (.proceed false))
    removed.made false = [] ∧
      (greeting.requests false).query? e.host (after.made false) = none ∧
        (greeting.requests false).outcome e.host (after.made false) = .ok "old Bob".toList ∧
          Engine.pageAlone { e with sources := newPage } "index".toList
            (greeting.requests false).scope [] = .ok "new Bob".toList :=
  ⟨List.isEmpty_iff.mp (by decide +kernel), by decide +kernel, by decide +kernel, by decide +kernel⟩

end Renewal

end Stencil
