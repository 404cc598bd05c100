import Stencil.Proofs.Concurrent
import Stencil.Proofs.Live

namespace Stencil

/-- A query that was answered. -/
structure Event where
  query : Query
  answer : query.Answer

/-- The answer to a query where there is nothing around. -/
def Query.blank : (q : Query) → q.Answer
  | .options => Options.ofStore []
  | .read .. => Except.error Error.missingRoot
  | .get _ => none
  | .set .. => ()

/-- The answer to a query that an event repeats, if it is the same query. -/
def Event.answerTo (event : Event) (q : Query) : q.Answer :=
  if h : event.query = q then h ▸ event.answer else q.blank

theorem Event.answerTo_self (q : Query) (a : q.Answer) : (⟨q, a⟩ : Event).answerTo q = a := by
  simp [answerTo]

theorem Event.eq_of_prefix {a b events : List Event} (ha : a <+: events) (hb : b <+: events)
    (h : a.length = b.length) : a = b :=
  (List.prefix_of_prefix_length_le ha hb h.le).eq_of_length h

/-- Surroundings in which events are repeated: those that are left, and all that there were. When
none is left, nothing is around. -/
structure Echo where
  left : List Event
  made : List Event

namespace Echo

def answer (s : Echo) (q : Query) : q.Answer :=
  match s.left with
  | [] => q.blank
  | event :: _ => event.answerTo q

instance : Surroundings Echo where
  ask s q := (s.answer q, ⟨s.left.tail, s.made ++ [⟨q, s.answer q⟩]⟩)

theorem ask_eq (q : Query) (w : World Echo) : Live.ask q w =
    (w.source.answer q, ⟨⟨w.source.left.tail, w.source.made ++ [⟨q, w.source.answer q⟩]⟩,
      w.words⟩) :=
  rfl

/-- What is asked is repeated, if it was asked at this point before. -/
theorem ask_cases (q : Query) (w : World Echo) :
    (∃ a rest, w.source.left = ⟨q, a⟩ :: rest ∧
        Live.ask q w = (a, ⟨⟨rest, w.source.made ++ [⟨q, a⟩]⟩, w.words⟩)) ∨
      ¬(Live.ask q w).2.source.made <+: w.source.made ++ w.source.left := by
  rw [ask_eq]
  cases hl : w.source.left with
  | nil =>
    refine .inr fun hp => ?_
    have hlength := hp.length_le
    simp at hlength
  | cons event rest =>
    obtain ⟨asked, a⟩ := event
    by_cases hq : asked = q
    · subst hq
      have hgiven : w.source.answer asked = a := by simp [answer, hl, Event.answerTo_self]
      exact .inl ⟨a, rest, rfl, by rw [hgiven]; rfl⟩
    · refine .inr fun hp => hq ?_
      have hevent := (List.prefix_cons_iff.mp ((List.prefix_append_right_inj _).mp hp)).resolve_left
        (List.cons_ne_nil _ _)
      obtain ⟨more, hmore, -⟩ := hevent
      exact (congrArg Event.query (List.cons.inj hmore).1).symm

/-- Events that there were before. -/
def since (before : List Event) : Coupling (World Echo) (World Echo) where
  inStep _ _ := False
  lost s _ := before <+: s.source.made

/-- Whatever is asked, the events that there were stay. -/
theorem prefix_compileUnder (host : Options → Host) (options : Options) (path : Text)
    (scope : Scope) {before : List Event} {w : World Echo} (h : before <+: w.source.made) :
    before <+: (Live.compileUnder host options path scope w).2.source.made := by
  have hask : ∀ q, (since before).Alike (Live.ask q) (Live.ask q) := fun q =>
    ⟨fun _ _ h => h.trans (List.prefix_append ..), fun _ _ h => h, fun _ _ h => h.elim⟩
  have halike : (since before).Alike (Live.compileUnder host options path scope)
      (Live.compileUnder host options path scope) :=
    Live.alike_compileUnder_of_ask hask
      (World.alike_draw (c := since before) (fun _ _ h => h.elim) (fun _ _ _ h => h)
        (fun _ _ _ h => h) fun _ _ _ h => h) options path scope
  exact halike.left w w h

/-- Two runs of which the second can repeat one event more. They are the same up to this one, which
is the last that they have in common. -/
def further (n : Nat) (last : Event) : Coupling (World Echo) (World Echo) where
  inStep s t :=
    s.words = t.words ∧ s.source.made = t.source.made ∧
      t.source.left = s.source.left ++ [last] ∧ s.source.made.length + s.source.left.length = n
  lost s t := ∃ before q, before.length = n ∧ before ++ [⟨q, q.blank⟩] <+: s.source.made ∧
    before ++ [⟨q, last.answerTo q⟩] <+: t.source.made

variable {n : Nat} {last : Event}

theorem alike_draw {α : Type} (r : Random α) :
    (further n last).Alike (World.draw r) (World.draw r) :=
  World.alike_draw (c := further n last) (fun _ _ h => h.1) (fun _ _ _ h => ⟨rfl, h.2⟩)
    (fun _ _ _ h => h) (fun _ _ _ h => h) r

theorem alike_ask (q : Query) : (further n last).Alike (Live.ask q) (Live.ask q) where
  left _ _ h := by
    obtain ⟨before, r, hn, hs, ht⟩ := h
    exact ⟨before, r, hn, hs.trans (List.prefix_append ..), ht⟩
  right _ _ h := by
    obtain ⟨before, r, hn, hs, ht⟩ := h
    exact ⟨before, r, hn, hs, ht.trans (List.prefix_append ..)⟩
  step s t h := by
    obtain ⟨hwords, hmade, hleft, hn⟩ := h
    rw [ask_eq, ask_eq]
    cases hl : s.source.left with
    | nil =>
      refine .inl ⟨s.source.made, q, by simpa [hl] using hn, ?_, ?_⟩
      · simp [answer, hl]
      · simp [answer, hl, hleft, hmade]
    | cons event rest =>
      rw [hl] at hleft hn
      have hanswer : s.source.answer q = t.source.answer q := by simp [answer, hl, hleft]
      refine .inr ⟨hanswer, hwords, ?_, ?_, ?_⟩
      · simp [hanswer, hmade]
      · simp [hleft]
      · simp only [List.length_append, List.length_cons, List.length_nil, List.tail_cons] at hn ⊢
        omega

end Echo

namespace Request

/-- Compiles the page of a request as far as it comes with some events. -/
def repeated (host : Options → Host) (r : Request) (made : List Event) :
    Except Error Text × World Echo :=
  Live.compile host r.path r.scope ⟨⟨made, []⟩, r.words⟩

/-- The next query of a request after some events, if it is not finished. -/
def query? (host : Options → Host) (r : Request) (made : List Event) : Option Query :=
  (r.repeated host made).2.source.made[made.length]?.map Event.query

/-- Are these events of a request? If they are repeated, it makes the same queries again. -/
def IsRun (host : Options → Host) (r : Request) (made : List Event) : Prop :=
  made <+: (r.repeated host made).2.source.made

variable {host : Options → Host} {r : Request} {made : List Event}

/-- A request that goes on makes the same queries again, and the next one. -/
theorem IsRun.append {q : Query} (h : r.IsRun host made) (hq : r.query? host made = some q)
    (a : q.Answer) : r.IsRun host (made ++ [⟨q, a⟩]) := by
  have halike : (Echo.further made.length ⟨q, a⟩).Alike (Live.compile host r.path r.scope)
      (Live.compile host r.path r.scope) :=
    Live.alike_compile Echo.alike_ask Echo.alike_draw r.path r.scope
  have hrun := halike.step ⟨⟨made, []⟩, r.words⟩ ⟨⟨made ++ [⟨q, a⟩], []⟩, r.words⟩
    ⟨rfl, rfl, rfl, Nat.zero_add _⟩
  obtain ⟨event, hevent, rfl⟩ := Option.map_eq_some_iff.mp hq
  obtain ⟨hlength, -⟩ := List.getElem?_eq_some_iff.mp hevent
  rcases hrun with ⟨before, asked, hn, hs, ht⟩ | ⟨-, -, -, -, hn⟩
  · obtain rfl : before = made := Event.eq_of_prefix ((List.prefix_append ..).trans hs) h hn
    have hasked : (r.repeated host before).2.source.made[before.length]? =
        some ⟨asked, asked.blank⟩ := by
      obtain ⟨rest, hrest⟩ := hs
      rw [repeated, ← hrest]
      simp
    cases Option.some.inj (hevent.symm.trans hasked)
    rwa [Event.answerTo_self] at ht
  · rw [repeated] at hlength
    omega

/-- A request reads the options first. -/
theorem query?_nil (host : Options → Host) (r : Request) : r.query? host [] = some .options := by
  have hfirst : [⟨.options, Query.blank .options⟩] <+: (r.repeated host []).2.source.made :=
    Echo.prefix_compileUnder host (Query.blank .options) r.path r.scope
      (w := ⟨⟨[], [⟨.options, Query.blank .options⟩]⟩, r.words⟩) (List.prefix_refl _)
  obtain ⟨rest, hrest⟩ := hfirst
  rw [query?, ← hrest]
  rfl

/-- The page of a request that is finished. -/
def outcome (host : Options → Host) (r : Request) (made : List Event) : Except Error Text :=
  (r.repeated host made).1

/-- Nothing is asked any more by a request that is finished. -/
theorem IsRun.made_eq (h : r.IsRun host made) (hq : r.query? host made = none) :
    (r.repeated host made).2.source.made = made :=
  (h.eq_of_length_le (by simpa [query?] using hq)).symm

end Request

namespace Surroundings

variable {σ : Type} [Surroundings σ] {s : σ}

/-- Are these the answers to the queries, made one after the other? -/
def Answers (s : σ) : List Event → Prop
  | [] => True
  | event :: more => (ask s event.query).1 = event.answer ∧ Answers (ask s event.query).2 more

/-- What is around when queries were made. -/
def past (s : σ) (events : List Event) : σ := events.foldl (fun s event => (ask s event.query).2) s

theorem answers_concat {events : List Event} (h : Answers s events) (q : Query) :
    Answers s (events ++ [⟨q, (ask (past s events) q).1⟩]) := by
  induction events generalizing s with
  | nil => exact ⟨rfl, trivial⟩
  | cons event events ih => exact ⟨h.1, ih h.2⟩

theorem past_concat (s : σ) (events : List Event) (event : Event) :
    past s (events ++ [event]) = (ask (past s events) event.query).2 := by
  simp [past]

end Surroundings

namespace Echo

variable {σ : Type} [Surroundings σ] {events : List Event}

/-- What is around, and what repeats the answers that are given there. The comparison is lost when
something else is asked. -/
def following (events : List Event) : Coupling (World σ) (World Echo) where
  inStep s t := s.words = t.words ∧ t.source.made ++ t.source.left = events ∧
    Surroundings.Answers s.source t.source.left
  lost _ t := ¬t.source.made <+: events

theorem alike_draw_following {α : Type} (r : Random α) :
    (following (σ := σ) events).Alike (World.draw r) (World.draw r) :=
  World.alike_draw (c := following events) (fun _ _ h => h.1) (fun _ _ _ h => ⟨rfl, h.2⟩)
    (fun _ _ _ h => h) (fun _ _ _ h => h) r

theorem alike_ask_following (q : Query) :
    (following (σ := σ) events).Alike (Live.ask q) (Live.ask q) where
  left _ _ h := h
  right _ _ h hp := h ((List.prefix_append ..).trans hp)
  step s t h := by
    obtain ⟨hwords, hevents, hanswers⟩ := h
    rcases ask_cases q t with ⟨a, rest, hleft, hask⟩ | hother
    · rw [hleft] at hevents hanswers
      rw [hask]
      refine .inr ⟨hanswers.1, hwords, ?_, hanswers.2⟩
      rw [← hevents, List.append_assoc]
      rfl
    · rw [hevents] at hother
      exact .inl hother

end Echo

/-- A request that is finished, and was answered as it is answered alone, has the page that it has
alone. -/
theorem Request.outcome_of_answers {σ : Type} [Surroundings σ] {host : Options → Host} {r : Request}
    {made : List Event} {s : σ} (hdone : (r.repeated host made).2.source.made = made)
    (h : Surroundings.Answers s made) :
    r.outcome host made = (Live.compile host r.path r.scope ⟨s, r.words⟩).1 := by
  have halike : (Echo.following (σ := σ) made).Alike (Live.compile host r.path r.scope)
      (Live.compile host r.path r.scope) :=
    Live.alike_compile Echo.alike_ask_following Echo.alike_draw_following r.path r.scope
  have hrun := halike.step ⟨s, r.words⟩ ⟨⟨made, []⟩, r.words⟩ ⟨rfl, rfl, h⟩
  rcases hrun with hl | ⟨hpage, -⟩
  · refine absurd ?_ hl
    change (r.repeated host made).2.source.made <+: made
    rw [hdone]
  · exact hpage.symm

/-- What is around requests, and the events that there were for each of them. A step of a request is
one query. What a request does in between depends on its own data and on the answers so far, so how
far it is can be told by its queries with their answers. -/
structure Affairs (ι : Type) where
  around : Around
  made : ι → List Event

/-- What can happen: a request makes its next query, or from elsewhere sources are replaced, an
option is written, the cache is told to keep templates for some time, one is taken out of it, it is
emptied, or time goes by. -/
inductive Act (ι : Type) where
  | proceed (i : ι)
  | replace (sources : SourcePlace)
  | write (name value : Text)
  | keepFor (ms : Nat)
  | remove (key : Text)
  | clear
  | elapse (ms : Nat)

namespace Affairs

variable {ι : Type}

def onCache (s : Affairs ι) (f : Cache → Cache) : Affairs ι :=
  { s with around := { s.around with cache := f s.around.cache } }

variable [DecidableEq ι]

/-- A request makes its next query, if it is not finished. -/
def proceed (host : Options → Host) (requests : ι → Request) (s : Affairs ι) (i : ι) : Affairs ι :=
  match (requests i).query? host (s.made i) with
  | none => s
  | some q =>
    let (a, around) := Surroundings.ask s.around q
    ⟨around, Function.update s.made i (s.made i ++ [⟨q, a⟩])⟩

section Proceeding

variable {host : Options → Host} {requests : ι → Request} {s : Affairs ι} {i j : ι} {q : Query}

theorem proceed_of_none (h : (requests i).query? host (s.made i) = none) :
    s.proceed host requests i = s := by
  rw [proceed, h]

theorem around_proceed (h : (requests i).query? host (s.made i) = some q) :
    (s.proceed host requests i).around = (Surroundings.ask s.around q).2 := by
  rw [proceed, h]

theorem made_proceed (h : (requests i).query? host (s.made i) = some q) :
    (s.proceed host requests i).made i = s.made i ++ [⟨q, (Surroundings.ask s.around q).1⟩] := by
  rw [proceed, h]
  exact Function.update_self ..

theorem made_proceed_of_ne (h : j ≠ i) : (s.proceed host requests i).made j = s.made j := by
  unfold proceed
  split
  · rfl
  · exact Function.update_of_ne h ..

end Proceeding

def after (host : Options → Host) (requests : ι → Request) (s : Affairs ι) : Act ι → Affairs ι
  | .proceed i => s.proceed host requests i
  | .replace sources => { s with around := { s.around with sources } }
  | .write name value =>
    { s with around := { s.around with store := Dictionary.insert s.around.store name value } }
  | .keepFor ms => s.onCache (·.setKeep ms)
  | .remove key => s.onCache (·.remove key)
  | .clear => s.onCache .clear
  | .elapse ms => s.onCache (·.modify (·.advance ms))

def afterAll (host : Options → Host) (requests : ι → Request) (s : Affairs ι)
    (acts : List (Act ι)) : Affairs ι :=
  acts.foldl (after host requests) s

theorem afterAll_concat (host : Options → Host) (requests : ι → Request) (s : Affairs ι)
    (acts : List (Act ι)) (act : Act ι) : s.afterAll host requests (acts ++ [act]) =
      (s.afterAll host requests acts).after host requests act := by
  simp [afterAll]

/-- Sources by their names, whatever the root. -/
def place (sources : List (String × String)) : SourcePlace := fun _ name =>
  match sources.find? fun s => s.1.toList = name with
  | some s => .ok ⟨name, s.2.toList⟩
  | none => .error (.notFound name)

/-- Nothing was asked yet, and nothing is in the cache. -/
def start (sources : SourcePlace) (store : OptionStore) (capacity : Nat) : Affairs ι :=
  ⟨⟨sources, store, .ofCapacity capacity⟩, fun _ => []⟩

end Affairs

namespace Engine

variable {ι : Type}

/-- What is done to invalidate a template. -/
def invalidation (e : Engine) (path : Text) : List (Act ι) :=
  [.remove (e.key path), .remove (foldedKey (e.key path))]

end Engine

end Stencil
