import Stencil.Proofs.Answer
import Stencil.Proofs.Closing
import Stencil.Proofs.Interleaving

namespace Stencil

namespace Live

section Executing

variable {σ : Type} [Surroundings σ] (host : Options → Host)

def page (payload path : Text) : StateM (World σ) (Except Error Text) := do
  match Command.dataOf payload with
  | .error err => return .error err
  | .ok data => return (← compile host path (Json.scopeOf data)).map Payload.ofText

/-- Carries out a command of a session. The answer to a request may depend on what is in the cache
when it is given. -/
def execute : Command → StateM (World σ) (Cache → Option Text)
  | .precompile id path => do
    match ← precompile host path with
    | .ok _ => return fun _ => some (Command.reply id "success".toList)
    | .error _ => return fun _ => some (Command.reply id "error".toList)
  | .has id path => do
    let options ← options
    let key := Engine.keyFor path options.ext
    return fun cache => some (Command.reply id (Value.boolText (cache.has key)))
  | .compile id payload path => do
    match ← page host payload path with
    | .ok out => return fun _ => some (Command.reply id out)
    | .error _ => return fun _ => some (Command.reply id "error".toList)
  | .ping | .stop | .set _ _ => return fun _ => none

theorem page_admitted (payload path : Text) (w : World σ) {out : Text}
    (h : (page host payload path w).1 = .ok out) : ∃ page, out = Payload.ofText page := by
  cases hdata : Command.dataOf payload with
  | error err =>
    simp only [page, hdata] at h
    cases h
  | ok data =>
    have hpage : ((compile host path (Json.scopeOf data) w).1).map Payload.ofText = .ok out := by
      simp only [page, hdata] at h
      exact h
    cases hc : (compile host path (Json.scopeOf data) w).1 with
    | error err =>
      rw [hc] at hpage
      cases hpage
    | ok page =>
      rw [hc] at hpage
      cases hpage
      exact ⟨page, rfl⟩

/-- Whatever it finds around, a request is answered under its identifier. -/
theorem execute_admitted {c : Command} {id : Text} (hid : c.id? = some id) (w : World σ)
    (cache : Cache) : ∃ answer,
      (execute host c w).1 cache = some (Command.reply id answer) ∧ c.Admits answer := by
  cases c with
  | precompile id' path =>
    cases hid
    change ∃ answer, ((match (precompile host path w).1 with
      | .ok _ => _
      | .error _ => _ : StateM (World σ) (Cache → Option Text)) _).1 cache = _ ∧ _
    cases (precompile host path w).1 with
    | ok template => exact ⟨_, rfl, .inl rfl⟩
    | error err => exact ⟨_, rfl, .inr rfl⟩
  | has id' path =>
    cases hid
    have hbool : ∀ b, (Command.has id path).Admits (Value.boolText b)
      | true => .inl rfl
      | false => .inr (.inl rfl)
    exact ⟨_, rfl, hbool _⟩
  | compile id' payload path =>
    cases hid
    change ∃ answer, ((match (page host payload path w).1 with
      | .ok _ => _
      | .error _ => _ : StateM (World σ) (Cache → Option Text)) _).1 cache = _ ∧ _
    cases hpage : (page host payload path w).1 with
    | ok out => exact ⟨out, rfl, .inr (page_admitted host payload path w hpage)⟩
    | error err => exact ⟨_, rfl, .inl rfl⟩
  | _ => cases hid

end Executing

/-- If all queries are answered alike, a command is carried out alike. -/
theorem alike_execute {σ τ : Type} [Surroundings σ] [Surroundings τ]
    {c : Coupling (World σ) (World τ)} {host : Options → Host}
    (hask : ∀ q, c.Alike (ask q : StateM (World σ) _) (ask q : StateM (World τ) _))
    (hdraw : ∀ {α : Type} (r : Random α), c.Alike (World.draw r) (World.draw r))
    (command : Command) : c.Alike (execute host command) (execute host command) := by
  cases command with
  | precompile id path =>
    have hmade : c.Alike (precompile host path) (precompile host path) :=
      (alike_options_of_ask hask).bind fun o => alike_obtain (fun q _ => hask q) hdraw o path
    refine hmade.bind fun made => ?_
    cases made with
    | ok template => exact .pure _
    | error err => exact .pure _
  | has id path => exact (alike_options_of_ask hask).bind fun o => .pure _
  | compile id payload path =>
    have hpage : c.Alike (page host payload path) (page host payload path) := by
      unfold page
      cases Command.dataOf payload with
      | error err => exact .pure _
      | ok data => exact (alike_compile hask hdraw path _).bind fun out => .pure _
    refine hpage.bind fun out => ?_
    cases out with
    | ok out => exact .pure _
    | error err => exact .pure _
  | _ => exact .pure _

end Live

namespace Engine

/-- A source that is compiled without end: the tail of a condition in it is never split. -/
def Endless (source : Text) : Prop :=
  Normalized.ofText? (stripped source).2 (stripped source).1 = none

/-- A source is compiled to the end, if no comment stands in it between a percent sign and an
exclamation mark. -/
theorem not_endless {source : Text} (h : ¬Joined source) : ¬Endless source := by
  have hnormalized : (Normalized.ofText? (stripped source).2 (stripped source).1).isSome :=
    Normalized.go?_isSome (marked_stripped h) 0 0
  intro hnone
  rw [hnone] at hnormalized
  cases hnormalized

end Engine

/-- Was a source read that is compiled without end? -/
def Event.IsEndless (event : Event) : Prop :=
  ∃ root name source, event = ⟨.read root name, .ok source⟩ ∧ Engine.Endless source.text

/-- A command that is carried out: the words that it draws from, and what it has asked so far. How
far it is, is told by its queries with their answers, and it goes on by repeating them. -/
structure Task where
  command : Command
  words : List UInt32
  made : List Event

/-- What is around a task that goes on: first the events are repeated that are left, then what is
really there is asked. -/
structure Resumed where
  left : List Event
  made : List Event
  around : Around

namespace Resumed

instance : Surroundings Resumed where
  ask s q :=
    match s.left with
    | [] =>
      let (a, around) := Surroundings.ask s.around q
      (a, ⟨[], s.made ++ [⟨q, a⟩], around⟩)
    | event :: left => (event.answerTo q, ⟨left, s.made ++ [⟨q, event.answerTo q⟩], s.around⟩)

theorem ask_nil (q : Query) (made : List Event) (around : Around) (words : List UInt32) :
    Live.ask q (⟨⟨[], made, around⟩, words⟩ : World Resumed) =
      ((Surroundings.ask around q).1, ⟨⟨[], made ++ [⟨q, (Surroundings.ask around q).1⟩],
        (Surroundings.ask around q).2⟩, words⟩) :=
  rfl

theorem ask_cons (q : Query) (event : Event) (left made : List Event) (around : Around)
    (words : List UInt32) :
    Live.ask q (⟨⟨event :: left, made, around⟩, words⟩ : World Resumed) =
      (event.answerTo q, ⟨⟨left, made ++ [⟨q, event.answerTo q⟩], around⟩, words⟩) :=
  rfl

/-- A task that is repeated, and one that goes on when nothing is left to be repeated. They are the
same up to the query that comes then. -/
def echoing (n : Nat) (a : Around) : Coupling (World Echo) (World Resumed) where
  inStep s t := s.words = t.words ∧ s.source.made = t.source.made ∧ s.source.left = t.source.left ∧
    t.source.around = a ∧ s.source.made.length + s.source.left.length = n
  lost s t := ∃ before q, before.length = n ∧ before ++ [⟨q, q.blank⟩] <+: s.source.made ∧
    before ++ [⟨q, (Surroundings.ask a q).1⟩] <+: t.source.made

variable {n : Nat} {a : Around} {q : Query}

theorem alike_draw_echoing {α : Type} (r : Random α) :
    (echoing n a).Alike (World.draw r) (World.draw r) :=
  World.alike_draw (c := echoing n a) (fun _ _ h => h.1) (fun _ _ _ h => ⟨rfl, h.2⟩)
    (fun _ _ _ h => h) (fun _ _ _ h => h) r

/-- What was asked stays. -/
theorem prefix_ask (q : Query) (w : World Resumed) :
    w.source.made <+: (Live.ask q w).2.source.made := by
  obtain ⟨⟨left, made, around⟩, words⟩ := w
  cases left with
  | nil =>
    rw [ask_nil]
    exact List.prefix_append ..
  | cons event left =>
    rw [ask_cons]
    exact List.prefix_append ..

theorem alike_ask_echoing (q : Query) : (echoing n a).Alike (Live.ask q) (Live.ask q) where
  left _ _ h := by
    obtain ⟨before, r, hn, hs, ht⟩ := h
    exact ⟨before, r, hn, hs.trans (List.prefix_append ..), ht⟩
  right _ t h := by
    obtain ⟨before, r, hn, hs, ht⟩ := h
    exact ⟨before, r, hn, hs, ht.trans (prefix_ask q t)⟩
  step s t h := by
    obtain ⟨⟨left, made⟩, words⟩ := s
    obtain ⟨⟨left', made', around⟩, words'⟩ := t
    obtain ⟨hwords, hmade, hleft, haround, hn⟩ := h
    dsimp only at hwords hmade hleft haround hn
    subst hwords hmade hleft haround
    rw [Echo.ask_eq]
    cases left with
    | nil =>
      rw [ask_nil]
      exact .inl ⟨made, q, by simpa using hn, List.prefix_refl _, List.prefix_refl _⟩
    | cons event left =>
      rw [ask_cons]
      refine .inr ⟨rfl, rfl, rfl, rfl, rfl, ?_⟩
      simp only [List.length_append, List.length_cons, List.length_nil, List.tail_cons] at hn ⊢
      omega

/-- A task that goes on, and the same task when it has made one query more. They are the same, if
this was its next query. -/
def ahead (n : Nat) (a : Around) (q : Query) : Coupling (World Resumed) (World Resumed) where
  inStep s t := s = t ∨ s.words = t.words ∧ s.source.made = t.source.made ∧
    t.source.left = s.source.left ++ [⟨q, (Surroundings.ask a q).1⟩] ∧ s.source.around = a ∧
      t.source.around = (Surroundings.ask a q).2 ∧ s.source.made.length + s.source.left.length = n
  lost s _ := ∃ before r b, before.length = n ∧ r ≠ q ∧ before ++ [⟨r, b⟩] <+: s.source.made

theorem alike_draw_ahead {α : Type} (r : Random α) :
    (ahead n a q).Alike (World.draw r) (World.draw r) := by
  refine World.alike_draw (fun s t h => ?_) (fun s t words h => ?_) (fun _ _ _ h => h)
    (fun _ _ _ h => h) r
  · rcases h with rfl | h
    · rfl
    · exact h.1
  · rcases h with rfl | h
    · exact .inl rfl
    · exact .inr ⟨rfl, h.2⟩

theorem alike_ask_ahead (r : Query) : (ahead n a q).Alike (Live.ask r) (Live.ask r) where
  left s _ h := by
    obtain ⟨before, r', b, hn, hr, hs⟩ := h
    exact ⟨before, r', b, hn, hr, hs.trans (prefix_ask r s)⟩
  right _ _ h := h
  step s t h := by
    rcases h with rfl | h
    · exact .inr ⟨rfl, .inl rfl⟩
    obtain ⟨⟨left, made, around⟩, words⟩ := s
    obtain ⟨⟨left', made', around'⟩, words'⟩ := t
    obtain ⟨hwords, hmade, hleft, haround, haround', hn⟩ := h
    dsimp only at hwords hmade hleft haround haround' hn
    subst hwords hmade hleft haround haround'
    cases left with
    | nil =>
      rw [List.nil_append, ask_nil, ask_cons]
      by_cases hr : r = q
      · subst hr
        rw [Event.answerTo_self]
        exact .inr ⟨rfl, .inl rfl⟩
      · exact .inl ⟨made, r, _, by simpa using hn, hr, List.prefix_refl _⟩
    | cons event left =>
      rw [List.cons_append, ask_cons, ask_cons]
      refine .inr ⟨rfl, .inr ⟨rfl, rfl, rfl, rfl, rfl, ?_⟩⟩
      simp only [List.length_append, List.length_cons, List.length_nil] at hn ⊢
      omega

end Resumed

namespace Task

variable (host : Options → Host)

/-- A task carried out as far as it comes with its events. -/
def repeated (t : Task) : (Cache → Option Text) × World Echo :=
  Live.execute host t.command ⟨⟨t.made, []⟩, t.words⟩

/-- The next query of a task, if it is not finished. -/
def query? (t : Task) : Option Query :=
  (t.repeated host).2.source.made[t.made.length]?.map Event.query

/-- What a task that is finished answers. -/
def answer (t : Task) (cache : Cache) : Option Text := (t.repeated host).1 cache

/-- Makes a task go on. -/
def answered (t : Task) (q : Query) (a : q.Answer) : Task := { t with made := t.made ++ [⟨q, a⟩] }

/-- A task carried out to its end where nobody else changes anything any more. -/
def resumed (t : Task) (a : Around) : (Cache → Option Text) × World Resumed :=
  Live.execute host t.command ⟨⟨t.made, [], a⟩, t.words⟩

/-- Has a task last read a source that is compiled without end? It does not go on. -/
def IsEndless (t : Task) : Prop := ∃ event ∈ t.made.getLast?, event.IsEndless

/-- Does a task make again the queries that it has made? -/
def Again (t : Task) : Prop := t.made <+: (t.repeated host).2.source.made

variable {host} {t : Task} {q : Query}

/-- A task that goes on is the same as when it is repeated, up to the query that comes next. -/
theorem resumed_cases (host : Options → Host) (t : Task) (a : Around) :
    (∃ before q, before.length = t.made.length ∧
      before ++ [⟨q, q.blank⟩] <+: (t.repeated host).2.source.made ∧
        before ++ [⟨q, (Surroundings.ask a q).1⟩] <+: (t.resumed host a).2.source.made) ∨
      (t.resumed host a).1 = (t.repeated host).1 ∧
        (t.resumed host a).2.source.made = (t.repeated host).2.source.made ∧
          (t.resumed host a).2.source.around = a ∧
            (t.resumed host a).2.source.made.length ≤ t.made.length := by
  have halike : (Resumed.echoing t.made.length a).Alike (Live.execute host t.command)
      (Live.execute host t.command) :=
    Live.alike_execute Resumed.alike_ask_echoing Resumed.alike_draw_echoing t.command
  rcases halike.step ⟨⟨t.made, []⟩, t.words⟩ ⟨⟨t.made, [], a⟩, t.words⟩
    ⟨rfl, rfl, rfl, rfl, Nat.zero_add _⟩ with hlost | ⟨hanswer, -, hmade, -, haround, hn⟩
  · exact .inl hlost
  · refine .inr ⟨hanswer.symm, hmade.symm, haround, ?_⟩
    rw [resumed, ← hmade]
    omega

theorem again_iff (t : Task) (a : Around) :
    t.Again host ↔ t.made <+: (t.resumed host a).2.source.made := by
  rcases resumed_cases host t a with ⟨before, q, hn, hs, ht⟩ | ⟨-, hmade, -⟩
  · have hs := (List.prefix_append before _).trans hs
    have ht := (List.prefix_append before _).trans ht
    constructor
    · intro h
      rw [Event.eq_of_prefix h hs hn.symm]
      exact ht
    · intro h
      rw [Again, Event.eq_of_prefix h ht hn.symm]
      exact hs
  · rw [Again, hmade]

theorem again_start (host : Options → Host) (c : Command) (words : List UInt32) :
    (⟨c, words, []⟩ : Task).Again host :=
  List.nil_prefix

/-- A task that is finished is not changed by what is around. -/
theorem resumed_of_none (hq : t.query? host = none) (a : Around) :
    (t.resumed host a).1 = (t.repeated host).1 ∧ (t.resumed host a).2.source.around = a := by
  have hlength : (t.repeated host).2.source.made.length ≤ t.made.length := by
    simpa [query?] using hq
  rcases resumed_cases host t a with ⟨before, q, hn, hs, -⟩ | ⟨hanswer, -, haround, -⟩
  · have := hs.length_le
    simp only [List.length_append, List.length_singleton] at this
    omega
  · exact ⟨hanswer, haround⟩

/-- The next query of a task is the one that it makes when it goes on. -/
theorem Again.prefix_resumed (h : t.Again host) (hq : t.query? host = some q) (a : Around) :
    t.made ++ [⟨q, (Surroundings.ask a q).1⟩] <+: (t.resumed host a).2.source.made := by
  obtain ⟨event, hevent, rfl⟩ := Option.map_eq_some_iff.mp hq
  obtain ⟨hlength, -⟩ := List.getElem?_eq_some_iff.mp hevent
  rcases resumed_cases host t a with ⟨before, r, hn, hs, ht⟩ | ⟨-, hmade, -, hle⟩
  · obtain rfl : before = t.made := Event.eq_of_prefix ((List.prefix_append ..).trans hs) h hn
    obtain ⟨rest, hrest⟩ := hs
    rw [← hrest] at hevent
    have hnext : (t.made ++ [⟨r, r.blank⟩] ++ rest)[t.made.length]? = some ⟨r, r.blank⟩ := by simp
    cases Option.some.inj (hevent.symm.trans hnext)
    exact ht
  · rw [hmade] at hle
    omega

/-- A task that has made its next query comes to the end that it would have come to. -/
theorem Again.resumed_ask (h : t.Again host) (hq : t.query? host = some q) (a : Around) :
    (t.answered q (Surroundings.ask a q).1).resumed host (Surroundings.ask a q).2 =
      t.resumed host a := by
  have hprefix := h.prefix_resumed hq a
  have halike : (Resumed.ahead t.made.length a q).Alike (Live.execute host t.command)
      (Live.execute host t.command) :=
    Live.alike_execute Resumed.alike_ask_ahead Resumed.alike_draw_ahead t.command
  have hlength := hprefix.length_le
  simp only [List.length_append, List.length_singleton] at hlength
  rcases halike.step ⟨⟨t.made, [], a⟩, t.words⟩
    ⟨⟨t.made ++ [⟨q, (Surroundings.ask a q).1⟩], [], (Surroundings.ask a q).2⟩, t.words⟩
    (.inr ⟨rfl, rfl, rfl, rfl, rfl, Nat.zero_add _⟩) with hlost | ⟨hanswer, hsame | hother⟩
  · obtain ⟨before, r, b, hn, hr, hs⟩ := hlost
    have hevents : before ++ [⟨r, b⟩] = t.made ++ [⟨q, (Surroundings.ask a q).1⟩] :=
      Event.eq_of_prefix hs hprefix (by simp [hn])
    have hevent := List.append_inj_right hevents hn
    exact absurd (congrArg Event.query (List.cons.inj hevent).1) hr
  · exact Prod.ext hanswer.symm hsame.symm
  · obtain ⟨-, -, -, -, -, hn⟩ := hother
    rw [resumed] at hlength
    omega

theorem Again.answered (h : t.Again host) (hq : t.query? host = some q) (a : Around) :
    (t.answered q (Surroundings.ask a q).1).Again host := by
  rw [again_iff _ (Surroundings.ask a q).2, h.resumed_ask hq a]
  exact h.prefix_resumed hq a

end Task

end Stencil
