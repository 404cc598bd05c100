import Mathlib.Data.List.Forall2
import Mathlib.Logic.Relation
import Stencil.Proofs.Resumption

namespace Stencil

open Relation

/-- Sets an option, as an engine does. -/
def Around.setOption (a : Around) (key value : Text) : Around :=
  let e : Engine := { Engine.ofSources 0 a.sources with store := a.store }
  let (e, cache) := e.setOption key value a.cache
  ⟨a.sources, e.store, cache⟩

/-- A session: the lines that are still to be read, what is around, the requests that are carried
out, and the lines of the output. -/
structure Session where
  lines : List Text
  around : Around
  tasks : List Task
  output : List Text

namespace Session

/-- A session in which nothing was read yet. -/
def start (a : Around) (input : Text) : Session := ⟨Text.lines input, a, [], []⟩

/-- What a session does with the command of a line, if it is one. Every request has words of its own
to draw from. -/
def receive (s : Session) (words : List UInt32) : Option Command → Session
  | none => s
  | some .ping => { s with output := s.output ++ ["pong".toList] }
  | some .stop => { s with lines := [] }
  | some (.set key value) => { s with around := s.around.setOption key value }
  | some request => { s with tasks := s.tasks ++ [⟨request, words, []⟩] }

/-- What a session does by itself: it reads a line, makes a request go on by a query, or answers one
that is finished. -/
inductive Work (host : Options → Host) : Session → Session → Prop
  | read {s : Session} {line : Text} {more : List Text} (words : List UInt32)
    (h : s.lines = line :: more) :
    Work host s ({ s with lines := more }.receive words (Command.ofLine? line))
  | proceed {s : Session} {before after : List Task} {t : Task} {q : Query}
    (h : s.tasks = before ++ t :: after) (hend : ¬t.IsEndless) (hq : t.query? host = some q) :
    Work host s { s with
      around := (Surroundings.ask s.around q).2
      tasks := before ++ t.answered q (Surroundings.ask s.around q).1 :: after }
  | finish {s : Session} {before after : List Task} {t : Task}
    (h : s.tasks = before ++ t :: after) (hend : ¬t.IsEndless) (hq : t.query? host = none) :
    Work host s { s with
      tasks := before ++ after
      output := s.output ++ (t.answer host s.around.cache).toList }

/-- What can happen in a session: its work, the failure of a request, at any point, and a change of
what is around. -/
inductive Step (host : Options → Host) : Session → Session → Prop
  | work {s s' : Session} (h : Work host s s') : Step host s s'
  | fail {s : Session} {before after : List Task} {t : Task}
    (h : s.tasks = before ++ t :: after) :
    Step host s { s with
      tasks := before ++ after
      output := s.output ++ [Command.reply (t.command.id?.getD []) "error".toList] }
  | change {s : Session} (a : Around) : Step host s { s with around := a }

/-- Nothing is left to be read or to be answered. -/
def IsOver (s : Session) : Prop := s.lines = [] ∧ s.tasks = []

/-- What holds at all times in a session with some lines: each of their commands that is awaited was
answered, or is carried out, or is still to be read. -/
structure Kept (host : Options → Host) (input : List Text) (s : Session) : Prop where
  commands : ∃ answered, List.Forall₂ Command.Answers answered s.output ∧
    (answered ++ s.tasks.map Task.command ++ Command.awaited s.lines).Perm (Command.awaited input)
  request : ∀ t ∈ s.tasks, t.command.isRequest
  again : ∀ t ∈ s.tasks, t.Again host

variable {host : Options → Host} {input : List Text} {s s' : Session}

theorem kept_start (host : Options → Host) (a : Around) (input : Text) :
    Kept host (Text.lines input) (start a input) where
  commands := ⟨[], .nil, List.Perm.refl _⟩
  request := List.forall_mem_nil _
  again := List.forall_mem_nil _

/-- A command that is answered comes to those that were answered before. -/
theorem perm_answered (answered before after : List Command) (c : Command) :
    (answered ++ [c] ++ before ++ after).Perm (answered ++ before ++ c :: after) := by
  have hmove : (c :: (before ++ after)).Perm (before ++ c :: after) := List.perm_middle.symm
  simpa using hmove.append_left answered

section Reading

variable {line : Text} {more : List Text}

/-- A line is read: its command is answered, or carried out, or is not awaited. -/
theorem Kept.read (hs : Kept host input s) (words : List UInt32) (h : s.lines = line :: more) :
    Kept host input ({ s with lines := more }.receive words (Command.ofLine? line)) := by
  obtain ⟨⟨answered, hanswers, hperm⟩, hrequest, hagain⟩ := hs
  rw [h] at hperm
  cases hc : Command.ofLine? line with
  | none =>
    rw [Command.awaited_malformed hc] at hperm
    exact ⟨⟨answered, hanswers, hperm⟩, hrequest, hagain⟩
  | some c =>
    have htask : c.isRequest →
        Kept host input { s with lines := more, tasks := s.tasks ++ [⟨c, words, []⟩] } := by
      intro hr
      rw [Command.awaited_cons hc (.inr hr)] at hperm
      refine ⟨⟨answered, hanswers, by simpa using hperm⟩, ?_, ?_⟩
      · exact List.forall_mem_append.mpr ⟨hrequest, by simpa using hr⟩
      · exact List.forall_mem_append.mpr ⟨hagain, by simpa using Task.again_start host c words⟩
    cases c with
    | ping =>
      rw [Command.awaited_cons hc (.inl rfl)] at hperm
      exact ⟨⟨answered ++ [.ping], List.rel_append hanswers (.cons .pong .nil),
        (perm_answered _ (s.tasks.map Task.command) (Command.awaited more) _).trans hperm⟩,
        hrequest, hagain⟩
    | stop =>
      rw [Command.awaited_stop hc] at hperm
      exact ⟨⟨answered, hanswers, hperm⟩, hrequest, hagain⟩
    | set key value =>
      rw [Command.awaited_set hc] at hperm
      exact ⟨⟨answered, hanswers, hperm⟩, hrequest, hagain⟩
    | precompile id path => exact htask rfl
    | has id path => exact htask rfl
    | compile id payload path => exact htask rfl

end Reading

section Tasks

variable {before after : List Task} {t : Task}

/-- A request is answered under its identifier. -/
theorem Kept.answer (hs : Kept host input s) (h : s.tasks = before ++ t :: after) {id answer : Text}
    (hid : t.command.id? = some id) (ha : t.command.Admits answer) :
    Kept host input { s with
      tasks := before ++ after
      output := s.output ++ [Command.reply id answer] } := by
  obtain ⟨⟨answered, hanswers, hperm⟩, hrequest, hagain⟩ := hs
  rw [h] at hperm hrequest hagain
  have hmem : t.command ∈ Command.awaited input := hperm.subset (by simp)
  obtain ⟨line, -, hline⟩ := Command.exists_line_of_mem_awaited hmem
  have hout := Command.answers_reply hid (Command.id_of_ofLine? hline hid).1 ha
  refine ⟨⟨answered ++ [t.command], List.rel_append hanswers (.cons hout .nil), ?_⟩, ?_, ?_⟩
  · refine List.Perm.trans ?_ hperm
    simpa using perm_answered answered (before.map Task.command)
      (after.map Task.command ++ Command.awaited s.lines) t.command
  · exact fun u hu => hrequest u (by simp only [List.mem_append, List.mem_cons] at hu ⊢; tauto)
  · exact fun u hu => hagain u (by simp only [List.mem_append, List.mem_cons] at hu ⊢; tauto)

theorem Kept.proceed (hs : Kept host input s) (h : s.tasks = before ++ t :: after) {q : Query}
    (hq : t.query? host = some q) :
    Kept host input { s with
      around := (Surroundings.ask s.around q).2
      tasks := before ++ t.answered q (Surroundings.ask s.around q).1 :: after } := by
  obtain ⟨hcommands, hrequest, hagain⟩ := hs
  rw [h] at hcommands hrequest hagain
  simp only [List.forall_mem_append, List.forall_mem_cons] at hrequest hagain
  refine ⟨by simpa [Task.answered] using hcommands, ?_, ?_⟩
  · exact List.forall_mem_append.mpr ⟨hrequest.1, List.forall_mem_cons.mpr hrequest.2⟩
  · exact List.forall_mem_append.mpr
      ⟨hagain.1, List.forall_mem_cons.mpr ⟨hagain.2.1.answered hq s.around, hagain.2.2⟩⟩

end Tasks

theorem Kept.work (hs : Kept host input s) (h : Work host s s') : Kept host input s' := by
  cases h with
  | read words h => exact hs.read words h
  | proceed h _ hq => exact hs.proceed h hq
  | @finish before after t h =>
    obtain ⟨id, hid⟩ := Option.isSome_iff_exists.mp (hs.request t (by simp [h]))
    obtain ⟨answer, hanswer, ha⟩ := Live.execute_admitted host hid
      (⟨⟨t.made, []⟩, t.words⟩ : World Echo) s.around.cache
    have hanswer : t.answer host s.around.cache = some (Command.reply id answer) := hanswer
    rw [hanswer]
    exact hs.answer h hid ha

theorem Kept.step (hs : Kept host input s) (h : Step host s s') : Kept host input s' := by
  cases h with
  | work h => exact hs.work h
  | @fail before after t h =>
    have hrequest := hs.request t (by simp [h])
    obtain ⟨id, hid⟩ := Option.isSome_iff_exists.mp hrequest
    rw [hid]
    exact hs.answer h hid (Command.admits_error hrequest)
  | change a => exact ⟨hs.commands, hs.request, hs.again⟩

theorem Kept.run (hs : Kept host input s) (h : ReflTransGen (Step host) s s') :
    Kept host input s' := by
  induction h with
  | refl => exact hs
  | tail _ hstep ih => exact ih.step hstep

/-- When a session is over, all commands that are awaited were answered. -/
theorem Kept.over (hs : Kept host input s) (h : s.IsOver) : ∃ answered,
    List.Forall₂ Command.Answers answered s.output ∧ answered.Perm (Command.awaited input) := by
  obtain ⟨answered, hanswers, hperm⟩ := hs.commands
  rw [h.1, h.2] at hperm
  exact ⟨answered, hanswers, by simpa [Command.awaited] using hperm⟩

/-- The lines of the output have no line breaks, if those of the input have none. -/
theorem Kept.lines_output (hs : Kept host input s) (h : ∀ line ∈ input, '\n' ∉ line) :
    Text.lines (Text.unlines s.output) = s.output := by
  obtain ⟨answered, hanswers, hperm⟩ := hs.commands
  have hline : ∀ out ∈ s.output, '\n' ∉ out ∧ out.getLast? ≠ some '\r' := by
    intro out hout
    obtain ⟨i, hi, rfl⟩ := List.mem_iff_getElem.mp hout
    have hi' : i < answered.length := hanswers.length_eq ▸ hi
    have hmem : answered[i] ∈ Command.awaited input :=
      hperm.subset (by simp [List.getElem_mem])
    obtain ⟨line, hmem, hline⟩ := Command.exists_line_of_mem_awaited hmem
    refine (List.Forall₂.get hanswers hi' hi).isLine fun id hid hbreak => ?_
    exact h line hmem ((Command.id_of_ofLine? hline hid).2 hbreak)
  exact Text.lines_unlines (fun out hout => (hline out hout).1) fun out hout => (hline out hout).2

section Progress

/-- The source that a task has read last is one that is around. -/
theorem exists_source_of_endless {t : Task} {a : Around} {q : Query}
    (h : (t.answered q (Surroundings.ask a q).1).IsEndless) :
    ∃ root name source, a.sources root name = .ok source ∧ Engine.Endless source.text := by
  obtain ⟨event, hevent, root, name, source, rfl, hend⟩ := h
  have hlast : (⟨q, (Surroundings.ask a q).1⟩ : Event) = ⟨.read root name, .ok source⟩ := by
    simpa [Task.answered] using hevent
  obtain rfl : q = .read root name := congrArg Event.query hlast
  exact ⟨root, name, source, eq_of_heq (Event.mk.inj hlast).2, hend⟩

/-- No source that is around, and none that was read for a request, has a comment between a percent
sign and an exclamation mark. -/
structure Parted (s : Session) : Prop where
  around : ∀ {root name source}, s.around.sources root name = .ok source →
    ¬Engine.Joined source.text
  made : ∀ t ∈ s.tasks, ∀ {root name source}, ⟨.read root name, .ok source⟩ ∈ t.made →
    ¬Engine.Joined source.text

theorem sources_setOption (a : Around) (key value : Text) :
    (a.setOption key value).sources = a.sources :=
  rfl

theorem Parted.read (hs : s.Parted) (more : List Text) (words : List UInt32)
    (c : Option Command) : ({ s with lines := more }.receive words c).Parted := by
  have hrequest : ∀ request, Parted { s with
      lines := more, tasks := s.tasks ++ [⟨request, words, []⟩] } := fun request =>
    ⟨hs.around, List.forall_mem_append.mpr ⟨hs.made, by simp⟩⟩
  rcases c with _ | c
  · exact ⟨hs.around, hs.made⟩
  cases c with
  | ping | stop => exact ⟨hs.around, hs.made⟩
  | set key value => exact ⟨fun h => hs.around (sources_setOption s.around key value ▸ h), hs.made⟩
  | precompile id path => exact hrequest _
  | has id path => exact hrequest _
  | compile id payload path => exact hrequest _

theorem Parted.work (hs : s.Parted) (h : Work host s s') : s'.Parted := by
  cases h with
  | read words h => exact hs.read _ words _
  | @proceed before after t q h =>
    have hmade := hs.made
    rw [h] at hmade
    simp only [List.forall_mem_append, List.forall_mem_cons] at hmade
    obtain ⟨hbefore, ht, hafter⟩ := hmade
    refine ⟨fun h => hs.around (Around.sources_ask s.around q ▸ h), ?_⟩
    refine List.forall_mem_append.mpr ⟨hbefore, List.forall_mem_cons.mpr ⟨?_, hafter⟩⟩
    intro root name source hevent
    rcases List.mem_append.mp hevent with hevent | hevent
    · exact ht hevent
    · have hevent := List.mem_singleton.mp hevent
      obtain rfl : Query.read root name = q := congrArg Event.query hevent
      exact hs.around (eq_of_heq (Event.mk.inj hevent).2).symm
  | @finish before after t h =>
    refine ⟨hs.around, fun u hu => hs.made u ?_⟩
    rw [h]
    exact List.mem_append.mpr ((List.mem_append.mp hu).imp_right (List.mem_cons_of_mem t))

theorem Parted.run (hs : s.Parted) (h : ReflTransGen (Work host) s s') : s'.Parted := by
  induction h with
  | refl => exact hs
  | tail _ hstep ih => exact ih.work hstep

theorem Parted.not_isEndless (hs : s.Parted) {t : Task} (ht : t ∈ s.tasks) : ¬t.IsEndless := by
  rintro ⟨event, hevent, root, name, source, rfl, hend⟩
  exact Engine.not_endless (hs.made t ht (List.mem_of_getLast? hevent)) hend

/-- A request that nobody comes in between of is carried out to its end: it is answered, or a source
that is compiled without end was read for it. -/
theorem carried_out {before after : List Task} {t : Task} (h : s.tasks = before ++ t :: after)
    (ht : t.Again host) :
    ReflTransGen (Work host) s { s with
      around := (t.resumed host s.around).2.source.around
      tasks := before ++ after
      output := s.output ++
        ((t.resumed host s.around).1 (t.resumed host s.around).2.source.around.cache).toList } ∨
    (t.IsEndless ∨ ∃ root name source,
      s.around.sources root name = .ok source ∧ Engine.Endless source.text) ∧
      ∃ s' t', ReflTransGen (Work host) s s' ∧ s'.lines = s.lines ∧
        s'.tasks = before ++ t' :: after ∧ t'.IsEndless := by
  -- By induction on the queries that are still to come; they are known, as nobody comes in between.
  induction hn : (t.resumed host s.around).2.source.made.length - t.made.length
    using Nat.strongRecOn generalizing s t with
  | ind n ih =>
    by_cases hend : t.IsEndless
    · exact .inr ⟨.inl hend, s, t, .refl, rfl, h, hend⟩
    cases hq : t.query? host with
    | none =>
      obtain ⟨hanswer, haround⟩ := Task.resumed_of_none hq s.around
      refine .inl (.single ?_)
      rw [hanswer, haround]
      exact .finish h hend hq
    | some q =>
      have hsame := ht.resumed_ask hq s.around
      have hlength := (ht.prefix_resumed hq s.around).length_le
      simp only [List.length_append, List.length_singleton] at hlength
      let next : Session := { s with
        around := (Surroundings.ask s.around q).2
        tasks := before ++ t.answered q (Surroundings.ask s.around q).1 :: after }
      have hnext : Work host s next := .proceed h hend hq
      rcases ih ((t.resumed host s.around).2.source.made.length - (t.made.length + 1)) (by omega)
        (s := next) rfl (ht.answered hq s.around) (by rw [hsame]; simp [Task.answered])
        with hrun | ⟨hsource, s', t', hrun, hs'⟩
      · rw [hsame] at hrun
        exact .inl (.head hnext hrun)
      · rw [Around.sources_ask] at hsource
        exact .inr ⟨.inr (hsource.elim exists_source_of_endless id), s', t', .head hnext hrun, hs'⟩

/-- One after the other, all requests are carried out to their ends. -/
theorem all_carried_out {before after : List Task} (h : s.tasks = before ++ after)
    (hbefore : ∀ t ∈ before, t.IsEndless) (hafter : ∀ t ∈ after, t.Again host) :
    ∃ s', ReflTransGen (Work host) s s' ∧ s'.lines = s.lines ∧ ∀ t ∈ s'.tasks, t.IsEndless := by
  induction after generalizing s before with
  | nil =>
    rw [List.append_nil] at h
    exact ⟨s, .refl, rfl, h ▸ hbefore⟩
  | cons t after ih =>
    obtain ⟨ht, hafter⟩ := List.forall_mem_cons.mp hafter
    rcases carried_out h ht with hrun | ⟨-, s', t', hrun, hlines, htasks, hend⟩
    · obtain ⟨s', hrun', hlines, hall⟩ := ih (s := { s with
        around := _, tasks := before ++ after, output := _ }) rfl hbefore hafter
      exact ⟨s', hrun.trans hrun', hlines, hall⟩
    · have htasks' : s'.tasks = before ++ [t'] ++ after := by simp [htasks]
      obtain ⟨s'', hrun', hlines', hall⟩ := ih htasks'
        (List.forall_mem_append.mpr ⟨hbefore, by simpa using hend⟩) hafter
      exact ⟨s'', hrun.trans hrun', hlines'.trans hlines, hall⟩

theorem length_lines_receive_le (s : Session) (words : List UInt32) (c : Option Command) :
    (s.receive words c).lines.length ≤ s.lines.length := by
  unfold receive
  split
  · exact le_rfl
  · exact le_rfl
  · exact Nat.zero_le _
  · exact le_rfl
  · exact le_rfl

theorem all_read (host : Options → Host) (s : Session) :
    ∃ s', ReflTransGen (Work host) s s' ∧ s'.lines = [] := by
  induction hn : s.lines.length using Nat.strongRecOn generalizing s with
  | ind n ih =>
    cases hlines : s.lines with
    | nil => exact ⟨s, .refl, hlines⟩
    | cons line more =>
      have hless := length_lines_receive_le { s with lines := more } [] (Command.ofLine? line)
      have hlength : more.length < n := by
        rw [← hn, hlines]
        exact Nat.lt_succ_self _
      obtain ⟨s', hrun, hs'⟩ := ih _ (hless.trans_lt hlength) _ rfl
      exact ⟨s', .head (.read [] hlines) hrun, hs'⟩

/-- A session can always be brought to its end, but for requests for which a source was read that is
compiled without end. -/
theorem Kept.brought_to_end (hs : Kept host input s) :
    ∃ s', ReflTransGen (Work host) s s' ∧ s'.lines = [] ∧ ∀ t ∈ s'.tasks, t.IsEndless := by
  obtain ⟨s', hrun, hlines⟩ := all_read host s
  have hs' := hs.run (ReflTransGen.mono (fun _ _ h => Step.work h) _ _ hrun)
  have htasks : s'.tasks = [] ++ s'.tasks := rfl
  obtain ⟨s'', hrun', hlines', hall⟩ := all_carried_out htasks (List.forall_mem_nil _) hs'.again
  exact ⟨s'', hrun.trans hrun', hlines'.trans hlines, hall⟩

theorem Kept.over_of_parted (hs : Kept host input s) (hparted : s.Parted) :
    ∃ s', ReflTransGen (Work host) s s' ∧ s'.IsOver := by
  obtain ⟨s', hrun, hlines, hall⟩ := hs.brought_to_end
  have htasks : ∀ t, t ∉ s'.tasks := fun t ht => (hparted.run hrun).not_isEndless ht (hall t ht)
  exact ⟨s', hrun, hlines, List.eq_nil_iff_forall_not_mem.mpr htasks⟩

end Progress

/-- Whatever the order in which the requests of a session are answered, and whatever else happens:
at all times every command that is awaited was answered once, or is carried out, or is still to be
read, and there are no other lines in the output; when the session is over, all of them were
answered. It comes so far but for requests that read a source which is compiled without end, and
none is, if none has a comment between a percent sign and an exclamation mark. -/
theorem answered_once {a : Around} {text : Text}
    (h : ReflTransGen (Step host) (start a text) s) :
    (∃ answered, List.Forall₂ Command.Answers answered s.output ∧
      (answered ++ s.tasks.map Task.command ++ Command.awaited s.lines).Perm
        (Command.awaited (Text.lines text))) ∧
    (s.IsOver → ∃ answered, List.Forall₂ Command.Answers answered s.output ∧
      answered.Perm (Command.awaited (Text.lines text))) ∧
    Text.lines (Text.unlines s.output) = s.output ∧
    (∃ s', ReflTransGen (Work host) s s' ∧ s'.lines = [] ∧ ∀ t ∈ s'.tasks, t.IsEndless) ∧
    (s.Parted → ∃ s', ReflTransGen (Work host) s s' ∧ s'.IsOver) := by
  have hs := (kept_start host a text).run h
  exact ⟨hs.commands, hs.over, hs.lines_output fun _ => Text.not_mem_of_mem_lines,
    hs.brought_to_end, hs.over_of_parted⟩

/-- A request that asks for a template is answered after one query. -/
theorem work_has (before after : List Task) {id path : Text} {words : List UInt32}
    (h : s.tasks = before ++ ⟨.has id path, words, []⟩ :: after) :
    ReflTransGen (Work host) s { s with
      tasks := before ++ after
      output := s.output ++ [Command.reply id (Value.boolText
        (s.around.cache.has (Engine.keyFor path s.around.options.ext)))] } := by
  let t : Task := ⟨.has id path, words, []⟩
  have hstart : ¬t.IsEndless := by
    rintro ⟨event, hevent, -⟩
    cases hevent
  have hend : ¬(t.answered .options s.around.options).IsEndless := by
    rintro ⟨event, hevent, root, name, source, rfl, -⟩
    cases hevent
  refine .head (.proceed h hstart (q := .options) rfl) (.single ?_)
  exact .finish rfl hend rfl

theorem work_read {line : Text} {more : List Text} {c : Option Command} (h : s.lines = line :: more)
    (hc : Command.ofLine? line = c) : Work host s ({ s with lines := more }.receive [] c) :=
  hc ▸ .read [] h

/-- Two requests that are answered in the opposite order, and a ping that overtakes both. -/
theorem answered_once_overtaken :
    let host : Options → Host := fun _ => ⟨[], .none, none, [], 1⟩
    let a : Around := ⟨fun _ name => .error (.notFound name), [], .off⟩
    let text := Text.unlines ["has:1:a".toList, "has:2:b".toList, "ping".toList, "stop".toList,
      "has:3:c".toList]
    let s : Session := ⟨[], a, [], ["pong".toList, "2:false".toList, "1:false".toList]⟩
    ReflTransGen (Step host) (start a text) s ∧ s.IsOver ∧
      ∃ answered, List.Forall₂ Command.Answers answered s.output ∧
        answered.Perm (Command.awaited (Text.lines text)) := by
  intro host a text s
  let first : Command := .has "1".toList "a".toList
  let second : Command := .has "2".toList "b".toList
  have hlines : start a text = ⟨["has:1:a".toList, "has:2:b".toList, "ping".toList, "stop".toList,
      "has:3:c".toList], a, [], []⟩ := by
    rw [start, Text.lines_unlines (by decide) (by decide)]
  have hrun : ReflTransGen (Work host) (start a text) s := by
    rw [hlines]
    refine .head (work_read (c := some first) rfl (by decide)) ?_
    refine .head (work_read (c := some second) rfl (by decide)) ?_
    refine .head (work_read (c := some .ping) rfl (by decide)) ?_
    refine (work_has [⟨first, [], []⟩] [] rfl).trans ?_
    refine (work_has [] [] rfl).trans ?_
    exact .single (work_read (c := some .stop) rfl (by decide))
  have hsteps := ReflTransGen.mono (fun _ _ h => Step.work h) _ _ hrun
  exact ⟨hsteps, ⟨rfl, rfl⟩, (answered_once hsteps).2.1 ⟨rfl, rfl⟩⟩

end Session

end Stencil
