import Stencil.Proofs.Session

namespace Stencil

open Relation

namespace Around

variable (e : Engine)

theorem alike_page (payload path : Text) :
    (unchanged e).Alike (Command.page e payload path) (Live.page e.host payload path) := by
  unfold Command.page Live.page
  cases Command.dataOf payload with
  | error err => exact .pure _
  | ok data => exact (alike_compile e path _).bind fun out => .pure _

/-- Where nobody else changes anything, a command is answered as by the engine. -/
theorem execute_eq (c : Command) (w : World Cache) :
    (Live.execute e.host c (world e w)).1 (c.execute e w).2.source = (c.execute e w).1 ∧
      (Live.execute e.host c (world e w)).2 = world e (c.execute e w).2 := by
  cases c with
  | precompile id path =>
    have h := eq_of_alike (alike_precompile e path) w
    rcases hmade : e.precompile path w with ⟨made, w'⟩
    rw [hmade] at h
    simp only [Live.execute, Command.execute, bind, StateT.bind, h, hmade]
    cases made with
    | error err => exact ⟨rfl, rfl⟩
    | ok template => exact ⟨rfl, rfl⟩
  | compile id payload path =>
    have h := eq_of_alike (alike_page e payload path) w
    rcases hpage : Command.page e payload path w with ⟨page, w'⟩
    rw [hpage] at h
    simp only [Live.execute, Command.execute, bind, StateT.bind, h, hpage]
    cases page with
    | error err => exact ⟨rfl, rfl⟩
    | ok out => exact ⟨rfl, rfl⟩
  | _ => exact ⟨rfl, rfl⟩

end Around

/-- A task that has asked nothing yet, and the same in what is around. -/
def Resumed.fresh : Coupling (World Resumed) (World Around) where
  inStep s t := s.words = t.words ∧ s.source.left = [] ∧ s.source.around = t.source
  lost _ _ := False

namespace Task

theorem resumed_start (host : Options → Host) (c : Command) (words : List UInt32) (a : Around) :
    ((⟨c, words, []⟩ : Task).resumed host a).1 = (Live.execute host c ⟨a, words⟩).1 ∧
      ((⟨c, words, []⟩ : Task).resumed host a).2.source.around =
        (Live.execute host c ⟨a, words⟩).2.source := by
  have hask : ∀ q, Resumed.fresh.Alike (Live.ask q) (Live.ask q) := by
    refine fun q => ⟨nofun, nofun, ?_⟩
    rintro ⟨⟨left, made, around⟩, words⟩ ⟨source, words'⟩ ⟨rfl, rfl, rfl⟩
    exact .inr ⟨rfl, rfl, rfl, rfl⟩
  have halike : Resumed.fresh.Alike (Live.execute host c) (Live.execute host c) :=
    Live.alike_execute hask (World.alike_draw (c := Resumed.fresh) (fun _ _ h => h.1)
      (fun _ _ _ h => ⟨rfl, h.2⟩) (fun _ _ _ h => h) fun _ _ _ h => h) c
  obtain ⟨hanswer, -, -, haround⟩ :=
    (halike.step ⟨⟨[], [], a⟩, words⟩ ⟨a, words⟩ ⟨rfl, rfl, rfl⟩).resolve_left id
  exact ⟨hanswer, haround⟩

end Task

namespace Server

/-- What is around the requests of a server. -/
def around (server : Server) : Around :=
  ⟨server.engine.sources, server.engine.store, server.world.source⟩

/-- No source of a server is compiled without end. -/
def IsFinite (server : Server) : Prop :=
  ∀ root name source, server.engine.sources root name = .ok source → ¬Engine.Endless source.text

variable {server : Server}

theorem session_cons {line : Text} {c : Command} (h : Command.ofLine? line = some c)
    (hc : c ≠ .stop) (more : List Text) : (server.session (line :: more)).1 =
      (server.answer c).1.toList ++ ((server.answer c).2.session more).1 := by
  rw [session, h]
  cases c with
  | stop => exact absurd rfl hc
  | _ => rfl

theorem answer_request {c : Command} (h : c.isRequest) :
    server.answer c = ((c.execute server.engine server.world).1,
      ⟨server.engine, (c.execute server.engine server.world).2⟩) := by
  cases c with
  | ping => cases h
  | stop => cases h
  | set => cases h
  | _ => rfl

/-- What a server does for a command changes neither its sources nor what its host has given it. -/
theorem engine_answer (server : Server) (c : Command) :
    (server.answer c).2.engine.sources = server.engine.sources ∧
      (server.answer c).2.engine.host = server.engine.host := by
  cases c <;> exact ⟨rfl, rfl⟩

/-- A request that is answered at once is answered as by the server. -/
theorem run_request (hfinite : server.IsFinite) {c : Command} (hc : c.isRequest)
    (more output : List Text) : ReflTransGen (Session.Work server.engine.host)
      ⟨more, server.around, [⟨c, server.world.words, []⟩], output⟩
      ⟨more, (server.answer c).2.around, [], output ++ (server.answer c).1.toList⟩ := by
  have hanswer : server.answer c = _ := answer_request hc
  obtain ⟨hout, hworld⟩ := Around.execute_eq server.engine c server.world
  obtain ⟨hresumed, haround⟩ :=
    Task.resumed_start server.engine.host c server.world.words server.around
  have hafter : (Live.execute server.engine.host c ⟨server.around, server.world.words⟩).2.source =
      (server.answer c).2.around := by
    rw [hanswer]
    exact congrArg World.source hworld
  have hagain := Task.again_start server.engine.host c server.world.words
  let s : Session := ⟨more, server.around, [⟨c, server.world.words, []⟩], output⟩
  rcases Session.carried_out (s := s) (List.nil_append _).symm hagain with hrun | ⟨hend, -⟩
  · rw [hresumed, haround, hafter, hanswer] at hrun
    rw [hanswer, ← hout]
    exact hrun
  · rcases hend with ⟨event, hevent, -⟩ | ⟨root, name, source, hsource, hend⟩
    · cases hevent
    · exact absurd hend (hfinite root name source hsource)

/-- A line is read, and its command is answered at once. -/
theorem run_line (hfinite : server.IsFinite) {line : Text} {c : Command}
    (h : Command.ofLine? line = some c) (hc : c ≠ .stop) (more output : List Text) :
    ReflTransGen (Session.Work server.engine.host) ⟨line :: more, server.around, [], output⟩
      ⟨more, (server.answer c).2.around, [], output ++ (server.answer c).1.toList⟩ := by
  have hread : Session.Work server.engine.host ⟨line :: more, server.around, [], output⟩
      ((⟨more, server.around, [], output⟩ : Session).receive server.world.words (some c)) :=
    h ▸ .read server.world.words rfl
  cases c with
  | stop => exact absurd rfl hc
  | ping => exact .single hread
  | set key value =>
    rw [answer, Option.toList_none, List.append_nil]
    exact .single hread
  | precompile id path => exact .head hread (run_request hfinite rfl more output)
  | has id path => exact .head hread (run_request hfinite rfl more output)
  | compile id payload path => exact .head hread (run_request hfinite rfl more output)

/-- The session of a server is one in which every request is answered before the next line is
read. -/
theorem exists_session (hfinite : server.IsFinite) (lines output : List Text) :
    ∃ s, ReflTransGen (Session.Work server.engine.host) ⟨lines, server.around, [], output⟩ s ∧
      s.IsOver ∧ s.output = output ++ (server.session lines).1 := by
  induction lines generalizing server output with
  | nil => exact ⟨_, .refl, ⟨rfl, rfl⟩, (List.append_nil output).symm⟩
  | cons line more ih =>
    cases hc : Command.ofLine? line with
    | none =>
      have hread : Session.Work server.engine.host ⟨line :: more, server.around, [], output⟩
          ⟨more, server.around, [], output⟩ := Session.work_read rfl hc
      obtain ⟨s, hrun, hover, hs⟩ := ih hfinite output
      refine ⟨s, .head hread hrun, hover, ?_⟩
      rw [hs, session, hc]
    | some c =>
      by_cases hstop : c = .stop
      · subst hstop
        have hread : Session.Work server.engine.host ⟨line :: more, server.around, [], output⟩
            ⟨[], server.around, [], output⟩ := Session.work_read rfl hc
        refine ⟨_, .single hread, ⟨rfl, rfl⟩, ?_⟩
        rw [session, hc]
        exact (List.append_nil output).symm
      · obtain ⟨hsources, hhost⟩ := server.engine_answer c
        have hfinite' : (server.answer c).2.IsFinite := by
          rw [IsFinite, hsources]
          exact hfinite
        obtain ⟨s, hrun, hover, hs⟩ := ih hfinite' (output ++ (server.answer c).1.toList)
        rw [hhost] at hrun
        refine ⟨s, (run_line hfinite hc hstop more output).trans hrun, hover, ?_⟩
        rw [hs, session_cons hc hstop, List.append_assoc]

/-- In the session of a server every command that is awaited is answered once. -/
theorem session_answered (hfinite : server.IsFinite) (text : Text) :
    ∃ answered, List.Forall₂ Command.Answers answered (server.session (Text.lines text)).1 ∧
      answered.Perm (Command.awaited (Text.lines text)) := by
  obtain ⟨s, hrun, hover, hs⟩ := exists_session hfinite (Text.lines text) []
  have hkept := (Session.kept_start server.engine.host server.around text).run
    (ReflTransGen.mono (fun _ _ h => Session.Step.work h) _ _ hrun)
  rw [← List.nil_append (server.session (Text.lines text)).1, ← hs]
  exact hkept.over hover

end Server

end Stencil
