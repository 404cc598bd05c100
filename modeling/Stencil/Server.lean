import Stencil.Command

namespace Stencil

/-- A server: an engine, and what it keeps from one request to the next. -/
structure Server where
  engine : Engine
  world : World Cache

namespace Server

def setOption (s : Server) (key value : Text) : Server :=
  let (engine, source) := s.engine.setOption key value s.world.source
  { s with engine, world := { s.world with source } }

/-- What a server does for a command: its answer, if there is one. -/
def answer (s : Server) : Command → Option Text × Server
  | .ping => (some "pong".toList, s)
  | .stop => (none, s)
  | .set key value => (none, s.setOption key value)
  | command =>
    let (out, world) := (command.execute s.engine).run s.world
    (out, { s with world })

def session (s : Server) : List Text → List Text × Server
  | [] => ([], s)
  | line :: more =>
    match Command.ofLine? line with
    | none => s.session more
    | some .stop => ([], s)
    | some command =>
      let (out, s) := s.answer command
      let (outs, s) := s.session more
      (out.toList ++ outs, s)

end Server

end Stencil
