import Stencil.Engine
import Stencil.Json.Reader

namespace Stencil

/-- A command. Those that are answered with more than a word carry an identifier, which comes back
in the answer. -/
inductive Command where
  | ping
  | stop
  | set (key value : Text)
  | precompile (id path : Text)
  | has (id path : Text)
  | compile (id payload path : Text)
deriving Repr, DecidableEq

namespace Command

/-- Cuts a text at the first colon. -/
def cutColon? (s : Text) : Option (Text × Text) := Text.cut? [':'] s

def idAndPath? (s : Text) : Option (Text × Text) :=
  (cutColon? s).filter fun (id, path) => !id.isEmpty && !path.isEmpty

def setting? (s : Text) : Option Command :=
  (Text.cut? ['='] s).bind fun (key, value) =>
    if (Text.trim key).isEmpty then none else some (set (Text.trim key) (Text.trim value))

/-- Reads a request for a page. The data may be empty, and the path may have colons. -/
def page? (s : Text) : Option Command := do
  let (id, rest) ← cutColon? s
  let (payload, path) ← cutColon? rest
  if id.isEmpty || path.isEmpty then none else some (compile id payload path)

def ofLine? (line : Text) : Option Command :=
  let line := Text.trim line
  if line = "ping".toList then some ping
  else if line = "stop".toList ∨ line = "exit".toList then some stop
  else
    match Text.strip? "set:".toList line with
    | some rest => setting? rest
    | none =>
      match Text.strip? "pre:".toList line with
      | some rest => (idAndPath? rest).map fun (id, path) => precompile id path
      | none =>
        match Text.strip? "has:".toList line with
        | some rest => (idAndPath? rest).map fun (id, path) => has id path
        | none => page? line

def id? : Command → Option Text
  | precompile id _ | has id _ | compile id _ _ => some id
  | _ => none

/-- The data in a payload: a JSON text. A blank payload is an empty object. -/
def dataOf (payload : Text) : Except Error Value :=
  if (Text.trim payload).isEmpty then .ok (.map [])
  else
    match Payload.toText payload with
    | .error stage => .error (.badPayload stage)
    | .ok text =>
      match Json.read? text with
      | some v => .ok v
      | none => .error .badData

def page (e : Engine) (payload path : Text) : Engine.Action (Except Error Text) := do
  match dataOf payload with
  | .error err => return .error err
  | .ok data => return (← e.compile path (Json.scopeOf data)).map Payload.ofText

def reply (id answer : Text) : Text := id ++ [':'] ++ answer

/-- The answer to a command, if it is one that an engine answers. -/
def execute (e : Engine) : Command → Engine.Action (Option Text)
  | precompile id path => do
    match ← e.precompile path with
    | .ok _ => return some (reply id "success".toList)
    | .error _ => return some (reply id "error".toList)
  | has id path => do
    let found := e.has path (← get).source
    return some (reply id (Value.boolText found))
  | compile id payload path => do
    match ← page e payload path with
    | .ok out => return some (reply id out)
    | .error _ => return some (reply id "error".toList)
  | ping | stop | set _ _ => return none

end Command

end Stencil
