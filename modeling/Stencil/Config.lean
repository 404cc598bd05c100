import Stencil.Toml.Reader

namespace Stencil

/-- The configuration of an engine. -/
structure EngineConfig where
  root : Option Text
  components : Option Text
  ext : Option Text
  template : Option Text
  keepMs : Option Nat
  capacity : Nat
  markdown : Bool
deriving Repr, DecidableEq

/-- The configuration of a server: how many MiB of memory have to be free, and for how many
milliseconds changes of files are gathered. -/
structure ServerConfig where
  memoryFloorMb : Nat
  debounceMs : Nat
deriving Repr, DecidableEq

/-- A configuration. What is not in the document has its default, and other keys do not count. -/
structure Config where
  engine : EngineConfig
  server : ServerConfig
deriving Repr, DecidableEq

namespace Config

/-- The number of templates that are kept, if none is given. -/
def defaultCapacity : Nat := 1024

/-- How an optional value is read: it may be absent, but not of another kind. -/
def optional {α : Type} (read : Toml → Option α) : Option Toml → Option (Option α)
  | none => some none
  | some v => (read v).map some

def string? : Toml → Option Text
  | .string s => some s
  | _ => none

/-- Reads a number that is not negative. -/
def number? : Toml → Option Nat
  | .integer i => if 0 ≤ i then some i.toNat else none
  | _ => none

def boolean? : Toml → Option Bool
  | .boolean b => some b
  | _ => none

end Config

namespace EngineConfig

def default : EngineConfig := ⟨none, none, none, none, none, Config.defaultCapacity, false⟩

def ofFields? (root components ext template keep capacity markdown : Option Toml) :
    Option EngineConfig := do
  return {
    root := ← Config.optional Config.string? root
    components := ← Config.optional Config.string? components
    ext := ← Config.optional Config.string? ext
    template := ← Config.optional Config.string? template
    keepMs := ← Config.optional Config.number? keep
    capacity := (← Config.optional Config.number? capacity).getD Config.defaultCapacity
    markdown := (← Config.optional Config.boolean? markdown).getD false }

/-- Reads a table, or an array with the values in order, of which the last two may be absent. A date
has none of the fields. -/
def ofToml? : Toml → Option EngineConfig
  | .table _ es =>
    let get (key : String) : Option Toml := Toml.Entries.get? es key.toList
    ofFields? (get "root") (get "components") (get "ext") (get "template") (get "cache")
      (get "capacity") (get "markdown")
  | .array items =>
    if items.length < 5 then none
    else ofFields? items[0]? items[1]? items[2]? items[3]? items[4]? items[5]? items[6]?
  | .date => some default
  | _ => none

/-- The options that it sets, in the order in which they are set. -/
def options (c : EngineConfig) : List (Text × Text) :=
  let given (key : String) (value : Option Text) : List (Text × Text) :=
    (value.map fun v => (key.toList, v)).toList
  given "components" c.components ++ given "ext" c.ext ++ given "template" c.template ++
    given "cache" (c.keepMs.map Text.ofNat) ++
    given "markdown" (if c.markdown then some "true".toList else none) ++ given "root" c.root

end EngineConfig

namespace ServerConfig

def default : ServerConfig := ⟨10, 100⟩

def ofFields? (memoryFloor debounce : Option Toml) : Option ServerConfig := do
  return {
    memoryFloorMb := (← Config.optional Config.number? memoryFloor).getD default.memoryFloorMb
    debounceMs := (← Config.optional Config.number? debounce).getD default.debounceMs }

/-- Reads a table, or an array with the values in order. A date has none of the fields. -/
def ofToml? : Toml → Option ServerConfig
  | .table _ es =>
    ofFields? (Toml.Entries.get? es "memory_floor_mb".toList)
      (Toml.Entries.get? es "debounce_ms".toList)
  | .array items => ofFields? items[0]? items[1]?
  | .date => some default
  | _ => none

end ServerConfig

namespace Config

/-- The configuration if nothing is said. -/
def default : Config := ⟨.default, .default⟩

def ofText? (s : Text) : Option Config := do
  let es ← Toml.read? s
  let engine ← optional EngineConfig.ofToml? (es.get? "engine".toList)
  let server ← optional ServerConfig.ofToml? (es.get? "server".toList)
  return ⟨engine.getD .default, server.getD .default⟩

end Config

end Stencil
