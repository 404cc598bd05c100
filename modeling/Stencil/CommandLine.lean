import Stencil.Text.Basic

namespace Stencil

/-- The arguments: whether the files of assets are on the site itself, the file of the
configuration, and the directory of the templates. -/
structure CommandLine where
  debug : Bool
  config : Option Text
  root : Option Text
deriving Repr, DecidableEq

namespace CommandLine

def usage : Text :=
  "Usage: stencil [--debug] [--config FILE] [--root DIRECTORY] [--log-level LEVEL]".toList

/-- Gives an argument that takes a value this value. The level of the log is accepted, and there is
no log. -/
def assign? (c : CommandLine) (flag value : Text) : Option CommandLine :=
  if flag = "--config".toList then some { c with config := some value }
  else if flag = "--root".toList then some { c with root := some value }
  else if flag = "--log-level".toList then some c
  else none

/-- Reads arguments. A value is the next argument, or follows after an equals sign. -/
def read? (c : CommandLine) : List Text → Option CommandLine
  | [] => some c
  | flag :: rest =>
    if flag = "--debug".toList then read? { c with debug := true } rest
    else
      match Text.cut? ['='] flag, rest with
      | some (flag, value), rest => (c.assign? flag value).bind fun c => read? c rest
      | none, value :: rest => (c.assign? flag value).bind fun c => read? c rest
      | none, [] => none

def ofArgs? (args : List Text) : Option CommandLine := read? ⟨false, none, none⟩ args

end CommandLine

end Stencil
