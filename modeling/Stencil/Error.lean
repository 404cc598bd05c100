import Stencil.Codec.Payload

namespace Stencil

/-- The reasons for which a request fails. -/
inductive Error where
  | notFound (path : Text)
  | pathLeak (name : Text)
  | missingRoot
  | unreadable
  | badData
  | badPayload (stage : Payload.Stage)
  | reservedFunction (name : Text)
  /-- A call was stopped while it had a cache locked. -/
  | brokenLock
  /-- The template of a source that is compiled without end. -/
  | unclosedReference
deriving Repr, DecidableEq

namespace Error

def stageMessage : Payload.Stage → Text
  | .base64 => "invalid base64".toList
  | .gzip => "invalid gzip".toList
  | .utf8 => "invalid utf-8".toList

def message : Error → Text
  | notFound path => "Template not found: ".toList ++ path
  | pathLeak name => "Path escapes template root: ".toList ++ name
  | missingRoot => "Template root is not configured".toList
  | unreadable => "Template cannot be read".toList
  | badData => "Data are no JSON text".toList
  | badPayload stage => stageMessage stage
  | reservedFunction name => "Function name is reserved: ".toList ++ name
  | brokenLock => "Cache error: Failed to acquire cache lock".toList
  | unclosedReference => "A condition has a reference without end".toList

/-- Does a failure say that there is no such template? -/
def isNotFound : Error → Bool
  | notFound _ | pathLeak _ => true
  | _ => false

end Error

end Stencil
