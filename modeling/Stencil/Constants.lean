import Stencil.Value.Basic

namespace Stencil.Constants

def shared (scope : Scope) : Scope :=
  match Dictionary.get? scope "const".toList with
  | some (.map entries) => entries
  | _ => []

def dollar (scope : Scope) : Scope := scope.filter fun e => e.1.head? = some '$'

/-- The constant data of a request: what stands under the name `const`, and all names with a dollar
sign. Templates can be folded against them before the request itself is known. -/
def ofScope (scope : Scope) : Scope :=
  Dictionary.insertAll (Dictionary.ofList (shared scope)) (dollar scope)

/-- A scope in which the entries under `const` have names of their own. -/
def expose (scope : Scope) : Scope := Dictionary.insertAll scope (shared scope)

end Stencil.Constants
