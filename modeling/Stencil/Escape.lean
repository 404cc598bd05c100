import Stencil.Text.Basic

namespace Stencil.Escape

/-- Escapes a value for running text. An ampersand that already starts `&amp;` stays as it is. -/
def runningText : Text → Text
  | [] => []
  | '<' :: s => "&lt;".toList ++ runningText s
  | '>' :: s => "&gt;".toList ++ runningText s
  | '&' :: s => (if "amp;".toList.isPrefixOf s then ['&'] else "&amp;".toList) ++ runningText s
  | c :: s => c :: runningText s

def attributeChar (c : Char) : Text :=
  match c with
  | '<' => "&lt;".toList
  | '>' => "&gt;".toList
  | '&' => "&amp;".toList
  | '"' => "&quot;".toList
  | '\'' => "&#39;".toList
  | _ => [c]

def attributeValue (s : Text) : Text := s.flatMap attributeChar

end Stencil.Escape
