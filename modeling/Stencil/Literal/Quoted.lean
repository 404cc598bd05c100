import Stencil.Text.Basic

namespace Stencil

/-- A quoted literal: what stands between its quotes, and the quote. -/
structure Quoted where
  body : Text
  quote : Char
deriving Repr, DecidableEq, Inhabited

namespace Quoted

/-- Resolves backslashes: `\n` and `\t` are a line feed and a tab, any other character stands for
itself, and so does a backslash at the end. -/
def unescape : Text → Text
  | [] => []
  | ['\\'] => ['\\']
  | '\\' :: c :: s => (if c = 'n' then '\n' else if c = 't' then '\t' else c) :: unescape s
  | c :: s => c :: unescape s

def value (q : Quoted) : Text := unescape q.body

def written (q : Quoted) : Text := q.quote :: q.body ++ [q.quote]

/-- Reads a body up to its closing quote, which no backslash stands before: the body, and what
follows the closing quote. -/
def closing? (quote : Char) : Text → Option (Text × Text)
  | [] => none
  | ['\\'] => none
  | '\\' :: c :: s => (closing? quote s).map fun (body, rest) => ('\\' :: c :: body, rest)
  | c :: s =>
    if c = quote then some ([], s)
    else (closing? quote s).map fun (body, rest) => (c :: body, rest)

theorem eq_of_closing? {quote : Char} {s body rest : Text}
    (h : closing? quote s = some (body, rest)) : s = body ++ quote :: rest := by
  fun_induction closing? quote s generalizing body rest with
  | case1 => simp at h
  | case2 => simp at h
  | case3 c s ih =>
    obtain ⟨⟨b, r⟩, hb, he⟩ := Option.map_eq_some_iff.mp h
    cases he
    simp [ih hb]
  | case4 s => simp_all
  | case5 c s _ _ hc ih =>
    obtain ⟨⟨b, r⟩, hb, he⟩ := Option.map_eq_some_iff.mp h
    cases he
    simp [ih hb]

end Quoted

end Stencil
