import Stencil.Literal.Quoted

namespace Stencil

/-- A part of a source. A comment or a literal that never ends is plain text. -/
inductive Segment where
  | plain (text : Text)
  | comment (text : Text)
  | quoted (literal : Quoted)
deriving Repr, DecidableEq

namespace Segment

def written : Segment → Text
  | plain text => text
  | comment text => text
  | quoted literal => literal.written

def literal? : Segment → Option Quoted
  | quoted literal => some literal
  | _ => none

def htmlOpening : Text := ['<', '!', '-', '-']
def htmlClosing : Text := ['-', '-', '>']
def blockOpening : Text := ['/', '*']
def blockClosing : Text := ['*', '/']

/-- Is there nothing but blanks on the line so far? The text before is given backwards. -/
def atLineStart (before : Text) : Bool :=
  (before.takeWhile fun c => c != '\n').all fun c => c == ' ' || c == '\t' || c == '\r'

def enclosed? (opening closing s : Text) : Option (Text × Text) := do
  let inner ← Text.strip? opening s
  let (inside, rest) ← Text.cut? closing inner
  return (opening ++ inside ++ closing, rest)

/-- The comment at the start of a text, and the rest. A comment that runs to the end of its line
must be the first thing on it. -/
def comment? (before s : Text) : Option (Text × Text) :=
  if htmlOpening.isPrefixOf s then enclosed? htmlOpening htmlClosing s
  else if blockOpening.isPrefixOf s then enclosed? blockOpening blockClosing s
  else if (['/', '/'].isPrefixOf s || ['#', '!'].isPrefixOf s) && atLineStart before then
    some (Text.spanUntil (· == '\n') s)
  else none

/-- Does a comment start here that has no end? -/
def neverCloses (s : Text) : Bool :=
  (htmlOpening.isPrefixOf s && (enclosed? htmlOpening htmlClosing s).isNone) ||
  (blockOpening.isPrefixOf s && (enclosed? blockOpening blockClosing s).isNone)

/-- Can this character open a literal? An apostrophe inside a word cannot. -/
def opensQuote (before : Text) (c : Char) : Bool :=
  c == '"' || c == '\x60' ||
    (c == '\'' && !(before.head?.any fun p => p.isAlpha || p.isDigit))

/-- The comment or literal at the start of a text, and the rest. -/
def lead? (before s : Text) : Option (Segment × Text) :=
  match comment? before s with
  | some (text, rest) => some (comment text, rest)
  | none =>
    match s with
    | [] => none
    | q :: inner =>
      if opensQuote before q then
        (Quoted.closing? q inner).map fun (body, rest) => (quoted ⟨body, q⟩, rest)
      else none

theorem eq_of_enclosed? {opening closing s text rest : Text}
    (h : enclosed? opening closing s = some (text, rest)) : s = text ++ rest := by
  simp only [enclosed?, Option.bind_eq_bind, Option.bind_eq_some_iff] at h
  obtain ⟨inner, hi, ⟨inside, r⟩, hc, he⟩ := h
  cases he
  simp [Text.strip?_eq_some_iff.mp hi, Text.eq_of_cut? hc]

theorem enclosed?_ne_nil {opening closing s text rest : Text} (ho : opening ≠ [])
    (h : enclosed? opening closing s = some (text, rest)) : text ≠ [] := by
  simp only [enclosed?, Option.bind_eq_bind, Option.bind_eq_some_iff] at h
  obtain ⟨inner, hi, ⟨inside, r⟩, hc, he⟩ := h
  cases he
  simp [ho]

theorem eq_of_comment? {before s text rest : Text}
    (h : comment? before s = some (text, rest)) : s = text ++ rest ∧ text ≠ [] := by
  unfold comment? at h
  split at h
  next => exact ⟨eq_of_enclosed? h, enclosed?_ne_nil (by simp [htmlOpening]) h⟩
  next =>
    split at h
    next => exact ⟨eq_of_enclosed? h, enclosed?_ne_nil (by simp [blockOpening]) h⟩
    next =>
      split at h
      next hs =>
        cases Option.some.inj h
        refine ⟨(List.takeWhile_append_dropWhile ..).symm, ?_⟩
        simp only [Bool.and_eq_true, Bool.or_eq_true, List.isPrefixOf_iff_prefix] at hs
        rcases hs.1 with ⟨t, rfl⟩ | ⟨t, rfl⟩ <;> simp
      next => simp at h

theorem eq_of_lead? {before s rest : Text} {seg : Segment}
    (h : lead? before s = some (seg, rest)) : s = seg.written ++ rest ∧ seg.written ≠ [] := by
  unfold lead? at h
  split at h
  next text r hc =>
    cases Option.some.inj h
    exact eq_of_comment? hc
  next =>
    split at h
    next => simp at h
    next q inner =>
      split at h
      next =>
        obtain ⟨⟨body, r⟩, hb, he⟩ := Option.map_eq_some_iff.mp h
        cases he
        simp [written, Quoted.written, Quoted.eq_of_closing? hb]
      next => simp at h

/-- The segments of a source, given backwards what of it stands before. -/
def segments (before : Text) : Text → List Segment
  | [] => []
  | c :: s =>
    if neverCloses (c :: s) then [plain (c :: s)]
    else
      match _h : lead? before (c :: s) with
      | some (seg, rest) => seg :: segments (seg.written.reverse ++ before) rest
      | none => plain [c] :: segments (c :: before) s
termination_by s => s.length
decreasing_by
  · have he := eq_of_lead? _h
    have hp := List.length_pos_iff.mpr he.2
    have hl := congrArg List.length he.1
    simp only [List.length_append] at hl
    omega
  · simp

theorem flatMap_written_segments (before s : Text) :
    (segments before s).flatMap written = s := by
  fun_induction segments before s with
  | case1 => rfl
  | case2 => simp [written]
  | case3 before c s _ seg rest h ih => simp [ih, (eq_of_lead? h).1]
  | case4 before c s _ _ ih => simp [written, ih]

end Segment

end Stencil
