import Stencil.Markdown.Inline

namespace Stencil.Markdown

/-- The kinds of lists. -/
inductive ListKind where
  | unordered
  | ordered
  | reversed
deriving Repr, DecidableEq

namespace ListKind

def openTag : ListKind → Text
  | unordered => "<ul>".toList
  | ordered => "<ol>".toList
  | reversed => "<ol reversed>".toList

def closeTag : ListKind → Text
  | unordered => "</ul>".toList
  | ordered | reversed => "</ol>".toList

/-- Are two lists both with numbers, or both without? -/
def sameFamily (a b : ListKind) : Bool := (a == unordered) == (b == unordered)

end ListKind

/-- What is open between lines: the lists, innermost first, each with its indent, and a quote. -/
structure Open where
  lists : List (Nat × ListKind)
  quote : Bool
deriving Repr, DecidableEq

namespace Open

def nothing : Open := ⟨[], false⟩

def closeTags (lists : List (Nat × ListKind)) : Text := lists.flatMap fun l => l.2.closeTag

def closeLists (o : Open) : Text × Open := (closeTags o.lists, { o with lists := [] })

/-- Closes the quote, if one is open. -/
def closeQuote (o : Open) : Text × Open :=
  (if o.quote then "</blockquote>".toList else [], { o with quote := false })

end Open

/-- The mark of a list item: the kind of its list, and its number. -/
structure ItemMark where
  kind : ListKind
  number : Option Nat
deriving Repr, DecidableEq

/-- Reads the mark of a list item at the start of a line, and gives the rest. -/
def itemMark? (line : Text) : Option (ItemMark × Text) :=
  match line with
  | [] => none
  | c :: rest =>
    if c == '-' || c == '*' || c == '~' then
      (Text.strip? [' '] rest).map fun rest => (⟨.unordered, none⟩, rest)
    else if c.isDigit then
      (Text.strip? ['.', ' '] (line.dropWhile Char.isDigit)).map fun rest =>
        (⟨.ordered, Text.toIndex? (line.takeWhile Char.isDigit)⟩, rest)
    else none

def isIndent (c : Char) : Bool := c == ' ' || c == '\t'

/-- The width of blanks before a line; a tab is as wide as four spaces. -/
def indentWidth (blanks : Text) : Nat :=
  blanks.foldl (fun n c => if c = '\t' then n + 4 else n + 1) 0

def isRule (line : Text) : Bool :=
  let line := Text.trimEnd line
  ['-', '-', '-'].isPrefixOf line && line.all fun c => c == '-' || c == ' '

/-- The first line of a text. -/
def firstLine (s : Text) : Text := s.takeWhile (· != '\n')

/-- The number of the next item of a list at an indent, in the lines that follow. -/
def siblingNumber? (indent : Nat) : List Text → Option Nat
  | [] => none
  | line :: lines =>
    if (Text.trim line).isEmpty then none
    else
      let width := indentWidth (line.takeWhile isIndent)
      if indent < width then siblingNumber? indent lines
      else if width < indent then none
      else
        match itemMark? (line.dropWhile isIndent) with
        | some (⟨.ordered, n⟩, _) => n
        | _ => none

/-- The kind of a list by its first item and the lines after it. It counts down if the next number
is lower. -/
def listKind (indent : Nat) (mark : ItemMark) (lines : List Text) : ListKind :=
  match mark with
  | ⟨.ordered, some n⟩ =>
    match siblingNumber? indent lines with
    | some next => if next < n then .reversed else .ordered
    | none => .ordered
  | ⟨kind, _⟩ => kind

/-- Closes the lists that an item does not belong to, and opens a list if it belongs to none. -/
def openItem (indent : Nat) (mark : ItemMark) (lines : List Text) (o : Open) : Text × Open :=
  let deeper := o.lists.takeWhile fun l => indent < l.1
  let others := o.lists.dropWhile fun l => indent < l.1
  let opened (closed : List (Nat × ListKind)) (lists : List (Nat × ListKind)) : Text × Open :=
    let kind := listKind indent mark lines
    (Open.closeTags closed ++ kind.openTag, { o with lists := (indent, kind) :: lists })
  match others with
  | [] => opened deeper []
  | (top, current) :: outer =>
    if top ≠ indent then opened deeper others
    else if current.sameFamily mark.kind then (Open.closeTags deeper, { o with lists := others })
    else opened (deeper ++ [(top, current)]) outer

def afterLine (s : Text) : Text := (Text.strip? ['\n'] s).getD s

/-- The line feed at the start of a text, if it has one. -/
def lineEnd (s : Text) : Text := if s.head? = some '\n' then ['\n'] else []

/-- Renders a line that holds running markup between two texts, and gives the rest of the text. -/
def runningLine (opening closing : Text) (s : Text) : Text × Text :=
  let (content, rest) := Inline.read true .other s
  (opening ++ Inline.htmlAll content ++ closing, rest)

def afterSpace (s : Text) : Text := (Text.strip? [' '] s).getD s

/-- Renders a line that is neither blank nor a rule, from the blanks before it. -/
def contentLine (blanks : Text) (indent : Nat) (o : Open) (s : Text) : Text × Open × Text :=
  let line := firstLine s
  let level := (line.takeWhile (· == '#')).length
  if 1 ≤ level ∧ level ≤ 6 then
    let (closing, o) := o.closeLists
    let tag := ['h'] ++ Text.ofNat level ++ ['>']
    let (text, rest) := runningLine (['<'] ++ tag) (['<', '/'] ++ tag) (afterSpace (s.drop level))
    (closing ++ text ++ lineEnd rest, o, afterLine rest)
  else
    match itemMark? line with
    | some (mark, content) =>
      let (opening, o) := openItem indent mark (Text.splitOn ['\n'] s).tail o
      let (text, rest) := runningLine "<li>".toList "</li>".toList
        (s.drop (line.length - content.length))
      (opening ++ text, o, afterLine rest)
    | none =>
      let (closing, o) := o.closeLists
      let (text, rest) := runningLine blanks [] s
      (closing ++ text ++ lineEnd rest, o, afterLine rest)

/-- Renders the first line of a text, given what is open before it. Gives what is open after it and
the rest of the text. -/
def line (o : Open) (s : Text) : Text × Open × Text :=
  let blanks := s.takeWhile isIndent
  let s := s.dropWhile isIndent
  if (Text.trim (firstLine s)).isEmpty then
    let (lists, o) := o.closeLists
    let (quote, o) := o.closeQuote
    let rest := s.dropWhile (· != '\n')
    (lists ++ quote ++ lineEnd rest, o, afterLine rest)
  else
    let quoted := s.head? = some '>'
    let (start, o) :=
      if quoted then (if o.quote then [] else "<blockquote>".toList, { o with quote := true })
      else o.closeQuote
    let indent := if quoted then 0 else indentWidth blanks
    let s := if quoted then afterSpace s.tail else s
    if isRule (firstLine s) then
      let (closing, o) := o.closeLists
      let rest := s.dropWhile (· != '\n')
      (start ++ closing ++ "<hr/>".toList ++ lineEnd rest, o, afterLine rest)
    else
      let (text, o, rest) := contentLine blanks indent o s
      (start ++ text, o, rest)

theorem length_afterLine_le (s : Text) : (afterLine s).length ≤ s.length := by
  unfold afterLine
  cases h : Text.strip? ['\n'] s with
  | none => simp
  | some rest => simp [Text.strip?_eq_some_iff.mp h]

theorem length_afterSpace_le (s : Text) : (afterSpace s).length ≤ s.length := by
  unfold afterSpace
  cases h : Text.strip? [' '] s with
  | none => simp
  | some rest => simp [Text.strip?_eq_some_iff.mp h]

theorem length_afterLine_dropWhile_lt {s : Text} (hs : s ≠ []) :
    (afterLine (s.dropWhile (· != '\n'))).length < s.length := by
  cases s with
  | nil => exact absurd rfl hs
  | cons c s =>
    have hd := Text.length_dropWhile_le (· != '\n') s
    by_cases hc : c = '\n'
    · subst hc
      simp [afterLine, Text.strip?]
    · have := length_afterLine_le (s.dropWhile (· != '\n'))
      simp only [List.dropWhile_cons, bne_iff_ne, ne_eq, hc, not_false_eq_true, ↓reduceIte,
        List.length_cons]
      omega

theorem length_of_itemMark? {line rest : Text} {mark : ItemMark}
    (h : itemMark? line = some (mark, rest)) : rest.length < line.length := by
  unfold itemMark? at h
  split at h
  next => simp at h
  next c s =>
    split at h
    · obtain ⟨r, hr, he⟩ := Option.map_eq_some_iff.mp h
      cases he
      have hl := congrArg List.length (Text.strip?_eq_some_iff.mp hr)
      simp only [List.length_append, List.length_cons, List.length_nil] at hl ⊢
      omega
    · split at h
      · obtain ⟨r, hr, he⟩ := Option.map_eq_some_iff.mp h
        cases he
        have hl := congrArg List.length (Text.strip?_eq_some_iff.mp hr)
        have := Text.length_dropWhile_le Char.isDigit (c :: s)
        simp only [List.length_append, List.length_cons, List.length_nil] at hl this ⊢
        omega
      · simp at h

theorem length_firstLine_le (s : Text) : (firstLine s).length ≤ s.length :=
  (List.takeWhile_sublist _).length_le

theorem length_contentLine_le (blanks : Text) (indent : Nat) (o : Open) (s : Text) :
    (contentLine blanks indent o s).2.2.length ≤ s.length := by
  unfold contentLine runningLine
  dsimp only
  split
  · exact Nat.le_trans (length_afterLine_le _) (Nat.le_trans (Inline.length_read_le ..)
      (Nat.le_trans (length_afterSpace_le _) (by simp)))
  · split
    · exact Nat.le_trans (length_afterLine_le _) (Nat.le_trans (Inline.length_read_le ..) (by simp))
    · exact Nat.le_trans (length_afterLine_le _) (Inline.length_read_le ..)

theorem length_contentLine_lt {blanks : Text} {indent : Nat} {o : Open} {c : Char} {s : Text}
    (hc : c ≠ '\n') : (contentLine blanks indent o (c :: s)).2.2.length < (c :: s).length := by
  unfold contentLine runningLine
  dsimp only
  split
  next hl =>
    refine Nat.lt_of_le_of_lt (Nat.le_trans (length_afterLine_le _)
      (Nat.le_trans (Inline.length_read_le ..) (length_afterSpace_le _))) ?_
    simp only [List.length_drop, List.length_cons]
    omega
  · split
    next mark content hm =>
      have h1 := length_of_itemMark? hm
      have h2 := length_firstLine_le (c :: s)
      refine Nat.lt_of_le_of_lt
        (Nat.le_trans (length_afterLine_le _) (Inline.length_read_le ..)) ?_
      simp only [List.length_drop, List.length_cons] at h2 ⊢
      omega
    · exact Nat.lt_of_le_of_lt (length_afterLine_le _) (Inline.length_read_lt hc)

theorem head_of_firstLine_ne_nil {s : Text} (h : (Text.trim (firstLine s)).isEmpty ≠ true) :
    ∃ c t, s = c :: t ∧ c ≠ '\n' := by
  cases s with
  | nil => exact absurd rfl h
  | cons c t =>
    refine ⟨c, t, rfl, ?_⟩
    rintro rfl
    exact h rfl

theorem length_line_lt {o : Open} {s : Text} (hs : s ≠ []) : (line o s).2.2.length < s.length := by
  have hd := Text.length_dropWhile_le isIndent s
  have hp := List.length_pos_iff.mpr hs
  unfold line
  dsimp only
  split
  next =>
    by_cases hb : s.dropWhile isIndent = []
    · rw [hb]
      exact hp
    · exact Nat.lt_of_lt_of_le (length_afterLine_dropWhile_lt hb) hd
  next hne =>
    obtain ⟨c, t, he, hc⟩ := head_of_firstLine_ne_nil hne
    rw [he] at hd ⊢
    refine Nat.lt_of_lt_of_le ?_ hd
    by_cases hq : c = '>'
    · have ht := length_afterSpace_le t
      simp only [hq, List.head?_cons, ↓reduceIte, List.tail_cons, List.length_cons]
      split
      · have h1 := length_afterLine_le ((afterSpace t).dropWhile (· != '\n'))
        have h2 := Text.length_dropWhile_le (· != '\n') (afterSpace t)
        dsimp only
        omega
      · have := length_contentLine_le (s.takeWhile isIndent) 0 { o with quote := true }
          (afterSpace t)
        exact Nat.lt_of_le_of_lt this (by omega)
    · simp only [List.head?_cons, Option.some.injEq, hq, ↓reduceIte]
      split
      · exact length_afterLine_dropWhile_lt (by simp)
      · exact length_contentLine_lt hc

/-- Renders lines, given what is open before them, and closes what is open after them. -/
def lines (o : Open) (s : Text) : Text :=
  if _hs : s = [] then o.closeLists.1 ++ o.closeQuote.1
  else (line o s).1 ++ lines (line o s).2.1 (line o s).2.2
termination_by s.length
decreasing_by exact length_line_lt _hs

def render (s : Text) : Text := lines .nothing s

end Stencil.Markdown
