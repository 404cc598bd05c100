import Stencil.Markdown.LinkAttributes
import Stencil.Markdown.Url
import Stencil.Text.Class

namespace Stencil.Markdown

/-- The styles of running text. -/
inductive Style where
  | emphasis
  | strong
  | both
  | underline
  | struck
  | deleted
  | inserted
deriving Repr, DecidableEq

/-- A token of running markup. -/
inductive Token where
  | text (t : Text)
  | code (body : Text)
  | fence (lang body : Text)
  | autolink (url : Text)
  | styled (style : Style) (inner : Text)
  | link (name url : Text) (attrs : LinkAttributes)
  | embed (name url : Text) (attrs : LinkAttributes)
deriving Repr, DecidableEq

def Token.inner? : Token → Option Text
  | styled _ inner => some inner
  | link name _ _ => some name
  | embed name _ _ => some name
  | _ => none

/-- What stands directly before a token, as far as the reading of the token depends on it: a letter
or digit, a deletion, or anything else. -/
inductive Context where
  | other
  | word
  | deletion
deriving Repr, DecidableEq

/-- A token, the context after it, and the rest of the text. -/
structure Step where
  token : Token
  after : Context
  rest : Text

def Step.text (t rest : Text) : Step := ⟨.text t, .other, rest⟩

def Step.plain (c : Char) (rest : Text) : Step :=
  ⟨.text [c], if isAsciiAlphanumeric c then .word else .other, rest⟩

/-- Cuts a text at a pattern in its first line. -/
def cutInLine? (pat s : Text) : Option (Text × Text) :=
  (Text.cut? pat s).filter fun r => !r.1.contains '\n'

/-- The punctuation characters of ASCII. -/
def isAsciiPunctuation (c : Char) : Bool :=
  33 ≤ c.toNat && c.toNat ≤ 126 && !isAsciiAlphanumeric c

/-- Can a tag start with this character after its `<`? -/
def startsTag (c : Char) : Bool := c.isAlpha || c == '/' || c == '!' || c == '_'

/-- Copies the text from an opening sign through a closing sign in the same line. Without a closing
sign, only the first character is copied. -/
def passage (opening closing : Text) (c : Char) (s : Text) : Step :=
  match (Text.strip? opening (c :: s)).bind (cutInLine? closing) with
  | some (inside, rest) => Step.text (opening ++ inside ++ closing) rest
  | none => Step.plain c s

def isLangChar (c : Char) : Bool :=
  c.isAlpha || c.isDigit || c == '_' || c == '-' || c == '+'

def fenceSign : Text := ['\x60', '\x60', '\x60']

/-- Parts the inside of a block of code into the name of its language and its body. The line feeds
next to the fences belong to neither. -/
def fenceParts (inside : Text) : Text × Text :=
  let withoutEnd (s : Text) : Text := (Text.dropEnding? ['\n'] s).getD s
  let lang := inside.takeWhile isLangChar
  match lang.isEmpty, inside.dropWhile isLangChar with
  | false, '\n' :: body => (lang, withoutEnd body)
  | _, _ => ([], withoutEnd ((Text.strip? ['\n'] inside).getD inside))

/-- Reads a block of code after its opening fence. -/
def fence (s : Text) : Step :=
  match Text.cut? fenceSign s with
  | some (inside, rest) =>
    let parts := fenceParts inside
    ⟨.fence parts.1 parts.2, .other, rest⟩
  | none => Step.text fenceSign s

/-- Reads a piece of code after its opening sign. -/
def code (s : Text) : Step :=
  match cutInLine? ['\x60'] s with
  | some (body, rest) => ⟨.code body, .other, rest⟩
  | none => Step.plain '\x60' s

/-- Is this the last character of an address that belongs to the sentence around it? -/
def endsSentence (url : Text) (last : Char) : Bool :=
  ".,;:!?'\"".toList.contains last || (last == ')' && url.count '(' < url.count ')')

/-- Leaves out the characters at the end of an address that belong to the sentence around it. The
address is given backwards. -/
def trimUrl : Text → Text
  | [] => []
  | last :: before =>
    if endsSentence (last :: before) last then trimUrl before else last :: before

def startsUrl (s : Text) : Bool :=
  "https://".toList.isPrefixOf s || "http://".toList.isPrefixOf s

def url (s : Text) : Text := (trimUrl (s.takeWhile isUrlChar).reverse).reverse

/-- The quote that is open after a character. -/
def quoteAfter (quote : Option Char) (c : Char) : Option Char :=
  match quote with
  | some q => if c = q then none else some q
  | none => if c = '"' ∨ c = '\x60' then some c else none

/-- The number of brackets that are open after a character. Brackets in quotes do not count. -/
def depthAfter (depth : Nat) (quote : Option Char) (c : Char) : Nat :=
  if quote.isSome then depth
  else if c = '[' then depth + 1
  else if c = ']' then depth - 1
  else depth

/-- Cuts the first line of a text at the bracket that matches an opening one before it, given how
many brackets are open and the quote that is open. A backslash in a quote hides the next
character. -/
def matchingBracket? (depth : Nat) (quote : Option Char) : Text → Option (Text × Text)
  | [] => none
  | c :: s =>
    if c = '\n' then none
    else if quote.isSome ∧ c = '\\' then
      match s with
      | [] => none
      | d :: s =>
        if d = '\n' then none
        else (matchingBracket? depth quote s).map fun r => (c :: d :: r.1, r.2)
    else if quote = none ∧ c = ']' ∧ depth ≤ 1 then some ([], s)
    else (matchingBracket? (depthAfter depth quote c) (quoteAfter quote c) s).map fun r =>
      (c :: r.1, r.2)

/-- Reads the attributes between braces after a link, if there are any. -/
def linkAttributes (s : Text) : LinkAttributes × Text :=
  match s with
  | '{' :: inner =>
    if inner.head? = some '{' then (.empty, s)
    else
      match cutInLine? ['}'] inner with
      | some (attrs, rest) => (LinkAttributes.read attrs, rest)
      | none => (.empty, s)
  | _ => (.empty, s)

/-- Reads a link or embed after its opening bracket: its name, its address, its attributes. -/
def link? (s : Text) : Option ((Text × Text × LinkAttributes) × Text) := do
  let (name, s) ← matchingBracket? 1 none s
  let s ← Text.strip? ['('] s
  let (url, s) ← cutInLine? [')'] s
  let (attrs, rest) := linkAttributes s
  return ((name, Text.trim url, attrs), rest)

/-- Cuts a text at the first run of exactly so many characters that does not follow a blank, given
the character before the text. -/
def closingRun? (c : Char) (n : Nat) (previous : Option Char) (s : Text) : Option (Text × Text) :=
  match s with
  | [] => none
  | x :: s =>
    if x = '\n' then none
    else if x = c then
      if (s.takeWhile (· == c)).length + 1 = n ∧ previous.any fun p => !isAsciiBlank p then
        some ([], s.dropWhile (· == c))
      else (closingRun? c n (some c) (s.dropWhile (· == c))).map fun r =>
        (x :: s.takeWhile (· == c) ++ r.1, r.2)
    else (closingRun? c n (some x) s).map fun r => (x :: r.1, r.2)
termination_by s.length
decreasing_by
  · have := Text.length_dropWhile_le (· == c) s
    simp only [List.length_cons]
    omega
  · simp

def starStyle (n : Nat) : Style := if n = 1 then .emphasis else if n = 2 then .strong else .both

/-- Reads text between stars after the first star. -/
def stars (s : Text) : Step :=
  let more := s.takeWhile (· == '*')
  let run := '*' :: more
  let rest := s.dropWhile (· == '*')
  if run.length > 3 ∨ rest.head?.all isAsciiBlank then Step.text run rest
  else
    match closingRun? '*' run.length none rest with
    | some (inner, rest) => ⟨.styled (starStyle run.length) inner, .other, rest⟩
    | none => Step.text run rest

/-- Reads text between two equal signs, after the first of them. The text must not be empty or start
with a blank. -/
def between (sign : Text) (style : Style) (after : Context) (s : Text) : Step :=
  match cutInLine? sign s with
  | some (inner, rest) =>
    if inner.isEmpty || s.head?.any isAsciiBlank then Step.text sign s
    else ⟨.styled style inner, after, rest⟩
  | none => Step.text sign s

/-- Reads what is copied as it is: an escaped character, a tag, a hole, a reference. -/
def copied? (c : Char) (s : Text) : Option Step :=
  if c = '\\' ∧ s.head?.any isAsciiPunctuation then some (Step.text (s.take 1) s.tail)
  else if c = '<' ∧ s.head?.any startsTag then some (passage ['<'] ['>'] c s)
  else if c = '{' ∧ ['{', '{'].isPrefixOf s then
    some (passage ['{', '{', '{'] ['}', '}', '}'] c s)
  else if c = '{' ∧ s.head? = some '{' then some (passage ['{', '{'] ['}', '}'] c s)
  else if c = '%' ∧ s.head? = some '!' then some (passage ['%', '!'] ['!', '%'] c s)
  else none

def coded? (c : Char) (s : Text) : Option Step :=
  if c = '\x60' then
    if ['\x60', '\x60'].isPrefixOf s then some (fence (s.drop 2)) else some (code s)
  else none

def autolinked? (before : Context) (s : Text) : Option Step :=
  if before ≠ .word ∧ startsUrl s then
    some ⟨.autolink (url s), .other, s.drop (url s).length⟩
  else none

def linked? (c : Char) (s : Text) : Option Step :=
  if c = '!' ∧ s.head? = some '[' then
    (link? s.tail).map fun ((name, url, attrs), rest) => ⟨.embed name url attrs, .other, rest⟩
  else if c = '[' then
    (link? s).map fun ((name, url, attrs), rest) => ⟨.link name url attrs, .other, rest⟩
  else none

/-- Reads styled text. A deletion may be followed, after one space or none, by what is inserted in
its place. -/
def styled? (before : Context) (c : Char) (s : Text) : Option Step :=
  if before = .deletion ∧ c = ' ' ∧ ['~', '~'].isPrefixOf s then some ⟨.text [c], .deletion, s⟩
  else if c = '*' then some (stars s)
  else if c = '_' ∧ s.head? = some '_' then some (between ['_', '_'] .underline .other s.tail)
  else if c = '~' ∧ s.head? = some '~' then
    if before = .deletion then some (between ['~', '~'] .inserted .other s.tail)
    else some (between ['~', '~'] .deleted .deletion s.tail)
  else if c = '-' ∧ s.head? = some '-' ∧ s.tail.head? ≠ some '-' then
    some (between ['-', '-'] .struck .other s.tail)
  else none

/-- Reads one token of running markup, given what stands before it. -/
def step (before : Context) (c : Char) (s : Text) : Step :=
  (copied? c s <|> coded? c s <|> autolinked? before (c :: s) <|> linked? c s <|>
    styled? before c s).getD (Step.plain c s)

section Parts

variable {pat s before after inside rest : Text} {c : Char}

theorem eq_of_cutInLine? (h : cutInLine? pat s = some (before, after)) :
    s = before ++ pat ++ after ∧ '\n' ∉ before := by
  obtain ⟨hcut, hline⟩ := Option.filter_eq_some_iff.mp h
  exact ⟨Text.eq_of_cut? hcut, by simpa using hline⟩

theorem eq_of_matchingBracket? {depth : Nat} {quote : Option Char}
    (h : matchingBracket? depth quote s = some (inside, rest)) : s = inside ++ ']' :: rest := by
  fun_induction matchingBracket? depth quote s generalizing inside rest with
  | case1 => cases h
  | case2 => cases h
  | case3 => cases h
  | case4 => cases h
  | case5 depth quote c _ _ d s _ ih =>
    obtain ⟨r, hr, he⟩ := Option.map_eq_some_iff.mp h
    cases he
    rw [ih hr]
    rfl
  | case6 depth quote c s _ _ hc =>
    cases Option.some.inj h
    rw [hc.2.1]
    rfl
  | case7 depth quote c s _ _ _ ih =>
    obtain ⟨r, hr, he⟩ := Option.map_eq_some_iff.mp h
    cases he
    rw [ih hr]
    rfl

theorem suffix_linkAttributes (s : Text) : (linkAttributes s).2 <:+ s := by
  unfold linkAttributes
  split
  next inner =>
    split
    · exact List.suffix_rfl
    · split
      next attrs rest h =>
        exact ⟨'{' :: (attrs ++ ['}']), congrArg ('{' :: ·) (eq_of_cutInLine? h).1.symm⟩
      next => exact List.suffix_rfl
  next => exact List.suffix_rfl

/-- A link in its parts: the name, the address before blanks are left out, what follows. -/
theorem exists_of_link? {name url : Text} {attrs : LinkAttributes}
    (h : link? s = some ((name, url, attrs), rest)) :
    ∃ address tail, s = name ++ [']', '('] ++ (address ++ [')'] ++ tail) ∧
      url = Text.trim address ∧ linkAttributes tail = (attrs, rest) := by
  simp only [link?, Option.bind_eq_bind, Option.bind_eq_some_iff] at h
  obtain ⟨⟨nm, s1⟩, hname, s2, hopen, ⟨address, tail⟩, hurl, he⟩ := h
  cases he
  refine ⟨address, tail, ?_, rfl, rfl⟩
  have hparen : s1 = ['('] ++ s2 := Text.strip?_eq_some_iff.mp hopen
  rw [eq_of_matchingBracket? hname, hparen, (eq_of_cutInLine? hurl).1]
  simp

theorem eq_of_closingRun? {n : Nat} {previous : Option Char} {inner : Text}
    (h : closingRun? c n previous s = some (inner, rest)) :
    ∃ after, s = inner ++ [c] ++ after ∧ rest = after.dropWhile (· == c) := by
  fun_induction closingRun? c n previous s generalizing inner rest with
  | case1 => cases h
  | case2 => cases h
  | case3 previous s =>
    cases Option.some.inj h
    exact ⟨s, rfl, rfl⟩
  | case4 previous s _ _ ih =>
    obtain ⟨r, hr, he⟩ := Option.map_eq_some_iff.mp h
    cases he
    obtain ⟨after, hs, hrest⟩ := ih hr
    refine ⟨after, ?_, hrest⟩
    have hrun := (List.takeWhile_append_dropWhile (p := (· == c)) (l := s)).symm
    rw [hs] at hrun
    exact (congrArg (c :: ·) hrun).trans (by simp)
  | case5 previous x s _ _ ih =>
    obtain ⟨r, hr, he⟩ := Option.map_eq_some_iff.mp h
    cases he
    obtain ⟨after, hs, hrest⟩ := ih hr
    exact ⟨after, by rw [hs]; rfl, hrest⟩

end Parts

theorem trimUrl_suffix (u : Text) : trimUrl u <:+ u := by
  induction u with
  | nil => exact List.suffix_rfl
  | cons d u ih =>
    unfold trimUrl
    split
    · exact ih.trans (List.suffix_cons d u)
    · exact List.suffix_rfl

theorem prefix_url (s : Text) : url s <+: s.takeWhile isUrlChar := by
  have hprefix := List.reverse_prefix.mpr (trimUrl_suffix (s.takeWhile isUrlChar).reverse)
  rwa [List.reverse_reverse] at hprefix

theorem url_append_drop (s : Text) : url s ++ s.drop (url s).length = s :=
  List.prefix_iff_eq_append.mp ((prefix_url s).trans (List.takeWhile_prefix isUrlChar))

/-- A slash does not belong to the sentence around an address. -/
theorem trimUrl_ne_nil {u : Text} (h : '/' ∈ u) : trimUrl u ≠ [] := by
  induction u with
  | nil => cases h
  | cons d u ih =>
    unfold trimUrl
    split
    next hends =>
      refine ih ((List.mem_cons.mp h).resolve_left ?_)
      rintro rfl
      simp [endsSentence] at hends
    next => exact List.cons_ne_nil d u

/-- However much of it is left out at its end, an address keeps something. -/
theorem url_ne_nil {s : Text} (h : startsUrl s) : url s ≠ [] := by
  have hslash : ∀ lead : Text, lead.isPrefixOf s → lead.all isUrlChar → '/' ∈ lead →
      '/' ∈ s.takeWhile isUrlChar := by
    intro lead hlead hchars hmem
    obtain ⟨t, rfl⟩ := List.isPrefixOf_iff_prefix.mp hlead
    rw [List.takeWhile_append_of_pos (List.all_eq_true.mp hchars)]
    exact List.mem_append_left _ hmem
  have hmem : '/' ∈ s.takeWhile isUrlChar := by
    rcases Bool.or_eq_true_iff.mp h with h | h
    · exact hslash _ h (by decide) (by decide)
    · exact hslash _ h (by decide) (by decide)
  rw [url, ne_eq, List.reverse_eq_nil_iff]
  exact trimUrl_ne_nil (List.mem_reverse.mpr hmem)

/-- A step from a text takes at least one character of it, and the text inside its token is shorter
than what it takes. -/
def Step.Takes (s : Text) (st : Step) : Prop :=
  ∃ taken, s = taken ++ st.rest ∧ taken ≠ [] ∧ ∀ t ∈ st.token.inner?, t.length < taken.length

section Steps

variable {s t taken rest : Text} {c : Char} {st : Step}

theorem takes_text (hs : s = taken ++ rest) (hne : taken ≠ []) : (Step.text t rest).Takes s :=
  ⟨taken, hs, hne, fun _ h => by cases h⟩

theorem takes_plain (c : Char) (s : Text) : (Step.plain c s).Takes (c :: s) :=
  ⟨[c], rfl, List.cons_ne_nil c [], fun _ h => by cases h⟩

theorem takes_passage {opening closing : Text} (ho : opening ≠ []) (c : Char) (s : Text) :
    (passage opening closing c s).Takes (c :: s) := by
  unfold passage
  split
  next inside rest h =>
    obtain ⟨s', hs, hc⟩ := Option.bind_eq_some_iff.mp h
    rw [Text.strip?_eq_some_iff.mp hs, (eq_of_cutInLine? hc).1]
    refine takes_text ?_ (List.append_ne_nil_of_left_ne_nil ho (inside ++ closing))
    exact (List.append_assoc _ _ _).symm
  next => exact takes_plain c s

theorem takes_fence (s : Text) : (fence s).Takes (fenceSign ++ s) := by
  unfold fence
  split
  next inside rest h =>
    refine ⟨fenceSign ++ (inside ++ fenceSign), ?_, by simp [fenceSign], fun _ h => by cases h⟩
    rw [Text.eq_of_cut? h]
    simp
  next => exact takes_text rfl (by simp [fenceSign])

theorem takes_code (s : Text) : (code s).Takes ('\x60' :: s) := by
  unfold code
  split
  next body rest h =>
    refine ⟨'\x60' :: (body ++ ['\x60']), ?_, List.cons_ne_nil _ _, fun _ h => by cases h⟩
    rw [(eq_of_cutInLine? h).1]
    rfl
  next => exact takes_plain _ s

theorem takes_stars (s : Text) : (stars s).Takes ('*' :: s) := by
  have hrun : '*' :: s = ('*' :: s.takeWhile (· == '*')) ++ s.dropWhile (· == '*') := by simp
  unfold stars
  dsimp only
  split
  next => exact takes_text hrun (List.cons_ne_nil _ _)
  next =>
    split
    next inner rest h =>
      obtain ⟨after, hs, hrest⟩ := eq_of_closingRun? h
      have hafter : after = after.takeWhile (· == '*') ++ rest := by simp [hrest]
      refine ⟨'*' :: s.takeWhile (· == '*') ++ inner ++ ['*'] ++ after.takeWhile (· == '*'), ?_,
        by simp, ?_⟩
      · rw [hrun, hs]
        conv => lhs; rw [hafter]
        simp
      · rintro t (_ | _)
        simp only [List.length_append, List.length_cons]
        omega
    next => exact takes_text hrun (List.cons_ne_nil _ _)

theorem takes_between {sign : Text} (hsign : sign ≠ []) (style : Style) (after : Context)
    (s : Text) : (between sign style after s).Takes (sign ++ s) := by
  unfold between
  split
  next inner rest h =>
    split
    · exact takes_text rfl hsign
    · refine ⟨sign ++ inner ++ sign, ?_, by simp [hsign], ?_⟩
      · rw [(eq_of_cutInLine? h).1]
        simp
      · have := List.length_pos_iff.mpr hsign
        rintro t (_ | _)
        simp only [List.length_append]
        omega
  next => exact takes_text rfl hsign

theorem takes_of_copied? (h : copied? c s = some st) : st.Takes (c :: s) := by
  unfold copied? at h
  split at h
  next hescaped =>
    cases Option.some.inj h
    cases s with
    | nil => cases hescaped.2
    | cons d s => exact takes_text (List.append_cons [c] d s) (List.cons_ne_nil _ _)
  all_goals repeat' split at h
  all_goals first
    | (cases Option.some.inj h; exact takes_passage (List.cons_ne_nil _ _) c s)
    | cases h

theorem takes_of_coded? (h : coded? c s = some st) : st.Takes (c :: s) := by
  unfold coded? at h
  split at h
  next hc =>
    subst hc
    split at h
    next hfence =>
      cases Option.some.inj h
      have hs := List.prefix_iff_eq_append.mp (List.isPrefixOf_iff_prefix.mp hfence)
      have htakes := takes_fence (s.drop 2)
      rwa [show fenceSign ++ s.drop 2 = '\x60' :: s from congrArg ('\x60' :: ·) hs] at htakes
    next =>
      cases Option.some.inj h
      exact takes_code s
  next => cases h

theorem takes_of_autolinked? {before : Context} (h : autolinked? before s = some st) :
    st.Takes s := by
  unfold autolinked? at h
  split at h
  next hstarts =>
    cases Option.some.inj h
    exact ⟨url s, (url_append_drop s).symm, url_ne_nil hstarts.2, fun _ h => by cases h⟩
  next => cases h

/-- Of a link, the brackets around its name are taken with the name. -/
theorem takes_link (opening : Text) {name url : Text} {attrs : LinkAttributes}
    (h : link? s = some ((name, url, attrs), rest)) (hinner : ∀ t ∈ st.token.inner?, t = name)
    (hrest : st.rest = rest) : st.Takes (opening ++ s) := by
  obtain ⟨address, tail, hs, -, hattrs⟩ := exists_of_link? h
  obtain ⟨between, hbetween⟩ := suffix_linkAttributes tail
  rw [hattrs] at hbetween
  refine ⟨opening ++ name ++ [']', '('] ++ address ++ [')'] ++ between, ?_, by simp, ?_⟩
  · rw [hs, hrest, ← hbetween]
    simp
  · intro t ht
    rw [hinner t ht]
    simp only [List.length_append, List.length_cons]
    omega

theorem takes_of_linked? (h : linked? c s = some st) : st.Takes (c :: s) := by
  unfold linked? at h
  split at h
  next hembed =>
    obtain ⟨⟨⟨name, url, attrs⟩, rest⟩, hlink, he⟩ := Option.map_eq_some_iff.mp h
    cases he
    cases s with
    | nil => cases hembed.2
    | cons d s => exact takes_link [c, d] hlink (by rintro t (_ | _); rfl) rfl
  next =>
    split at h
    next =>
      obtain ⟨⟨⟨name, url, attrs⟩, rest⟩, hlink, he⟩ := Option.map_eq_some_iff.mp h
      cases he
      exact takes_link [c] hlink (by rintro t (_ | _); rfl) rfl
    next => cases h

theorem takes_of_styled? {before : Context} (h : styled? before c s = some st) :
    st.Takes (c :: s) := by
  have hsigned : ∀ (d : Char) (style : Style) (after : Context), c = d → s.head? = some d →
      (between [d, d] style after s.tail).Takes (c :: s) := by
    rintro d style after rfl hd
    obtain ⟨t, rfl⟩ := List.head?_eq_some_iff.mp hd
    exact takes_between (List.cons_ne_nil c [c]) style after t
  unfold styled? at h
  split at h
  · cases Option.some.inj h
    exact ⟨[c], rfl, List.cons_ne_nil c [], fun _ h => by cases h⟩
  · split at h
    next hc =>
      cases Option.some.inj h
      exact hc ▸ takes_stars s
    next =>
      repeat' split at h
      all_goals first
        | (cases Option.some.inj h; exact hsigned _ _ _ (And.left ‹_›) (And.right ‹_›))
        | (cases Option.some.inj h; exact hsigned _ _ _ (And.left ‹_›) (And.left (And.right ‹_›)))
        | cases h

theorem takes_step (before : Context) (c : Char) (s : Text) :
    (step before c s).Takes (c :: s) := by
  unfold step
  cases h1 : copied? c s with
  | some st => exact takes_of_copied? h1
  | none =>
    cases h2 : coded? c s with
    | some st => exact takes_of_coded? h2
    | none =>
      cases h3 : autolinked? before (c :: s) with
      | some st => exact takes_of_autolinked? h3
      | none =>
        cases h4 : linked? c s with
        | some st => exact takes_of_linked? h4
        | none =>
          cases h5 : styled? before c s with
          | some st => exact takes_of_styled? h5
          | none => exact takes_plain c s

/-- What a step leaves and the text inside its token are together shorter than the text. -/
theorem length_of_step (before : Context) (c : Char) (s : Text) :
    (step before c s).rest.length < s.length + 1 ∧ ∀ t ∈ (step before c s).token.inner?,
      t.length + (step before c s).rest.length < s.length + 1 := by
  obtain ⟨taken, hs, hne, hinner⟩ := takes_step before c s
  have hlength := congrArg List.length hs
  have hpos := List.length_pos_iff.mpr hne
  rw [List.length_append, List.length_cons] at hlength
  refine ⟨by omega, fun t ht => ?_⟩
  have := hinner t ht
  omega

end Steps

end Stencil.Markdown
