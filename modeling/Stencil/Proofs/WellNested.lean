import Stencil.Markdown.Block
import Stencil.Proofs.InlineElements

namespace Stencil

open Elements

namespace Markdown

open Inline

namespace ListKind

/-- The name of the element of a list. -/
def element (k : ListKind) : Text := if k = unordered then "ul".toList else "ol".toList

variable {stack : List Text}

theorem leads_openTag (k : ListKind) : Leads stack k.openTag (k.element :: stack) := by
  cases k with
  | unordered => exact Elements.leads_openTag (n := "ul".toList) (by decide) (by decide) .nil
  | ordered => exact Elements.leads_openTag (n := "ol".toList) (by decide) (by decide) .nil
  | reversed =>
    have hword : InTag "reversed".toList := inTag_of_not_mem (by decide) (by decide)
    exact Elements.leads_openTag (n := "ol".toList) (by decide) (by decide)
      (afterName_blank hword)

theorem leads_closeTag (k : ListKind) : Leads (k.element :: stack) k.closeTag stack := by
  cases k with
  | unordered => exact Elements.leads_closeTag (n := "ul".toList) (by decide)
  | ordered => exact Elements.leads_closeTag (n := "ol".toList) (by decide)
  | reversed => exact Elements.leads_closeTag (n := "ol".toList) (by decide)

end ListKind

namespace Open

variable {stack : List Text}

def names (lists : List (Nat × ListKind)) : List Text := lists.map fun l => l.2.element

def quotes (quote : Bool) : List Text := if quote then ["blockquote".toList] else []

/-- The elements that are open between lines: the lists stand in the quote. -/
def elements (o : Open) : List Text := names o.lists ++ quotes o.quote

theorem elements_append {o : Open} {closed lists : List (Nat × ListKind)}
    (h : o.lists = closed ++ lists) : o.elements = names closed ++ elements { o with lists } := by
  rw [elements, h, names, List.map_append, List.append_assoc]
  rfl

theorem leads_closeTags (lists : List (Nat × ListKind)) :
    Leads (names lists ++ stack) (closeTags lists) stack := by
  induction lists with
  | nil => exact .nil
  | cons l lists ih =>
    change Leads (l.2.element :: (names lists ++ stack)) (closeTags (l :: lists)) stack
    rw [closeTags, List.flatMap_cons]
    exact (ListKind.leads_closeTag l.2).append ih

theorem leads_closeLists (o : Open) :
    Leads o.elements o.closeLists.1 o.closeLists.2.elements :=
  leads_closeTags o.lists

/-- A quote is closed where no list is open in it. -/
theorem leads_closeQuote {o : Open} (h : o.lists = []) :
    Leads o.elements o.closeQuote.1 o.closeQuote.2.elements := by
  obtain ⟨lists, quote⟩ := o
  change lists = [] at h
  subst h
  cases quote with
  | true => exact Elements.leads_closeTag (n := "blockquote".toList) (by decide)
  | false => exact .nil

/-- Some lists are closed, and one is opened in the others. -/
theorem leads_opened {o : Open} {closed lists : List (Nat × ListKind)}
    (h : o.lists = closed ++ lists) (indent : Nat) (kind : ListKind) :
    Leads o.elements (closeTags closed ++ kind.openTag)
      (elements { o with lists := (indent, kind) :: lists }) := by
  rw [elements_append h]
  exact (leads_closeTags closed).append (ListKind.leads_openTag kind)

theorem leads_openItem (indent : Nat) (mark : ItemMark) (lines : List Text) (o : Open) :
    Leads o.elements (openItem indent mark lines o).1
      (openItem indent mark lines o).2.elements := by
  have hlists := (List.takeWhile_append_dropWhile (p := fun l => indent < l.1) (l := o.lists)).symm
  unfold openItem
  dsimp only
  split
  next hothers =>
    rw [hothers] at hlists
    exact leads_opened hlists indent _
  next top current outer hothers =>
    rw [hothers] at hlists ⊢
    split
    · exact leads_opened hlists indent _
    · split
      · rw [elements_append hlists]
        exact leads_closeTags _
      · refine leads_opened (hlists.trans ?_) indent _
        rw [List.append_assoc]
        rfl

end Open

/-- What stands at a line changes no open elements but those that the line opens and closes. -/
theorem leads_runningLine {stack stack' : List Text} {opening closing s : Text} (hs : Harmless s)
    (hopen : Leads stack opening stack') (hclose : Leads stack' closing stack) :
    Leads stack (runningLine opening closing s).1 stack ∧
      Text.MadeOf (runningLine opening closing s).2 s := by
  have hread : (∀ stack, Leads stack (htmlAll (read true .other s).1) stack) ∧
      Text.MadeOf (read true .other s).2 s := leads_htmlAll hs
  obtain ⟨hcontent, hrest⟩ := hread
  exact ⟨(hopen.append (hcontent stack')).append hclose, hrest⟩

theorem leads_lineEnd {stack : List Text} (s : Text) : Leads stack (lineEnd s) stack := by
  unfold lineEnd
  split
  · exact leads_text (by decide)
  · exact .nil

theorem isName_heading (level : Nat) : IsName ('h' :: Text.ofNat level) := by
  refine ⟨List.cons_ne_nil _ _, List.all_eq_true.mpr fun c hc => ?_⟩
  rcases List.mem_cons.mp hc with rfl | hc
  · rfl
  · have hdigit := Text.isDigit_of_mem_ofNat hc
    simp [Char.isAlphanum, hdigit]

theorem not_void_heading (level : Nat) : voids.contains ('h' :: Text.ofNat level) = false := by
  have hletter : ∀ n ∈ voids, n.head? = some 'h' → 'r' ∈ n := by decide
  rw [← Bool.not_eq_true]
  intro hvoid
  rcases List.mem_cons.mp (hletter _ (List.contains_iff_mem.mp hvoid) rfl) with h | h
  · cases h
  · exact Text.not_mem_ofNat (by decide) level h

/-- A heading is an element of its own. -/
theorem leads_heading {stack : List Text} {s : Text} (hs : Harmless s) (level : Nat) :
    Leads stack (runningLine (['<'] ++ (['h'] ++ Text.ofNat level ++ ['>']))
        (['<', '/'] ++ (['h'] ++ Text.ofNat level ++ ['>'])) s).1 stack ∧
      Text.MadeOf (runningLine (['<'] ++ (['h'] ++ Text.ofNat level ++ ['>']))
        (['<', '/'] ++ (['h'] ++ Text.ofNat level ++ ['>'])) s).2 s := by
  have hopen : ['<'] ++ (['h'] ++ Text.ofNat level ++ ['>']) =
      openTag ('h' :: Text.ofNat level) [] := by simp [openTag]
  have hclose : ['<', '/'] ++ (['h'] ++ Text.ofNat level ++ ['>']) =
      closeTag ('h' :: Text.ofNat level) := by simp [closeTag]
  rw [hopen, hclose]
  exact leads_runningLine hs
    (leads_openTag (isName_heading level) (not_void_heading level) .nil)
    (leads_closeTag (isName_heading level))

theorem leads_contentLine {blanks s : Text} (hblanks : '<' ∉ blanks) (hs : Harmless s)
    (indent : Nat) (o : Open) :
    Leads o.elements (contentLine blanks indent o s).1
        (contentLine blanks indent o s).2.1.elements ∧
      Text.MadeOf (contentLine blanks indent o s).2.2 s := by
  have hafter : ∀ {rest t : Text}, Text.MadeOf rest t → Text.MadeOf t s →
      Text.MadeOf (afterLine rest) s := fun hrest ht =>
    (Text.MadeOf.getD_strip? _ _).trans (hrest.trans ht)
  unfold contentLine
  dsimp only
  split
  next hlevel =>
    generalize (firstLine s).takeWhile (· == '#') = marks
    have hinner : Text.MadeOf (afterSpace (s.drop marks.length)) s :=
      (Text.MadeOf.getD_strip? _ _).trans (.of_sublist (List.drop_sublist _ s))
    obtain ⟨htext, hrest⟩ := leads_heading (hs.mono hinner) marks.length
    exact ⟨(o.leads_closeLists.append htext).append (leads_lineEnd _), hafter hrest hinner⟩
  next =>
    split
    next mark content hmark =>
      have hinner : Text.MadeOf (s.drop ((firstLine s).length - content.length)) s :=
        .of_sublist (List.drop_sublist _ s)
      have hitem : IsName "li".toList ∧ voids.contains "li".toList = false := by decide
      obtain ⟨htext, hrest⟩ := leads_runningLine (hs.mono hinner)
        (leads_openTag hitem.1 hitem.2 .nil) (leads_closeTag hitem.1)
      exact ⟨(Open.leads_openItem indent mark _ o).append htext, hafter hrest hinner⟩
    next =>
      obtain ⟨htext, hrest⟩ := leads_runningLine hs (leads_text hblanks) Leads.nil
      exact ⟨(o.leads_closeLists.append htext).append (leads_lineEnd _), hafter hrest (.refl s)⟩

/-- Does a line that is not blank open and close no quote, if a list is open? -/
def KeepsQuote (o : Open) (s : Text) : Prop :=
  (Text.trim (firstLine (s.dropWhile isIndent))).isEmpty ∨ o.lists = [] ∨
    ((s.dropWhile isIndent).head? = some '>' ↔ o.quote)

instance (o : Open) (s : Text) : Decidable (KeepsQuote o s) :=
  inferInstanceAs (Decidable (_ ∨ _ ∨ _))

/-- What a line begins with: the quote is opened, closed or left as it is. -/
theorem leads_start {o : Open} {quoted : Prop} [Decidable quoted]
    (ho : o.lists = [] ∨ (quoted ↔ o.quote)) {start : Text × Open}
    (hstart : start = if quoted then
      (if o.quote then [] else "<blockquote>".toList, { o with quote := true })
      else o.closeQuote) :
    Leads o.elements start.1 start.2.elements := by
  subst hstart
  obtain ⟨lists, quote⟩ := o
  by_cases hquoted : quoted
  · rw [if_pos hquoted]
    cases quote with
    | true => exact .nil
    | false =>
      have hlists : lists = [] := ho.resolve_right fun h => Bool.false_ne_true (h.mp hquoted)
      subst hlists
      exact leads_openTag (n := "blockquote".toList) (by decide) (by decide) .nil
  · rw [if_neg hquoted]
    cases quote with
    | true => exact Open.leads_closeQuote (ho.resolve_right fun h => hquoted (h.mpr rfl))
    | false => exact .nil

theorem leads_rule {stack : List Text} : Leads stack "<hr/>".toList stack :=
  leads_void (n := "hr".toList) (by decide) (by decide)
    (afterName_cons (c := '/') (by decide) (by decide) (by decide) .nil)

theorem leads_line {s : Text} (hs : Harmless s) {o : Open} (ho : KeepsQuote o s) :
    Leads o.elements (line o s).1 (line o s).2.1.elements ∧ Text.MadeOf (line o s).2.2 s := by
  have hinner : Text.MadeOf (s.dropWhile isIndent) s := (Text.MadeOf.refl s).dropWhile _
  have hblanks : '<' ∉ s.takeWhile isIndent := fun hm =>
    hs.angle ((Text.MadeOf.refl s).takeWhile isIndent _ hm)
  unfold KeepsQuote at ho
  unfold line
  dsimp only
  generalize s.takeWhile isIndent = blanks at hblanks
  generalize s.dropWhile isIndent = t at hinner ho
  have hlater : ∀ u : Text, Text.MadeOf u s →
      Text.MadeOf (afterLine (u.dropWhile (· != '\n'))) s := fun u hu =>
    (Text.MadeOf.getD_strip? _ _).trans (hu.dropWhile _)
  split
  next =>
    have hquote := Open.leads_closeQuote (o := o.closeLists.2) rfl
    exact ⟨(o.leads_closeLists.append hquote).append (leads_lineEnd _), hlater t hinner⟩
  next hfull =>
    have hstart := leads_start (ho.resolve_left hfull) rfl
    generalize (if t.head? = some '>' then _ else o.closeQuote : Text × Open) = start at hstart
    have hrest : Text.MadeOf (if t.head? = some '>' then afterSpace t.tail else t) s := by
      split
      · exact (Text.MadeOf.getD_strip? _ _).trans
          ((Text.MadeOf.of_sublist (List.tail_sublist t)).trans hinner)
      · exact hinner
    generalize (if t.head? = some '>' then afterSpace t.tail else t : Text) = u at hrest
    generalize (if t.head? = some '>' then 0 else indentWidth blanks : Nat) = indent
    split
    · exact ⟨((hstart.append start.2.leads_closeLists).append leads_rule).append
        (leads_lineEnd _), hlater u hrest⟩
    · obtain ⟨hcontent, hafter⟩ := leads_contentLine hblanks (hs.mono hrest) indent start.2
      exact ⟨hstart.append hcontent, hafter.trans hrest⟩

/-- What is open before each line, and the text from there on. -/
def stations (o : Open) (s : Text) : List (Open × Text) :=
  if _hs : s = [] then [] else (o, s) :: stations (line o s).2.1 (line o s).2.2
termination_by s.length
decreasing_by exact length_line_lt _hs

theorem leads_lines {s : Text} (hs : Harmless s) {o : Open}
    (h : ∀ station ∈ stations o s, KeepsQuote station.1 station.2) :
    Leads o.elements (lines o s) [] := by
  fun_induction lines o s with
  | case1 o =>
    exact o.leads_closeLists.append (Open.leads_closeQuote (o := o.closeLists.2) rfl)
  | case2 o s hne ih =>
    rw [stations, dif_neg hne] at h
    obtain ⟨hline, hrest⟩ := leads_line hs (h _ List.mem_cons_self)
    exact hline.append (ih (hs.mono hrest) fun station hm => h station (List.mem_cons_of_mem _ hm))

/-- In rendered markup without a `<` every element is closed once, the last opened first, if no line
opens or closes a quote while a list is open. -/
theorem nested_render (s : Text) (hangle : '<' ∉ s) (hquote : '"' ∉ s ∨ '|' ∉ s)
    (h : ∀ station ∈ stations .nothing s, KeepsQuote station.1 station.2) :
    nested [] (render s) = true :=
  Leads.nested (leads_lines ⟨hangle, hquote⟩ h)

theorem nested_render_quote :
    nested [] (render "> - a\n> - *b*\n\n1. ![c](d.mp4|e.f)".toList) = true := by
  have h : ∀ station ∈ stations .nothing "> - a\n> - *b*\n\n1. ![c](d.mp4|e.f)".toList,
      KeepsQuote station.1 station.2 := by decide +kernel
  exact nested_render _ (by decide) (by decide) h

/-- A line after a list in a quote closes the quote before the list; and the name of a media type
that is taken from an address may end a quoted value. -/
theorem not_nested_render :
    '<' ∉ "> - a\nb".toList ∧ nested [] (render "> - a\nb".toList) = false ∧
      '<' ∉ "![a](b.mp4|c.d\"e=)".toList ∧
        nested [] (render "![a](b.mp4|c.d\"e=)".toList) = false := by
  decide +kernel

end Markdown

end Stencil
