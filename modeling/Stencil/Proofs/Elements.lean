import Stencil.Proofs.Text

namespace Stencil

namespace Elements

/-- The elements that have no content and no closing tag. -/
def voids : List Text :=
  ["area", "base", "br", "col", "embed", "hr", "img", "input", "link", "meta", "source", "track",
    "wbr"].map String.toList

/-- What follows a tag, from inside it. A quoted value may hold the sign that ends tags. -/
def afterTag? (quoted : Bool) : Text → Option Text
  | [] => none
  | c :: s =>
    if c = '"' then afterTag? (!quoted) s
    else if c = '>' ∧ !quoted then some s
    else afterTag? quoted s

theorem length_of_afterTag? {quoted : Bool} {s rest : Text} (h : afterTag? quoted s = some rest) :
    rest.length < s.length := by
  induction s generalizing quoted with
  | nil => cases h
  | cons c s ih =>
    unfold afterTag? at h
    rw [List.length_cons]
    split at h
    · exact Nat.lt_succ_of_lt (ih h)
    · split at h
      · cases h
        exact Nat.lt_succ_self _
      · exact Nat.lt_succ_of_lt (ih h)

/-- The name after the `<` of a tag, and after its slash if it closes an element. -/
def name (s : Text) : Text :=
  (if s.head? = some '/' then s.tail else s).takeWhile Char.isAlphanum

/-- Is every element of a text closed once, the last opened one first, if elements with these names
are open before it, the innermost first? A `<` without a name is text. -/
def nested (stack : List Text) (s : Text) : Bool :=
  match s with
  | [] => stack.isEmpty
  | c :: s =>
    if c ≠ '<' ∨ name s = [] then nested stack s
    else
      match _h : afterTag? false s with
      | none => false
      | some rest =>
        if s.head? = some '/' then stack.head? = some (name s) && nested stack.tail rest
        else if voids.contains (name s) then nested stack rest
        else nested (name s :: stack) rest
termination_by s.length
decreasing_by
  · simp
  all_goals
    have := length_of_afterTag? _h
    simp only [List.length_cons]
    omega

/-- A text leads from one stack of open elements to another, whatever follows it. -/
def Leads (stack : List Text) (t : Text) (stack' : List Text) : Prop :=
  ∀ s, nested stack (t ++ s) = nested stack' s

variable {stack stack' stack'' : List Text} {t u n : Text}

theorem Leads.nil : Leads stack [] stack := fun _ => rfl

theorem Leads.append (ht : Leads stack t stack') (hu : Leads stack' u stack'') :
    Leads stack (t ++ u) stack'' := by
  intro s
  rw [List.append_assoc, ht, hu]

theorem Leads.nested (h : Leads stack t []) : nested stack t = true := by
  have hnil := h []
  rw [List.append_nil] at hnil
  rw [hnil, Elements.nested]
  rfl

theorem nested_tag {s rest : Text} (hname : name s ≠ []) (hafter : afterTag? false s = some rest) :
    nested stack ('<' :: s) =
      if s.head? = some '/' then stack.head? = some (name s) && nested stack.tail rest
      else if voids.contains (name s) then nested stack rest
      else nested (name s :: stack) rest := by
  rw [Elements.nested, if_neg (by simp [hname])]
  split
  next hnone =>
    rw [hafter] at hnone
    cases hnone
  next other hsome =>
    rw [hafter] at hsome
    cases hsome
    rfl

/-- Text without tags. -/
theorem leads_text (h : '<' ∉ t) : Leads stack t stack := by
  induction t with
  | nil => exact .nil
  | cons c t ih =>
    intro s
    have hc : c ≠ '<' := fun he => h (he ▸ List.mem_cons_self)
    rw [List.cons_append, Elements.nested, if_pos (.inl hc)]
    exact ih (List.not_mem_of_not_mem_cons h) s

/-- Text in a tag that neither ends it nor leaves a quoted value open. -/
def InTag (t : Text) : Prop := ∀ s, afterTag? false (t ++ s) = afterTag? false s

theorem InTag.nil : InTag [] := fun _ => rfl

theorem InTag.append (ht : InTag t) (hu : InTag u) : InTag (t ++ u) := by
  intro s
  rw [List.append_assoc, ht, hu]

theorem inTag_of_not_mem (hquote : '"' ∉ t) (hend : '>' ∉ t) : InTag t := by
  induction t with
  | nil => exact .nil
  | cons c t ih =>
    intro s
    have hq : c ≠ '"' := fun he => hquote (he ▸ List.mem_cons_self)
    have he : c ≠ '>' := fun he => hend (he ▸ List.mem_cons_self)
    rw [List.cons_append, afterTag?, if_neg hq, if_neg fun h => he h.1]
    exact ih (List.not_mem_of_not_mem_cons hquote) (List.not_mem_of_not_mem_cons hend) s

/-- A quoted value may hold all but quotes. -/
theorem inTag_quoted (h : '"' ∉ t) : InTag (['"'] ++ t ++ ['"']) := by
  have hopen : ∀ s, afterTag? true (t ++ '"' :: s) = afterTag? false s := by
    intro s
    induction t with
    | nil => rfl
    | cons c t ih =>
      have hq : c ≠ '"' := fun he => h (he ▸ List.mem_cons_self)
      rw [List.cons_append, afterTag?, if_neg hq, if_neg (by simp)]
      exact ih (List.not_mem_of_not_mem_cons h)
  intro s
  have hshape : ['"'] ++ t ++ ['"'] ++ s = '"' :: (t ++ '"' :: s) := by simp
  rw [hshape, afterTag?, if_pos rfl]
  exact hopen s

/-- A quoted value between what may stand in a tag. -/
theorem InTag.quoted {a b : Text} (ha : InTag a) (ht : '"' ∉ t) (hb : InTag b) :
    InTag (a ++ ['"'] ++ t ++ ('"' :: b)) := by
  have hshape : a ++ ['"'] ++ t ++ ('"' :: b) = a ++ (['"'] ++ t ++ ['"']) ++ b := by simp
  rw [hshape]
  exact (ha.append (inTag_quoted ht)).append hb

/-- The tag that opens an element, with the text after its name. -/
def openTag (n inner : Text) : Text := '<' :: (n ++ inner ++ ['>'])

def closeTag (n : Text) : Text := '<' :: '/' :: (n ++ ['>'])

def IsName (n : Text) : Prop := n ≠ [] ∧ n.all Char.isAlphanum

instance (n : Text) : Decidable (IsName n) :=
  inferInstanceAs (Decidable (n ≠ [] ∧ n.all Char.isAlphanum))

theorem IsName.isAlphanum (hn : IsName n) {c : Char} (hc : c ∈ n) : c.isAlphanum :=
  List.all_eq_true.mp hn.2 c hc

/-- Text after the name of an element in its tag. -/
structure AfterName (t : Text) : Prop where
  stop : ∀ c ∈ t.head?, c.isAlphanum = false
  inTag : InTag t

theorem AfterName.nil : AfterName [] := ⟨by simp, .nil⟩

theorem AfterName.append (ht : AfterName t) (hu : AfterName u) : AfterName (t ++ u) where
  stop := by
    cases t with
    | nil => exact hu.stop
    | cons c t => exact ht.stop
  inTag := ht.inTag.append hu.inTag

theorem inTag_name (hn : IsName n) : InTag n := by
  refine inTag_of_not_mem (fun hm => ?_) (fun hm => ?_)
  · exact absurd (hn.isAlphanum hm) (by decide)
  · exact absurd (hn.isAlphanum hm) (by decide)

theorem name_openTag (hn : IsName n) (ht : AfterName t) (s : Text) :
    name (n ++ t ++ ['>'] ++ s) = n := by
  obtain ⟨c, n', rfl⟩ := List.exists_cons_of_ne_nil hn.1
  have hc : c ≠ '/' := by
    rintro rfl
    exact absurd (hn.isAlphanum List.mem_cons_self) (by decide)
  have hstop : ∀ d ∈ (t ++ '>' :: s).head?, d.isAlphanum = false := by
    cases t with
    | nil =>
      intro d hd
      cases hd
      decide
    | cons d t => exact ht.stop
  have hshape : c :: n' ++ t ++ ['>'] ++ s = c :: n' ++ (t ++ '>' :: s) := by simp
  rw [hshape, name, if_neg (by simpa using hc)]
  exact Text.takeWhile_append_stop (fun _ hc => hn.isAlphanum hc) hstop

theorem afterTag?_openTag (hn : IsName n) (ht : AfterName t) (s : Text) :
    afterTag? false (n ++ t ++ ['>'] ++ s) = some s := by
  rw [List.append_assoc, (inTag_name hn).append ht.inTag]
  rfl

theorem nested_openTag (hn : IsName n) (ht : AfterName t) (s : Text) :
    nested stack (openTag n t ++ s) =
      nested (if voids.contains n then stack else n :: stack) s := by
  have hname : name (n ++ t ++ ['>'] ++ s) = n := name_openTag hn ht s
  have hslash : (n ++ t ++ ['>'] ++ s).head? ≠ some '/' := by
    obtain ⟨c, n', rfl⟩ := List.exists_cons_of_ne_nil hn.1
    intro hc
    cases hc
    exact absurd (hn.isAlphanum List.mem_cons_self) (by decide)
  have hne : name (n ++ t ++ ['>'] ++ s) ≠ [] := by
    rw [hname]
    exact hn.1
  rw [openTag, List.cons_append, nested_tag hne (afterTag?_openTag hn ht s), if_neg hslash, hname]
  split
  · rfl
  · rfl

theorem leads_openTag (hn : IsName n) (hvoid : voids.contains n = false) (ht : AfterName t) :
    Leads stack (openTag n t) (n :: stack) := by
  intro s
  rw [nested_openTag hn ht, hvoid]
  rfl

/-- The tag of an element without content. -/
theorem leads_void (hn : IsName n) (hvoid : voids.contains n = true) (ht : AfterName t) :
    Leads stack (openTag n t) stack := by
  intro s
  rw [nested_openTag hn ht, if_pos hvoid]

theorem leads_closeTag (hn : IsName n) : Leads (n :: stack) (closeTag n) stack := by
  intro s
  have hstop : ∀ c ∈ ('>' :: s).head?, c.isAlphanum = false := by
    intro c hc
    cases hc
    decide
  have hname : name ('/' :: (n ++ '>' :: s)) = n := by
    rw [name, List.head?_cons, if_pos rfl]
    exact Text.takeWhile_append_stop (fun _ hc => hn.isAlphanum hc) hstop
  have hafter : afterTag? false ('/' :: (n ++ '>' :: s)) = some s := by
    rw [afterTag?, if_neg (by decide), if_neg (by decide), inTag_name hn]
    rfl
  have hne : name ('/' :: (n ++ '>' :: s)) ≠ [] := by
    rw [hname]
    exact hn.1
  have hshape : closeTag n ++ s = '<' :: '/' :: (n ++ '>' :: s) := by simp [closeTag]
  rw [hshape, nested_tag hne hafter, List.head?_cons, if_pos rfl, hname]
  simp

/-- An element with its content. -/
def element (n inner content : Text) : Text := openTag n inner ++ content ++ closeTag n

theorem element_written (n a b c d : Text) :
    ['<'] ++ n ++ a ++ b ++ ['>'] ++ c ++ d ++ ['<', '/'] ++ n ++ ['>'] =
      element n (a ++ b) (c ++ d) := by
  simp [element, openTag, closeTag]

theorem leads_element (hn : IsName n) (hvoid : voids.contains n = false) (ht : AfterName t)
    (hu : Leads (n :: stack) u (n :: stack)) : Leads stack (element n t u) stack :=
  ((leads_openTag hn hvoid ht).append hu).append (leads_closeTag hn)

end Elements

end Stencil
