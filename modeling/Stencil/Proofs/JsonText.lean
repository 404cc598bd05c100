import Stencil.Function.JsonText
import Stencil.Proofs.Lexeme

namespace Stencil

/-- Replacing a character works on each character by itself. -/
theorem Text.replace_singleton (c : Char) (new s : Text) :
    replace [c] new s = s.flatMap fun d => if d = c then new else [d] := by
  unfold replace
  induction s with
  | nil => rfl
  | cons d s ih =>
    unfold replace.go
    by_cases h : d = c
    · simp [h, List.isPrefixOf, ih]
    · simp [h, Ne.symm h, List.isPrefixOf, ih]

/-- What holds of an array if it holds of its items, and of a map if it holds of its entries, holds
of every value if it holds of those that have no parts. -/
theorem value_induction {motive : Value → Prop} (null : motive .null)
    (bool : ∀ b, motive (.bool b)) (int : ∀ i, motive (.int i)) (float : ∀ x, motive (.float x))
    (str : ∀ s, motive (.str s)) (array : ∀ items, (∀ v ∈ items, motive v) → motive (.array items))
    (map : ∀ entries : List (Text × Value), (∀ e ∈ entries, motive e.2) → motive (.map entries))
    (v : Value) : motive v := by
  refine @Value.rec motive (fun items => ∀ v ∈ items, motive v)
    (fun entries => ∀ e ∈ entries, motive e.2) (fun e => motive e.2)
    null bool int float str array map ?_ ?_ ?_ ?_ ?_ v
  · exact nofun
  · exact fun v items hv hitems => List.forall_mem_cons.mpr ⟨hv, hitems⟩
  · exact nofun
  · exact fun e entries he hentries => List.forall_mem_cons.mpr ⟨he, hentries⟩
  · exact fun _ _ hv => hv

namespace Json

open Binary64 Text

/-- The lexeme of a text that is one number. -/
def numberLexeme (s : Text) : List Lexeme := ((numeral? s).map fun r => Lexeme.number r.1).toList

mutual

/-- The lexemes that a value is written as. -/
def lexemes : Value → List Lexeme
  | .null => [.name "null".toList]
  | .bool b => [.name (Value.boolText b)]
  | .int i => numberLexeme (Text.ofInt i)
  | .float x => (x.json?.map numberLexeme).getD [.name "null".toList]
  | .str s => [.string s]
  | .array items => .sign '[' :: itemLexemes items ++ [.sign ']']
  | .map entries => .sign '{' :: entryLexemes entries ++ [.sign '}']

def itemLexemes : List Value → List Lexeme
  | [] => []
  | [v] => lexemes v
  | v :: w :: vs => lexemes v ++ [.sign ','] ++ itemLexemes (w :: vs)

def entryLexemes : List (Text × Value) → List Lexeme
  | [] => []
  | [(k, v)] => .string k :: .sign ':' :: lexemes v
  | (k, v) :: e :: es =>
    .string k :: .sign ':' :: lexemes v ++ [.sign ','] ++ entryLexemes (e :: es)

end

theorem itemLexemes_eq (items : List Value) :
    itemLexemes items = [.sign ','].intercalate (items.map lexemes) := by
  induction items with
  | nil => rfl
  | cons v items ih =>
    cases items with
    | nil => simp [itemLexemes, List.intercalate]
    | cons w items =>
      rw [itemLexemes, ih]
      simp [List.intercalate]

theorem entryLexemes_eq (entries : List (Text × Value)) :
    entryLexemes entries = [.sign ','].intercalate
      ((entries.map fun e => (e.1, lexemes e.2)).map fun e => .string e.1 :: .sign ':' :: e.2) := by
  induction entries with
  | nil => rfl
  | cons e entries ih =>
    obtain ⟨k, v⟩ := e
    cases entries with
    | nil => simp [entryLexemes, List.intercalate]
    | cons e entries =>
      rw [entryLexemes, ih]
      simp [List.intercalate]

theorem numberLexeme_eq {n : Numeral} (hn : n.Valid) : numberLexeme n.spelled = [.number n] := by
  have hend : Stops [] := nofun
  have h := numeral?_spelled hn hend
  rw [List.append_nil] at h
  rw [numberLexeme, h]
  rfl

/-- The text of a float is one number or `null`. -/
theorem float_cases (x : Binary64) :
    (∃ n : Numeral, n.Valid ∧ compact (.float x) = n.spelled ∧ lexemes (.float x) = [.number n]) ∨
      compact (.float x) = "null".toList ∧ lexemes (.float x) = [.name "null".toList] := by
  cases x with
  | nan => exact .inr ⟨rfl, rfl⟩
  | infinite => exact .inr ⟨rfl, rfl⟩
  | finite negative m q =>
    obtain ⟨n, hn, he⟩ := isNumber_write negative m q
    refine .inl ⟨n, hn, he.symm, ?_⟩
    rw [lexemes, json?, Option.map_some, Option.getD_some, ← he, numberLexeme_eq hn]

theorem int_cases (i : Int) :
    ∃ n : Numeral, n.Valid ∧ compact (.int i) = n.spelled ∧ lexemes (.int i) = [.number n] := by
  obtain ⟨n, hn, he⟩ := isNumber_ofInt i
  exact ⟨n, hn, he.symm, by rw [lexemes, ← he, numberLexeme_eq hn]⟩

theorem boolText_mem_names (b : Bool) : Value.boolText b ∈ names := by
  cases b <;> decide

/-- What is written for a value is a JSON text. -/
theorem isText_lexemes (v : Value) : IsText (lexemes v) := by
  induction v using value_induction with
  | null => exact .name (by decide)
  | bool b => exact .name (boolText_mem_names b)
  | int i =>
    obtain ⟨n, hn, -, he⟩ := int_cases i
    exact he ▸ .number hn
  | float x =>
    obtain ⟨n, hn, -, he⟩ | ⟨-, he⟩ := float_cases x
    · exact he ▸ .number hn
    · exact he ▸ .name (by decide)
  | str s => exact .string s
  | array items ih =>
    rw [lexemes, itemLexemes_eq]
    exact .array (by simpa using ih)
  | map entries ih =>
    rw [lexemes, entryLexemes_eq]
    refine .map fun e he => ?_
    obtain ⟨e, hmem, rfl⟩ := List.mem_map.mp he
    exact ih e hmem

/-- The words of the lexemes as values are written. -/
def written (ls : List Lexeme) : List Text := ls.map (Lexeme.spelled escapeChar)

@[simp] theorem written_nil : written [] = [] := rfl

@[simp] theorem written_cons (l : Lexeme) (ls : List Lexeme) :
    written (l :: ls) = l.spelled escapeChar :: written ls := rfl

@[simp] theorem written_append (ls ms : List Lexeme) :
    written (ls ++ ms) = written ls ++ written ms := List.map_append

theorem compactItems_written {items : List Value}
    (h : ∀ v ∈ items, compact v = (written (lexemes v)).flatten) :
    compactItems items = (written (itemLexemes items)).flatten := by
  induction items with
  | nil => rfl
  | cons v items ih =>
    obtain ⟨hv, hitems⟩ := List.forall_mem_cons.mp h
    cases items with
    | nil => exact hv
    | cons w items => simp [compactItems, itemLexemes, hv, ih hitems, Lexeme.spelled]

theorem compactEntries_written {entries : List (Text × Value)}
    (h : ∀ e ∈ entries, compact e.2 = (written (lexemes e.2)).flatten) :
    compactEntries entries = (written (entryLexemes entries)).flatten := by
  induction entries with
  | nil => rfl
  | cons e entries ih =>
    obtain ⟨he, hentries⟩ := List.forall_mem_cons.mp h
    obtain ⟨k, v⟩ := e
    cases entries with
    | nil => simp [compactEntries, entryLexemes, he, Lexeme.spelled, string]
    | cons e entries =>
      simp [compactEntries, entryLexemes, he, ih hentries, Lexeme.spelled, string]

/-- The compact text of a value is its lexemes, with nothing between them. -/
theorem compact_eq (v : Value) : compact v = (written (lexemes v)).flatten := by
  induction v using value_induction with
  | null => rfl
  | bool b => exact (List.append_nil _).symm
  | int i =>
    obtain ⟨n, -, hc, hl⟩ := int_cases i
    simp [hc, hl, Lexeme.spelled]
  | float x =>
    obtain ⟨n, -, hc, hl⟩ | ⟨hc, hl⟩ := float_cases x <;> simp [hc, hl, Lexeme.spelled]
  | str s => simp [compact, lexemes, Lexeme.spelled, string]
  | array items ih => simp [compact, lexemes, compactItems_written ih, Lexeme.spelled]
  | map entries ih => simp [compact, lexemes, compactEntries_written ih, Lexeme.spelled]

theorem spaced_compact (v : Value) : Spaced (compact v) (written (lexemes v)) :=
  compact_eq v ▸ spaced_flatten _

section Pretty

variable {indent : Text} (hindent : ∀ c ∈ indent, isBlank c)

include hindent

theorem spaced_newLine (depth : Nat) : Spaced (newLine indent depth) [] := by
  refine spaced_blanks fun c hc => ?_
  rcases List.mem_cons.mp hc with rfl | hc
  · decide
  · obtain ⟨t, ht, hc⟩ := List.mem_flatten.mp hc
    exact hindent c (List.eq_of_mem_replicate ht ▸ hc)

theorem spaced_prettyItems {items : List Value} (depth : Nat)
    (h : ∀ v ∈ items, ∀ depth, Spaced (pretty indent depth v) (written (lexemes v))) :
    Spaced (prettyItems indent depth items) (written (itemLexemes items)) := by
  have hline := spaced_newLine hindent depth
  induction items with
  | nil => exact .done
  | cons v items ih =>
    obtain ⟨hv, hitems⟩ := List.forall_mem_cons.mp h
    cases items with
    | nil => exact hline.append (hv depth)
    | cons w items =>
      simp only [prettyItems, itemLexemes, written_append]
      exact ((hline.append (hv depth)).append (spaced_word [','])).append (ih hitems)

theorem spaced_prettyEntries {entries : List (Text × Value)} (depth : Nat)
    (h : ∀ e ∈ entries, ∀ depth, Spaced (pretty indent depth e.2) (written (lexemes e.2))) :
    Spaced (prettyEntries indent depth entries) (written (entryLexemes entries)) := by
  have hline := spaced_newLine hindent depth
  have hcolon : Spaced [':', ' '] [[':']] :=
    (spaced_word [':']).append (spaced_blanks (List.forall_mem_singleton.mpr rfl))
  have hentry : ∀ (k : Text) (v : Value),
      (∀ depth, Spaced (pretty indent depth v) (written (lexemes v))) →
      Spaced (newLine indent depth ++ string k ++ [':', ' '] ++ pretty indent depth v)
        (written (.string k :: .sign ':' :: lexemes v)) := fun k v hv =>
    ((hline.append (spaced_word (string k))).append hcolon).append (hv depth)
  induction entries with
  | nil => exact .done
  | cons e entries ih =>
    obtain ⟨he, hentries⟩ := List.forall_mem_cons.mp h
    obtain ⟨k, v⟩ := e
    cases entries with
    | nil => exact hentry k v he
    | cons e entries =>
      simp only [prettyEntries, entryLexemes, written_append]
      exact ((hentry k v he).append (spaced_word [','])).append (ih hentries)

/-- The text of a value over lines is its lexemes, with blanks between them. -/
theorem spaced_pretty (v : Value) (depth : Nat) :
    Spaced (pretty indent depth v) (written (lexemes v)) := by
  induction v using value_induction generalizing depth with
  | null => exact spaced_compact .null
  | bool b => exact spaced_compact (.bool b)
  | int i => exact spaced_compact (.int i)
  | float x => exact spaced_compact (.float x)
  | str s => exact spaced_compact (.str s)
  | array items ih =>
    cases items with
    | nil => exact spaced_compact (.array [])
    | cons v items =>
      have hitems := spaced_prettyItems hindent (depth + 1) ih
      have htext := (((spaced_word ['[']).append hitems).append
        (spaced_newLine hindent depth)).append (spaced_word [']'])
      simpa [pretty, lexemes, Lexeme.spelled] using htext
  | map entries ih =>
    cases entries with
    | nil => exact spaced_compact (.map [])
    | cons e entries =>
      have hentries := spaced_prettyEntries hindent (depth + 1) ih
      have htext := (((spaced_word ['{']).append hentries).append
        (spaced_newLine hindent depth)).append (spaced_word ['}'])
      simpa [pretty, lexemes, Lexeme.spelled] using htext

end Pretty

end Json

namespace JsonText

open Json

/-- A character of a text without angle brackets. -/
def unangled (c : Char) : Text := if c = '<' then "\\u003c".toList else [c]

/-- A character of a text with a margin before its lines. -/
def indented (margin : Nat) (c : Char) : Text :=
  if c = '\n' then '\n' :: List.replicate margin ' ' else [c]

/-- A character of a string in a text without angle brackets. -/
def safeChar (c : Char) : Text := if c = '<' then "\\u003c".toList else escapeChar c

/-- The text that is made fit for a page. -/
def unfit (v : Value) (indent : Nat) : Text :=
  if indent = 0 then compact v else pretty (List.replicate indent ' ') 0 v

variable {c d : Char} {s : Text} {l : Lexeme}

theorem flatMap_eq_self {f : Char → Text} (h : ∀ c ∈ s, f c = [c]) : s.flatMap f = s :=
  (List.flatMap_congr h).trans (List.flatMap_singleton' s)

theorem write_eq (v : Value) (indent margin : Nat) :
    write v indent margin = ((unfit v indent).flatMap unangled).flatMap (indented margin) := by
  unfold write
  dsimp only
  rw [Text.replace_singleton]
  split
  next h =>
    subst h
    refine (flatMap_eq_self fun c _ => ?_).symm
    unfold indented
    split <;> simp [*]
  next => exact Text.replace_singleton _ _ _

theorem not_mem_write (v : Value) (indent margin : Nat) : '<' ∉ write v indent margin := by
  rw [write_eq]
  intro h
  obtain ⟨c, hc, hindented⟩ := List.mem_flatMap.mp h
  obtain ⟨d, -, hd⟩ := List.mem_flatMap.mp hc
  have hne : c ≠ '<' := by
    rintro rfl
    unfold unangled at hd
    split at hd
    · exact absurd hd (by decide)
    next hdne => exact hdne (List.mem_singleton.mp hd).symm
  unfold indented at hindented
  split at hindented
  · simp at hindented
  · exact hne (List.mem_singleton.mp hindented).symm

/-- Is this character neither a line break nor an angle bracket? -/
def isPlain (c : Char) : Bool := c != '\n' && c != '<'

theorem isPlain_iff : isPlain c ↔ c ≠ '\n' ∧ c ≠ '<' := by
  simp [isPlain]

/-- What is written for a character of a string has no line break, and no other angle bracket than
the character. -/
theorem plain_of_mem_escapeChar (h : d ∈ escapeChar c) : isPlain d ∨ d = '<' ∧ c = '<' := by
  have hhex : ∀ n < 16, isPlain (hexDigit n) := by decide
  have hall : ∀ {w : Text}, w.all isPlain → d ∈ w → isPlain d ∨ d = '<' ∧ c = '<' := fun hw hd =>
    .inl (List.all_eq_true.mp hw d hd)
  unfold escapeChar at h
  split_ifs at h with hquote hslash h8 h12 hn hr ht hcontrol
  · exact hall (by decide) h
  · exact hall (by decide) h
  · exact hall (by decide) h
  · exact hall (by decide) h
  · exact hall (by decide) h
  · exact hall (by decide) h
  · exact hall (by decide) h
  · refine hall ?_ h
    have h1 := hhex (c.toNat / 16) (by omega)
    have h2 := hhex (c.toNat % 16) (by omega)
    simp [h1, h2]
    decide
  · cases List.mem_singleton.mp h
    by_cases hangle : c = '<'
    · exact .inr ⟨hangle, hangle⟩
    · exact .inl (isPlain_iff.mpr ⟨hn, hangle⟩)

theorem escapeChar_unangled (c : Char) : (escapeChar c).flatMap unangled = safeChar c := by
  unfold safeChar
  split
  next h =>
    subst h
    rfl
  next h =>
    refine flatMap_eq_self fun d hd => if_neg ?_
    rcases plain_of_mem_escapeChar hd with hd | ⟨-, hc⟩
    · exact (isPlain_iff.mp hd).2
    · exact absurd hc h

theorem not_mem_safeChar (c : Char) : '\n' ∉ safeChar c := by
  unfold safeChar
  split
  · decide
  · intro h
    rcases plain_of_mem_escapeChar h with h | ⟨h, -⟩
    · exact absurd h (by decide)
    · exact absurd h (by decide)

theorem readsBack_safeChar : ReadsBack safeChar := by
  intro c fuel s
  unfold safeChar
  split
  next h =>
    subst h
    have hthree : hexDigit ('<'.toNat / 16) = '3' := by decide
    have hlast : hexDigit ('<'.toNat % 16) = 'c' := by decide
    have hread := @unicode?_hexDigit '<' (by decide) s
    rw [hthree, hlast] at hread
    exact stringBody?_escaped (t := 'u' :: '0' :: '0' :: '3' :: 'c' :: s) hread fuel
  next => exact stringBody?_escapeChar c fuel s

/-- Only strings can have a line break or an angle bracket. -/
theorem plain_of_mem_spelled {spell : Char → Text} (h : l.Valid) (hl : ∀ s, l ≠ .string s) :
    ∀ c ∈ l.spelled spell, isPlain c := by
  cases l with
  | sign c =>
    refine List.forall_mem_singleton.mpr (isPlain_iff.mpr ⟨?_, ?_⟩)
    · rintro rfl
      cases h
    · rintro rfl
      cases h
  | name s =>
    have hnames : ∀ s ∈ names, s.all isPlain := by decide
    exact List.all_eq_true.mp (hnames s h)
  | number n =>
    intro c hc
    have hnumeral := Numeral.Valid.isNumeral h c hc
    refine isPlain_iff.mpr ⟨?_, ?_⟩
    · rintro rfl
      simp [Binary64.IsNumeral] at hnumeral
    · rintro rfl
      simp [Binary64.IsNumeral] at hnumeral
  | string s => exact absurd rfl (hl s)

theorem spelled_unangled (h : l.Valid) :
    (l.spelled escapeChar).flatMap unangled = l.spelled safeChar := by
  cases l with
  | string s =>
    have hbody : (s.flatMap escapeChar).flatMap unangled = s.flatMap safeChar := by
      rw [List.flatMap_assoc]
      exact List.flatMap_congr fun c _ => escapeChar_unangled c
    simp [Lexeme.spelled, hbody, unangled]
  | _ =>
    have hplain := @plain_of_mem_spelled _ escapeChar h (by simp)
    exact flatMap_eq_self fun c hc => if_neg (isPlain_iff.mp (hplain c hc)).2

theorem spelled_indented (h : l.Valid) (margin : Nat) :
    (l.spelled safeChar).flatMap (indented margin) = l.spelled safeChar := by
  have hbreak : '\n' ∉ l.spelled safeChar := by
    intro hmem
    cases l with
    | string s =>
      simp only [Lexeme.spelled, List.cons_append, List.mem_cons, List.mem_append, List.mem_flatMap,
        List.not_mem_nil, or_false] at hmem
      rcases hmem with hquote | ⟨c, -, hc⟩ | hquote
      · exact absurd hquote (by decide)
      · exact not_mem_safeChar c hc
      · exact absurd hquote (by decide)
    | _ => exact absurd (plain_of_mem_spelled h (by simp) _ hmem) (by decide)
  refine flatMap_eq_self fun c hc => if_neg ?_
  rintro rfl
  exact hbreak hc

theorem spaced_unfit (v : Value) (indent : Nat) :
    Spaced (unfit v indent) (written (lexemes v)) := by
  unfold unfit
  split
  · exact spaced_compact v
  · exact spaced_pretty (fun c hc => List.eq_of_mem_replicate hc ▸ rfl) v 0

theorem spaced_write (v : Value) (indent margin : Nat) :
    Spaced (write v indent margin) ((lexemes v).map (Lexeme.spelled safeChar)) := by
  have hunangled : ∀ c, isBlank c → ∀ d ∈ unangled c, isBlank d := by
    intro c hc
    unfold unangled
    split
    next h => simp [h, isBlank] at hc
    next => exact List.forall_mem_singleton.mpr hc
  have hindented : ∀ c, isBlank c → ∀ d ∈ indented margin c, isBlank d := by
    intro c hc
    unfold indented
    split
    · exact List.forall_mem_cons.mpr ⟨rfl, fun d hd => List.eq_of_mem_replicate hd ▸ rfl⟩
    · exact List.forall_mem_singleton.mpr hc
  have htext := ((spaced_unfit v indent).flatMap hunangled).flatMap hindented
  rw [← write_eq, written, List.map_map, List.map_map] at htext
  have hvalid := (isText_lexemes v).valid
  have hwords := List.map_congr_left fun l hl =>
    (congrArg (List.flatMap (indented margin)) (spelled_unangled (hvalid l hl))).trans
      (spelled_indented (hvalid l hl) margin)
  exact hwords ▸ htext

/-- What is written into a page has no angle bracket, and whatever its indentation and margin, it is
the lexemes of the compact text of the value, with blanks between them. -/
theorem write_lexemes (v : Value) : ∃ ls, IsText ls ∧ Lexes escapeChar (compact v) ls ∧
    ∀ indent margin, '<' ∉ write v indent margin ∧ Lexes safeChar (write v indent margin) ls ∧
      read? (write v indent margin) = read? (compact v) := by
  have htext := isText_lexemes v
  have hcompact := (spaced_compact v).lexes stringBody?_escapeChar htext.parted htext.valid
  refine ⟨lexemes v, htext, hcompact, fun indent margin => ?_⟩
  have hwrite := (spaced_write v indent margin).lexes readsBack_safeChar htext.parted htext.valid
  exact ⟨not_mem_write v indent margin, hwrite,
    (read?_of_lexes hwrite).trans (read?_of_lexes hcompact).symm⟩

end JsonText

end Stencil
