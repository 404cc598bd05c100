import Stencil.Proofs.Numeral

namespace Stencil.Json

open Binary64 Text

inductive Lexeme where
  | sign (c : Char)
  | name (s : Text)
  | number (n : Numeral)
  | string (s : Text)

def names : List Text := ["true".toList, "false".toList, "null".toList]

/-- Reads one lexeme from the start of a text, as much as belongs to it. -/
def lexeme? (s : Text) : Option (Lexeme × Text) :=
  match s with
  | [] => none
  | '"' :: rest => (stringBody? s.length rest).map fun (body, rest) => (.string body, rest)
  | c :: rest =>
    if (sign? c).isSome then some (.sign c, rest)
    else if c == '-' || c.isDigit then (numeral? s).map fun (n, rest) => (.number n, rest)
    else names.findSome? fun name => (strip? name s).map fun rest => (.name name, rest)

namespace Lexeme

/-- The token of a lexeme. There is none for a number beyond the greatest float. -/
def token? : Lexeme → Option Token
  | .sign c => sign? c
  | .name s => (name? s).map Prod.fst
  | .number n => n.value?.map .atom
  | .string s => some (.string s)

/-- Is this a lexeme that JSON has? -/
def Valid : Lexeme → Prop
  | .sign c => (sign? c).isSome
  | .name s => s ∈ names
  | .number n => n.Valid
  | .string _ => True

/-- A lexeme with a way to write the characters of strings. -/
def spelled (spell : Char → Text) : Lexeme → Text
  | .sign c => [c]
  | .name s => s
  | .number n => n.spelled
  | .string s => '"' :: s.flatMap spell ++ ['"']

end Lexeme

/-- A text is read as lexemes that are spelled in one way, with nothing but blanks between them. -/
inductive Lexes (spell : Char → Text) : Text → List Lexeme → Prop
  | done : Lexes spell [] []
  | blank {c : Char} {s : Text} {ls : List Lexeme} (hc : isBlank c) (h : Lexes spell s ls) :
      Lexes spell (c :: s) ls
  | word {l : Lexeme} {s rest : Text} {ls : List Lexeme} (hne : l.spelled spell ≠ [])
      (hs : s = l.spelled spell ++ rest) (hl : lexeme? s = some (l, rest))
      (h : Lexes spell rest ls) : Lexes spell s (l :: ls)

/-- Are these the lexemes of one JSON value? -/
inductive IsText : List Lexeme → Prop
  | name {s : Text} (h : s ∈ names) : IsText [.name s]
  | number {n : Numeral} (h : n.Valid) : IsText [.number n]
  | string (s : Text) : IsText [.string s]
  | array {items : List (List Lexeme)} (h : ∀ ls ∈ items, IsText ls) :
      IsText (.sign '[' :: [.sign ','].intercalate items ++ [.sign ']'])
  | map {entries : List (Text × List Lexeme)} (h : ∀ e ∈ entries, IsText e.2) :
      IsText (.sign '{' :: [.sign ','].intercalate
        (entries.map fun e => .string e.1 :: .sign ':' :: e.2) ++ [.sign '}'])

variable {spell : Char → Text} {c : Char} {s rest : Text} {l : Lexeme} {ls : List Lexeme}

theorem lexeme?_cons (h : c ≠ '"') (s : Text) : lexeme? (c :: s) =
    if (sign? c).isSome then some (.sign c, s)
    else if c == '-' || c.isDigit then (numeral? (c :: s)).map fun r => (.number r.1, r.2)
    else names.findSome? fun name => (strip? name (c :: s)).map fun rest => (.name name, rest) := by
  rw [lexeme?]
  exact h

theorem name?_eq (s : Text) : name? s =
    (names.findSome? fun name => (strip? name s).map fun rest => (Lexeme.name name, rest)).bind
      fun r => r.1.token?.map fun t => (t, r.2) := by
  have htrue : (Lexeme.name "true".toList).token? = some (.atom (.bool true)) := by rfl
  have hfalse : (Lexeme.name "false".toList).token? = some (.atom (.bool false)) := by rfl
  have hnull : (Lexeme.name "null".toList).token? = some (.atom .null) := by rfl
  unfold name? names
  simp only [List.findSome?_cons, List.findSome?_nil]
  cases strip? "true".toList s with
  | some rest => exact (congrArg (Option.map fun t => (t, rest)) htrue).symm
  | none =>
    cases strip? "false".toList s with
    | some rest => exact (congrArg (Option.map fun t => (t, rest)) hfalse).symm
    | none =>
      cases strip? "null".toList s with
      | some rest => exact (congrArg (Option.map fun t => (t, rest)) hnull).symm
      | none => rfl

/-- A token is a lexeme with its value. -/
theorem token?_eq (s : Text) :
    token? s = (lexeme? s).bind fun r => r.1.token?.map fun t => (t, r.2) := by
  cases s with
  | nil => rfl
  | cons c s =>
    by_cases hquote : c = '"'
    · subst hquote
      rw [token?, lexeme?]
      cases stringBody? ('"' :: s).length s <;> rfl
    · rw [lexeme?_cons hquote, token?]
      · cases hc : sign? c with
        | some t => simp [Lexeme.token?, hc]
        | none =>
          simp only [Option.isSome_none, Bool.false_eq_true, if_false]
          split
          · cases numeral? (c :: s) with
            | none => rfl
            | some r =>
              cases hv : r.1.value? <;> simp [Lexeme.token?, hv]
          · exact name?_eq (c :: s)
      · exact hquote

theorem isBlank_of_lexeme? (h : lexeme? (c :: s) = some (l, rest)) : isBlank c = false := by
  by_contra hc
  simp only [Bool.not_eq_false, isBlank, Bool.or_eq_true, beq_iff_eq] at hc
  rcases hc with ((rfl | rfl) | rfl) | rfl <;> cases h

theorem tokens?_of_lexes (h : Lexes spell s ls) {fuel : Nat} (hfuel : s.length < fuel) :
    tokens? fuel s = ls.mapM Lexeme.token? := by
  induction h generalizing fuel with
  | done =>
    obtain ⟨fuel, rfl⟩ := Nat.exists_eq_succ_of_ne_zero (Nat.ne_of_gt hfuel)
    rfl
  | @blank c s ls hc h ih =>
    obtain ⟨fuel, rfl⟩ := Nat.exists_eq_succ_of_ne_zero (by omega : fuel ≠ 0)
    have hmore := ih (Nat.lt_of_succ_lt hfuel)
    rw [← hmore, tokens?, tokens?, List.dropWhile_cons_of_pos hc]
  | @word l s rest ls hne hs hl h ih =>
    obtain ⟨fuel, rfl⟩ := Nat.exists_eq_succ_of_ne_zero (by omega : fuel ≠ 0)
    have hlength : rest.length < fuel := by
      have := List.length_pos_iff.mpr hne
      rw [hs, List.length_append] at hfuel
      omega
    obtain ⟨c, t, rfl⟩ : ∃ c t, s = c :: t :=
      List.exists_cons_of_ne_nil (hs ▸ List.append_ne_nil_of_left_ne_nil hne rest)
    rw [tokens?, List.dropWhile_cons_of_neg (by simp [isBlank_of_lexeme? hl])]
    simp only [token?_eq, hl, Option.bind_some, List.mapM_cons, ← ih hlength]
    cases l.token? <;> rfl

/-- What a text is read as depends on its lexemes alone. -/
theorem read?_of_lexes (h : Lexes spell s ls) :
    read? s = (ls.mapM Lexeme.token?).bind (run? [] .value) := by
  rw [read?, tokens?_of_lexes h (Nat.lt_succ_self _)]

/-- A text is read as lexemes in one way only. -/
theorem Lexes.unique {spell' : Char → Text} {ls' : List Lexeme} (h : Lexes spell s ls)
    (h' : Lexes spell' s ls') : ls = ls' := by
  induction h generalizing ls' with
  | done =>
    cases h' with
    | done => rfl
    | word hne hs hl h => cases hl
  | blank hc h ih =>
    cases h' with
    | blank hc' h' => exact ih h'
    | word hne hs hl h' => simp [isBlank_of_lexeme? hl] at hc
  | word hne hs hl h ih =>
    cases h' with
    | done => cases hl
    | blank hc h' => simp [isBlank_of_lexeme? hl] at hc
    | word hne' hs' hl' h' =>
      rw [hl] at hl'
      cases hl'
      rw [ih h']

theorem ReadsBack.ne_nil (hspell : ReadsBack spell) (c : Char) : spell c ≠ [] := by
  intro h
  have := hspell c 0 ['"']
  rw [h] at this
  cases this

theorem ReadsBack.length_le (hspell : ReadsBack spell) (s : Text) :
    s.length ≤ (s.flatMap spell).length := by
  induction s with
  | nil => exact Nat.le_refl 0
  | cons c s ih =>
    have := List.length_pos_iff.mpr (hspell.ne_nil c)
    rw [List.flatMap_cons, List.length_append, List.length_cons]
    omega

theorem Numeral.Valid.exists_head {n : Numeral} (h : n.Valid) :
    ∃ c t, n.spelled = c :: t ∧ (c = '-' ∨ c.isDigit) := by
  obtain ⟨c, ds, hwhole⟩ := List.exists_cons_of_ne_nil h.whole.1
  have hc := h.whole.2 c (hwhole ▸ List.mem_cons_self)
  unfold Numeral.spelled
  rw [hwhole]
  cases n.negative with
  | true => exact ⟨'-', _, rfl, .inl rfl⟩
  | false => exact ⟨c, _, rfl, .inr hc⟩

theorem sign?_of_number (h : c = '-' ∨ c.isDigit) : c ≠ '"' ∧ sign? c = none := by
  have hne : ∀ d : Char, d.isDigit = false → d ≠ '-' → c ≠ d := by
    rintro d hd hminus rfl
    rcases h with h | h
    · exact hminus h
    · simp [h] at hd
  refine ⟨hne '"' (by decide) (by decide), ?_⟩
  unfold sign?
  split
  · exact absurd rfl (hne '[' (by decide) (by decide))
  · exact absurd rfl (hne ']' (by decide) (by decide))
  · exact absurd rfl (hne '{' (by decide) (by decide))
  · exact absurd rfl (hne '}' (by decide) (by decide))
  · exact absurd rfl (hne ',' (by decide) (by decide))
  · exact absurd rfl (hne ':' (by decide) (by decide))
  · rfl

/-- A lexeme is read as it is spelled, if what follows a number is not a part of it. -/
theorem lexeme?_spelled (hspell : ReadsBack spell) (hl : l.Valid)
    (hrest : ∀ n, l = .number n → Stops rest) :
    lexeme? (l.spelled spell ++ rest) = some (l, rest) := by
  cases l with
  | sign c =>
    have hc : c ≠ '"' := by
      rintro rfl
      cases hl
    rw [Lexeme.spelled, List.singleton_append, lexeme?_cons hc]
    exact if_pos hl
  | name s =>
    have hs : s = "true".toList ∨ s = "false".toList ∨ s = "null".toList := by
      simpa [Lexeme.Valid, names] using hl
    rcases hs with rfl | rfl | rfl <;> rfl
  | number n =>
    obtain ⟨c, t, ht, hc⟩ := Numeral.Valid.exists_head hl
    obtain ⟨hquote, hsign⟩ := sign?_of_number hc
    have hread := numeral?_spelled hl (hrest n rfl)
    rw [Lexeme.spelled]
    rw [ht, List.cons_append] at hread ⊢
    have hstart : (c == '-' || c.isDigit) = true := by simpa using hc
    simp [lexeme?_cons hquote, hsign, hstart, hread]
  | string s =>
    have hlength := hspell.length_le s
    have hbody := stringBody?_flatMap hspell s rest
      ('"' :: (s.flatMap spell ++ '"' :: rest)).length
      (by rw [List.length_cons, List.length_append]; omega)
    rw [Lexeme.spelled, List.cons_append, List.cons_append, List.append_assoc,
      List.singleton_append, lexeme?, hbody, Option.map_some]

/-- A text is words, in their order, with nothing but blanks between them. -/
inductive Spaced : Text → List Text → Prop
  | done : Spaced [] []
  | blank {c : Char} {s : Text} {ws : List Text} (hc : isBlank c) (h : Spaced s ws) :
      Spaced (c :: s) ws
  | word {w s : Text} {ws : List Text} (h : Spaced s ws) : Spaced (w ++ s) (w :: ws)

variable {t w : Text} {ws vs : List Text}

theorem Spaced.append (h : Spaced s ws) (h' : Spaced t vs) : Spaced (s ++ t) (ws ++ vs) := by
  induction h with
  | done => exact h'
  | blank hc h ih => exact .blank hc ih
  | word h ih =>
    rw [List.append_assoc]
    exact .word ih

theorem spaced_blanks (h : ∀ c ∈ s, isBlank c) : Spaced s [] := by
  induction s with
  | nil => exact .done
  | cons c s ih =>
    obtain ⟨hc, hs⟩ := List.forall_mem_cons.mp h
    exact .blank hc (ih hs)

theorem spaced_word (w : Text) : Spaced w [w] := by
  have := Spaced.word (w := w) .done
  rwa [List.append_nil] at this

theorem spaced_flatten (ws : List Text) : Spaced ws.flatten ws := by
  induction ws with
  | nil => exact .done
  | cons w ws ih => exact .word ih

/-- What is done to each character, blanks staying blanks, is done to the words. -/
theorem Spaced.flatMap {f : Char → Text} (hf : ∀ c, isBlank c → ∀ d ∈ f c, isBlank d)
    (h : Spaced s ws) : Spaced (s.flatMap f) (ws.map fun w => w.flatMap f) := by
  induction h with
  | done => exact .done
  | @blank c s ws hc h ih =>
    have := (spaced_blanks (hf c hc)).append ih
    rwa [List.nil_append, ← List.flatMap_cons] at this
  | word h ih =>
    rw [List.flatMap_append, List.map_cons]
    exact .word ih

namespace Lexeme

def isSign : Lexeme → Bool
  | sign _ => true
  | _ => false

end Lexeme

/-- Of two lexemes that follow each other, one is a sign. -/
def Parted (ls : List Lexeme) : Prop := ls.IsChain fun a b => a.isSign ∨ b.isSign

theorem parted_singleton (l : Lexeme) : Parted [l] := List.isChain_singleton l

theorem parted_cons_sign {c : Char} : Parted (.sign c :: ls) ↔ Parted ls := by
  rw [Parted, List.isChain_cons, and_iff_right (fun l _ => .inl rfl), Parted]

theorem parted_append_sign {c : Char} {ms : List Lexeme} :
    Parted (ls ++ .sign c :: ms) ↔ Parted ls ∧ Parted ms := by
  rw [Parted, List.isChain_append]
  have hlast : ∀ x ∈ ls.getLast?, ∀ y ∈ (Lexeme.sign c :: ms).head?, x.isSign ∨ y.isSign := by
    rintro x - y (_ | _)
    exact .inr rfl
  rw [and_congr_right fun _ => and_iff_left hlast]
  exact and_congr_right fun _ => parted_cons_sign

theorem intercalate_cons_cons (ls ms : List Lexeme) (items : List (List Lexeme)) :
    [Lexeme.sign ','].intercalate (ls :: ms :: items) =
      ls ++ .sign ',' :: [.sign ','].intercalate (ms :: items) := by
  simp [List.intercalate]

theorem parted_intercalate {items : List (List Lexeme)} (h : ∀ ls ∈ items, Parted ls) :
    Parted ([.sign ','].intercalate items) := by
  induction items with
  | nil => exact List.isChain_nil
  | cons ls items ih =>
    obtain ⟨hls, hitems⟩ := List.forall_mem_cons.mp h
    cases items with
    | nil => simpa [List.intercalate] using hls
    | cons ms items =>
      rw [intercalate_cons_cons, parted_append_sign]
      exact ⟨hls, ih hitems⟩

theorem IsText.parted (h : IsText ls) : Parted ls := by
  induction h with
  | name => exact parted_singleton _
  | number => exact parted_singleton _
  | string => exact parted_singleton _
  | array h ih =>
    rw [List.cons_append, parted_cons_sign, parted_append_sign]
    exact ⟨parted_intercalate ih, List.isChain_nil⟩
  | @map entries h ih =>
    rw [List.cons_append, parted_cons_sign, parted_append_sign]
    refine ⟨parted_intercalate fun ls hls => ?_, List.isChain_nil⟩
    obtain ⟨e, he, rfl⟩ := List.mem_map.mp hls
    have hparts := And.intro (parted_singleton (.string e.1)) (ih e he)
    exact parted_append_sign.mpr hparts

theorem valid_intercalate {items : List (List Lexeme)} (h : ∀ ls ∈ items, ∀ l ∈ ls, l.Valid) :
    ∀ l ∈ [Lexeme.sign ','].intercalate items, l.Valid := by
  induction items with
  | nil => exact nofun
  | cons ls items ih =>
    obtain ⟨hls, hitems⟩ := List.forall_mem_cons.mp h
    cases items with
    | nil => simpa [List.intercalate] using hls
    | cons ms items =>
      rw [intercalate_cons_cons]
      exact List.forall_mem_append.mpr ⟨hls, List.forall_mem_cons.mpr ⟨rfl, ih hitems⟩⟩

theorem valid_between {first last : Char} (hfirst : (Lexeme.sign first).Valid)
    (hlast : (Lexeme.sign last).Valid) (h : ∀ l ∈ ls, l.Valid) :
    ∀ l ∈ Lexeme.sign first :: ls ++ [.sign last], l.Valid :=
  List.forall_mem_append.mpr
    ⟨List.forall_mem_cons.mpr ⟨hfirst, h⟩, List.forall_mem_singleton.mpr hlast⟩

theorem IsText.valid (h : IsText ls) : ∀ l ∈ ls, l.Valid := by
  induction h with
  | name h => exact List.forall_mem_singleton.mpr h
  | number h => exact List.forall_mem_singleton.mpr h
  | string => exact List.forall_mem_singleton.mpr trivial
  | array h ih => exact valid_between rfl rfl (valid_intercalate ih)
  | map h ih =>
    refine valid_between rfl rfl (valid_intercalate fun ls hls => ?_)
    obtain ⟨e, he, rfl⟩ := List.mem_map.mp hls
    exact List.forall_mem_cons.mpr ⟨trivial, List.forall_mem_cons.mpr ⟨rfl, ih e he⟩⟩

theorem stops_cons {c : Char} (h : isBlank c ∨ (sign? c).isSome) : Stops (c :: s) := by
  rintro d (_ | _)
  rcases h with h | h
  · simp only [isBlank, Bool.or_eq_true, beq_iff_eq] at h
    rcases h with ((rfl | rfl) | rfl) | rfl <;> decide
  · unfold sign? at h
    split at h
    case h_7 => cases h
    all_goals decide

/-- Words whose first is a sign stop a number, and so do blanks. -/
theorem Spaced.stops (h : Spaced s (ls.map (Lexeme.spelled spell)))
    (hl : ∀ l ∈ ls.head?, l.isSign ∧ l.Valid) : Stops s := by
  cases ls with
  | nil =>
    cases h with
    | done => exact nofun
    | blank hc h => exact stops_cons (.inl hc)
  | cons l ls =>
    cases h with
    | blank hc h => exact stops_cons (.inl hc)
    | word h =>
      obtain ⟨hsign, hvalid⟩ := hl l rfl
      cases l with
      | sign c => exact stops_cons (.inr hvalid)
      | _ => cases hsign

theorem Lexeme.spelled_ne_nil {l : Lexeme} (h : l.Valid) : l.spelled spell ≠ [] := by
  cases l with
  | sign c => exact List.cons_ne_nil c []
  | name s =>
    rintro rfl
    have hmem : ([] : Text) ∈ names := h
    exact absurd hmem (by decide)
  | number n =>
    obtain ⟨c, t, ht, -⟩ := Numeral.Valid.exists_head h
    rw [Lexeme.spelled, ht]
    exact List.cons_ne_nil c t
  | string s => exact List.cons_ne_nil _ _

/-- Words with blanks between them are read as the lexemes that they spell. -/
theorem Spaced.lexes (hspell : ReadsBack spell) (h : Spaced s (ls.map (Lexeme.spelled spell)))
    (hparted : Parted ls) (hvalid : ∀ l ∈ ls, l.Valid) : Lexes spell s ls := by
  generalize hws : ls.map (Lexeme.spelled spell) = ws at h
  induction h generalizing ls with
  | done =>
    rw [List.map_eq_nil_iff.mp hws]
    exact .done
  | blank hc h ih => exact .blank hc (ih hparted hvalid hws)
  | @word w s ws h ih =>
    obtain ⟨l, ls, rfl, rfl, rfl⟩ := List.map_eq_cons_iff.mp hws
    obtain ⟨hl, hls⟩ := List.forall_mem_cons.mp hvalid
    obtain ⟨hnext, hrest⟩ := List.isChain_cons.mp hparted
    refine .word (Lexeme.spelled_ne_nil hl) rfl (lexeme?_spelled hspell hl ?_) (ih hrest hls rfl)
    -- a number is followed by a sign, if not by blanks
    rintro n rfl
    refine h.stops fun l hmem => ⟨?_, hls l (List.mem_of_mem_head? hmem)⟩
    exact (hnext l hmem).resolve_left Bool.false_ne_true

end Stencil.Json
