import Stencil.Constants
import Stencil.Json.Reader
import Stencil.Json.Printer
import Stencil.Proofs.Decimal
import Stencil.Proofs.Dictionary

namespace Stencil

/-- Is this a value that a JSON text can have? All its numbers are finite. -/
inductive Value.IsJson : Value → Prop
  | null : IsJson .null
  | bool (b : Bool) : IsJson (.bool b)
  | int (i : Int) : IsJson (.int i)
  | float {x : Binary64} (hc : x.Canonical) (hf : x.isFinite) : IsJson (.float x)
  | str (s : Text) : IsJson (.str s)
  | array {items : List Value} (h : ∀ v ∈ items, IsJson v) : IsJson (.array items)
  | map {entries : List (Text × Value)} (h : ∀ e ∈ entries, IsJson e.2) : IsJson (.map entries)

namespace Binary64

/-- A character of a number in a JSON text. -/
def IsNumeral (c : Char) : Prop := c.isDigit ∨ c = '.' ∨ c = 'e' ∨ c = '+' ∨ c = '-'

theorem isNumeral_positional (point : Bool) (d : Decimal) :
    ∀ c ∈ positional point d, IsNumeral c := by
  have hdigits : ∀ c ∈ Nat.toDigits 10 d.digits, IsNumeral c := fun c hc =>
    .inl (isDigit_of_mem_toDigits hc)
  have hzeros : ∀ k, ∀ c ∈ List.replicate k '0', IsNumeral c := fun k c hc =>
    .inl (isDigit_of_mem_zeros hc)
  intro c hc
  unfold positional at hc
  dsimp only at hc
  split at hc
  · rcases List.mem_append.mp hc with hc | hc
    · exact (List.mem_append.mp hc).elim (hdigits c) (hzeros _ c)
    · cases point with
      | true =>
        have : c = '.' ∨ c = '0' := by simpa using hc
        rcases this with rfl | rfl
        · exact .inr (.inl rfl)
        · exact .inl (by decide)
      | false => simp at hc
  · split at hc
    · rcases List.mem_append.mp hc with hc | hc
      · rcases List.mem_append.mp hc with hc | hc
        · exact hdigits c (List.mem_of_mem_take hc)
        · exact .inr (.inl (List.mem_singleton.mp hc))
      · exact hdigits c (List.mem_of_mem_drop hc)
    · rcases List.mem_append.mp hc with hc | hc
      · rcases List.mem_append.mp hc with hc | hc
        · have : c = '0' ∨ c = '.' := by simpa using hc
          rcases this with rfl | rfl
          · exact .inl (by decide)
          · exact .inr (.inl rfl)
        · exact hzeros _ c hc
      · exact hdigits c hc

theorem mem_point_positional (d : Decimal) : '.' ∈ positional true d := by
  unfold positional
  dsimp only
  split
  · simp
  · split <;> simp

theorem isNumeral_scientific (d : Decimal) : ∀ c ∈ scientific d, IsNumeral c := by
  have hdigits : ∀ c ∈ Nat.toDigits 10 d.digits, IsNumeral c := fun c hc =>
    .inl (isDigit_of_mem_toDigits hc)
  intro c hc
  unfold scientific at hc
  dsimp only at hc
  rcases List.mem_append.mp hc with hc | hc
  · rcases List.mem_append.mp hc with hc | hc
    · generalize Nat.toDigits 10 d.digits = ds at hc hdigits
      rcases ds with _ | ⟨a, _ | ⟨b, ds⟩⟩
      · simp at hc
      · exact hdigits c hc
      · rcases List.mem_cons.mp hc with rfl | hc
        · exact hdigits _ List.mem_cons_self
        · rcases List.mem_cons.mp hc with rfl | hc
          · exact .inr (.inl rfl)
          · exact hdigits c (List.mem_cons_of_mem a hc)
    · exact .inr (.inr (.inl (List.mem_singleton.mp hc)))
  · have hnat : ∀ n, c ∈ Text.ofNat n → IsNumeral c := fun n h => .inl (Text.isDigit_of_mem_ofNat h)
    split at hc
    · rcases List.mem_cons.mp hc with rfl | hc
      · exact .inr (.inr (.inr (.inr rfl)))
      · exact hnat _ hc
    · rcases List.mem_cons.mp hc with rfl | hc
      · exact .inr (.inr (.inr (.inl rfl)))
      · exact hnat _ hc

theorem mem_letter_scientific (d : Decimal) : 'e' ∈ scientific d := by
  unfold scientific
  simp

theorem isNumeral_write (f : Format) (negative : Bool) (m : Nat) (q : Int) :
    ∀ c ∈ write f negative m q, IsNumeral c := by
  have hsign : ∀ c ∈ sign negative, IsNumeral c := by
    intro c hc
    cases negative with
    | true => exact .inr (.inr (.inr (.inr (List.mem_singleton.mp hc))))
    | false => simp [sign] at hc
  have hzero : ∀ c ∈ (if f.point then ['0', '.', '0'] else ['0']), IsNumeral c := by
    split <;> simp [IsNumeral]
  intro c hc
  unfold write at hc
  rcases List.mem_append.mp hc with hc | hc
  · exact hsign c hc
  · split at hc
    · exact hzero c hc
    · dsimp only at hc
      split at hc
      · exact isNumeral_positional _ _ c hc
      · exact isNumeral_scientific _ c hc

/-- A number of a JSON text has no characters but those of numbers, and a point or an exponent. -/
theorem write_jsonFormat (negative : Bool) (m : Nat) (q : Int) :
    (∀ c ∈ write jsonFormat negative m q, IsNumeral c) ∧
      ('.' ∈ write jsonFormat negative m q ∨ 'e' ∈ write jsonFormat negative m q) := by
  refine ⟨isNumeral_write jsonFormat negative m q, ?_⟩
  unfold write
  have hright : ∀ s : Text, ('.' ∈ s ∨ 'e' ∈ s) →
      '.' ∈ sign negative ++ s ∨ 'e' ∈ sign negative ++ s := fun s hp =>
    hp.imp (List.mem_append_right _) (List.mem_append_right _)
  refine hright _ ?_
  split
  · exact .inl (by simp [jsonFormat])
  · dsimp only
    split
    · exact .inl (mem_point_positional _)
    · exact .inr (mem_letter_scientific _)

end Binary64

namespace Json

theorem hexValue?_hexDigit : ∀ n < 16, hexValue? (hexDigit n) = some n := by decide

/-- A character with a small number is read from it. -/
theorem unicode?_hexDigit {c : Char} (h : c.toNat < 256) (s : Text) :
    unicode? ('0' :: '0' :: hexDigit (c.toNat / 16) :: hexDigit (c.toNat % 16) :: s) =
      some (c, s) := by
  have h1 := hexValue?_hexDigit (c.toNat / 16) (by omega)
  have h2 := hexValue?_hexDigit (c.toNat % 16) (by omega)
  have h0 : hexValue? '0' = some 0 := by decide
  have hsum : 0 * 4096 + 0 * 256 + c.toNat / 16 * 16 + c.toNat % 16 = c.toNat := by omega
  simp only [unicode?, hex4?, h0, h1, h2, Option.bind_eq_bind, Option.bind_some, hsum]
  have hlow : ¬(0xD800 ≤ c.toNat ∧ c.toNat < 0xDC00) := by omega
  have hhigh : ¬(0xDC00 ≤ c.toNat ∧ c.toNat < 0xE000) := by omega
  simp only [Option.pure_def, Option.bind_some, hlow, hhigh, if_false, Char.ofNat_toNat]

/-- An escaped character of a string is read as the character. -/
theorem stringBody?_escaped {c : Char} {s t : Text} (ht : escape? t = some (c, s)) (fuel : Nat) :
    stringBody? (fuel + 1) ('\\' :: t) = (stringBody? fuel s).map fun r => (c :: r.1, r.2) := by
  simp only [stringBody?, ht, Option.bind_eq_bind, Option.bind_some]
  cases stringBody? fuel s <;> rfl

/-- A character of a string is read back, escaped or not. -/
theorem stringBody?_escapeChar (c : Char) (fuel : Nat) (s : Text) :
    stringBody? (fuel + 1) (escapeChar c ++ s) =
      (stringBody? fuel s).map fun r => (c :: r.1, r.2) := by
  have hescaped : ∀ t, escape? t = some (c, s) → stringBody? (fuel + 1) ('\\' :: t) =
      (stringBody? fuel s).map fun r => (c :: r.1, r.2) := fun t ht => stringBody?_escaped ht fuel
  have hnumber : ∀ n, c.toNat = n → c = Char.ofNat n := fun n h => by rw [← h, Char.ofNat_toNat]
  unfold escapeChar
  split_ifs with hquote hslash h8 h12 hn hr ht hcontrol
  · exact hescaped ('"' :: s) (by rw [hquote]; rfl)
  · exact hescaped ('\\' :: s) (by rw [hslash]; rfl)
  · exact hescaped ('b' :: s) (by rw [hnumber 8 h8]; rfl)
  · exact hescaped ('f' :: s) (by rw [hnumber 12 h12]; rfl)
  · exact hescaped ('n' :: s) (by rw [hn]; rfl)
  · exact hescaped ('r' :: s) (by rw [hr]; rfl)
  · exact hescaped ('t' :: s) (by rw [ht]; rfl)
  · exact hescaped _ (unicode?_hexDigit (by omega) s)
  · rw [List.singleton_append, stringBody?]
    · rw [if_neg hcontrol]
    · exact hquote
    · exact hslash

/-- Is every character of a string read back from what is written for it? -/
def ReadsBack (spell : Char → Text) : Prop :=
  ∀ (c : Char) (fuel : Nat) (s : Text), stringBody? (fuel + 1) (spell c ++ s) =
    (stringBody? fuel s).map fun r => (c :: r.1, r.2)

theorem stringBody?_flatMap {spell : Char → Text} (hspell : ReadsBack spell) (s rest : Text)
    (fuel : Nat) (h : s.length < fuel) :
    stringBody? fuel (s.flatMap spell ++ '"' :: rest) = some (s, rest) := by
  induction s generalizing fuel with
  | nil =>
    obtain ⟨fuel, rfl⟩ : ∃ n, fuel = n + 1 := ⟨fuel - 1, by simp at h; omega⟩
    rfl
  | cons c s ih =>
    obtain ⟨fuel, rfl⟩ : ∃ n, fuel = n + 1 := ⟨fuel - 1, by simp at h; omega⟩
    rw [List.flatMap_cons, List.append_assoc, hspell, ih fuel (by simpa using h)]
    rfl

/-- A string is read back up to its closing quote. -/
theorem stringBody?_string (s rest : Text) (fuel : Nat) (h : s.length < fuel) :
    stringBody? fuel (s.flatMap escapeChar ++ '"' :: rest) = some (s, rest) :=
  stringBody?_flatMap stringBody?_escapeChar s rest fuel h

theorem string_append_inj {s t a b : Text} (h : string s ++ a = string t ++ b) : s = t ∧ a = b := by
  have hbody : s.flatMap escapeChar ++ '"' :: a = t.flatMap escapeChar ++ '"' :: b := by
    simpa [string] using h
  have hs := stringBody?_string s a (s.length + t.length + 1) (by omega)
  have ht := stringBody?_string t b (s.length + t.length + 1) (by omega)
  rw [hbody, ht] at hs
  simpa [eq_comm] using hs

/-- What follows a value in a text that has more: a separator or a closing bracket. -/
def Delimited (s : Text) : Prop := ∀ c ∈ s.head?, c = ',' ∨ c = ']' ∨ c = '}'

theorem Delimited.not_isNumeral {s : Text} (h : Delimited s) :
    ∀ c ∈ s.head?, ¬Binary64.IsNumeral c := by
  intro c hc
  rcases h c hc with rfl | rfl | rfl <;> simp [Binary64.IsNumeral]

/-- Numbers are told apart from what follows them. -/
theorem numeral_append_inj {m n s t : Text} (hm : ∀ c ∈ m, Binary64.IsNumeral c)
    (hn : ∀ c ∈ n, Binary64.IsNumeral c) (hs : Delimited s) (ht : Delimited t)
    (h : m ++ s = n ++ t) : m = n ∧ s = t := by
  classical
  have hstop : ∀ {u : Text}, Delimited u →
      ∀ c ∈ u.head?, decide (Binary64.IsNumeral c) = false := fun hu c hc => by
    simpa using hu.not_isNumeral c hc
  have htake := congrArg (List.takeWhile fun c => decide (Binary64.IsNumeral c)) h
  rw [Text.takeWhile_append_stop (by simpa using hm) (hstop hs),
    Text.takeWhile_append_stop (by simpa using hn) (hstop ht)] at htake
  subst htake
  exact ⟨rfl, List.append_cancel_left h⟩

theorem isNumeral_ofInt (i : Int) : ∀ c ∈ Text.ofInt i, Binary64.IsNumeral c := by
  have hnat : ∀ c ∈ Text.ofNat i.natAbs, Binary64.IsNumeral c := fun c hc =>
    .inl (Text.isDigit_of_mem_ofNat hc)
  unfold Text.ofInt
  split
  · intro c hc
    rcases List.mem_cons.mp hc with rfl | hc
    · exact .inr (.inr (.inr (.inr rfl)))
    · exact hnat c hc
  · exact hnat

theorem not_mem_ofInt (i : Int) : ¬('.' ∈ Text.ofInt i ∨ 'e' ∈ Text.ofInt i) := by
  have hpoint := Text.not_mem_ofNat (c := '.') (by decide) i.natAbs
  have hletter := Text.not_mem_ofNat (c := 'e') (by decide) i.natAbs
  unfold Text.ofInt
  split <;> simp [hpoint, hletter]

theorem ofInt_inj {i j : Int} (h : Text.ofInt i = Text.ofInt j) : i = j := by
  have hminus : ∀ n m, '-' :: Text.ofNat n ≠ Text.ofNat m := fun n m he =>
    absurd (he ▸ List.mem_cons_self : '-' ∈ Text.ofNat m) (Text.not_mem_ofNat (by decide) m)
  have hnat : ∀ n m, Text.ofNat n = Text.ofNat m → n = m := fun n m he => by
    rw [← Text.digitsValue_ofNat n, he, Text.digitsValue_ofNat]
  unfold Text.ofInt at h
  split at h <;> split at h
  · have := hnat _ _ (List.cons.inj h).2
    omega
  · exact absurd h (hminus _ _)
  · exact absurd h.symm (hminus _ _)
  · have := hnat _ _ h
    omega

/-- The kinds of values that can be told by the first character of their text. -/
inductive Kind where
  | null
  | bool
  | number
  | str
  | array
  | map
deriving DecidableEq

def kind : Value → Kind
  | .null => .null
  | .bool _ => .bool
  | .int _ | .float _ => .number
  | .str _ => .str
  | .array _ => .array
  | .map _ => .map

/-- The kind of value whose text starts with a character. -/
def kindFrom (c : Char) : Kind :=
  if c = 'n' then .null
  else if c = 't' ∨ c = 'f' then .bool
  else if c = '"' then .str
  else if c = '[' then .array
  else if c = '{' then .map
  else .number

theorem kindFrom_of_isNumeral {c : Char} (h : Binary64.IsNumeral c) :
    kindFrom c = .number ∧ ¬(c = ',' ∨ c = ']' ∨ c = '}') := by
  have hne : ∀ d : Char, ¬Binary64.IsNumeral d → c ≠ d := fun d hd he => hd (he ▸ h)
  have h1 := hne 'n' (by simp [Binary64.IsNumeral])
  have h2 := hne 't' (by simp [Binary64.IsNumeral])
  have h3 := hne 'f' (by simp [Binary64.IsNumeral])
  have h4 := hne '"' (by simp [Binary64.IsNumeral])
  have h5 := hne '[' (by simp [Binary64.IsNumeral])
  have h6 := hne '{' (by simp [Binary64.IsNumeral])
  have h7 := hne ',' (by simp [Binary64.IsNumeral])
  have h8 := hne ']' (by simp [Binary64.IsNumeral])
  have h9 := hne '}' (by simp [Binary64.IsNumeral])
  simp [kindFrom, h1, h2, h3, h4, h5, h6, h7, h8, h9]

theorem json?_of_isFinite {x : Binary64} (h : x.isFinite) :
    ∃ negative m q, x = .finite negative m q ∧
      x.json? = some (Binary64.write Binary64.jsonFormat negative m q) := by
  cases x with
  | nan => cases h
  | infinite => cases h
  | finite negative m q => exact ⟨negative, m, q, rfl, rfl⟩

/-- The first character of the text of a value tells its kind, and separates nothing. -/
theorem exists_head_compact {v : Value} (h : v.IsJson) :
    ∃ c t, compact v = c :: t ∧ kindFrom c = kind v ∧ ¬(c = ',' ∨ c = ']' ∨ c = '}') := by
  have hnumber : ∀ m : Text, m ≠ [] → (∀ c ∈ m, Binary64.IsNumeral c) →
      ∃ c t, m = c :: t ∧ kindFrom c = .number ∧ ¬(c = ',' ∨ c = ']' ∨ c = '}') := by
    intro m hne hm
    obtain ⟨c, t, rfl⟩ := List.exists_cons_of_ne_nil hne
    exact ⟨c, t, rfl, kindFrom_of_isNumeral (hm c List.mem_cons_self)⟩
  cases h with
  | null => exact ⟨'n', _, rfl, by decide⟩
  | bool b =>
    cases b with
    | true => exact ⟨'t', _, rfl, by decide⟩
    | false => exact ⟨'f', _, rfl, by decide⟩
  | int i =>
    refine hnumber (Text.ofInt i) ?_ (isNumeral_ofInt i)
    unfold Text.ofInt
    split
    · simp
    · exact Text.ofNat_ne_nil _
  | float hc hf =>
    obtain ⟨negative, m, q, rfl, hj⟩ := json?_of_isFinite hf
    obtain ⟨hall, hmark⟩ := Binary64.write_jsonFormat negative m q
    have hne : Binary64.write Binary64.jsonFormat negative m q ≠ [] := fun he => by
      rw [he] at hmark
      simp at hmark
    rw [compact, hj]
    exact hnumber _ hne hall
  | str s => exact ⟨'"', _, rfl, rfl, by decide⟩
  | array => exact ⟨'[', _, rfl, rfl, by decide⟩
  | map => exact ⟨'{', _, rfl, rfl, by decide⟩

section Lists

variable {α : Type} {p : α → Text}

/-- The items of a list are told apart if each is told from what follows it. -/
theorem separated_append_inj {as bs : List α} {stop : Char} (hstop : stop = ']' ∨ stop = '}')
    (hp : ∀ a ∈ as, ∀ b ∈ bs, ∀ {s t : Text}, Delimited s → Delimited t →
      p a ++ s = p b ++ t → a = b ∧ s = t) {s t : Text}
    (h : (as.flatMap fun a => ',' :: p a) ++ stop :: s =
      (bs.flatMap fun b => ',' :: p b) ++ stop :: t) : as = bs ∧ s = t := by
  have hne : ',' ≠ stop := by rcases hstop with rfl | rfl <;> decide
  have hmore : ∀ (cs : List α) (u : Text),
      Delimited ((cs.flatMap fun c => ',' :: p c) ++ stop :: u) := by
    intro cs u
    cases cs with
    | nil =>
      intro c hc
      cases Option.some.inj hc
      exact .inr hstop
    | cons c cs =>
      intro d hd
      cases Option.some.inj hd
      exact .inl rfl
  induction as generalizing bs with
  | nil =>
    cases bs with
    | nil => exact ⟨rfl, (List.cons.inj h).2⟩
    | cons b bs => exact absurd (List.cons.inj h).1 hne.symm
  | cons a as ih =>
    cases bs with
    | nil => exact absurd (List.cons.inj h).1 hne
    | cons b bs =>
      simp only [List.flatMap_cons, List.cons_append, List.append_assoc, List.cons.injEq,
        true_and] at h
      obtain ⟨rfl, hrest⟩ :=
        hp a List.mem_cons_self b List.mem_cons_self (hmore as s) (hmore bs t) h
      obtain ⟨rfl, rfl⟩ := ih (fun a ha b hb => hp a (List.mem_cons_of_mem _ ha) b
        (List.mem_cons_of_mem _ hb)) hrest
      exact ⟨rfl, rfl⟩

def separated (p : α → Text) : List α → Text
  | [] => []
  | a :: as => p a ++ as.flatMap fun a => ',' :: p a

theorem separated_inj {as bs : List α} {stop : Char} (hstop : stop = ']' ∨ stop = '}')
    (hhead : ∀ a ∈ as ++ bs, ∃ c t, p a = c :: t ∧ ¬(c = ',' ∨ c = ']' ∨ c = '}'))
    (hp : ∀ a ∈ as, ∀ b ∈ bs, ∀ {s t : Text}, Delimited s → Delimited t →
      p a ++ s = p b ++ t → a = b ∧ s = t) {s t : Text}
    (h : separated p as ++ stop :: s = separated p bs ++ stop :: t) : as = bs ∧ s = t := by
  have hne : ∀ a ∈ as ++ bs, ∀ u v, p a ++ u ≠ stop :: v := by
    rintro a ha u v he
    obtain ⟨c, w, hc, hn⟩ := hhead a ha
    rw [hc] at he
    exact hn (.inr ((List.cons.inj he).1 ▸ hstop))
  cases as with
  | nil =>
    cases bs with
    | nil => exact ⟨rfl, (List.cons.inj h).2⟩
    | cons b bs =>
      rw [separated, separated, List.append_assoc] at h
      exact absurd h.symm (hne b (by simp) _ _)
  | cons a as =>
    cases bs with
    | nil =>
      rw [separated, separated, List.append_assoc] at h
      exact absurd h (hne a (by simp) _ _)
    | cons b bs =>
      -- with a separator before them the first items are like the others
      refine separated_append_inj hstop hp ?_
      simpa [separated] using h

end Lists

theorem compactItems_eq (items : List Value) : compactItems items = separated compact items := by
  induction items with
  | nil => rfl
  | cons v items ih =>
    cases items with
    | nil => simp [compactItems, separated]
    | cons w items =>
      rw [compactItems, ih]
      simp [separated]

def compactEntry (e : Text × Value) : Text := string e.1 ++ ':' :: compact e.2

theorem compactEntries_eq (entries : List (Text × Value)) :
    compactEntries entries = separated compactEntry entries := by
  induction entries with
  | nil => rfl
  | cons e entries ih =>
    obtain ⟨k, v⟩ := e
    cases entries with
    | nil => simp [compactEntries, separated, compactEntry]
    | cons e entries =>
      rw [compactEntries, ih]
      simp [separated, compactEntry]

theorem boolText_append_inj {b b' : Bool} {s t : Text}
    (h : Value.boolText b ++ s = Value.boolText b' ++ t) : b = b' ∧ s = t := by
  cases b with
  | true =>
    cases b' with
    | true => exact ⟨rfl, List.append_cancel_left h⟩
    | false => exact absurd (List.cons.inj h).1 (by decide)
  | false =>
    cases b' with
    | true => exact absurd (List.cons.inj h).1 (by decide)
    | false => exact ⟨rfl, List.append_cancel_left h⟩

/-- The number in a JSON text: all its characters are those of numbers, and only that of a float has
a point or an exponent. -/
theorem compact_number {v : Value} (h : v.IsJson) (hk : kind v = .number) :
    (∀ c ∈ compact v, Binary64.IsNumeral c) ∧
      ∀ w : Value, w.IsJson → compact v = compact w → kind w = .number → v = w := by
  cases h with
  | int i =>
    refine ⟨isNumeral_ofInt i, fun w hw he hl => ?_⟩
    cases hw with
    | int j => exact congrArg _ (ofInt_inj he)
    | float hc hf =>
      obtain ⟨negative, m, q, rfl, hj⟩ := json?_of_isFinite hf
      rw [compact, compact, hj, Option.getD_some] at he
      exact absurd (Binary64.write_jsonFormat negative m q).2 (he ▸ not_mem_ofInt i)
    | _ => exact absurd hl (by simp [kind])
  | float hc hf =>
    obtain ⟨negative, m, q, rfl, hj⟩ := json?_of_isFinite hf
    obtain ⟨hall, hmark⟩ := Binary64.write_jsonFormat negative m q
    rw [compact, hj, Option.getD_some]
    refine ⟨hall, fun w hw he hl => ?_⟩
    cases hw with
    | int j =>
      rw [compact] at he
      exact absurd hmark (he ▸ not_mem_ofInt j)
    | float hc' hf' =>
      obtain ⟨negative', m', q', rfl, hj'⟩ := json?_of_isFinite hf'
      rw [compact, hj', Option.getD_some] at he
      have hread := Binary64.ofText?_write Binary64.jsonFormat hc
      rw [he, Binary64.ofText?_write Binary64.jsonFormat hc'] at hread
      exact congrArg _ (Option.some.inj hread).symm
    | _ => exact absurd hl (by simp [kind])
  | _ => exact absurd hk (by simp [kind])

/-- The first character of a text tells the kind of the value. -/
theorem kind_eq {v w : Value} {s t : Text} (hv : v.IsJson) (hw : w.IsJson)
    (h : compact v ++ s = compact w ++ t) : kind w = kind v := by
  obtain ⟨c, v', hc, hk, -⟩ := exists_head_compact hv
  obtain ⟨d, w', hd, hl, -⟩ := exists_head_compact hw
  rw [hc, hd] at h
  rw [← hk, ← hl, (List.cons.inj h).1]

/-- Does the text of a value tell the value, whatever follows it? -/
def IsTold (v : Value) : Prop :=
  ∀ {w : Value} {s t : Text}, w.IsJson → Delimited s → Delimited t →
    compact v ++ s = compact w ++ t → v = w ∧ s = t

theorem isTold_number {v : Value} (hv : v.IsJson) (hk : kind v = .number) : IsTold v := by
  intro w s t hw hs ht h
  have hl := (kind_eq hv hw h).trans hk
  obtain ⟨hm, hinj⟩ := compact_number hv hk
  obtain ⟨he, hst⟩ := numeral_append_inj hm (compact_number hw hl).1 hs ht h
  exact ⟨hinj w hw he hl, hst⟩

theorem isTold_array {items : List Value} (hitems : ∀ v ∈ items, v.IsJson)
    (h : ∀ v ∈ items, IsTold v) : IsTold (.array items) := by
  intro w s t hw hs ht he
  have hk := kind_eq (.array hitems) hw he
  cases hw with
  | @array others hothers =>
    simp only [compact, compactItems_eq, List.cons_append, List.append_assoc, List.cons.injEq,
      true_and, List.nil_append] at he
    have hhead : ∀ v ∈ items ++ others,
        ∃ c t, compact v = c :: t ∧ ¬(c = ',' ∨ c = ']' ∨ c = '}') := by
      intro v hv
      have hjson := (List.mem_append.mp hv).elim (hitems v) (hothers v)
      exact (exists_head_compact hjson).imp fun c hc => hc.imp fun t ht => ⟨ht.1, ht.2.2⟩
    obtain ⟨rfl, hst⟩ := separated_inj (.inl rfl) hhead
      (fun v hv w hw s t hs ht he => h v hv (hothers w hw) hs ht he) he
    exact ⟨rfl, hst⟩
  | _ => exact absurd hk (by simp [kind])

theorem isTold_map {entries : List (Text × Value)} (hentries : ∀ e ∈ entries, e.2.IsJson)
    (h : ∀ e ∈ entries, IsTold e.2) : IsTold (.map entries) := by
  intro w s t hw hs ht he
  have hk := kind_eq (.map hentries) hw he
  cases hw with
  | @map others hothers =>
    simp only [compact, compactEntries_eq, List.cons_append, List.append_assoc, List.cons.injEq,
      true_and, List.nil_append] at he
    have hhead : ∀ e ∈ entries ++ others,
        ∃ c t, compactEntry e = c :: t ∧ ¬(c = ',' ∨ c = ']' ∨ c = '}') := fun e _ =>
      ⟨'"', _, rfl, by decide⟩
    have hentry : ∀ e ∈ entries, ∀ e' ∈ others, ∀ {s t : Text}, Delimited s → Delimited t →
        compactEntry e ++ s = compactEntry e' ++ t → e = e' ∧ s = t := by
      intro e hmem e' hmem' s t hs ht he
      simp only [compactEntry, List.append_assoc] at he
      obtain ⟨hname, he⟩ := string_append_inj he
      obtain ⟨hvalue, hst⟩ := h e hmem (hothers e' hmem') hs ht (List.cons.inj he).2
      exact ⟨Prod.ext hname hvalue, hst⟩
    obtain ⟨rfl, hst⟩ := separated_inj (.inr rfl) hhead hentry he
    exact ⟨rfl, hst⟩
  | _ => exact absurd hk (by simp [kind])

theorem isTold {v : Value} (hv : v.IsJson) : IsTold v := by
  induction hv with
  | null =>
    intro w s t hw _ _ h
    have hk := kind_eq .null hw h
    cases hw with
    | null => exact ⟨rfl, List.append_cancel_left h⟩
    | _ => exact absurd hk (by simp [kind])
  | bool b =>
    intro w s t hw _ _ h
    have hk := kind_eq (.bool b) hw h
    cases hw with
    | bool b' =>
      obtain ⟨rfl, hst⟩ := boolText_append_inj h
      exact ⟨rfl, hst⟩
    | _ => exact absurd hk (by simp [kind])
  | int i => exact isTold_number (.int i) rfl
  | float hc hf => exact isTold_number (.float hc hf) rfl
  | str x =>
    intro w s t hw _ _ h
    have hk := kind_eq (.str x) hw h
    cases hw with
    | str y =>
      obtain ⟨rfl, hst⟩ := string_append_inj h
      exact ⟨rfl, hst⟩
    | _ => exact absurd hk (by simp [kind])
  | array hitems ih => exact isTold_array hitems ih
  | map hentries ih => exact isTold_map hentries ih

/-- The text of a value tells the value. -/
theorem compact_inj {v w : Value} (hv : v.IsJson) (hw : w.IsJson) (h : compact v = compact w) :
    v = w :=
  have hend : Delimited [] := by simp [Delimited]
  (isTold hv hw hend hend (congrArg (· ++ []) h)).1

end Json

/-- The constants of a request are data of it. -/
theorem Constants.isJson_ofScope {scope : Scope} (h : ∀ e ∈ scope, e.2.IsJson) :
    (Value.map (ofScope scope)).IsJson := by
  refine .map fun e he => ?_
  rcases Dictionary.mem_of_mem_insertAll he with he | he
  · exact h e (List.mem_filter.mp he).1
  · have hshared := Dictionary.mem_of_mem_ofList he
    unfold shared at hshared
    split at hshared
    next entries hentries =>
      cases h _ (Dictionary.mem_of_get? hentries) with
      | map hall => exact hall e hshared
    next => cases hshared

end Stencil
