import Stencil.Text.WhiteSpace

namespace Stencil

/-- Texts are lists of characters. A cut gives back the pieces of a text rather than a position in
it, so that what was read, what stood before it and what follows it are always together the whole
text. -/
abbrev Text := List Char

namespace Text

/-- The number of bytes of a text in UTF-8. -/
def byteLength : Text → Nat
  | [] => 0
  | c :: s => c.utf8Size + byteLength s

/-- What follows the first bytes of a text, so many of them. There is nothing if they end inside of
a character, or if the text has fewer. -/
def dropBytes? : Nat → Text → Option Text
  | 0, s => some s
  | _ + 1, [] => none
  | n + 1, c :: s =>
    if c.utf8Size ≤ n + 1 then dropBytes? (n + 1 - c.utf8Size) s else none

@[simp] theorem byteLength_append (a s : Text) :
    byteLength (a ++ s) = byteLength a + byteLength s := by
  induction a with
  | nil => simp [byteLength]
  | cons c a ih =>
    rw [List.cons_append, byteLength, byteLength, ih]
    omega

theorem byteLength_cons_pos (c : Char) (s : Text) : 0 < byteLength (c :: s) := by
  have := c.utf8Size_pos
  rw [byteLength]
  omega

/-- After the bytes of a lead there is what follows it. -/
@[simp] theorem dropBytes?_append (a s : Text) : dropBytes? (byteLength a) (a ++ s) = some s := by
  induction a with
  | nil => simp [byteLength, dropBytes?]
  | cons c a ih =>
    obtain ⟨n, hn⟩ := Nat.exists_eq_add_one.mpr (byteLength_cons_pos c a)
    have hrest : n + 1 - c.utf8Size = byteLength a := by
      rw [← hn, byteLength]
      omega
    rw [hn, List.cons_append, dropBytes?, if_pos (by rw [← hn, byteLength]; omega), hrest, ih]

theorem eq_of_dropBytes? {n : Nat} {s t : Text} (h : dropBytes? n s = some t) :
    ∃ a, s = a ++ t ∧ byteLength a = n := by
  fun_induction dropBytes? n s with
  | case1 s =>
    cases Option.some.inj h
    exact ⟨[], rfl, rfl⟩
  | case2 => cases h
  | case3 n c s hle ih =>
    obtain ⟨a, rfl, ha⟩ := ih h
    refine ⟨c :: a, rfl, ?_⟩
    rw [byteLength]
    omega
  | case4 => cases h

/-- What follows a lead at the start of a text, if the text starts with it. -/
def strip? : Text → Text → Option Text
  | [], s => some s
  | _ :: _, [] => none
  | p :: lead, c :: s => if p = c then strip? lead s else none

theorem strip?_eq_some_iff {lead s rest : Text} : strip? lead s = some rest ↔ s = lead ++ rest := by
  induction lead generalizing s with
  | nil => simp [strip?, eq_comm]
  | cons p lead ih =>
    cases s with
    | nil => simp [strip?]
    | cons c s => by_cases h : p = c <;> simp [strip?, h, ih, eq_comm]

/-- Cuts a text at the first place where a pattern stands: what is before it, what is after it. -/
def cut? (pat : Text) : Text → Option (Text × Text)
  | [] => if pat.isEmpty then some ([], []) else none
  | c :: s =>
    match strip? pat (c :: s) with
    | some rest => some ([], rest)
    | none => (cut? pat s).map fun (before, after) => (c :: before, after)

theorem eq_of_cut? {pat s before after : Text} (h : cut? pat s = some (before, after)) :
    s = before ++ pat ++ after := by
  induction s generalizing before with
  | nil =>
    unfold cut? at h
    split at h
    next hp => cases Option.some.inj h; simp_all
    next => simp at h
  | cons c s ih =>
    unfold cut? at h
    split at h
    next rest hrest =>
      cases Option.some.inj h
      simpa using strip?_eq_some_iff.mp hrest
    next =>
      obtain ⟨⟨b, a⟩, hb, he⟩ := Option.map_eq_some_iff.mp h
      cases he
      simp [ih hb]

theorem length_of_cut? {pat s before after : Text} (h : cut? pat s = some (before, after)) :
    s.length = before.length + pat.length + after.length := by
  simp [eq_of_cut? h, Nat.add_assoc]

/-- Cuts a text at the last place where a character stands. -/
def cutLast? (c : Char) (s : Text) : Option (Text × Text) :=
  (cut? [c] s.reverse).map fun (after, before) => (before.reverse, after.reverse)

def has (pat s : Text) : Bool := (cut? pat s).isSome

/-- Replaces every place where a pattern stands, left to right and never overlapping. The counter
tells how many characters of the last place are still to be left out. -/
def replace (pat new : Text) (s : Text) : Text :=
  go 0 s
where
  go : Nat → Text → Text
    | _, [] => []
    | k + 1, _ :: s => go k s
    | 0, c :: s => if pat.isPrefixOf (c :: s) then new ++ go (pat.length - 1) s else c :: go 0 s

/-- Cuts a text at every place where a pattern stands. -/
def splitOn (pat : Text) (s : Text) : List Text :=
  match _h : cut? pat s with
  | none => [s]
  | some (before, after) =>
    if _hp : pat = [] then [s] else before :: splitOn pat after
termination_by s.length
decreasing_by
  have := length_of_cut? _h
  have : 0 < pat.length := List.length_pos_iff.mpr _hp
  omega

/-- The first part of a text, up to and without a character of a class, and the rest. -/
def spanUntil (stop : Char → Bool) (s : Text) : Text × Text :=
  (s.takeWhile fun c => !stop c, s.dropWhile fun c => !stop c)

theorem length_dropWhile_le (p : Char → Bool) (s : Text) : (s.dropWhile p).length ≤ s.length :=
  (List.dropWhile_sublist p).length_le

def trimStart (s : Text) : Text := s.dropWhile isWhiteSpace

def dropEndWhile (p : Char → Bool) (s : Text) : Text := (s.reverse.dropWhile p).reverse

def trimEnd (s : Text) : Text := dropEndWhile isWhiteSpace s

def trim (s : Text) : Text := trimEnd (trimStart s)

/-- Leaves out an ending, if the text has it. -/
def dropEnding? (ending s : Text) : Option Text :=
  (strip? ending.reverse s.reverse).map List.reverse

/-- The words of a text: its longest parts without white space. -/
def words (s : Text) : List Text :=
  (s.splitBy fun a b => isWhiteSpace a == isWhiteSpace b).filter fun w => !w.any isWhiteSpace

/-- Texts one after the other, with a separator between them. -/
def join (sep : Text) (parts : List Text) : Text := List.intercalate sep parts

/-- A text with its ASCII letters in lower case. -/
def lowerAscii (s : Text) : Text := s.map Char.toLower

/-- Are two texts equal up to the case of ASCII letters? -/
def eqIgnoringCase (a b : Text) : Bool := lowerAscii a == lowerAscii b

/-- The order of texts by code point, which is also the order of their UTF-8 bytes. -/
def order : Text → Text → Ordering
  | [], [] => .eq
  | [], _ :: _ => .lt
  | _ :: _, [] => .gt
  | a :: s, b :: t => (compare a.toNat b.toNat).then (order s t)

/-- The lines of a text: cut at line feeds, an empty last one left out. A carriage return before
a line feed belongs to the line break. -/
def lines (s : Text) : List Text :=
  let parts := splitOn ['\n'] s
  let whole := parts.dropLast.map fun l => (dropEnding? ['\r'] l).getD l
  match parts.getLast? with
  | none | some [] => whole
  | some l => whole ++ [l]

/-- The value of a text of ASCII digits. -/
def digitsValue (ds : Text) : Nat := ds.foldl (fun n c => 10 * n + (c.toNat - 48)) 0

/-- Reads an unsigned decimal number: an optional plus sign and at least one ASCII digit, with a
value below the given bound. -/
def toNatBelow? (bound : Nat) (s : Text) : Option Nat :=
  let digits := match s with
    | '+' :: rest => rest
    | _ => s
  if digits.isEmpty || !digits.all Char.isDigit then none
  else
    let n := digitsValue digits
    if n < bound then some n else none

/-- The integers of 64 bits go from the negative of this number to below it. -/
def int64Bound : Nat := Nat.pow 2 63

/-- The indices of 64 bits are below this number. -/
def indexBound : Nat := Nat.pow 2 64

/-- Reads a signed decimal number of 64 bits, with a sign or none. -/
def toInt64? (s : Text) : Option Int :=
  match s with
  | '-' :: digits => if digits.head? = some '+' then none else
      (toNatBelow? (int64Bound + 1) digits).map fun n => -(n : Int)
  | _ => (toNatBelow? int64Bound s).map Int.ofNat

/-- Reads a number that fits an index of 64 bits. -/
def toIndex? (s : Text) : Option Nat := toNatBelow? indexBound s

def ofNat (n : Nat) : Text := Nat.toDigits 10 n

/-- The decimal digits of a number, with a minus sign if it is negative. -/
def ofInt (i : Int) : Text :=
  if i < 0 then '-' :: ofNat i.natAbs else ofNat i.natAbs

end Text

end Stencil
