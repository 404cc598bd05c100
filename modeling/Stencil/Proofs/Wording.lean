import Stencil.Engine
import Stencil.Proofs.Interpolation

namespace Stencil

/-- A part of a source: a quoted literal in the text, with what is in it, or a hole with characters
and literals in it and blanks around them. -/
inductive Part where
  | quoted (quote : Char) (content : List Hole.Piece)
  | hole (raw : Bool) (before : Text) (inner : List (Char ⊕ Quoted)) (after : Text)
deriving Repr, DecidableEq

namespace Part

def innerText (inner : List (Char ⊕ Quoted)) : Text :=
  inner.flatMap (Sum.elim (fun c => [c]) Quoted.written)

/-- The marks of the inside of a hole with references to its literals, the first of which has the
given number. -/
def innerMarks (lead : Text) (n : Nat) (inner : List (Char ⊕ Quoted)) : List Mark :=
  (Mark.number (fun q => [q]) n inner).map
    (Sum.elim Mark.char fun v => .sign (lead ++ Text.ofNat v.1))

def written : Part → Text
  | quoted quote content => quote :: (Hole.write content ++ [quote])
  | hole raw before inner after =>
    Hole.opening raw ++ (before ++ innerText inner ++ after) ++ Hole.closing raw

/-- The literals of a part as they stand in the table. The signs in those of the text are written as
markers. -/
def literals : Part → LiteralTable
  | quoted quote content => [⟨Hole.write (Hole.encoded content), quote⟩]
  | hole _ _ inner _ => inner.filterMap Sum.getRight?

/-- A part whose first literal has the given number, when references stand for its literals. -/
def extracted : Nat × Part → List Hole.Piece
  | (n, quoted _ _) => (Reference.write Reference.literal n).map .inl
  | (n, hole raw before inner after) =>
    [.inr ⟨raw, before ++ Mark.write (innerMarks ['s'] n inner) ++ after⟩]

/-- The marks of a part whose hole is kept for the rendering. -/
def kept : Nat × Part → List Mark
  | (n, quoted _ _) => [.sign ('s' :: Text.ofNat n)]
  | (n, hole raw _ inner _) =>
    (Hole.opening raw).map .char ++ innerMarks [] n inner ++ (Hole.closing raw).map .char

def pieces : Nat × Part → List Hole.Piece
  | (_, quoted quote content) => .inl quote :: (content ++ [.inl quote])
  | (n, hole raw _ inner _) => [.inr ⟨raw, Mark.write (innerMarks [] n inner)⟩]

end Part

/-- A source without tags: characters and parts. -/
abbrev Wording := List (Char ⊕ Part)

namespace Wording

def source (w : Wording) : Text := w.flatMap (Sum.elim (fun c => [c]) Part.written)

def parts (w : Wording) : List Part := w.filterMap Sum.getRight?

def literals (w : Wording) : LiteralTable := w.parts.flatMap Part.literals

/-- A source with the number of the first literal of each part. -/
def numbered (w : Wording) : List (Char ⊕ (Nat × Part)) := Mark.number Part.literals 0 w

/-- The pieces of a source with references in the places of its literals. -/
def extracted (w : Wording) : List Hole.Piece := Hole.encode Part.extracted w.numbered

/-- The marks of a source whose holes are kept for the rendering. -/
def kept (w : Wording) : List Mark := Mark.ofPage Part.kept w.numbered

def pieces (w : Wording) : List Hole.Piece :=
  w.numbered.flatMap (Sum.elim (fun c => [.inl c]) Part.pieces)

end Wording

namespace Part

/-- The inside of a hole: there is no sign among its characters, and no blank at its ends. -/
structure Inner (inner : List (Char ⊕ Quoted)) : Prop where
  clear : Mark.Clear inner
  first : ∀ c ∈ inner.head?.bind Sum.getLeft?, isWhiteSpace c = false
  last : ∀ c ∈ inner.getLast?.bind Sum.getLeft?, isWhiteSpace c = false

/-- A part as the reader takes it: no sign can arise at its ends. -/
def Regular : Part → Prop
  | quoted quote _ => quote ≠ '%' ∧ quote ≠ '!'
  | hole _ before inner after =>
    (∀ c ∈ before, isWhiteSpace c) ∧ Inner inner ∧ ∀ c ∈ after, isWhiteSpace c

instance (inner : List (Char ⊕ Quoted)) : Decidable (Inner inner) :=
  haveI (o : Option Char) : Decidable (∀ c ∈ o, isWhiteSpace c = false) :=
    Option.decidableForallMem _
  decidable_of_iff (Mark.Clear inner ∧
      (∀ c ∈ inner.head?.bind Sum.getLeft?, isWhiteSpace c = false) ∧
      ∀ c ∈ inner.getLast?.bind Sum.getLeft?, isWhiteSpace c = false)
    ⟨fun ⟨hc, hf, hl⟩ => ⟨hc, hf, hl⟩, fun h => ⟨h.clear, h.first, h.last⟩⟩

instance : DecidablePred Regular
  | quoted _ _ => inferInstanceAs (Decidable (_ ∧ _))
  | hole _ _ _ _ =>
    haveI (s : Text) : Decidable (∀ c ∈ s, isWhiteSpace c) := List.decidableBAll _ _
    inferInstanceAs (Decidable (_ ∧ _ ∧ _))

variable {lead : Text} {n : Nat} {inner : List (Char ⊕ Quoted)}

theorem settled_innerMarks (h : Mark.Clear inner) (hlead : Mark.IsLabel lead) :
    Mark.Settled (innerMarks lead n inner) := by
  have hhead : ∀ {inner : List (Char ⊕ Quoted)} {n : Nat} {c : Char},
      (innerMarks lead n inner).head? = some (.char c) → inner.head? = some (.inl c) := by
    intro inner n c hh
    cases inner with
    | nil => simp [innerMarks, Mark.number] at hh
    | cons p inner => cases p <;> simp_all [innerMarks, Mark.number]
  induction inner generalizing n with
  | nil => trivial
  | cons p inner ih =>
    cases p with
    | inl c => exact ⟨fun hc hh => h.1 hc (hhead hh), fun hc hh => h.2.1 hc (hhead hh), ih h.2.2⟩
    | inr q => exact ⟨hlead.ofNat n, ih h⟩

theorem expr_extracted (h : Inner inner) {before after : Text} (hb : ∀ c ∈ before, isWhiteSpace c)
    (ha : ∀ c ∈ after, isWhiteSpace c) (raw : Bool) :
    (⟨raw, before ++ Mark.write (innerMarks lead n inner) ++ after⟩ : Hole).expr =
      Mark.write (innerMarks lead n inner) := by
  have hmap : ∀ {c : Char} {p : Char ⊕ (Nat × Quoted)},
      p.elim Mark.char (fun v => .sign (lead ++ Text.ofNat v.1)) = .char c → p = .inl c := by
    rintro c (d | v) hp
    · exact congrArg Sum.inl (Mark.char.inj hp)
    · simp at hp
  refine Text.trim_append hb ha (fun c hc => ?_) fun c hc => ?_
  · rcases Mark.head?_write hc with rfl | hc
    · decide
    · rw [innerMarks, List.head?_map, Option.map_eq_some_iff] at hc
      obtain ⟨p, hp, hpc⟩ := hc
      exact h.first c (by simp [Mark.head?_number (hmap hpc ▸ hp)])
  · rcases Mark.getLast?_write hc with rfl | hc
    · decide
    · rw [innerMarks, List.getLast?_map, Option.map_eq_some_iff] at hc
      obtain ⟨p, hp, hpc⟩ := hc
      exact h.last c (by simp [Mark.getLast?_number (hmap hpc ▸ hp)])

/-- The references to the literals of a hole are kept for the rendering. -/
theorem keep_innerMarks (h : Inner inner) {table : LiteralTable}
    (ht : ∀ k q, .inr (k, q) ∈ Mark.number (fun q => [q]) n inner →
      (table.find? (Text.ofNat k)).isSome) :
    table.keep (Mark.write (innerMarks ['s'] n inner)) = Mark.write (innerMarks [] n inner) := by
  have hk : Mark.IsLabel ['s'] := by simp [Mark.IsLabel]
  have hread : ∀ k, Reference.isLabel ['s'] ('s' :: Text.ofNat k) :=
    Reference.isLabel_ofNat ['s']
  rw [LiteralTable.keep]
  refine (Reference.substitute_write hk (fun _ => rfl) (settled_innerMarks h.clear hk) ?_).trans ?_
  · refine Reference.apart_of_isLabel fun l hl => ?_
    obtain ⟨p, _, hp⟩ := List.mem_map.mp hl
    cases p with
    | inl c => simp at hp
    | inr v => exact Mark.sign.inj hp ▸ hread v.1
  · rw [innerMarks, innerMarks, Mark.write, List.flatMap_map, List.flatMap_map, List.flatMap_def,
      List.flatMap_def]
    refine congrArg List.flatten (List.map_congr_left fun p hp => ?_)
    cases p with
    | inl c => rfl
    | inr v =>
      obtain ⟨q, hq⟩ := Option.isSome_iff_exists.mp (ht v.1 v.2 hp)
      simp [Reference.substituted, hread, hq, Mark.written, Reference.kept, Marker.opening]

theorem respelled_inner (hlead : '<' ∉ lead) :
    Respelled (innerText inner) (Mark.write (innerMarks lead n inner)) := by
  induction inner generalizing n with
  | nil => exact .nil
  | cons p inner ih =>
    cases p with
    | inl c => exact .char c ih
    | inr q =>
      have hdigits : '<' ∉ Text.ofNat n := Text.not_mem_ofNat (by decide) n
      have := Respelled.other q.written (c := '%')
        (w := '!' :: (lead ++ Text.ofNat n ++ ['!', '%'])) rfl (by simp [hlead, hdigits])
        (ih (n := n + 1))
      simpa [innerText, innerMarks, Mark.number] using this

theorem respelled_braces (raw : Bool) {s t : Text} (h : Respelled s t) (before after : Text) :
    Respelled (Hole.opening raw ++ (before ++ s ++ after) ++ Hole.closing raw)
      (Hole.opening raw ++ t ++ Hole.closing raw) := by
  have hbraces : ∀ {c : Char} {w u : Text}, isBareAfter c → '<' ∉ c :: w →
      Respelled u (c :: w) := fun {c w u} hc hw => by
    simpa using Respelled.other u hc hw .nil
  have hopen : Respelled (Hole.opening raw ++ before) (Hole.opening raw) := by
    cases raw <;> exact hbraces rfl (by decide)
  have hclose : Respelled (after ++ Hole.closing raw) (Hole.closing raw) := by
    cases raw <;> exact hbraces rfl (by decide)
  simpa using (hopen.append h).append hclose

theorem respelled_extracted (n : Nat) (p : Part) :
    Respelled p.written (Hole.write (extracted (n, p))) := by
  cases p with
  | quoted quote content =>
    have hdigits : '<' ∉ Text.ofNat n := Text.not_mem_ofNat (by decide) n
    have := Respelled.other (quoted quote content).written (c := '%')
      (w := '!' :: 's' :: (Text.ofNat n ++ Marker.closing)) rfl
      (by simp [Marker.closing, hdigits]) .nil
    simpa [extracted, Reference.write, Reference.literal, Hole.write_map_inl] using this
  | hole raw before inner after =>
    have hin : Respelled (before ++ innerText inner ++ after)
        (before ++ Mark.write (innerMarks ['s'] n inner) ++ after) :=
      ((Respelled.refl before).append (respelled_inner (by decide))).append (.refl after)
    have := (Respelled.refl (Hole.opening raw)).append hin |>.append (.refl (Hole.closing raw))
    simpa [extracted, written, Hole.written] using this

theorem respelled_pieces (n : Nat) (p : Part) :
    Respelled p.written (Hole.write (pieces (n, p))) := by
  cases p with
  | quoted quote content => simpa [pieces, written] using Respelled.refl _
  | hole raw before inner after =>
    have hin : Respelled (innerText inner) (Mark.write (innerMarks [] n inner)) :=
      respelled_inner (by simp)
    have := respelled_braces raw hin before after
    simpa [pieces, written, Hole.written] using this

theorem length_literals_le (p : Part) : p.literals.length ≤ p.written.length := by
  cases p with
  | quoted quote content => simp [literals, written]
  | hole raw before inner after =>
    have hinner : (inner.filterMap Sum.getRight?).length ≤ (innerText inner).length := by
      induction inner with
      | nil => simp
      | cons p inner ih =>
        cases p with
        | inl c => exact Nat.le_succ_of_le ih
        | inr q =>
          simp only [innerText, Quoted.written, List.filterMap_cons, Sum.getRight?_inr,
            List.length_cons, List.flatMap_cons, Sum.elim_inr, List.length_append] at ih ⊢
          omega
    simp only [literals, written, List.length_append]
    omega

theorem length_holes_le (n : Nat) (p : Part) :
    ((pieces (n, p)).filterMap Sum.getRight?).length ≤ p.written.length := by
  cases p with
  | quoted quote content =>
    have hcontent : (content.filterMap Sum.getRight?).length ≤ (Hole.write content).length := by
      induction content with
      | nil => simp
      | cons p content ih =>
        cases p with
        | inl c => exact Nat.le_succ_of_le ih
        | inr h =>
          simp only [Hole.write_hole, Hole.written_eq, List.filterMap_cons, Sum.getRight?_inr,
            List.length_cons, List.length_append] at ih ⊢
          omega
    simp only [pieces, written, List.filterMap_cons, Sum.getRight?_inl, List.filterMap_append,
      List.filterMap_nil, List.append_nil, List.length_cons, List.length_append]
    omega
  | hole raw before inner after =>
    cases raw <;> simp [pieces, written, Hole.opening]

end Part

namespace Wording

theorem length_literals_le (w : Wording) : w.literals.length ≤ w.source.length := by
  induction w with
  | nil => simp [literals, parts]
  | cons p w ih =>
    cases p with
    | inl c => exact Nat.le_succ_of_le ih
    | inr p =>
      have := p.length_literals_le
      simp only [literals, parts, source, List.filterMap_cons, Sum.getRight?_inr,
        List.flatMap_cons, Sum.elim_inr, List.length_append] at ih ⊢
      omega

theorem length_holes_le (w : Wording) :
    (w.pieces.filterMap Sum.getRight?).length ≤ w.source.length := by
  have hnumber : ∀ n, (((Mark.number Part.literals n w).flatMap
      (Sum.elim (fun c => [.inl c]) Part.pieces)).filterMap Sum.getRight?).length ≤
        w.source.length := by
    induction w with
    | nil => simp [Mark.number]
    | cons p w ih =>
      intro n
      cases p with
      | inl c => exact Nat.le_succ_of_le (ih n)
      | inr p =>
        have := p.length_holes_le n
        have := ih (n + p.literals.length)
        simp only [Mark.number, source, List.flatMap_cons, Sum.elim_inr, List.filterMap_append,
          List.length_append] at this ⊢
        omega
  exact hnumber 0

theorem source_eq_numbered (w : Wording) :
    w.source = w.numbered.flatMap (Sum.elim (fun c => [c]) fun v => v.2.written) :=
  (Mark.flatMap_number _ _ 0 w).symm

theorem bare_extracted {w : Wording} (h : Bare w.source) : Bare (Hole.write w.extracted) := by
  rw [source_eq_numbered] at h
  exact (Hole.respelled_encode fun v _ => Part.respelled_extracted v.1 v.2).bare h

theorem bare_pieces {w : Wording} (h : Bare w.source) : Bare (Hole.write w.pieces) := by
  rw [source_eq_numbered] at h
  have hall : ∀ ps : List (Char ⊕ (Nat × Part)),
      Respelled (ps.flatMap (Sum.elim (fun c => [c]) fun v => v.2.written))
        (Hole.write (ps.flatMap (Sum.elim (fun c => [.inl c]) Part.pieces))) := by
    intro ps
    induction ps with
    | nil => exact .nil
    | cons p ps ih =>
      cases p with
      | inl c => exact .char c ih
      | inr v =>
        rw [List.flatMap_cons, List.flatMap_cons, Hole.write_append]
        exact (Part.respelled_pieces v.1 v.2).append ih
  exact (hall w.numbered).bare h

/-- The source is read as it is meant: its literals are those of its parts and there are no
comments, no tags are in it, and its holes are those of its parts, before its literals are put back
and after that. -/
structure Read (w : Wording) : Prop where
  literals : LiteralTable.extract (Marker.encode w.source) = (Hole.write w.extracted, w.literals)
  bare : Bare w.source
  extracted : Hole.Parted w.extracted
  pieces : Hole.Parted w.pieces
  regular : ∀ p ∈ w.parts, p.Regular
  short : w.source.length < Text.indexBound

theorem regular_of_numbered {w : Wording} (hw : w.Read) {v : Nat × Part} (h : .inr v ∈ w.numbered) :
    v.2.Regular :=
  hw.regular v.2 (List.mem_filterMap.mpr ⟨_, Mark.mem_of_mem_number h, rfl⟩)

theorem find?_of_mem {w : Wording} (hw : w.Read) {n : Nat} {p : Part}
    (hp : .inr (n, p) ∈ w.numbered) {pre post : LiteralTable} {q : Quoted}
    (hq : p.literals = pre ++ q :: post) :
    w.literals.find? (Text.ofNat (n + pre.length)) = some q := by
  obtain ⟨as, bs, he, hn⟩ := Mark.exists_of_mem_number hp
  have htable : w.literals = (as ++ pre) ++ q :: (post ++ bs) := by
    simpa [Wording.literals, parts, hq] using he
  have hindex : n + pre.length = (as ++ pre).length := by simp [hn]
  have hlt : n + pre.length < Text.indexBound := by
    have hle := w.length_literals_le
    have hs := hw.short
    have hl := congrArg List.length htable
    simp only [List.length_append, List.length_cons] at hl hindex
    omega
  rw [LiteralTable.find?, Text.toIndex?_ofNat hlt, Option.bind_some, htable, hindex]
  simp

theorem preserve_extracted {w : Wording} (hw : w.Read) :
    Hole.preserve w.literals (Hole.write w.extracted) = Mark.write w.kept := by
  rw [Hole.preserve, Hole.fill, Hole.pieces_write hw.extracted]
  refine Hole.writePieces_encode fun ⟨n, p⟩ hp => ?_
  have hregular := regular_of_numbered hw hp
  cases p with
  | quoted quote content =>
    refine (congrArg (Hole.writePieces _) (List.append_nil _).symm).trans
      ((Hole.writePieces_chars _ _ []).trans ?_)
    simp [Part.kept, Reference.write, Reference.literal, Marker.closing, Hole.writePieces]
  | hole raw before inner after =>
    obtain ⟨hb, hi, ha⟩ := hregular
    have hkeep : w.literals.keep (Mark.write (Part.innerMarks ['s'] n inner)) =
        Mark.write (Part.innerMarks [] n inner) := Part.keep_innerMarks hi fun k q hk => by
      obtain ⟨pre, post, he, hk⟩ := Mark.exists_of_mem_number hk
      have hq : (Part.hole raw before inner after).literals = pre ++ q :: post := by
        simpa [Part.literals] using he
      rw [hk, find?_of_mem hw hp hq]
      rfl
    simp only [Part.extracted, Part.kept, Hole.writePieces, List.flatMap_cons, List.flatMap_nil,
      List.append_nil, Option.getD_some, Part.expr_extracted hi hb ha, hkeep, Mark.write_append,
      Mark.write_map_char]
    rfl

theorem framed_kept {w : Wording} (hw : w.Read) {v : Nat × Part} (hv : .inr v ∈ w.numbered) :
    Mark.Framed (Part.kept v) := by
  obtain ⟨n, p⟩ := v
  have hregular := regular_of_numbered hw hv
  cases p with
  | quoted quote content =>
    have hk : Mark.IsLabel ['s'] := by simp [Mark.IsLabel]
    exact Mark.framed_sign (hk.ofNat n)
  | hole raw before inner after =>
    have hopen : Mark.Settled ((Hole.opening raw).map .char) := by
      cases raw <;> simp [Hole.opening, Mark.Settled]
    have hclose : Mark.Settled ((Hole.closing raw).map .char) := by
      cases raw <;> simp [Hole.closing, Mark.Settled]
    have hinner : Mark.Settled (Part.innerMarks [] n inner) :=
      Part.settled_innerMarks hregular.2.1.clear (by simp [Mark.IsLabel])
    have hleft : Mark.Settled ((Hole.opening raw).map .char ++ Part.innerMarks [] n inner) :=
      Mark.settled_append hopen hinner fun c hc => by
        cases raw <;> simp [Hole.opening] at hc <;> simp [← hc]
    refine ⟨Mark.settled_append_of_head hleft hclose fun c hc => ?_, ?_, fun c hc => ?_,
      fun c hc => ?_⟩
    · cases raw <;> simp [Hole.closing] at hc <;> simp [← hc]
    · cases raw <;> simp [Part.kept, Hole.opening]
    · cases raw <;> simp [Part.kept, Hole.opening] at hc <;> simp [← hc]
    · cases raw <;> simp [Part.kept, Hole.closing] at hc <;> simp [← hc]

/-- The pieces of a part with its literal put back. -/
def requoted : Nat × Part → List Hole.Piece
  | (_, .quoted quote content) => .inl quote :: (Hole.encoded content ++ [.inl quote])
  | (n, .hole raw before inner after) => Part.pieces (n, .hole raw before inner after)

theorem encode_requoted {ps : List (Char ⊕ (Nat × Part))} (h : ∀ v, .inr v ∈ ps → v.2.Regular) :
    Hole.encode requoted ps =
      Hole.encoded (ps.flatMap (Sum.elim (fun c => [.inl c]) Part.pieces)) := by
  have hhead : ∀ {ps : List (Char ⊕ (Nat × Part))} {c : Char}, (∀ v, .inr v ∈ ps → v.2.Regular) →
      c = '%' ∨ c = '!' →
      (ps.flatMap (Sum.elim (fun c => [.inl c]) Part.pieces)).head? = some (.inl c) →
        ps.head? = some (.inl c) := by
    intro ps c hps hc hh
    cases ps with
    | nil => simp at hh
    | cons p ps =>
      cases p with
      | inl d => simpa using hh
      | inr v =>
        obtain ⟨n, p⟩ := v
        cases p with
        | hole raw before inner after => simp [Part.pieces] at hh
        | quoted quote content =>
          have hq : quote = c := by simpa [Part.pieces] using hh
          obtain ⟨h1, h2⟩ := hps _ List.mem_cons_self
          exact (hc.elim (fun he => h1 (hq.trans he)) fun he => h2 (hq.trans he)).elim
  fun_induction Hole.encode requoted ps with
  | case1 ps ih =>
    have := ih fun v hv => h v (by simp [hv])
    simp [this, Hole.encoded, Hole.encode]
  | case2 ps ih =>
    have := ih fun v hv => h v (by simp [hv])
    simp [this, Hole.encoded, Hole.encode]
  | case3 c ps h1 h2 ih =>
    have hps : ∀ v, .inr v ∈ ps → v.2.Regular := fun v hv => h v (List.mem_cons_of_mem _ hv)
    have ih := ih hps
    have hlone := (Mark.lone_of_forall h1 h2).of_head? fun d hd hh => hhead hps hd hh
    rw [List.flatMap_cons, Sum.elim_inl, List.singleton_append, Hole.encoded,
      Hole.encode_char _ hlone, ih]
    rfl
  | case4 v ps ih =>
    have ih := ih fun v hv => h v (List.mem_cons_of_mem _ hv)
    have hv := h v List.mem_cons_self
    obtain ⟨n, p⟩ := v
    cases p with
    | hole raw before inner after => exact congrArg (List.cons _) ih
    | quoted quote content =>
      obtain ⟨h1, h2⟩ := hv
      have hinner := Hole.encoded_append content h1 h2
        (ps.flatMap (Sum.elim (fun c => [.inl c]) Part.pieces))
      have houter := Hole.encoded_append [] h1 h2
        (content ++ .inl quote :: ps.flatMap (Sum.elim (fun c => [.inl c]) Part.pieces))
      simpa [requoted, Part.pieces, ih, ← hinner] using houter.symm
  | case5 => rfl

theorem requote_kept {w : Wording} (hw : w.Read)
    (ha : Reference.Apart ['s'] (fun ds => (w.literals.find? ds).isSome) w.kept) :
    w.literals.requote (Mark.write w.kept) = Hole.write (Hole.encoded w.pieces) := by
  have hk : Mark.IsLabel ['s'] := by simp [Mark.IsLabel]
  have hsettled : Mark.Settled w.kept := Mark.settled_ofPage fun v hv => framed_kept hw hv
  rw [LiteralTable.requote]
  refine (Reference.substitute_write hk (fun _ => by rw [Option.isSome_map]) hsettled ha).trans ?_
  rw [Wording.pieces, ← encode_requoted fun v hv => regular_of_numbered hw hv]
  let plain (v : Nat × Part) : List Mark := (Hole.write (requoted v)).map .char
  have hwrite : Hole.write (Hole.encode requoted w.numbered) =
      Mark.write (Mark.ofPage plain w.numbered) :=
    Hole.writePieces_encode fun v _ => (Mark.write_map_char _).symm
  rw [hwrite]
  refine Mark.flatMap_ofPage (fun c => rfl) rfl rfl fun v hv => ?_
  rw [Mark.write_map_char]
  obtain ⟨n, p⟩ := v
  cases p with
  | quoted quote content =>
    have hq : (Part.quoted quote content).literals =
        [] ++ ⟨Hole.write (Hole.encoded content), quote⟩ :: [] := rfl
    have hfind := find?_of_mem hw hv hq
    have hread : Reference.isLabel ['s'] ('s' :: Text.ofNat n) := Reference.isLabel_ofNat ['s'] n
    simp only [List.length_nil, Nat.add_zero] at hfind
    simp [Part.kept, requoted, Reference.substituted, hread, hfind, Quoted.written]
  | hole raw before inner after =>
    refine (Reference.flatMap_substituted fun l hl => ?_).trans ?_
    · simp only [Part.kept, List.mem_append, List.mem_map, reduceCtorEq, and_false, exists_false,
        false_or, or_false] at hl
      obtain ⟨p, _, hp⟩ := List.mem_map.mp hl
      cases p with
      | inl c => simp at hp
      | inr v =>
        cases Mark.sign.inj hp
        refine Bool.eq_false_iff.mpr fun hread => ?_
        obtain ⟨ds, hds, _⟩ := Reference.isLabel_iff.mp hread
        have : 's' ∈ Text.ofNat v.1 := by
          rw [← List.nil_append (Text.ofNat v.1), hds]
          exact List.mem_cons_self
        exact Text.not_mem_ofNat (by decide) v.1 this
    · simp [Part.kept, requoted, Part.pieces, Hole.written, Mark.write_map_char]

/-- What the holes of a source are filled with, for some data. -/
def resolver (w : Wording) (scope : Scope) : Resolver := ⟨scope, w.literals, false⟩

/-- A source with what is inserted in the places of its holes. -/
def page (w : Wording) (scope : Scope) : Insertion :=
  .ofPieces (Hole.inserted (w.resolver scope)) w.pieces

/-- Nothing in a source or a value reads like a reference, a residual block or a marker together
with what is next to it. -/
structure Isolated (w : Wording) (scope : Scope) : Prop where
  literals : Reference.Apart ['s'] (fun ds => (w.literals.find? ds).isSome) w.kept
  blocks : Residual.pieces (Hole.write (Hole.encoded w.pieces)) =
    [.inl (Hole.write (Hole.encoded w.pieces))]
  page : (w.page scope).Isolated w.literals

theorem length_values_le (w : Wording) (scope : Scope) :
    (w.page scope).values.length ≤ w.source.length := by
  have hvalues : ∀ ps : List Hole.Piece,
      (Insertion.ofPieces (Hole.inserted (w.resolver scope)) ps).values.length =
        (ps.filterMap Sum.getRight?).length := by
    intro ps
    induction ps with
    | nil => rfl
    | cons p ps ih =>
      cases p with
      | inl c => exact ih
      | inr h => exact congrArg Nat.succ ih
  exact Nat.le_trans (Nat.le_of_eq (hvalues w.pieces)) w.length_holes_le

theorem expand_of_none {σ : Type} {s : Text} (h : Placeholder.next? s = none) (host : Host)
    (attrs : List Attributes) (table : LiteralTable) :
    (Static.expand host attrs table s : StateM (World σ) Text) = pure s := by
  rw [Static.expand]
  split
  next => rfl
  next hf =>
    rw [h] at hf
    simp at hf

theorem build_source {w : Wording} (hw : w.Read)
    (ha : Reference.Apart ['s'] (fun ds => (w.literals.find? ds).isSome) w.kept) (host : Host)
    {options : Options} (hm : options.markdown = false) (key : Text) (world : World Cache) :
    Engine.build host options key w.source world =
      (.ok ⟨key, Hole.write (Hole.encoded w.pieces), [], w.literals, [],
        Sha256.fingerprint w.source⟩, world) := by
  have hnext : Placeholder.next? (Hole.write (Hole.encoded w.pieces)) = none :=
    (Hole.bare_encoded (bare_pieces hw.bare)).next?_eq_none
  have hbare := bare_extracted hw.bare
  simp only [Engine.build, hw.literals, hbare.sink, hbare.ofText?, preserve_extracted hw, hm,
    Bool.false_eq_true, if_false, requote_kept hw ha, bind, StateT.bind, expand_of_none hnext]
  rfl

/-- A source of text and holes comes out as it is, with the holes replaced by their values. -/
theorem compile_source {w : Wording} (hw : w.Read) {scope : Scope} (hi : w.Isolated scope)
    (site : Site Cache) {options : Options} (hm : options.markdown = false) (key : Text)
    (world : World Cache) :
    ∃ template, Engine.build site.toHost options key w.source world = (.ok template, world) ∧
      Page.compile site template scope none world =
        (Video.inject (Layout.injectPublic (w.page scope).text scope) site.assets, world) := by
  refine ⟨_, build_source hw hi.literals site.toHost hm key world, ?_⟩
  exact Page.compile_encoded site rfl hw.pieces (bare_pieces hw.bare) hi.blocks
    (rfl : w.page scope = _) (Nat.lt_of_le_of_lt (w.length_values_le scope) hw.short) hi.page world

/-- The source `"{{x}}" 5%! {{ y || 'z' }}`. -/
def greeting : Wording :=
  .inr (.quoted '"' [.inr ⟨false, ['x']⟩]) :: " 5%! ".toList.map .inl ++
    [.inr (.hole false [' '] ("y || ".toList.map .inl ++ [.inr ⟨['z'], '\''⟩]) [' '])]

theorem compile_source_greeting :
    let site : Site Cache := ⟨⟨[], .none, none, [], 1⟩, fun _ _ => pure none⟩
    let world : World Cache := ⟨.ofCapacity 1, []⟩
    ∃ template, Engine.build site.toHost (.ofStore []) "index".toList
          "\"\x7b\x7bx\x7d\x7d\" 5%! \x7b\x7b y || 'z' \x7d\x7d".toList world =
            (.ok template, world) ∧
        Page.compile site template [("x".toList, .str "<%!>".toList)] none world =
          ("\"&lt;%!&gt;\" 5%! z".toList, world) := by
  intro site world
  have hread : greeting.Read := by
    refine ⟨?_, ?_, ?_, ?_, ?_, ?_⟩ <;> decide +kernel
  have hisolated : greeting.Isolated [("x".toList, .str "<%!>".toList)] := by
    refine ⟨Reference.apart_of_isCalm (by decide +kernel), by decide +kernel, ?_⟩
    refine ⟨Reference.apart_of_isCalm (by decide +kernel),
      Reference.apart_of_isCalm (by decide +kernel), fun v hv => ?_, by decide +kernel⟩
    have hcalm : (greeting.page [("x".toList, .str "<%!>".toList)]).values.all
        fun v => Reference.isCalm (Mark.ofText v) := by decide +kernel
    exact Reference.apart_of_isCalm (List.all_eq_true.mp hcalm v hv)
  have hsource : greeting.source =
      "\"\x7b\x7bx\x7d\x7d\" 5%! \x7b\x7b y || 'z' \x7d\x7d".toList := by decide +kernel
  obtain ⟨template, hbuild, hpage⟩ := compile_source hread hisolated site
    (by decide : (Options.ofStore []).markdown = false) "index".toList world
  exact ⟨template, hsource ▸ hbuild, hpage.trans (congrArg (·, world) (by decide +kernel))⟩

/-- Where a label stands between two marks, or a value between a percent sign and another one, more
is read than was written. -/
theorem page?_straddled :
    Engine.page? "%!!v0!!%".toList [] = some "%!o!!c!%".toList ∧
      Engine.page? "%{{x}}%".toList [("x".toList, .str "!o!".toList)] = some "%!".toList := by
  decide +kernel

end Wording

end Stencil
