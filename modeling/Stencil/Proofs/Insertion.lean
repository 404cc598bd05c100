import Stencil.Proofs.Bare
import Stencil.Proofs.Filling
import Stencil.Proofs.Mark

namespace Stencil

namespace Hole

variable {β : Type}

/-- The pieces of characters and other things, when a sign that stands literally among the
characters is written as a marker. -/
def encode (f : β → List Piece) : List (Char ⊕ β) → List Piece
  | .inl '%' :: .inl '!' :: ps => Marker.openingMark.map .inl ++ encode f ps
  | .inl '!' :: .inl '%' :: ps => Marker.closingMark.map .inl ++ encode f ps
  | .inl c :: ps => .inl c :: encode f ps
  | .inr b :: ps => f b ++ encode f ps
  | [] => []

/-- Pieces with the literal signs outside holes written as markers. -/
def encoded (ps : List Piece) : List Piece := encode (fun h => [.inr h]) ps

@[simp] theorem encoded_nil : encoded [] = [] := rfl

theorem encode_char (f : β → List Piece) {c : Char} {ps : List (Char ⊕ β)} (h : Mark.Lone c ps) :
    encode f (.inl c :: ps) = .inl c :: encode f ps := by
  rw [encode]
  · rintro ps' rfl rfl
    exact h.1 rfl rfl
  · rintro ps' rfl rfl
    exact h.2 rfl rfl

/-- Before a character that is no part of a sign, pieces are encoded by themselves. -/
theorem encoded_append (ps : List Piece) {c : Char} (h1 : c ≠ '%') (h2 : c ≠ '!')
    (qs : List Piece) : encoded (ps ++ .inl c :: qs) = encoded ps ++ .inl c :: encoded qs := by
  have hlast : encoded (.inl c :: qs) = .inl c :: encoded qs :=
    encode_char _ ⟨fun h => absurd h h1, fun h => absurd h h2⟩
  unfold encoded at *
  fun_induction encode (fun h => [.inr h]) ps with
  | case1 ps ih => exact congrArg (Marker.openingMark.map .inl ++ ·) ih
  | case2 ps ih => exact congrArg (Marker.closingMark.map .inl ++ ·) ih
  | case3 d ps hd1 hd2 ih =>
    have hlone : Mark.Lone d (ps ++ .inl c :: qs) := by
      refine (Mark.lone_of_forall hd1 hd2).of_head? fun e he hh => ?_
      cases ps with
      | nil =>
        have hce : c = e := by simpa using hh
        exact (he.elim (fun h => h1 (hce.trans h)) fun h => h2 (hce.trans h)).elim
      | cons p ps => exact hh
    rw [List.cons_append, encode_char _ hlone, ih, List.cons_append]
  | case4 h ps ih => exact congrArg (.inr h :: ·) ih
  | case5 => exact hlast

theorem writePieces_chars (fill : Hole → Option Text) (s : Text) (ps : List Piece) :
    writePieces fill (s.map .inl ++ ps) = s ++ writePieces fill ps := by
  induction s with
  | nil => rfl
  | cons c s ih => exact congrArg (List.cons c) ih

/-- Characters and other things are written as their marks are. -/
theorem writePieces_encode {f : β → List Piece} {g : β → List Mark} {fill : Hole → Option Text}
    {ps : List (Char ⊕ β)} (h : ∀ b, .inr b ∈ ps → writePieces fill (f b) = Mark.write (g b)) :
    writePieces fill (encode f ps) = Mark.write (Mark.ofPage g ps) := by
  fun_induction encode f ps with
  | case1 ps ih =>
    have := ih fun b hb => h b (by simp [hb])
    rw [writePieces_chars, this, Mark.ofPage, Mark.write_sign]
    rfl
  | case2 ps ih =>
    have := ih fun b hb => h b (by simp [hb])
    rw [writePieces_chars, this, Mark.ofPage, Mark.write_sign]
    rfl
  | case3 c ps h1 h2 ih =>
    have := ih fun b hb => h b (List.mem_cons_of_mem _ hb)
    rw [Mark.ofPage_char _ (Mark.lone_of_forall h1 h2), Mark.write_char, ← this]
    rfl
  | case4 b ps ih =>
    have := ih fun b hb => h b (List.mem_cons_of_mem _ hb)
    rw [writePieces, List.flatMap_append, ← writePieces, ← writePieces, this,
      h b List.mem_cons_self, Mark.ofPage, Mark.write_append]
  | case5 => rfl

/-- Where other things and markers are written, no tag arises. -/
theorem respelled_encode {f : β → List Piece} {g : β → Text} {ps : List (Char ⊕ β)}
    (h : ∀ b, .inr b ∈ ps → Respelled (g b) (write (f b))) :
    Respelled (ps.flatMap (Sum.elim (fun c => [c]) g)) (write (encode f ps)) := by
  have hsign : ∀ (a b x : Char) {s t : Text}, x ≠ '<' → Respelled s t →
      Respelled (a :: b :: s) ('%' :: '!' :: x :: '!' :: '%' :: t) := fun a b x {s t} hx h => by
    have : Respelled ([a, b] ++ s) ('%' :: ['!', x, '!', '%'] ++ t) :=
      .other _ rfl (by simp [hx.symm]) h
    simpa using this
  fun_induction encode f ps with
  | case1 ps ih => exact hsign '%' '!' 'o' (by decide) (ih fun b hb => h b (by simp [hb]))
  | case2 ps ih => exact hsign '!' '%' 'c' (by decide) (ih fun b hb => h b (by simp [hb]))
  | case3 c ps _ _ ih => exact .char c (ih fun b hb => h b (List.mem_cons_of_mem _ hb))
  | case4 b ps ih =>
    rw [List.flatMap_cons, write_append]
    exact (h b List.mem_cons_self).append (ih fun b hb => h b (List.mem_cons_of_mem _ hb))
  | case5 => exact .nil

theorem write_eq_flatMap (ps : List Piece) :
    write ps = ps.flatMap (Sum.elim (fun c => [c]) written) := by
  unfold write writePieces
  refine congrArg (ps.flatMap ·) (funext fun p => ?_)
  cases p <;> rfl

theorem bare_encoded {ps : List Piece} (h : Bare (write ps)) : Bare (write (encoded ps)) := by
  refine Respelled.bare (respelled_encode fun b _ => ?_) (write_eq_flatMap ps ▸ h)
  rw [write_hole, write_nil, List.append_nil]
  exact .refl _

theorem parted_encoded {ps : List Piece} (h : Parted ps) : Parted (encoded ps) := by
  have hhead : ∀ {ps : List Piece}, (write (encoded ps)).head? = some '{' →
      (write ps).head? = some '{' := by
    intro ps hps
    unfold encoded at hps
    fun_cases encode (fun h => [.inr h]) ps with
    | case1 ps => simp [encode, Marker.openingMark] at hps
    | case2 ps => simp [encode, Marker.closingMark] at hps
    | case3 c ps h1 h2 => simpa [encode] using hps
    | case4 b ps => simp [written_eq]
    | case5 => simp [encode] at hps
  unfold encoded at *
  fun_induction encode (fun h => [.inr h]) ps with
  | case1 ps ih => simpa [Marker.openingMark, Parted] using ih h.2.2
  | case2 ps ih => simpa [Marker.closingMark, Parted] using ih h.2.2
  | case3 c ps h1 h2 ih => exact ⟨fun hc hh => h.1 hc (hhead hh), ih h.2⟩
  | case4 b ps ih => exact ⟨h.1, ih h.2⟩
  | case5 => trivial

end Hole

/-- A page: characters, and texts that are inserted among them. -/
abbrev Insertion := List (Char ⊕ Text)

namespace Insertion

def text (page : Insertion) : Text := page.flatMap (Sum.elim (fun c => [c]) id)

def values (page : Insertion) : List Text := page.filterMap Sum.getRight?

/-- The marks of a page while references stand in the places of its inserted texts, the first of
which has the given number. -/
def marks (n : Nat) (page : Insertion) : List Mark :=
  Mark.ofPage (fun v => [.sign ('v' :: Text.ofNat v.1)]) (Mark.number (fun v => [v]) n page)

/-- The marks of a page with the inserted texts in their places. -/
def filled (page : Insertion) : List Mark := Mark.ofPage Mark.ofText page

variable (insert : Hole → Text)

/-- The page of pieces whose holes are filled. -/
def ofPieces (ps : List Hole.Piece) : Insertion := ps.map (Sum.map id insert)

theorem write_pieces (ps : List Hole.Piece) (n : Nat) :
    Hole.write (Filling.pieces false n
        ((Hole.encoded ps).map (Sum.map id fun h => .fragment (insert h)))) =
      Mark.write ((ofPieces insert ps).marks n) := by
  unfold marks Hole.encoded
  fun_induction Hole.encode (fun h => [.inr h]) ps generalizing n with
  | case1 ps ih =>
    have := ih n
    simp_all [ofPieces, Mark.number, Mark.ofPage, Marker.openingMark, Filling.pieces]
  | case2 ps ih =>
    have := ih n
    simp_all [ofPieces, Mark.number, Mark.ofPage, Marker.closingMark, Filling.pieces]
  | case3 c ps h1 h2 ih =>
    have hlone : Mark.Lone c (Mark.number (fun v => [v]) n (ofPieces insert ps)) := by
      refine (Mark.lone_of_forall h1 h2).of_head? fun d _ hd => ?_
      have hhead := Mark.head?_number hd
      cases ps with
      | nil => simp [ofPieces] at hhead
      | cons p ps => cases p <;> simp_all [ofPieces]
    have hpage : Mark.number (fun v => [v]) n (ofPieces insert (.inl c :: ps)) =
        .inl c :: Mark.number (fun v => [v]) n (ofPieces insert ps) := rfl
    rw [hpage, Mark.ofPage_char _ hlone, Mark.write_char, ← ih n]
    rfl
  | case4 h ps ih =>
    have := ih (n + 1)
    simp_all [ofPieces, Mark.number, Mark.ofPage, Filling.pieces, Reference.write,
      Reference.fragment, Marker.closing, Hole.write_map_inl]
  | case5 => rfl

theorem fragments_pieces (ps : List Hole.Piece) :
    Filling.fragments false
        ((Hole.encoded ps).map (Sum.map id fun h => .fragment (insert h))) =
      (ofPieces insert ps).values.map Marker.encode := by
  unfold Hole.encoded
  fun_induction Hole.encode (fun h => [.inr h]) ps with
  | case1 ps ih => exact ih
  | case2 ps ih => exact ih
  | case3 c ps h1 h2 ih => exact ih
  | case4 h ps ih => exact congrArg (List.cons _) ih
  | case5 => rfl

theorem settled_marks (n : Nat) (page : Insertion) : Mark.Settled (page.marks n) :=
  have hk : Mark.IsLabel ['v'] := by simp [Mark.IsLabel]
  Mark.settled_ofPage fun v _ => Mark.framed_sign (hk.ofNat v.1)

/-- Reading the markers back gives the text of the page. -/
theorem decode_filled {page : Insertion} (h : Mark.Quiet page.filled) :
    Marker.decode (Mark.write page.filled) = page.text := by
  rw [Marker.decode_write h, filled, Marker.decoded_ofPage, text]
  refine congrArg (page.flatMap ·) (funext fun p => ?_)
  cases p with
  | inl c => rfl
  | inr v => exact Marker.decoded_ofText v

/-- Nothing that is inserted, and nothing in the text around it, reads like a reference or a marker
together with what is next to it, when the literals that are kept are those of a table. -/
structure Isolated (table : LiteralTable) (page : Insertion) : Prop where
  literals : Reference.Apart [] (fun ds => (table.find? ds).isSome) (page.marks 0)
  fragments : Reference.Apart ['v'] (fun _ => true) (page.marks 0)
  values : ∀ v ∈ page.values, Reference.Apart ['v'] (fun _ => true) (Mark.ofText v)
  markers : Mark.Quiet page.filled

end Insertion

namespace Fragments

open Reference (isLabel)

/-- In a text without references to fragments nothing is replaced. -/
theorem expand_encode {f : Fragments} {limit : Nat} {v : Text}
    (h : Reference.Apart ['v'] (fun _ => true) (Mark.ofText v)) :
    f.expand limit (Marker.encode v) = Marker.encode v := by
  have hk : Mark.IsLabel ['v'] := by simp [Mark.IsLabel]
  rw [expand, ← Mark.write_ofText]
  refine (Reference.substitute_write hk ?_ (Mark.settled_ofText v) h).trans ?_
  · exact fun ds => rfl
  · rw [Mark.ofText]
    exact Mark.flatMap_ofPage (fun c => rfl) rfl rfl fun b hb => by simp at hb

/-- The references of a page are replaced by its inserted texts, whose signs are written as
markers. -/
theorem assemble_marks {page : Insertion} (hn : page.values.length < Text.indexBound)
    (hm : Reference.Apart ['v'] (fun _ => true) (page.marks 0))
    (hv : ∀ v ∈ page.values, Reference.Apart ['v'] (fun _ => true) (Mark.ofText v)) :
    assemble ⟨(page.values.map Marker.encode).toArray⟩ (Mark.write (page.marks 0)) =
      Mark.write page.filled := by
  have hk : Mark.IsLabel ['v'] := by simp [Mark.IsLabel]
  rw [assemble, expand]
  refine (Reference.substitute_write hk ?_ (Insertion.settled_marks 0 page) hm).trans ?_
  · exact fun ds => rfl
  rw [Insertion.marks, Insertion.filled, ← Mark.ofPage_number Mark.ofText 0 page]
  refine Mark.flatMap_ofPage (fun c => rfl) rfl rfl fun b hb => ?_
  obtain ⟨k, v⟩ := b
  obtain ⟨pre, post, he, hpre⟩ := Mark.exists_of_mem_number hb
  have hvalues : page.values = pre ++ v :: post := by simpa [Insertion.values] using he
  have hk : k = pre.length := by omega
  have hlt : k < page.values.length := by simp [hvalues, hk]
  have hitem : (page.values.map Marker.encode).toArray[k]? = some (Marker.encode v) := by
    simp [hvalues, hk]
  have hsize : k < (page.values.map Marker.encode).toArray.size := by simpa using hlt
  have hmem : v ∈ page.values := by simp [hvalues]
  have hread : isLabel ['v'] ('v' :: Text.ofNat k) := Reference.isLabel_ofNat ['v'] k
  simp only [List.flatMap_cons, List.flatMap_nil, List.append_nil, Reference.substituted,
    hread, if_true, List.length_singleton, List.drop_one, List.tail_cons,
    Text.toIndex?_ofNat (Nat.lt_trans hlt hn), hsize, dif_pos, hitem, Option.getD_some,
    expand_encode (hv v hmem), Mark.write_ofText]

end Fragments

end Stencil
