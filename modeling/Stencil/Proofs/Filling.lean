import Stencil.Proofs.Hole
import Stencil.Render.Interpolation

namespace Stencil

namespace Marker

/-- A shielded text opens neither a hole nor a tag. -/
theorem plain_of_mem_shield {s : Text} {c : Char} (h : c ∈ shield s) : c ≠ '{' ∧ c ≠ '<' := by
  have hmarks : ∀ d ∈ braceMark ++ angleMark, d ≠ '{' ∧ d ≠ '<' := by
    simp [braceMark, angleMark]
  obtain ⟨d, _, hd⟩ := List.mem_flatMap.mp h
  unfold shieldChar at hd
  split at hd
  · exact hmarks c (List.mem_append_left _ hd)
  · split at hd
    · exact hmarks c (List.mem_append_right _ hd)
    next hbrace hangle =>
      rw [List.mem_singleton.mp hd]
      exact ⟨hbrace, hangle⟩

theorem brace_not_mem_shield (s : Text) : '{' ∉ shield s := fun h =>
  (plain_of_mem_shield h).1 rfl

theorem angle_not_mem_shield (s : Text) : '<' ∉ shield s := fun h =>
  (plain_of_mem_shield h).2 rfl

end Marker

/-- What stands in the place of a hole: a text as it is, a finished text, or the hole as before. -/
inductive Filling where
  | verbatim (s : Text)
  | fragment (html : Text)
  | stays (h : Hole)
deriving Repr, DecidableEq

namespace Filling

/-- The filling of a hole inside a tag. -/
def inTag (r : Resolver) (h : Hole) : Filling :=
  let (key, expr) := Expression.binding h.expr
  match r.text? expr, key with
  | none, _ => stays h
  | some value, some key =>
    if value.isEmpty then verbatim []
    else fragment (key ++ ['=', '"'] ++ Escape.attributeValue value ++ ['"'])
  | some value, none => fragment (if h.raw then value else Escape.attributeValue value)

/-- The filling of a hole between tags, in a template that was called with the given body. -/
def inText (body : Option Text) (r : Resolver) (h : Hole) : Filling :=
  let expr := (Expression.binding h.expr).2
  if body.isSome ∧ expr = "body".toList then verbatim (body.getD [])
  else
    match r.text? expr with
    | none => stays h
    | some value =>
      if body = some value then verbatim value
      else fragment (if h.raw then value else Escape.runningText value)

/-- A text with its holes filled, when so many fragments are finished already. -/
def pieces (early : Bool) : Nat → List (Char ⊕ Filling) → List Hole.Piece
  | _, [] => []
  | n, .inl c :: ps => .inl c :: pieces early n ps
  | n, .inr (verbatim s) :: ps => s.map .inl ++ pieces early n ps
  | n, .inr (stays h) :: ps => .inr h :: pieces early n ps
  | n, .inr (fragment html) :: ps =>
    if early then (Marker.shield html).map .inl ++ pieces early n ps
    else (Reference.write Reference.fragment n).map .inl ++ pieces early (n + 1) ps

def fragments (early : Bool) : List (Char ⊕ Filling) → List Text
  | [] => []
  | .inr (fragment html) :: ps =>
    if early then fragments early ps else Marker.encode html :: fragments early ps
  | _ :: ps => fragments early ps

theorem fragments_append (early : Bool) (ps qs : List (Char ⊕ Filling)) :
    fragments early (ps ++ qs) = fragments early ps ++ fragments early qs := by
  induction ps with
  | nil => rfl
  | cons p ps ih =>
    rcases p with c | s | html | h
    · exact ih
    · exact ih
    · cases early <;> simp [fragments, ih]
    · exact ih

theorem pieces_append (early : Bool) (n : Nat) (ps qs : List (Char ⊕ Filling)) :
    pieces early n (ps ++ qs) =
      pieces early n ps ++ pieces early (n + (fragments early ps).length) qs := by
  induction ps generalizing n with
  | nil => rfl
  | cons p ps ih =>
    rcases p with c | s | html | h
    · exact congrArg (List.cons _) (ih n)
    · simp [pieces, fragments, ih]
    · have hn : n + 1 + (fragments early ps).length = n + ((fragments early ps).length + 1) := by
        omega
      cases early <;> simp [pieces, fragments, ih, hn]
    · exact congrArg (List.cons _) (ih n)

end Filling

namespace Progress

variable {σ : Type}

def stashAll (p : Progress σ) (fs : List Text) : Progress σ :=
  { p with fragments := ⟨p.fragments.items ++ fs.toArray⟩ }

def size (p : Progress σ) : Nat := p.fragments.items.size

@[simp] theorem stashAll_nil (p : Progress σ) : p.stashAll [] = p := by
  simp [stashAll]

@[simp] theorem size_stashAll (p : Progress σ) (fs : List Text) :
    (p.stashAll fs).size = p.size + fs.length := by
  simp [stashAll, size]

theorem stashAll_append (p : Progress σ) (fs gs : List Text) :
    p.stashAll (fs ++ gs) = (p.stashAll fs).stashAll gs := by
  simp [stashAll, Array.append_assoc]

end Progress

namespace Rendering

variable {σ : Type}

theorem mapM_cons_run {α β : Type} {f : α → Rendering σ β} {a : α} {as : List α} {b : β}
    {bs : List β} {p q r : Progress σ} (ha : f a p = (b, q)) (has : as.mapM f q = (bs, r)) :
    (a :: as).mapM f p = (b :: bs, r) := by
  rw [List.mapM_cons]
  simp only [bind, StateT.bind, ha, has]
  rfl

def place (frame : Frame σ) : Filling → Rendering σ (Option Text)
  | .verbatim s => return some s
  | .fragment html => return some (← emit frame html)
  | .stays _ => return none

theorem attributeHole_eq (frame : Frame σ) (r : Resolver) (h : Hole) :
    attributeHole frame r h = place frame (Filling.inTag r h) := by
  unfold attributeHole Filling.inTag
  rcases Expression.binding h.expr with ⟨key, expr⟩
  dsimp only
  cases r.text? expr with
  | none => rfl
  | some value =>
    cases key with
    | none => rfl
    | some key =>
      dsimp only
      split <;> rfl

theorem textHole_eq (frame : Frame σ) (r : Resolver) (h : Hole) :
    textHole frame r h = place frame (Filling.inText frame.body r h) := by
  unfold textHole Filling.inText
  rcases Expression.binding h.expr with ⟨key, expr⟩
  dsimp only
  split
  next hbody =>
    obtain ⟨b, hb⟩ := Option.isSome_iff_exists.mp hbody.1
    rw [hb]
    rfl
  next =>
    cases r.text? expr with
    | none => rfl
    | some value =>
      dsimp only
      split <;> rfl

def fillPiece (f : Hole → Rendering σ (Option Text)) : Hole.Piece → Rendering σ Text
  | .inl c => pure [c]
  | .inr h => return (← f h).getD h.written

theorem fillM_eq (f : Hole → Rendering σ (Option Text)) (s : Text) :
    Hole.fillM f s = (return (← (Hole.pieces s).mapM (fillPiece f)).flatten) := by
  rw [Hole.fillM]
  refine congrArg (fun g => (do return (← (Hole.pieces s).mapM g).flatten : Rendering σ Text)) ?_
  funext piece
  cases piece <;> rfl

variable {frame : Frame σ} {f : Hole → Rendering σ (Option Text)} {g : Hole → Filling}

/-- One piece gives its filling and the fragments of that. -/
theorem fillPiece_run (hf : ∀ h, f h = place frame (g h)) (hg : ∀ h h', g h = .stays h' → h' = h)
    (piece : Hole.Piece) (p : Progress σ) :
    fillPiece f piece p =
      (Hole.write (Filling.pieces frame.pass.isEarly p.size [piece.map id g]),
        p.stashAll (Filling.fragments frame.pass.isEarly [piece.map id g])) := by
  cases piece with
  | inl c => simp [fillPiece, Filling.pieces, Filling.fragments, pure, StateT.pure]
  | inr h =>
    have hplace : fillPiece f (.inr h) = return (← place frame (g h)).getD h.written := by
      rw [fillPiece, hf]
    rw [hplace, Sum.map_inr]
    cases hgh : g h with
    | verbatim s =>
      rw [place, pure_bind]
      simp [Filling.pieces, Filling.fragments, Hole.write_map_inl, pure, StateT.pure]
    | stays h' =>
      cases hg h h' hgh
      rw [place, pure_bind]
      simp [Filling.pieces, Filling.fragments, pure, StateT.pure]
    | fragment html =>
      rw [place]
      cases hp : frame.pass.isEarly with
      | true =>
        have hemit : emit frame html = pure (Marker.shield html) := by simp [emit, hp]
        rw [hemit, pure_bind, pure_bind]
        simp [Filling.pieces, Filling.fragments, Hole.write_map_inl, pure, StateT.pure]
      | false =>
        have hemit : emit frame html = stash (Marker.encode html) := by simp [emit, hp]
        have hstash : stash (Marker.encode html) p =
            (Reference.write Reference.fragment p.size, p.stashAll [Marker.encode html]) := by
          simp [stash, Fragments.stash, Progress.stashAll, Progress.size]
        rw [hemit]
        simp [Filling.pieces, Filling.fragments, Hole.write_map_inl, bind, StateT.bind, hstash,
          pure, StateT.pure]

theorem mapM_fillPiece (hf : ∀ h, f h = place frame (g h))
    (hg : ∀ h h', g h = .stays h' → h' = h) (ps : List Hole.Piece) (p : Progress σ) :
    ∃ out, ps.mapM (fillPiece f) p =
        (out, p.stashAll (Filling.fragments frame.pass.isEarly (ps.map (Sum.map id g)))) ∧
      out.flatten =
        Hole.write (Filling.pieces frame.pass.isEarly p.size (ps.map (Sum.map id g))) := by
  induction ps generalizing p with
  | nil => exact ⟨[], by simp [Filling.fragments, pure, StateT.pure], rfl⟩
  | cons piece ps ih =>
    have hstep := fillPiece_run hf hg piece p
    obtain ⟨out, ho, hr⟩ := ih (p.stashAll (Filling.fragments frame.pass.isEarly [piece.map id g]))
    refine ⟨Hole.write (Filling.pieces frame.pass.isEarly p.size [piece.map id g]) :: out, ?_, ?_⟩
    · rw [mapM_cons_run hstep ho, ← Progress.stashAll_append, ← Filling.fragments_append]
      rfl
    · rw [List.flatten_cons, hr, Progress.size_stashAll, ← Hole.write_append,
        ← Filling.pieces_append]
      rfl

/-- Filling the pieces of a text puts the fillings in the places of its holes, and adds the
fragments. -/
theorem fillM_write (hf : ∀ h, f h = place frame (g h)) (hg : ∀ h h', g h = .stays h' → h' = h)
    {ps : List Hole.Piece} (hp : Hole.Parted ps) (p : Progress σ) :
    Hole.fillM f (Hole.write ps) p =
      (Hole.write (Filling.pieces frame.pass.isEarly p.size (ps.map (Sum.map id g))),
        p.stashAll (Filling.fragments frame.pass.isEarly (ps.map (Sum.map id g)))) := by
  obtain ⟨out, ho, hr⟩ := mapM_fillPiece hf hg ps p
  rw [fillM_eq, Hole.pieces_write hp, ← hr]
  simp only [bind, StateT.bind, pure, StateT.pure, ho]

end Rendering

end Stencil
