import Stencil.Node
import Stencil.Proofs.Placeholder

namespace Stencil

/-- A forest: characters of text, tags that stand alone, and tags around a forest. -/
inductive Forest (α : Type) where
  | nil
  | char (c : Char) (rest : Forest α)
  | alone (name : Text) (tag : α) (rest : Forest α)
  | around (name : Text) (tag : α) (content rest : Forest α)
deriving Repr, DecidableEq

namespace Forest

variable {α β : Type}

def map (f : α → β) : Forest α → Forest β
  | nil => nil
  | char c rest => char c (map f rest)
  | alone name tag rest => alone name (f tag) (map f rest)
  | around name tag content rest => around name (f tag) (map f content) (map f rest)

def textBefore (s : Text) (f : Forest α) : Forest α := s.foldr char f

/-- What a forest says of its tags, in the order in which they open. -/
def tags : Forest α → List α
  | nil => []
  | char _ rest => tags rest
  | alone _ tag rest => tag :: tags rest
  | around _ tag content rest => tag :: tags content ++ tags rest

def height : Forest α → Nat
  | nil => 0
  | char _ rest => height rest
  | alone _ _ rest => height rest
  | around _ _ content rest => max (height content + 1) (height rest)

@[simp] theorem textBefore_nil (f : Forest α) : textBefore [] f = f := rfl

theorem textBefore_concat (s : Text) (c : Char) (f : Forest α) :
    textBefore (s ++ [c]) f = textBefore s (char c f) := by simp [textBefore]

/-- A forest at a depth, written with placeholders. -/
def pieces (depth : Nat) : Forest (Option Nat) → List Placeholder.Piece
  | nil => []
  | char c rest => .inl c :: pieces depth rest
  | alone name index rest => .inr ⟨name, depth, index, .alone⟩ :: pieces depth rest
  | around name index content rest =>
    .inr ⟨name, depth, index, .opens⟩ :: pieces (depth + 1) content ++
      .inr ⟨name, depth, none, .closes⟩ :: pieces depth rest

/-- The forest of nodes, when the content of a tag is walked by the given function. -/
def ofNodes (child : Text → Forest (Option Nat)) : List Node → Forest (Option Nat)
  | [] => nil
  | .text s :: more => textBefore s (ofNodes child more)
  | .tag p none _ :: more => alone p.name p.attrs (ofNodes child more)
  | .tag p (some content) _ :: more => around p.name p.attrs (child content) (ofNodes child more)
  | .stray p :: more => alone p.name p.attrs (ofNodes child more)
  | .unclosed source :: more => textBefore source (ofNodes child more)

def walkDown : Nat → Nat → Text → Forest (Option Nat)
  | 0, _, _ => nil
  | n + 1, level, s => ofNodes (walkDown n (level + 1)) (Node.list level s)

/-- Walks a text at a level as the rendering does: the placeholders of this level with all up to
their closers, and what they are around one level deeper. -/
def walk (level : Nat) (s : Text) : Forest (Option Nat) := walkDown (s.count '<' + 1) level s

end Forest

namespace Node

theorem listFrom_of_none {s : Text} (h : Placeholder.next? s = none) (level : Nat) (before : Text) :
    listFrom level before s = [text (before ++ s)] := by
  rw [listFrom]
  split
  next => rfl
  next f hf => rw [h] at hf; exact absurd hf (by simp)

theorem listFrom_of_some {s : Text} {f : Placeholder.Found} (h : Placeholder.next? s = some f)
    (level : Nat) (before : Text) :
    listFrom level before s =
      if f.placeholder.depth ≠ level ∨ f.placeholder.kind = .closes then
        listFrom level (before ++ f.before ++ f.source) f.after
      else text (before ++ f.before) :: (ofFound f).1 :: listFrom level [] (ofFound f).2 := by
  rw [listFrom]
  split
  next hn => rw [h] at hn; exact absurd hn (by simp)
  next g hg =>
    cases Option.some.inj (h.symm.trans hg)
    rfl

theorem listFrom_cons {c : Char} {s : Text} (h : Placeholder.read? (c :: s) = none)
    (level : Nat) (before : Text) :
    listFrom level before (c :: s) = listFrom level (before ++ [c]) s := by
  have hn := Placeholder.next?_cons_of_read? h
  cases hs : Placeholder.next? s with
  | none =>
    rw [hs] at hn
    rw [listFrom_of_none hn, listFrom_of_none hs]
    simp
  | some f =>
    rw [hs] at hn
    have hf : ofFound { f with before := c :: f.before } = ofFound f := rfl
    rw [listFrom_of_some hn, listFrom_of_some hs]
    simp [hf]

theorem listFrom_written {p : Placeholder} (h : p.WellFormed) (hk : p.kind ≠ .closes)
    (before s : Text) :
    listFrom p.depth before (p.written ++ s) =
      text before :: (ofFound ⟨[], p, p.written, s⟩).1 ::
        listFrom p.depth [] (ofFound ⟨[], p, p.written, s⟩).2 := by
  rw [listFrom_of_some (Placeholder.next?_written h s)]
  simp [hk]

end Node

namespace Forest

open Placeholder

theorem depth_le_of_mem_pieces {f : Forest (Option Nat)} {depth : Nat} {p : Placeholder}
    (h : .inr p ∈ f.pieces depth) : depth ≤ p.depth := by
  induction f generalizing depth with
  | nil => simp [pieces] at h
  | char c rest ih => exact ih (by simpa [pieces] using h)
  | alone name index rest ih =>
    rcases List.mem_cons.mp h with h | h
    · cases Sum.inr.inj h
      exact Nat.le_refl depth
    · exact ih h
  | around name index content rest ihc ihr =>
    simp only [pieces, List.cons_append, List.mem_cons, List.mem_append, Sum.inr.injEq] at h
    rcases h with rfl | h | rfl | h
    · exact Nat.le_refl depth
    · exact Nat.le_of_succ_le (ihc h)
    · exact Nat.le_refl depth
    · exact ihr h

theorem height_le_count (f : Forest (Option Nat)) (depth : Nat) :
    f.height ≤ (write (f.pieces depth)).count '<' := by
  induction f generalizing depth with
  | nil => exact Nat.zero_le _
  | char c rest ih =>
    have := ih depth
    simp only [pieces, write_char, height, List.count_cons]
    omega
  | alone name index rest ih =>
    have := ih depth
    simp only [pieces, write_placeholder, height, List.count_append]
    omega
  | around name index content rest ihc ihr =>
    have h1 := ihc (depth + 1)
    have h2 := ihr depth
    have h3 : 1 ≤ (⟨name, depth, index, .opens⟩ : Placeholder).written.count '<' := by
      simp [written, List.count_append]
    simp only [pieces, List.cons_append, write_placeholder, write_append, height,
      List.count_append]
    omega

/-- What the nodes of a written forest at its level come to, if the contents of its tags are walked
back. -/
theorem ofNodes_listFrom {child : Text → Forest (Option Nat)} {n level : Nat}
    (hchild : ∀ g : Forest (Option Nat), g.height < n → ReadBack (g.pieces (level + 1)) [] →
      child (write (g.pieces (level + 1))) = g)
    (f : Forest (Option Nat)) (hf : f.height ≤ n) (hr : ReadBack (f.pieces level) [])
    (before : Text) :
    ofNodes child (Node.listFrom level before (write (f.pieces level))) = textBefore before f := by
  induction f generalizing before with
  | nil =>
    rw [pieces, write_nil, Node.listFrom_of_none rfl]
    simp [ofNodes]
  | char c rest ih =>
    have hc : read? (c :: write (rest.pieces level)) = none := by simpa using hr.1
    rw [pieces, write_char, Node.listFrom_cons hc, ih hf hr.2, textBefore_concat]
  | alone name index rest ih =>
    have hfound : ofNodes child ((Node.ofFound ⟨[], ⟨name, level, index, .alone⟩,
          (⟨name, level, index, .alone⟩ : Placeholder).written, write (rest.pieces level)⟩).1 ::
        Node.listFrom level [] (write (rest.pieces level))) = alone name index rest := by
      have hrest := ih hf hr.2 []
      by_cases hb : isBranchMark name
      · simp [Node.ofFound, hb, ofNodes, hrest]
      · simp [Node.ofFound, hb, ofNodes, hrest]
    have hafter : (Node.ofFound ⟨[], ⟨name, level, index, .alone⟩,
        (⟨name, level, index, .alone⟩ : Placeholder).written, write (rest.pieces level)⟩).2 =
        write (rest.pieces level) := by
      by_cases hb : isBranchMark name
      · simp [Node.ofFound, hb]
      · simp [Node.ofFound, hb]
    rw [pieces, write_placeholder, Node.listFrom_written hr.1 (by simp), ofNodes, hafter, hfound]
  | around name index content rest ihc ihr =>
    simp only [pieces, List.cons_append] at hr
    obtain ⟨hopen, hr⟩ := hr
    obtain ⟨hcontent, hclose, hrest⟩ := readBack_append.mp hr
    have hne : .inr ⟨name, level, none, .closes⟩ ∉ content.pieces (level + 1) := fun hm =>
      absurd (depth_le_of_mem_pieces hm) (by simp)
    simp only [height] at hf
    have hcut : cutCloser? name level (write (content.pieces (level + 1)) ++
        (closer name level ++ write (rest.pieces level))) =
        some (write (content.pieces (level + 1)), write (rest.pieces level)) :=
      cutCloser?_write hclose (by simpa [written] using hcontent) hne
    have hafter : write (content.pieces (level + 1)) ++
        ((⟨name, level, none, .closes⟩ : Placeholder).written ++ write (rest.pieces level)) =
        write (content.pieces (level + 1)) ++ (closer name level ++ write (rest.pieces level)) :=
      rfl
    have hwalk := hchild content (by omega) hcontent.alone
    simp only [pieces, List.cons_append, write_placeholder, write_append]
    rw [Node.listFrom_written hopen (by simp), hafter]
    simp only [Node.ofFound, hcut, ofNodes, hwalk, ihr (by omega) hrest [],
      textBefore_nil, reduceCtorEq, if_false]

theorem walkDown_write {n level : Nat} {f : Forest (Option Nat)} (hf : f.height < n)
    (hr : ReadBack (f.pieces level) []) : walkDown n level (write (f.pieces level)) = f := by
  induction n generalizing level f with
  | zero => omega
  | succ n ih =>
    have := ofNodes_listFrom (n := n) (fun g hg hr => ih hg hr) f (by omega) hr []
    simpa [walkDown, Node.list] using this

/-- The walk of a written forest gives the forest back. -/
theorem walk_write {level : Nat} {f : Forest (Option Nat)} (hr : ReadBack (f.pieces level) []) :
    walk level (write (f.pieces level)) = f :=
  walkDown_write (Nat.lt_succ_of_le (height_le_count f level)) hr

end Forest

end Stencil
