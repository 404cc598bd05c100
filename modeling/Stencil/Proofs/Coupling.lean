import Stencil.Proofs.Text
import Stencil.Random
import Stencil.Render.Interpolation

namespace Stencil

/-- States of two kinds: which of them are in step, and where the comparison is lost. The comparison
may be lost on the way, after which nothing is said of the results; it then stays lost, whatever
either side does. -/
structure Coupling (S T : Type) where
  inStep : S → T → Prop
  lost : S → T → Prop

namespace Coupling

variable {S T σ τ α β : Type}

/-- From states in step, two computations give the same result and leave states in step, unless the
comparison is lost. Neither of them finds it again. -/
structure Alike (c : Coupling S T) (m : StateM S α) (n : StateM T α) : Prop where
  left : ∀ s t, c.lost s t → c.lost (m s).2 t
  right : ∀ s t, c.lost s t → c.lost s (n t).2
  step : ∀ s t, c.inStep s t →
    c.lost (m s).2 (n t).2 ∨ (m s).1 = (n t).1 ∧ c.inStep (m s).2 (n t).2

variable {c : Coupling S T}

theorem Alike.pure (a : α) : c.Alike (pure a) (pure a) :=
  ⟨fun _ _ h => h, fun _ _ h => h, fun _ _ h => .inr ⟨rfl, h⟩⟩

theorem Alike.bind {m : StateM S α} {n : StateM T α} {f : α → StateM S β} {g : α → StateM T β}
    (hm : c.Alike m n) (hf : ∀ a, c.Alike (f a) (g a)) : c.Alike (m >>= f) (n >>= g) where
  left s t h := (hf _).left _ _ (hm.left s t h)
  right s t h := (hf _).right _ _ (hm.right s t h)
  step s t h := by
    rcases hm.step s t h with hl | ⟨hr, hs⟩
    · exact .inl ((hf _).left _ _ ((hf _).right _ _ hl))
    · have := (hf (m s).1).step _ _ hs
      rwa [show g (m s).1 = g (n t).1 by rw [hr]] at this

theorem Alike.map {m : StateM S α} {n : StateM T α} (h : c.Alike m n) (f : α → β) :
    c.Alike (f <$> m) (f <$> n) :=
  h.bind fun a => .pure (f a)

theorem Alike.mapM {f : α → StateM S β} {g : α → StateM T β} (as : List α)
    (h : ∀ a ∈ as, c.Alike (f a) (g a)) : c.Alike (as.mapM f) (as.mapM g) := by
  induction as with
  | nil =>
    rw [List.mapM_nil, List.mapM_nil]
    exact .pure []
  | cons a as ih =>
    rw [List.mapM_cons, List.mapM_cons]
    refine (h a List.mem_cons_self).bind fun b => ?_
    exact (ih fun a ha => h a (List.mem_cons_of_mem _ ha)).bind fun bs => .pure (b :: bs)

theorem Alike.mapOption {f : α → StateM S β} {g : α → StateM T β} (a : Option α)
    (h : ∀ b ∈ a, c.Alike (f b) (g b)) : c.Alike (a.mapM f) (a.mapM g) := by
  cases a with
  | none => exact .pure none
  | some b => exact (h b rfl).map some

/-- From states in step, two computations give the same result, of which something holds, and leave
states in step. -/
def Yields (c : Coupling S T) (post : α → Prop) (m : StateM S α) (n : StateM T α) : Prop :=
  ∀ s t, c.inStep s t → (m s).1 = (n t).1 ∧ post (m s).1 ∧ c.inStep (m s).2 (n t).2

theorem Yields.pure {post : α → Prop} {a : α} (h : post a) :
    c.Yields post (Pure.pure a) (Pure.pure a) :=
  fun _ _ hs => ⟨rfl, h, hs⟩

theorem Yields.bind {post : α → Prop} {last : β → Prop} {m : StateM S α} {n : StateM T α}
    {f : α → StateM S β} {g : α → StateM T β} (hm : c.Yields post m n)
    (hf : ∀ a, post a → c.Yields last (f a) (g a)) : c.Yields last (m >>= f) (n >>= g) := by
  intro s t h
  obtain ⟨hr, hpost, hs⟩ := hm s t h
  have hlast := hf (m s).1 hpost _ _ hs
  rwa [show g (m s).1 = g (n t).1 by rw [hr]] at hlast

/-- A comparison that is never lost. -/
theorem Yields.alike {post : α → Prop} {m : StateM S α} {n : StateM T α} (h : c.Yields post m n)
    (hlost : ∀ s t, ¬c.lost s t) : c.Alike m n where
  left s t hl := absurd hl (hlost s t)
  right s t hl := absurd hl (hlost s t)
  step s t hs := by
    obtain ⟨hr, -, hs⟩ := h s t hs
    exact .inr ⟨hr, hs⟩

theorem Alike.yields {post : α → Prop} {m : StateM S α} {n : StateM T α} (h : c.Alike m n)
    (hlost : ∀ s t, ¬c.lost s t) (hpost : ∀ s, post (m s).1) : c.Yields post m n := by
  intro s t hs
  obtain ⟨hr, hs⟩ := (h.step s t hs).resolve_left (hlost _ _)
  exact ⟨hr, hpost s, hs⟩

/-- Renderings are in step if they are equally far and their worlds are in step. -/
def progress (c : Coupling (World σ) (World τ)) : Coupling (Progress σ) (Progress τ) where
  inStep p q := p.fragments = q.fragments ∧ p.added = q.added ∧ c.inStep p.world q.world
  lost p q := c.lost p.world q.world

end Coupling

namespace Rendering

variable {σ τ α : Type} {c : Coupling (World σ) (World τ)}

theorem alike_of_world {m : Rendering σ α} {n : Rendering τ α}
    (hm : ∀ p, (m p).2.world = p.world) (hn : ∀ p, (n p).2.world = p.world)
    (h : ∀ p q, p.fragments = q.fragments → p.added = q.added →
      (m p).1 = (n q).1 ∧ (m p).2.fragments = (n q).2.fragments ∧ (m p).2.added = (n q).2.added) :
    c.progress.Alike m n where
  left p q hl := by
    change c.lost (m p).2.world q.world
    rwa [hm]
  right p q hl := by
    change c.lost p.world (n q).2.world
    rwa [hn]
  step p q hs := by
    obtain ⟨hf, ha, hw⟩ := hs
    obtain ⟨hr, hf, ha⟩ := h p q hf ha
    refine .inr ⟨hr, hf, ha, ?_⟩
    rwa [hm, hn]

theorem alike_stash (fragment : Text) : c.progress.Alike (stash fragment) (stash fragment) :=
  alike_of_world (fun _ => rfl) (fun _ => rfl) fun p q hf ha => by simp [stash, hf, ha]

theorem alike_onWorld {m : StateM (World σ) α} {n : StateM (World τ) α} (h : c.Alike m n) :
    c.progress.Alike (onWorld m) (onWorld n) where
  left p q hl := h.left _ _ hl
  right p q hl := h.right _ _ hl
  step p q hs := by
    obtain ⟨hf, ha, hw⟩ := hs
    exact (h.step _ _ hw).imp id fun hr => ⟨hr.1, hf, ha, hr.2⟩

theorem alike_put (scope : Scope) (s : Text) : c.progress.Alike (put scope s) (put scope s) :=
  .pure (s, scope)

theorem alike_inTurn {f : α → Scope → Rendering σ Output} {g : α → Scope → Rendering τ Output}
    (as : List α) (h : ∀ a ∈ as, ∀ scope, c.progress.Alike (f a scope) (g a scope))
    (scope : Scope) : c.progress.Alike (inTurn f as scope) (inTurn g as scope) := by
  induction as generalizing scope with
  | nil => exact alike_put scope []
  | cons a as ih =>
    refine (h a List.mem_cons_self scope).bind fun first => ?_
    refine (ih (fun a ha => h a (List.mem_cons_of_mem _ ha)) first.2).bind fun rest => ?_
    exact .pure (first.1 ++ rest.1, rest.2)

theorem alike_fillM {f : Hole → Rendering σ (Option Text)} {g : Hole → Rendering τ (Option Text)}
    (h : ∀ hole, c.progress.Alike (f hole) (g hole)) (s : Text) :
    c.progress.Alike (Hole.fillM f s) (Hole.fillM g s) := by
  refine (Coupling.Alike.mapM _ fun piece _ => ?_).bind fun parts => .pure parts.flatten
  cases piece with
  | inl ch => exact .pure [ch]
  | inr hole => exact (h hole).bind fun filled => .pure (filled.getD hole.written)

theorem alike_fillTagsM {f : Hole → Rendering σ (Option Text)}
    {g : Hole → Rendering τ (Option Text)} (h : ∀ hole, c.progress.Alike (f hole) (g hole))
    (s : Text) : c.progress.Alike (InlineTag.fillM f s) (InlineTag.fillM g s) := by
  refine (Coupling.Alike.mapM _ fun piece _ => ?_).bind fun parts => .pure parts.flatten
  cases piece with
  | inl t => exact .pure t
  | inr tag => exact alike_fillM h tag

end Rendering

namespace World

variable {σ τ α : Type}

/-- A random choice in worlds that have the same words and are in step whatever these are. -/
theorem alike_draw {c : Coupling (World σ) (World τ)}
    (hwords : ∀ s t, c.inStep s t → s.words = t.words)
    (hstep : ∀ s t words, c.inStep s t → c.inStep { s with words } { t with words })
    (hleft : ∀ s t words, c.lost s t → c.lost { s with words } t)
    (hright : ∀ s t words, c.lost s t → c.lost s { t with words }) (r : Random α) :
    c.Alike (draw r) (draw r) where
  left s t h := by
    unfold draw
    split
    · exact hleft s t _ h
    · exact h
  right s t h := by
    unfold draw
    split
    · exact hright s t _ h
    · exact h
  step s t h := by
    have hw := hwords s t h
    unfold draw
    rw [hw]
    cases r.run t.words with
    | none => exact .inr ⟨rfl, h⟩
    | some a => exact .inr ⟨rfl, hstep s t a.2 h⟩

/-- A choice that needs no word is no choice. -/
theorem draw_pure (a : α) : (draw (pure a) : StateM (World σ) (Option α)) = pure (some a) := rfl

end World

end Stencil
