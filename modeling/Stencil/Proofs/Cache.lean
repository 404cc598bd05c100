import Stencil.Proofs.Storage

namespace Stencil

variable {sound : Text → Template → Prop}

namespace MemoryCache

/-- All templates in a cache are sound, live or not. -/
def Holds (sound : Text → Template → Prop) (c : MemoryCache) : Prop :=
  ∀ e ∈ c.entries, sound e.key e.template

variable {c : MemoryCache} {key : Text}

theorem holds_of_entries_eq_nil (h : c.entries = []) : c.Holds sound := fun e he => by
  rw [h] at he
  cases he

theorem mem_of_entry? {e : CacheEntry} (h : c.entry? key = some e) : e ∈ c.entries ∧ e.key = key :=
  ⟨List.mem_of_find?_eq_some h, by simpa using List.find?_some h⟩

theorem mem_of_mem_without {e : CacheEntry} (h : e ∈ c.without key) : e ∈ c.entries :=
  (List.mem_filter.mp h).1

theorem mem_of_mem_makeRoom {e : CacheEntry} (h : e ∈ c.makeRoom key) : e ∈ c.entries := by
  unfold makeRoom at h
  split at h
  · exact mem_of_mem_without h
  · exact List.mem_of_mem_take h

namespace Holds

theorem get (h : c.Holds sound) (key : Text) :
    (∀ t ∈ (c.get key).1, sound key t) ∧ (c.get key).2.Holds sound := by
  unfold MemoryCache.get
  cases he : c.entry? key with
  | none => exact ⟨fun t ht => (Option.not_mem_none t ht).elim, h⟩
  | some e =>
    obtain ⟨hmem, rfl⟩ := mem_of_entry? he
    dsimp only
    split
    · refine ⟨fun t ht => Option.some.inj ht ▸ h e hmem, fun e' he' => ?_⟩
      rcases List.mem_cons.mp he' with rfl | he'
      · exact h e' hmem
      · exact h e' (mem_of_mem_without he')
    · exact ⟨fun t ht => (Option.not_mem_none t ht).elim,
        fun e' he' => h e' (mem_of_mem_without he')⟩

theorem set (h : c.Holds sound) {t : Template} (ht : sound key t) : (c.set key t).Holds sound := by
  unfold MemoryCache.set
  split
  · exact h
  · intro e he
    rcases List.mem_cons.mp he with rfl | he
    · exact ht
    · exact h e (mem_of_mem_makeRoom he)

theorem remove (h : c.Holds sound) (key : Text) : (c.remove key).Holds sound := fun e he =>
  h e (mem_of_mem_without he)

/-- What is taken out is not there any more. -/
theorem remove_ne (h : c.Holds sound) (key : Text) :
    (c.remove key).Holds fun other t => sound other t ∧ other ≠ key := fun e he =>
  ⟨h e (mem_of_mem_without he), of_decide_eq_true (List.mem_filter.mp he).2⟩

end Holds

end MemoryCache

namespace Cache

/-- All templates in a cache are sound. There are none if it is off. -/
def Holds (sound : Text → Template → Prop) : Cache → Prop
  | off => True
  | memory c => c.Holds sound

variable {c : Cache}

theorem Holds.get (h : c.Holds sound) (key : Text) :
    (∀ t ∈ (c.get key).1, sound key t) ∧ (c.get key).2.Holds sound := by
  cases c with
  | off => exact ⟨fun t ht => (Option.not_mem_none t ht).elim, h⟩
  | memory m => exact MemoryCache.Holds.get h key

theorem Holds.mono {other : Text → Template → Prop} (h : c.Holds sound)
    (hs : ∀ key t, sound key t → other key t) : c.Holds other := by
  cases c with
  | off => trivial
  | memory m => exact fun e he => hs _ _ (h e he)

theorem Holds.modify (h : c.Holds sound) {f : MemoryCache → MemoryCache}
    (hf : ∀ m : MemoryCache, m.Holds sound → (f m).Holds sound) : (c.modify f).Holds sound := by
  cases c with
  | off => exact h
  | memory m => exact hf m h

theorem Holds.set (h : c.Holds sound) {key : Text} {t : Template} (ht : sound key t) :
    (c.set key t).Holds sound :=
  h.modify fun _ hm => hm.set ht

theorem Holds.remove_ne (h : c.Holds sound) (key : Text) :
    (c.remove key).Holds fun other t => sound other t ∧ other ≠ key := by
  cases c with
  | off => trivial
  | memory m => exact MemoryCache.Holds.remove_ne h key

theorem holds_clear (c : Cache) : c.clear.Holds sound := by
  cases c with
  | off => trivial
  | memory m => exact MemoryCache.holds_of_entries_eq_nil rfl

theorem keeps : Storage.Keeps (fun _ c => Cache.Holds sound c) sound :=
  ⟨fun _ _ key h => h.get key, fun _ _ _ _ h ht => h.set ht⟩

end Cache

end Stencil
