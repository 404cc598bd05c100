import Mathlib.Data.List.Nodup
import Stencil.Proofs.Cache

namespace Stencil

/-- A call to a cache in memory by one of its holders. All clones of a cache have one store, so a
history does not tell through which of the holders a call came. -/
inductive CacheCall where
  | get (key : Text)
  | set (key : Text) (template : Template)
  | remove (key : Text)
  | clear
  | setKeep (ms : Nat)
  | has (key : Text)
  /-- There is one holder more of the same store. -/
  | clone
  /-- Time goes by. -/
  | elapse (ms : Nat)

namespace CacheCall

/-- What a call makes of the store. -/
def perform (c : MemoryCache) : CacheCall → MemoryCache
  | get key => (c.get key).2
  | set key template => c.set key template
  | remove key => c.remove key
  | clear => c.clear
  | setKeep ms => c.setKeep ms
  | has _ => c
  | clone => c
  | elapse ms => c.advance ms

/-- The time that a call takes. -/
def elapsed : CacheCall → Nat
  | elapse ms => ms
  | _ => 0

/-- For how long templates are kept after a call. -/
def keepMs (before : Nat) : CacheCall → Nat
  | setKeep ms => ms
  | _ => before

/-- A history in which there was an event, and since then none that ends it. -/
def Since (event ending : List CacheCall → CacheCall → Prop) (h : List CacheCall) : Prop :=
  ∃ before call later, h = before ++ call :: later ∧ event before call ∧
    ∀ between next rest, later = between ++ next :: rest →
      ¬ending (before ++ call :: between) next

variable {event ending : List CacheCall → CacheCall → Prop} {h : List CacheCall} {call : CacheCall}

theorem not_since_nil : ¬Since event ending [] := by
  rintro ⟨before, call, later, heq, -⟩
  cases List.append_ne_nil_of_right_ne_nil before (List.cons_ne_nil call later) heq.symm

/-- What has been since an event, one call later. -/
theorem since_concat :
    Since event ending (h ++ [call]) ↔ event h call ∨ Since event ending h ∧ ¬ending h call := by
  constructor
  · rintro ⟨before, first, later, heq, hevent, hlater⟩
    rcases List.eq_nil_or_concat later with rfl | ⟨init, last, rfl⟩
    · obtain ⟨rfl, hcall⟩ := List.append_inj' heq rfl
      cases hcall
      exact .inl hevent
    · have heq' : h ++ [call] = (before ++ first :: init) ++ [last] := by simpa using heq
      obtain ⟨rfl, hcall⟩ := List.append_inj' heq' rfl
      cases hcall
      refine .inr ⟨⟨before, first, init, rfl, hevent, fun between next rest he => ?_⟩, ?_⟩
      · exact hlater between next (rest ++ [call]) (by simp [he])
      · exact hlater init call [] (by simp)
  · rintro (hevent | ⟨⟨before, first, later, rfl, hevent, hlater⟩, hend⟩)
    · exact ⟨h, call, [], rfl, hevent, fun between next rest he => by simp at he⟩
    · refine ⟨before, first, later ++ [call], by simp, hevent, fun between next rest he => ?_⟩
      rcases List.eq_nil_or_concat rest with rfl | ⟨init, last, rfl⟩
      · obtain ⟨rfl, hcall⟩ := List.append_inj' he rfl
        cases hcall
        exact hend
      · have he' : later ++ [call] = (between ++ next :: init) ++ [last] := by simpa using he
        exact hlater between next init (List.append_inj' he' rfl).1

end CacheCall

namespace MemoryCache

open CacheCall

/-- The cache after a history, new before it. -/
def after (capacity : Nat) (h : List CacheCall) : MemoryCache :=
  h.foldl CacheCall.perform (.empty capacity)

/-- The time after a history. -/
def clock (h : List CacheCall) : Nat := (h.map CacheCall.elapsed).sum

/-- For how long a template is kept that is written after a history. -/
def keepAfter (h : List CacheCall) : Nat := h.foldl CacheCall.keepMs defaultKeepMs

def keys (c : MemoryCache) : List Text := c.entries.map (·.key)

/-- The keys that are held after a history, whether their templates have expired or not. -/
def held (capacity : Nat) (h : List CacheCall) : List Text := (after capacity h).keys

/-- What is found under a key after a history. -/
def found (capacity : Nat) (h : List CacheCall) (key : Text) : Option Template :=
  ((after capacity h).get key).1

/-- Is a template not written, because one of the same source is there? -/
def Skips (capacity : Nat) (h : List CacheCall) (key : Text) (template : Template) : Prop :=
  ∃ t, found capacity h key = some t ∧ t.fingerprint = template.fingerprint

/-- A call that writes a template, to be kept until some time. -/
def Writes (capacity : Nat) (key : Text) (template : Template) (expires : Nat)
    (h : List CacheCall) (call : CacheCall) : Prop :=
  call = .set key template ∧ ¬Skips capacity h key template ∧ expires = clock h + keepAfter h

/-- A call that finds a template under a key, or writes one. -/
def Uses (capacity : Nat) (key : Text) (h : List CacheCall) (call : CacheCall) : Prop :=
  call = .get key ∧ (found capacity h key).isSome ∨
    ∃ template expires, Writes capacity key template expires h call

/-- A call that writes a template, after which a key is no longer held. -/
def Evicts (capacity : Nat) (key : Text) (h : List CacheCall) (call : CacheCall) : Prop :=
  (∃ other template, call = .set other template) ∧
    key ∈ held capacity h ∧ key ∉ held capacity (h ++ [call])

/-- A call after which there is no longer the template that was written under a key: it is removed,
evicted or written over. -/
def Ends (capacity : Nat) (key : Text) (h : List CacheCall) (call : CacheCall) : Prop :=
  call = .remove key ∨ call = .clear ∨ Evicts capacity key h call ∨
    ∃ template expires, Writes capacity key template expires h call

/-- A cache is a map with room for so many keys, in which templates expire, and of which the key
goes that was not used for longest. -/
structure IsLru (capacity : Nat) (h : List CacheCall) : Prop where
  nodup : (held capacity h).Nodup
  length_le : (held capacity h).length ≤ max capacity 1
  /-- What is found is what was written last, if it has not expired and nothing has ended it. -/
  found_iff : ∀ key t, found capacity h key = some t ↔
    ∃ expires, clock h < expires ∧
      Since (Writes capacity key t expires) (Ends capacity key) h
  /-- A template that is not written leaves all as it is. -/
  set_of_skips : ∀ key t, Skips capacity h key t →
    after capacity (h ++ [.set key t]) = after capacity h
  /-- A key is evicted only for a new one when as many are held as there is room for, and every
  other key that is held has been used since its last use. -/
  evicted : ∀ key other t, Evicts capacity key h (.set other t) →
    other ∉ held capacity h ∧ (held capacity h).length = max capacity 1 ∧
      ∀ last ∈ held capacity h, last ≠ key →
        Since (Uses capacity last) (Uses capacity key) h
  /-- Other calls let go only what is removed or has expired. -/
  dropped : ∀ key call, key ∈ held capacity h → key ∉ held capacity (h ++ [call]) →
    call = .remove key ∨ call = .clear ∨ Evicts capacity key h call ∨
      call = .get key ∧ found capacity h key = none
  has_eq : ∀ key, (after capacity h).has key = (found capacity h key).isSome
  /-- To ask whether there is a template changes nothing that comes later, and so does a clone. -/
  silent : ∀ key later, after capacity (h ++ .has key :: later) = after capacity (h ++ later) ∧
    after capacity (h ++ .clone :: later) = after capacity (h ++ later)

variable {capacity : Nat} {h : List CacheCall} {call : CacheCall} {key : Text}

theorem after_concat (capacity : Nat) (h : List CacheCall) (call : CacheCall) :
    after capacity (h ++ [call]) = call.perform (after capacity h) := by
  simp [after]

theorem clock_concat (h : List CacheCall) (call : CacheCall) :
    clock (h ++ [call]) = clock h + call.elapsed := by
  simp [clock]

theorem keepAfter_concat (h : List CacheCall) (call : CacheCall) :
    keepAfter (h ++ [call]) = call.keepMs (keepAfter h) := by
  simp [keepAfter]

section Calls

variable {c : MemoryCache}

theorem entry?_eq_some_iff (hnodup : c.keys.Nodup) {e : CacheEntry} :
    c.entry? key = some e ↔ e ∈ c.entries ∧ e.key = key := by
  refine ⟨fun h => mem_of_entry? h, fun ⟨hmem, hkey⟩ => ?_⟩
  cases hfind : c.entry? key with
  | none => exact absurd hkey (by simpa using List.find?_eq_none.mp hfind e hmem)
  | some other =>
    obtain ⟨hother, hkey'⟩ := mem_of_entry? hfind
    rw [List.inj_on_of_nodup_map hnodup hother hmem (hkey'.trans hkey.symm)]

theorem entry?_eq_none_iff : c.entry? key = none ↔ key ∉ c.keys := by
  unfold entry?
  simp [keys, List.find?_eq_none]

theorem mem_without {e : CacheEntry} : e ∈ c.without key ↔ e ∈ c.entries ∧ e.key ≠ key := by
  simp [without]

theorem get_eq_some_iff {t : Template} :
    (c.get key).1 = some t ↔ ∃ e, c.entry? key = some e ∧ c.now < e.expires ∧ e.template = t := by
  unfold get
  cases he : c.entry? key with
  | none => simp
  | some e =>
    by_cases hlive : c.now < e.expires
    · simp [isLive, hlive]
    · simp [isLive, hlive]

/-- What a call leaves of a cache besides its entries. -/
theorem perform_now (c : MemoryCache) (call : CacheCall) :
    (call.perform c).now = c.now + call.elapsed ∧
      (call.perform c).keepMs = call.keepMs c.keepMs ∧
        (call.perform c).capacity = c.capacity := by
  cases call with
  | get key =>
    simp only [perform, elapsed, get]
    split
    · exact ⟨rfl, rfl, rfl⟩
    · split <;> exact ⟨rfl, rfl, rfl⟩
  | set key template =>
    simp only [perform, elapsed, set]
    split <;> exact ⟨rfl, rfl, rfl⟩
  | remove key => exact ⟨rfl, rfl, rfl⟩
  | clear => exact ⟨rfl, rfl, rfl⟩
  | setKeep ms => exact ⟨rfl, rfl, rfl⟩
  | has key => exact ⟨rfl, rfl, rfl⟩
  | clone => exact ⟨rfl, rfl, rfl⟩
  | elapse ms => exact ⟨rfl, rfl, rfl⟩

end Calls

theorem now_after (capacity : Nat) (h : List CacheCall) :
    (after capacity h).now = clock h ∧ (after capacity h).keepMs = keepAfter h ∧
      (after capacity h).capacity = max capacity 1 := by
  induction h using List.reverseRecOn with
  | nil => exact ⟨rfl, rfl, rfl⟩
  | append_singleton h call ih =>
    obtain ⟨hnow, hkeep, hroom⟩ := ih
    obtain ⟨hnow', hkeep', hroom'⟩ := perform_now (after capacity h) call
    rw [after_concat, clock_concat, keepAfter_concat, hnow', hkeep', hroom', hnow, hkeep]
    exact ⟨rfl, rfl, hroom⟩

/-- A template is found if it is in the cache and has not expired. -/
theorem found_eq_some_iff {t : Template} :
    found capacity h key = some t ↔
      ∃ e, entry? (after capacity h) key = some e ∧ clock h < e.expires ∧ e.template = t := by
  rw [found, get_eq_some_iff, (now_after capacity h).1]

/-- What a cache holds after a history: each key once, the last used first, with what was written
last; nothing else that was written is still to be kept. -/
structure Tracks (capacity : Nat) (h : List CacheCall) : Prop where
  nodup : (held capacity h).Nodup
  length_le : (held capacity h).length ≤ max capacity 1
  recent : (after capacity h).entries.Pairwise fun a b =>
    Since (Uses capacity a.key) (Uses capacity b.key) h
  written : ∀ e ∈ (after capacity h).entries,
    Since (Writes capacity e.key e.template e.expires) (Ends capacity e.key) h
  kept : ∀ key t expires, Since (Writes capacity key t expires) (Ends capacity key) h →
    clock h < expires → ⟨key, t, expires⟩ ∈ (after capacity h).entries

theorem tracks_nil (capacity : Nat) : Tracks capacity [] where
  nodup := List.nodup_nil
  length_le := Nat.zero_le _
  recent := .nil
  written _ he := absurd he List.not_mem_nil
  kept _ _ _ hs := absurd hs not_since_nil

/-- A call that leaves some of the entries, and puts at most one before them. -/
theorem Tracks.concat (hI : Tracks capacity h) {front rest : List CacheEntry}
    (hentries : (call.perform (after capacity h)).entries = front ++ rest)
    (hrest : rest.Sublist (after capacity h).entries)
    (hroom : (front ++ rest).length ≤ max capacity 1)
    (hfront : front = [] ∨ ∃ e, front = [e] ∧ e.key ∉ rest.map (·.key) ∧
      Uses capacity e.key h call ∧
        Since (Writes capacity e.key e.template e.expires) (Ends capacity e.key) (h ++ [call]))
    (hquiet : ∀ e ∈ rest, ¬Ends capacity e.key h call ∧ ¬Uses capacity e.key h call)
    (hkept : ∀ key t expires,
      Since (Writes capacity key t expires) (Ends capacity key) (h ++ [call]) →
        clock h < expires → ⟨key, t, expires⟩ ∈ front ++ rest) :
    Tracks capacity (h ++ [call]) := by
  have hafter : (after capacity (h ++ [call])).entries = front ++ rest := by
    rw [after_concat, hentries]
  have hheld : held capacity (h ++ [call]) = front.map (·.key) ++ rest.map (·.key) := by
    rw [held, keys, hafter, List.map_append]
  have hnodup : (rest.map (·.key)).Nodup := hI.nodup.sublist (hrest.map _)
  have hrecent : rest.Pairwise fun a b =>
      Since (Uses capacity a.key) (Uses capacity b.key) (h ++ [call]) :=
    (hI.recent.sublist hrest).imp_of_mem fun _ hb hs =>
      since_concat.mpr (.inr ⟨hs, (hquiet _ hb).2⟩)
  have hwritten : ∀ e ∈ rest,
      Since (Writes capacity e.key e.template e.expires) (Ends capacity e.key) (h ++ [call]) :=
    fun e he => since_concat.mpr (.inr ⟨hI.written e (hrest.subset he), (hquiet e he).1⟩)
  refine ⟨?_, ?_, ?_, ?_, fun key t expires hs hlive => ?_⟩
  · rw [hheld]
    rcases hfront with rfl | ⟨e, rfl, hnew, -⟩
    · exact hnodup
    · exact List.nodup_cons.mpr ⟨hnew, hnodup⟩
  · rw [held, keys, hafter, List.length_map]
    exact hroom
  · rw [hafter]
    rcases hfront with rfl | ⟨e, rfl, -, huse, -⟩
    · exact hrecent
    · exact List.pairwise_cons.mpr ⟨fun b _ => since_concat.mpr (.inl huse), hrecent⟩
  · rw [hafter]
    intro e he
    rcases List.mem_append.mp he with he | he
    · rcases hfront with rfl | ⟨e', rfl, -, -, hwrite⟩
      · cases he
      · rwa [List.mem_singleton.mp he]
    · exact hwritten e he
  · rw [hafter]
    rw [clock_concat] at hlive
    exact hkept key t expires hs (by omega)

/-- A call that writes nothing and uses nothing, and lets go only what it ends or what has
expired. -/
theorem Tracks.concat_rest (hI : Tracks capacity h)
    (hwrites : ∀ key t expires, ¬Writes capacity key t expires h call)
    (hrest : (call.perform (after capacity h)).entries.Sublist (after capacity h).entries)
    (hquiet : ∀ e ∈ (call.perform (after capacity h)).entries,
      ¬Ends capacity e.key h call ∧ ¬Uses capacity e.key h call)
    (hlost : ∀ e ∈ (after capacity h).entries, e ∉ (call.perform (after capacity h)).entries →
      Ends capacity e.key h call ∨ e.expires ≤ clock h) : Tracks capacity (h ++ [call]) := by
  have hentries : (call.perform (after capacity h)).entries =
      [] ++ (call.perform (after capacity h)).entries := rfl
  refine hI.concat hentries hrest ?_ (.inl rfl) hquiet fun key t expires hs hlive => ?_
  · have hlength := hI.length_le
    rw [held, keys, List.length_map] at hlength
    exact hrest.length_le.trans hlength
  · rcases since_concat.mp hs with hwrite | ⟨hs, hend⟩
    · exact absurd hwrite (hwrites key t expires)
    · by_contra hnot
      rcases hlost _ (hI.kept key t expires hs hlive) hnot with hended | hexpired
      · exact hend hended
      · exact absurd hexpired (Nat.not_le.mpr hlive)

section Calls

variable (hset : ∀ other t, call ≠ .set other t)

include hset

theorem ends_iff : Ends capacity key h call ↔ call = .remove key ∨ call = .clear := by
  refine ⟨?_, fun hends => hends.imp_right .inl⟩
  rintro (hends | hends | ⟨⟨other, t, hcall⟩, -⟩ | ⟨t, expires, hcall, -⟩)
  · exact .inl hends
  · exact .inr hends
  · exact absurd hcall (hset other t)
  · exact absurd hcall (hset key t)

theorem uses_iff :
    Uses capacity key h call ↔ call = .get key ∧ (found capacity h key).isSome := by
  refine ⟨?_, .inl⟩
  rintro (huse | ⟨t, expires, hcall, -⟩)
  · exact huse
  · exact absurd hcall (hset key t)

/-- A call that leaves the entries as they are. -/
theorem Tracks.concat_same (hI : Tracks capacity h)
    (hsame : (call.perform (after capacity h)).entries = (after capacity h).entries)
    (hends : call ≠ .clear ∧ ∀ key ∈ held capacity h, call ≠ .remove key)
    (huses : ∀ key ∈ held capacity h, call ≠ .get key) : Tracks capacity (h ++ [call]) := by
  refine hI.concat_rest (fun key t _ hw => hset key t hw.1) (hsame ▸ .refl _) (fun e he => ?_)
    fun e he hnot => absurd (hsame ▸ he) hnot
  have hkey : e.key ∈ held capacity h := List.mem_map_of_mem (hsame ▸ he)
  refine ⟨fun hend => ?_, fun huse => huses _ hkey ((uses_iff hset).mp huse).1⟩
  rcases (ends_iff hset).mp hend with hcall | hcall
  · exact hends.2 _ hkey hcall
  · exact hends.1 hcall

end Calls

/-- Entries without those of a key. -/
theorem Tracks.concat_without (hI : Tracks capacity h) (hset : ∀ other t, call ≠ .set other t)
    (hentries : (call.perform (after capacity h)).entries = (after capacity h).without key)
    (hcall : call = .remove key ∨ call = .get key ∧ found capacity h key = none) :
    Tracks capacity (h ++ [call]) := by
  refine hI.concat_rest (fun key t _ hw => hset key t hw.1) ?_ (fun e he => ?_) fun e he hnot => ?_
  · rw [hentries]
    exact List.filter_sublist
  · rw [hentries] at he
    have hne := (mem_without.mp he).2
    refine ⟨fun hend => ?_, fun huse => ?_⟩
    · rcases hcall with rfl | ⟨rfl, -⟩
      · rcases (ends_iff hset).mp hend with heq | heq
        · cases heq
          exact hne rfl
        · cases heq
      · rcases (ends_iff hset).mp hend with heq | heq
        · cases heq
        · cases heq
    · rcases hcall with rfl | ⟨rfl, -⟩
      · cases ((uses_iff hset).mp huse).1
      · cases ((uses_iff hset).mp huse).1
        exact hne rfl
  · rw [hentries, mem_without] at hnot
    have hkey : e.key = key := by
      by_contra hne
      exact hnot ⟨he, hne⟩
    rcases hcall with rfl | ⟨rfl, hnone⟩
    · exact .inl (.inl (by rw [hkey]))
    · refine .inr (Nat.le_of_not_lt fun hlive => ?_)
      have hentry := (entry?_eq_some_iff hI.nodup).mpr ⟨he, hkey⟩
      have hfound : found capacity h key = some e.template :=
        found_eq_some_iff.mpr ⟨e, hentry, hlive, rfl⟩
      rw [hnone] at hfound
      cases hfound

/-- The entry of a key that is found goes to the front; one that has expired goes. -/
theorem perform_get (capacity : Nat) (h : List CacheCall) (key : Text) :
    found capacity h key = none ∧
        (perform (after capacity h) (.get key)).entries = (after capacity h).without key ∨
      ∃ e ∈ (after capacity h).entries, e.key = key ∧ found capacity h key = some e.template ∧
        (perform (after capacity h) (.get key)).entries =
          [e] ++ (after capacity h).without key := by
  simp only [found, perform, MemoryCache.get]
  cases hentry : entry? (after capacity h) key with
  | none =>
    refine .inl ⟨rfl, (List.filter_eq_self.mpr fun e he => ?_).symm⟩
    exact decide_eq_true fun hkey =>
      entry?_eq_none_iff.mp hentry (hkey ▸ List.mem_map_of_mem he)
  | some e =>
    obtain ⟨hmem, hkey⟩ := mem_of_entry? hentry
    dsimp only
    split
    · exact .inr ⟨e, hmem, hkey, rfl, rfl⟩
    · exact .inl ⟨rfl, rfl⟩

theorem Tracks.get (hI : Tracks capacity h) (key : Text) : Tracks capacity (h ++ [.get key]) := by
  have hset : ∀ other t, CacheCall.get key ≠ .set other t := fun _ _ heq => by cases heq
  rcases perform_get capacity h key with ⟨hnone, hentries⟩ | ⟨e, hmem, rfl, hfound, hentries⟩
  · exact hI.concat_without hset hentries (.inr ⟨rfl, hnone⟩)
  · have huse : Uses capacity e.key h (.get e.key) := .inl ⟨rfl, by rw [hfound]; rfl⟩
    have hends : ∀ other, ¬Ends capacity other h (.get e.key) := fun other hend => by
      rcases (ends_iff hset).mp hend with heq | heq <;> cases heq
    refine hI.concat hentries List.filter_sublist ?_ (.inr ⟨e, rfl, ?_, huse, ?_⟩)
      (fun other hother => ⟨hends _, fun hother' => ?_⟩) fun other t expires hs hlater => ?_
    · -- the entry has left the others
      have hless := (List.length_filter_lt_length_iff_exists
        (p := fun d : CacheEntry => decide (d.key ≠ e.key))).mpr ⟨e, hmem, by simp⟩
      have hlength := hI.length_le
      rw [held, keys, List.length_map] at hlength
      simp only [without, List.length_append, List.length_singleton]
      omega
    · simp [without]
    · exact since_concat.mpr (.inr ⟨hI.written e hmem, hends _⟩)
    · exact (mem_without.mp hother).2
        (CacheCall.get.inj ((uses_iff hset).mp hother').1).symm
    · rcases since_concat.mp hs with hwrite | ⟨hs, -⟩
      · cases hwrite.1
      · have hmem' := hI.kept other t expires hs hlater
        by_cases hother : other = e.key
        · have heq := List.inj_on_of_nodup_map hI.nodup hmem' hmem hother
          exact List.mem_append_left _ (List.mem_singleton.mpr heq)
        · exact List.mem_append_right _ (mem_without.mpr ⟨hmem', hother⟩)

theorem Tracks.remove (hI : Tracks capacity h) (key : Text) :
    Tracks capacity (h ++ [.remove key]) :=
  hI.concat_without (fun _ _ heq => by cases heq) rfl (.inl rfl)

theorem Tracks.clear (hI : Tracks capacity h) : Tracks capacity (h ++ [.clear]) := by
  refine hI.concat_rest (fun _ _ _ hw => by cases hw.1) (List.nil_sublist _)
    (fun e he => absurd he List.not_mem_nil) fun e _ _ => .inl (.inr (.inl rfl))

/-- A template is not written if it is that of the entry that is there and has not expired. -/
theorem skips_iff {template : Template} : Skips capacity h key template ↔
    (after capacity h).isKept key template = true := by
  unfold Skips isKept
  simp only [found_eq_some_iff, isLive, (now_after capacity h).1]
  cases entry? (after capacity h) key with
  | none => simp
  | some e => simp

theorem after_set_of_skips {template : Template} (hs : Skips capacity h key template) :
    after capacity (h ++ [.set key template]) = after capacity h := by
  rw [after_concat, perform, MemoryCache.set, if_pos (skips_iff.mp hs)]

theorem Tracks.set_skipped (hI : Tracks capacity h) {template : Template}
    (hs : Skips capacity h key template) : Tracks capacity (h ++ [.set key template]) := by
  have hsame := after_set_of_skips hs
  have hwrites : ∀ other t expires, ¬Writes capacity other t expires h (.set key template) := by
    rintro other t expires ⟨heq, hnot, -⟩
    cases heq
    exact hnot hs
  have hperform : (perform (after capacity h) (.set key template)).entries =
      (after capacity h).entries := by rw [← after_concat, hsame]
  refine hI.concat_rest hwrites (hperform ▸ .refl _) (fun e he => ⟨?_, ?_⟩)
    fun e he hnot => absurd (hperform ▸ he) hnot
  · rintro (heq | heq | ⟨-, hheld, hgone⟩ | ⟨t, expires, hwrite⟩)
    · cases heq
    · cases heq
    · rw [held, hsame] at hgone
      exact hgone hheld
    · exact hwrites _ _ _ hwrite
  · rintro (⟨heq, -⟩ | ⟨t, expires, hwrite⟩)
    · cases heq
    · exact hwrites _ _ _ hwrite

/-- What is left when there has to be room for one key more. -/
theorem makeRoom_spec (hI : Tracks capacity h) (key : Text) :
    ((after capacity h).makeRoom key).Sublist (after capacity h).entries ∧
      key ∉ ((after capacity h).makeRoom key).map (·.key) ∧
        ((after capacity h).makeRoom key).length + 1 ≤ max capacity 1 := by
  have hlength := hI.length_le
  rw [held, keys, List.length_map] at hlength
  unfold makeRoom
  cases hentry : entry? (after capacity h) key with
  | none =>
    have hnew := entry?_eq_none_iff.mp hentry
    refine ⟨List.take_sublist _ _, fun hm => hnew ?_, ?_⟩
    · exact (List.Sublist.map _ (List.take_sublist _ _)).subset hm
    · simp only [Option.isSome_none, Bool.false_eq_true, ↓reduceIte, List.length_take,
        (now_after capacity h).2.2]
      omega
  | some e =>
    obtain ⟨hmem, hkey⟩ := mem_of_entry? hentry
    have hless := (List.length_filter_lt_length_iff_exists
      (p := fun d : CacheEntry => decide (d.key ≠ key))).mpr ⟨e, hmem, by simp [hkey]⟩
    refine ⟨List.filter_sublist, by simp [without], ?_⟩
    simp only [Option.isSome_some, ↓reduceIte, without]
    omega

theorem perform_set_of_not_skips {template : Template} (hs : ¬Skips capacity h key template) :
    (perform (after capacity h) (.set key template)).entries =
      [⟨key, template, clock h + keepAfter h⟩] ++ (after capacity h).makeRoom key := by
  rw [perform, MemoryCache.set, if_neg fun hany => hs (skips_iff.mpr hany),
    (now_after capacity h).1,
    (now_after capacity h).2.1]
  rfl

theorem Tracks.set_written (hI : Tracks capacity h) {template : Template}
    (hs : ¬Skips capacity h key template) : Tracks capacity (h ++ [.set key template]) := by
  obtain ⟨hrest, hnew, hroom⟩ := makeRoom_spec hI key
  have hentries := perform_set_of_not_skips hs
  have hwrite : Writes capacity key template (clock h + keepAfter h) h (.set key template) :=
    ⟨rfl, hs, rfl⟩
  have hheld : held capacity (h ++ [.set key template]) =
      key :: ((after capacity h).makeRoom key).map (·.key) := by
    rw [held, keys, after_concat, hentries]
    rfl
  refine hI.concat hentries hrest ?_ (.inr ⟨_, rfl, hnew, .inr ⟨_, _, hwrite⟩, ?_⟩)
    (fun e he => ⟨?_, ?_⟩) fun other t expires hsince hlive => ?_
  · simp only [List.length_append, List.length_singleton]
    omega
  · exact since_concat.mpr (.inl hwrite)
  · rintro (heq | heq | ⟨-, -, hgone⟩ | ⟨t, expires, heq, -⟩)
    · cases heq
    · cases heq
    · rw [hheld] at hgone
      exact hgone (List.mem_cons_of_mem _ (List.mem_map_of_mem he))
    · cases heq
      exact hnew (List.mem_map_of_mem he)
  · rintro (⟨heq, -⟩ | ⟨t, expires, heq, -⟩)
    · cases heq
    · cases heq
      exact hnew (List.mem_map_of_mem he)
  · rcases since_concat.mp hsince with ⟨heq, -, rfl⟩ | ⟨hsince, hends⟩
    · cases heq
      exact List.mem_append_left _ (List.mem_singleton.mpr rfl)
    · have hmem := hI.kept other t expires hsince hlive
      refine List.mem_append_right _ ?_
      by_cases hother : other ∈ ((after capacity h).makeRoom key).map (·.key)
      · obtain ⟨e, he, hkey⟩ := List.mem_map.mp hother
        rwa [← List.inj_on_of_nodup_map hI.nodup (hrest.subset he) hmem hkey]
      · -- the key was evicted, or it is the one that is written
        refine absurd ?_ hends
        by_cases hkey : other = key
        · subst hkey
          exact .inr (.inr (.inr ⟨_, _, hwrite⟩))
        · refine .inr (.inr (.inl ⟨⟨_, _, rfl⟩, List.mem_map_of_mem hmem, ?_⟩))
          rw [hheld]
          exact List.not_mem_cons_of_ne_of_not_mem hkey hother

/-- What a cache holds after any history. -/
theorem tracks (capacity : Nat) (h : List CacheCall) : Tracks capacity h := by
  induction h using List.reverseRecOn with
  | nil => exact tracks_nil capacity
  | append_singleton h call hI =>
    cases call with
    | get key => exact hI.get key
    | set key template =>
      by_cases hs : Skips capacity h key template
      · exact hI.set_skipped hs
      · exact hI.set_written hs
    | remove key => exact hI.remove key
    | clear => exact hI.clear
    | setKeep ms => exact hI.concat_same (by simp) rfl (by simp) (by simp)
    | has key => exact hI.concat_same (by simp) rfl (by simp) (by simp)
    | clone => exact hI.concat_same (by simp) rfl (by simp) (by simp)
    | elapse ms => exact hI.concat_same (by simp) rfl (by simp) (by simp)

theorem found_iff (hI : Tracks capacity h) {t : Template} :
    found capacity h key = some t ↔
      ∃ expires, clock h < expires ∧
        Since (Writes capacity key t expires) (Ends capacity key) h := by
  rw [found_eq_some_iff]
  constructor
  · rintro ⟨e, hentry, hlive, rfl⟩
    obtain ⟨hmem, rfl⟩ := mem_of_entry? hentry
    exact ⟨e.expires, hlive, hI.written e hmem⟩
  · rintro ⟨expires, hlive, hsince⟩
    have hmem := hI.kept key t expires hsince hlive
    exact ⟨_, (entry?_eq_some_iff hI.nodup).mpr ⟨hmem, rfl⟩, hlive, rfl⟩

/-- The key that goes to make room for a new one. -/
theorem evicted (hI : Tracks capacity h) {other : Text} {t : Template}
    (he : Evicts capacity key h (.set other t)) :
    other ∉ held capacity h ∧ (held capacity h).length = max capacity 1 ∧
      ∀ last ∈ held capacity h, last ≠ key → Since (Uses capacity last) (Uses capacity key) h := by
  obtain ⟨-, hheld, hgone⟩ := he
  have hs : ¬Skips capacity h other t := fun hs => by
    rw [held, after_set_of_skips hs] at hgone
    exact hgone hheld
  rw [held, keys, after_concat, perform_set_of_not_skips hs, List.map_append, List.mem_append,
    not_or] at hgone
  obtain ⟨hne, hgone⟩ := hgone
  obtain ⟨e, he, rfl⟩ := List.mem_map.mp hheld
  have hother : other ∉ held capacity h := fun hmem => by
    have hentry : ( entry? (after capacity h) other).isSome := by
      rw [Option.isSome_iff_ne_none, Ne, entry?_eq_none_iff]
      exact fun hnot => hnot hmem
    rw [makeRoom, if_pos hentry] at hgone
    have hkey : e.key ≠ other := fun heq => hne (by simp [heq])
    exact hgone (List.mem_map_of_mem (mem_without.mpr ⟨he, hkey⟩))
  have hentry : ( entry? (after capacity h) other).isSome = false := by
    rw [entry?_eq_none_iff.mpr hother]
    rfl
  rw [makeRoom, hentry, if_neg Bool.false_ne_true, (now_after capacity h).2.2] at hgone
  have hlength := hI.length_le
  rw [held, keys, List.length_map] at hlength
  -- the entry is behind all for which there is still room, so that it is the last one
  obtain ⟨i, hi, rfl⟩ := List.mem_iff_getElem.mp he
  have hlast : max capacity 1 - 1 ≤ i := by
    by_contra hlt
    refine hgone (List.mem_map_of_mem (List.mem_iff_getElem.mpr ⟨i, ?_, ?_⟩))
    · rw [List.length_take]
      omega
    · exact List.getElem_take
  refine ⟨hother, ?_, fun last hmem hlastne => ?_⟩
  · rw [held, keys, List.length_map]
    omega
  · obtain ⟨e', he', rfl⟩ := List.mem_map.mp hmem
    obtain ⟨j, hj, rfl⟩ := List.mem_iff_getElem.mp he'
    have hji : j < i := by
      have hne : j ≠ i := by
        rintro rfl
        exact hlastne rfl
      omega
    exact List.pairwise_iff_getElem.mp hI.recent j i hj hi hji

theorem dropped (hheld : key ∈ held capacity h)
    (hgone : key ∉ held capacity (h ++ [call])) :
    call = .remove key ∨ call = .clear ∨ Evicts capacity key h call ∨
      call = .get key ∧ found capacity h key = none := by
  obtain ⟨e, he, rfl⟩ := List.mem_map.mp hheld
  rw [held, keys, after_concat] at hgone
  -- an entry that goes with others of a key is one of that key
  have hwithout : ∀ {other}, e ∉ (after capacity h).without other → e.key = other := by
    intro other hnot
    by_contra hne
    exact hnot (mem_without.mpr ⟨he, hne⟩)
  have hnot : e ∉ (call.perform (after capacity h)).entries := fun hmem =>
    hgone (List.mem_map_of_mem hmem)
  cases call with
  | set other t =>
    refine .inr (.inr (.inl ⟨⟨other, t, rfl⟩, hheld, ?_⟩))
    rwa [held, keys, after_concat]
  | remove other =>
    rw [hwithout hnot]
    exact .inl rfl
  | clear => exact .inr (.inl rfl)
  | get other =>
    rcases perform_get capacity h other with ⟨hnone, hentries⟩ | ⟨e', hmem, rfl, hfound, hentries⟩
    · rw [hentries] at hnot
      rw [hwithout hnot]
      exact .inr (.inr (.inr ⟨rfl, hnone⟩))
    · rw [hentries] at hgone hnot
      have hkey := hwithout fun hmem => hnot (List.mem_append_right _ hmem)
      exact absurd (by simp [hkey]) hgone
  | setKeep ms => exact absurd he hnot
  | has other => exact absurd he hnot
  | clone => exact absurd he hnot
  | elapse ms => exact absurd he hnot

/-- What is found is a template that has not expired, of the key that was asked for. -/
theorem has_eq (capacity : Nat) (h : List CacheCall) (key : Text) :
    (after capacity h).has key = (found capacity h key).isSome := by
  unfold has found MemoryCache.get
  cases entry? (after capacity h) key with
  | none => rfl
  | some e =>
    cases hlive : (after capacity h).isLive e with
    | true => simp [hlive]
    | false => simp [hlive]

theorem after_silent (hsilent : ∀ c, call.perform c = c) (later : List CacheCall) :
    after capacity (h ++ call :: later) = after capacity (h ++ later) := by
  simp [after, hsilent]

/-- The store of a cache in memory is a map with room for so many keys, in which templates expire,
and of which the key goes that was not used for longest. -/
theorem isLru (capacity : Nat) (h : List CacheCall) : IsLru capacity h :=
  have hI := tracks capacity h
  { nodup := hI.nodup
    length_le := hI.length_le
    found_iff := fun _ _ => found_iff hI
    set_of_skips := fun _ _ => after_set_of_skips
    evicted := fun _ _ _ => evicted hI
    dropped := fun _ _ => dropped
    has_eq := has_eq capacity h
    silent := fun _ later =>
      ⟨after_silent (fun _ => rfl) later, after_silent (fun _ => rfl) later⟩ }

end MemoryCache

/-- What the holder of a cache gets from a call. -/
inductive CacheAnswer where
  | done
  | found (template : Option Template)
  | has (held : Bool)

namespace CacheCall

/-- What a store answers to a call. -/
def answer (c : MemoryCache) : CacheCall → CacheAnswer
  | get key => .found (c.get key).1
  | has key => .has (c.has key)
  | _ => .done

/-- Makes a call to a shared cache. -/
def make (c : SharedCache) : CacheCall → Locked CacheAnswer × SharedCache
  | get key => (c.get key).map (Locked.map .found) id
  | set key template => (c.set key template).map (Locked.map fun _ => .done) id
  | remove key => (c.remove key).map (Locked.map fun _ => .done) id
  | clear => c.clear.map (Locked.map fun _ => .done) id
  | setKeep ms => (.done .done, c.setKeep ms)
  | has key => (.done (.has (c.has key)), c)
  | clone => (.done .done, c)
  | elapse ms => (.done .done, c.advance ms)

/-- What comes of a call when the lock is broken. -/
def broken : CacheCall → Locked CacheAnswer
  | get _ | set .. | remove _ | clear => .refused .brokenLock
  | has _ => .done (.has false)
  | setKeep _ | clone | elapse _ => .done .done

end CacheCall

namespace SharedCache

open CacheCall MemoryCache

/-- A shared cache after a history. -/
def after (c : SharedCache) (h : List CacheCall) : SharedCache :=
  h.foldl (fun c call => (call.make c).2) c

/-- A call that writes a template, to be kept until a time that the clock does not tell. -/
def Overflows (latest capacity : Nat) (h : List CacheCall) (call : CacheCall) : Prop :=
  ∃ key template expires, Writes capacity key template expires h call ∧ latest < expires

/-- Has there been a call that wrote a template to be kept for too long? -/
def HasOverflowed (latest capacity : Nat) (h : List CacheCall) : Prop :=
  Since (Overflows latest capacity) (fun _ _ => False) h

variable {latest slots capacity : Nat} {c : SharedCache} {h : List CacheCall} {call : CacheCall}

theorem eq_of_ofCapacity? (hc : ofCapacity? latest slots capacity = some c) :
    c = ⟨latest, false, MemoryCache.after capacity []⟩ := by
  rw [ofCapacity?, Option.ite_none_right_eq_some] at hc
  exact (Option.some.inj hc.2).symm

theorem hasOverflowed_concat : HasOverflowed latest capacity (h ++ [call]) ↔
    Overflows latest capacity h call ∨ HasOverflowed latest capacity h := by
  simp [HasOverflowed, since_concat]

/-- A call writes a template for too long if it has to write one and the clock overflows. -/
theorem overflows_set_iff {key : Text} {template : Template} :
    Overflows latest capacity h (.set key template) ↔
      (MemoryCache.after capacity h).isKept key template = false ∧
        latest < (MemoryCache.after capacity h).now + (MemoryCache.after capacity h).keepMs := by
  obtain ⟨hnow, hkeep, -⟩ := now_after capacity h
  rw [hnow, hkeep, ← Bool.not_eq_true, ← skips_iff]
  constructor
  · rintro ⟨_, _, _, ⟨heq, hs, rfl⟩, hlate⟩
    cases heq
    exact ⟨hs, hlate⟩
  · rintro ⟨hs, hlate⟩
    exact ⟨key, template, _, ⟨rfl, hs, rfl⟩, hlate⟩

theorem set_of_overflows {c : SharedCache} {key : Text} {template : Template}
    (hc : c.isBroken = false) (hkept : c.store.isKept key template = false)
    (hlate : c.latest < c.store.now + c.store.keepMs) :
    c.set key template = (.stopped, { c with isBroken := true }) := by
  simp [SharedCache.set, overflows, hc, hkept, hlate]

theorem set_of_told {c : SharedCache} {key : Text} {template : Template} (hc : c.isBroken = false)
    (htold : ¬(c.store.isKept key template = false ∧ c.latest < c.store.now + c.store.keepMs)) :
    c.set key template = (.done (), { c with store := c.store.set key template }) := by
  have hnot : (!c.isBroken && !c.store.isKept key template && c.overflows) = false := by
    simpa [overflows, hc] using htold
  rw [SharedCache.set, if_neg (ne_true_of_eq_false hnot)]
  simp [locked, hc]

/-- A call to a cache whose lock is not broken: it stops, or it is a call to the store. -/
theorem make_after (latest capacity : Nat) (h : List CacheCall) (call : CacheCall) :
    (Overflows latest capacity h call →
      call.make ⟨latest, false, MemoryCache.after capacity h⟩ =
        (.stopped, ⟨latest, true, MemoryCache.after capacity h⟩)) ∧
      (¬Overflows latest capacity h call →
        call.make ⟨latest, false, MemoryCache.after capacity h⟩ =
          (.done (call.answer (MemoryCache.after capacity h)),
            ⟨latest, false, MemoryCache.after capacity (h ++ [call])⟩)) := by
  cases call with
  | set key template =>
    rw [overflows_set_iff, after_concat]
    refine ⟨fun ⟨hkept, hlate⟩ => ?_, fun hnot => ?_⟩
    · rw [make, set_of_overflows rfl hkept hlate]
      rfl
    · rw [make, set_of_told rfl hnot]
      rfl
  | _ =>
    rw [after_concat]
    refine ⟨fun ⟨_, _, _, ⟨heq, _⟩, _⟩ => ?_, fun _ => rfl⟩
    cases heq

/-- A call to a cache whose lock is broken leaves it so. -/
theorem make_of_isBroken {c : SharedCache} (hc : c.isBroken = true) (call : CacheCall) :
    (call.make c).1 = call.broken ∧ (call.make c).2.isBroken = true := by
  cases call <;>
    simp [make, CacheCall.broken, get, set, remove, clear, has, setKeep, advance, locked, hc,
      Locked.map]

/-- Up to the first template that is written for too long, a shared cache is its store; then the
lock is broken. -/
theorem after_eq (hc : ofCapacity? latest slots capacity = some c) (h : List CacheCall) :
    (¬HasOverflowed latest capacity h →
      c.after h = ⟨latest, false, MemoryCache.after capacity h⟩) ∧
      (HasOverflowed latest capacity h → (c.after h).isBroken = true) := by
  induction h using List.reverseRecOn with
  | nil => exact ⟨fun _ => eq_of_ofCapacity? hc, fun ho => absurd ho not_since_nil⟩
  | append_singleton h call ih =>
    have hstep : c.after (h ++ [call]) = (call.make (c.after h)).2 := by simp [after]
    obtain ⟨hintact, hbroken⟩ := ih
    obtain ⟨hstop, hgo⟩ := make_after latest capacity h call
    rw [hstep, hasOverflowed_concat]
    by_cases hbefore : HasOverflowed latest capacity h
    · -- nothing mends the lock
      exact ⟨fun hnot => absurd (.inr hbefore) hnot,
        fun _ => (make_of_isBroken (hbroken hbefore) call).2⟩
    · rw [hintact hbefore]
      refine ⟨fun hnot => ?_, fun ho => ?_⟩
      · rw [hgo fun ho => hnot (.inl ho)]
      · rw [hstop (ho.resolve_right hbefore)]

/-- If no template is ever kept for `n` milliseconds or more, and the clock tells the times up to
that long from now, the lock is not broken. -/
theorem not_hasOverflowed {n : Nat} (hdefault : defaultKeepMs < n)
    (hkeep : ∀ ms, .setKeep ms ∈ h → ms < n) (hclock : clock h + n ≤ latest) :
    ¬HasOverflowed latest capacity h := by
  have hlast : keepAfter h < n ∧ ¬HasOverflowed latest capacity h := by
    induction h using List.reverseRecOn with
    | nil => exact ⟨hdefault, not_since_nil⟩
    | append_singleton h call ih =>
      rw [clock_concat] at hclock
      obtain ⟨hlt, hnot⟩ := ih (fun ms hms => hkeep ms (List.mem_append_left _ hms)) (by omega)
      rw [keepAfter_concat, hasOverflowed_concat]
      refine ⟨?_, fun ho => ho.elim ?_ hnot⟩
      · cases call with
        | setKeep ms => exact hkeep ms (by simp)
        | _ => exact hlt
      · rintro ⟨_, _, expires, ⟨-, -, rfl⟩, hlate⟩
        omega
  exact hlast.2

/-- What the holders of a cache and its clones get, if it could be made. Until a template is written
for longer than the clock can tell, they have a map with room for so many keys, in which templates
expire, and of which the key goes that was not used for longest. The call that writes such a
template stops, and the later ones are refused; it does not come to that while all times to live are
ones that the clock still tells. -/
theorem answers_as_lru (hc : ofCapacity? latest slots capacity = some c) (h : List CacheCall)
    (call : CacheCall) :
    (¬HasOverflowed latest capacity h →
      IsLru capacity h ∧
        (¬Overflows latest capacity h call →
          (call.make (c.after h)).1 = .done (call.answer (MemoryCache.after capacity h))) ∧
        (Overflows latest capacity h call → (call.make (c.after h)).1 = .stopped)) ∧
      (HasOverflowed latest capacity h → (call.make (c.after h)).1 = call.broken) ∧
      ∀ n, defaultKeepMs < n → (∀ ms, .setKeep ms ∈ h → ms < n) → clock h + n ≤ latest →
        ¬HasOverflowed latest capacity h := by
  obtain ⟨hintact, hbroken⟩ := after_eq hc h
  obtain ⟨hstop, hgo⟩ := make_after latest capacity h call
  refine ⟨fun hnot => ⟨MemoryCache.isLru capacity h, fun ho => ?_, fun ho => ?_⟩, fun ho => ?_,
    fun n => not_hasOverflowed⟩
  · rw [hintact hnot, hgo ho]
  · rw [hintact hnot, hstop ho]
  · exact (make_of_isBroken (hbroken ho) call).1

/-- There is room for one template: the one that was written last is found, and the first is not. -/
theorem answers_as_lru_single :
    let template := fun path => Template.ofHtml path "<p>a</p>".toList [] [] []
    let h : List CacheCall := [.set ['a'] (template ['a']), .set ['b'] (template ['b'])]
    ∃ c, ofCapacity? (defaultKeepMs + 1) 1 1 = some c ∧
      ((CacheCall.get ['b']).make (c.after h)).1 = .done (.found (some (template ['b']))) ∧
        ((CacheCall.get ['a']).make (c.after h)).1 = .done (.found none) := by
  intro template h
  have hc : ofCapacity? (defaultKeepMs + 1) 1 1 =
      some ⟨defaultKeepMs + 1, false, .empty 1⟩ := rfl
  have hclock : clock h = 0 := rfl
  have hnot : ¬HasOverflowed (defaultKeepMs + 1) 1 h :=
    (answers_as_lru hc h .clear).2.2 (defaultKeepMs + 1) (Nat.lt_succ_self _) (by simp [h])
      (by rw [hclock, Nat.zero_add])
  have hget : ∀ key, ((CacheCall.get key).make (after _ h)).1 =
      .done (.found ((MemoryCache.after 1 h).get key).1) := fun key =>
    ((answers_as_lru hc h (.get key)).1 hnot).2.1 fun ⟨_, _, _, ⟨heq, _⟩, _⟩ => nomatch heq
  exact ⟨_, hc, (hget ['b']).trans rfl, (hget ['a']).trans rfl⟩

/-- A template that is written to be kept for longer than the clock can tell is refused to those who
ask for it, though it is the last one that was written and has not expired. -/
theorem refused_of_late (hc : ofCapacity? latest slots 1 = some c) {ms : Nat} (hlate : latest < ms)
    (key : Text) (template : Template) :
    (clock [.setKeep ms, .set key template] < ms ∧
      Since (Writes 1 key template ms) (Ends 1 key) [.setKeep ms, .set key template]) ∧
      ((CacheCall.get key).make (c.after [.setKeep ms, .set key template])).1 =
        .refused .brokenLock := by
  have hwrites : Writes 1 key template ms [.setKeep ms] (.set key template) := by
    refine ⟨rfl, ?_, by simp [clock, keepAfter, elapsed, CacheCall.keepMs]⟩
    rintro ⟨t, ht, -⟩
    cases ht
  have hover : HasOverflowed latest 1 ([.setKeep ms] ++ [.set key template]) :=
    hasOverflowed_concat.mpr (.inl ⟨key, template, ms, hwrites, hlate⟩)
  refine ⟨⟨?_, since_concat.mpr (.inl hwrites)⟩, ?_⟩
  · simp only [clock, elapsed, List.map_cons, List.map_nil, List.sum_cons, List.sum_nil]
    omega
  · exact (make_of_isBroken ((after_eq hc _).2 hover) _).1

/-- The clock counts seconds in 63 bits, and the longest time to live is of 2⁶⁴ seconds less one:
what is written to be kept for so long is refused. A cache with room for 2⁶³ templates less one is
not even made. -/
theorem not_found_longest :
    let template := Template.ofHtml "index".toList "<p>a</p>".toList [] [] []
    let h : List CacheCall := [.setKeep ((2 ^ 64 - 1) * 1000), .set "index".toList template]
    (∃ c, ofCapacity? (2 ^ 63 * 1000 - 1) (2 ^ 58 / 8 * 7) 1 = some c ∧
      (clock h < (2 ^ 64 - 1) * 1000 ∧
        Since (Writes 1 "index".toList template ((2 ^ 64 - 1) * 1000)) (Ends 1 "index".toList) h) ∧
        ((CacheCall.get "index".toList).make (c.after h)).1 = .refused .brokenLock) ∧
      ofCapacity? (2 ^ 63 * 1000 - 1) (2 ^ 58 / 8 * 7) (2 ^ 63 - 1) = none := by
  have hc : ofCapacity? (2 ^ 63 * 1000 - 1) (2 ^ 58 / 8 * 7) 1 =
      some ⟨2 ^ 63 * 1000 - 1, false, .empty 1⟩ := rfl
  exact ⟨⟨_, hc, refused_of_late hc (by norm_num) _ _⟩, rfl⟩

end SharedCache

end Stencil
