import Stencil.Codec.Base64
import Stencil.Proofs.Occurrence
import Stencil.Proofs.Path
import Stencil.Server

namespace Stencil

namespace Text

theorem trim_subset (s : Text) : trim s ⊆ s := by
  obtain ⟨before, after, hs, -, -⟩ := exists_blanks_trim s
  intro c hc
  rw [hs]
  simp [hc]

theorem subset_of_strip? {lead s rest : Text} (h : strip? lead s = some rest) : rest ⊆ s := by
  rw [strip?_eq_some_iff.mp h]
  exact List.subset_append_right lead rest

/-- Lines, with a line feed after each. -/
def unlines (ls : List Text) : Text := ls.flatMap (· ++ ['\n'])

theorem not_mem_of_mem_lines {s l : Text} (h : l ∈ lines s) : '\n' ∉ l := by
  have hparts : ∀ part ∈ splitOn ['\n'] s, '\n' ∉ part := fun _ => not_mem_of_mem_splitOn
  have hwhole : ∀ l ∈ (splitOn ['\n'] s).dropLast.map fun l => (dropEnding? ['\r'] l).getD l,
      '\n' ∉ l := by
    intro l hl
    obtain ⟨part, hpart, rfl⟩ := List.mem_map.mp hl
    have hp := hparts part (List.dropLast_subset _ hpart)
    cases hd : dropEnding? ['\r'] part with
    | none => exact hp
    | some rest =>
      rw [eq_of_dropEnding? hd] at hp
      exact fun hm => hp (List.mem_append_left _ hm)
  unfold lines at h
  dsimp only at h
  split at h
  · exact hwhole l h
  · exact hwhole l h
  next last _ hlast =>
    rcases List.mem_append.mp h with h | h
    · exact hwhole l h
    · exact List.mem_singleton.mp h ▸ hparts last (List.mem_of_getLast? hlast)

theorem splitOn_unlines {ls : List Text} (h : ∀ l ∈ ls, '\n' ∉ l) :
    splitOn ['\n'] (unlines ls) = ls ++ [[]] := by
  induction ls with
  | nil => exact splitOn_of_not_mem List.not_mem_nil
  | cons l ls ih =>
    have hcons : unlines (l :: ls) = l ++ '\n' :: unlines ls := by simp [unlines]
    rw [hcons, splitOn_cons_of_not_mem (h l List.mem_cons_self),
      ih fun m hm => h m (List.mem_cons_of_mem l hm), List.cons_append]

/-- Lines without line breaks in them are read back. -/
theorem lines_unlines {ls : List Text} (h : ∀ l ∈ ls, '\n' ∉ l)
    (hend : ∀ l ∈ ls, l.getLast? ≠ some '\r') : lines (unlines ls) = ls := by
  have hwhole : ls.map (fun l => (dropEnding? ['\r'] l).getD l) = ls := by
    refine (List.map_congr_left fun l hl => ?_).trans (List.map_id ls)
    cases hd : dropEnding? ['\r'] l with
    | none => rfl
    | some rest => exact absurd (by simp [eq_of_dropEnding? hd]) (hend l hl)
  simp [lines, splitOn_unlines h, hwhole]

end Text

namespace Command

/-- Is a command one for the engine, which comes with an identifier? -/
def isRequest (c : Command) : Bool := c.id?.isSome

/-- The commands of some lines that are answered: pings and requests, as far as the session is not
stopped. -/
def awaited (lines : List Text) : List Command :=
  ((lines.filterMap ofLine?).takeWhile (· ≠ .stop)).filter fun c => c = .ping || c.isRequest

/-- What a request may be answered: whether it was done, whether a template is there, or a page. -/
def Admits : Command → Text → Prop
  | precompile .., answer => answer = "success".toList ∨ answer = "error".toList
  | has .., answer => answer = "true".toList ∨ answer = "false".toList ∨ answer = "error".toList
  | compile .., answer => answer = "error".toList ∨ ∃ page, answer = Payload.ofText page
  | _, _ => False

/-- Does a line answer a command? In the answer to a request the identifier comes back before the
first colon, and what follows has no line breaks, nor other white space. -/
inductive Answers : Command → Text → Prop
  | pong : Answers .ping "pong".toList
  | request {c : Command} {id answer out : Text} (hid : c.id? = some id)
    (hcut : cutColon? out = some (id, answer)) (hadmits : c.Admits answer)
    (hword : ∀ ch ∈ answer, isWhiteSpace ch = false) : Answers c out

section Lines

variable {line : Text} {more : List Text} {c : Command} {id answer out : Text}

theorem awaited_malformed (h : ofLine? line = none) : awaited (line :: more) = awaited more := by
  rw [awaited, List.filterMap_cons_none h, awaited]

theorem awaited_stop (h : ofLine? line = some .stop) : awaited (line :: more) = [] := by
  rw [awaited, List.filterMap_cons_some h]
  rfl

theorem awaited_set {key value : Text} (h : ofLine? line = some (.set key value)) :
    awaited (line :: more) = awaited more := by
  rw [awaited, List.filterMap_cons_some h]
  rfl

theorem awaited_cons (h : ofLine? line = some c) (hc : c = .ping ∨ c.isRequest) :
    awaited (line :: more) = c :: awaited more := by
  have hstop : c ≠ .stop := by
    rintro rfl
    exact hc.elim nofun nofun
  rw [awaited, List.filterMap_cons_some h, List.takeWhile_cons_of_pos (by simpa using hstop),
    List.filter_cons_of_pos (by simpa using hc), awaited]

theorem exists_line_of_mem_awaited {lines : List Text} (h : c ∈ awaited lines) :
    ∃ line ∈ lines, ofLine? line = some c :=
  List.mem_filterMap.mp ((List.takeWhile_sublist _).subset (List.mem_of_mem_filter h))

theorem before_of_cutColon? {s before after : Text} (h : cutColon? s = some (before, after)) :
    ':' ∉ before ∧ before ⊆ s := by
  refine ⟨Text.not_mem_of_cut? h, fun ch hch => ?_⟩
  rw [Text.eq_of_cut? h]
  simp [hch]

/-- The identifier of a request is what stands before a colon in its line. -/
theorem id_of_ofLine? (h : ofLine? line = some c) (hid : c.id? = some id) :
    ':' ∉ id ∧ id ⊆ line := by
  have hcut : ∀ {rest after : Text}, rest ⊆ Text.trim line → cutColon? rest = some (id, after) →
      ':' ∉ id ∧ id ⊆ line := fun hrest hcut =>
    ⟨(before_of_cutColon? hcut).1,
      fun _ hch => Text.trim_subset line (hrest ((before_of_cutColon? hcut).2 hch))⟩
  have hrequest : ∀ {lead rest : Text} {make : Text → Text → Command},
      (∀ id path, (make id path).id? = some id) → Text.strip? lead (Text.trim line) = some rest →
        (idAndPath? rest).map (fun parts => make parts.1 parts.2) = some c →
          ':' ∉ id ∧ id ⊆ line := by
    intro lead rest make hmake hrest hc
    obtain ⟨⟨id', path⟩, hparts, rfl⟩ := Option.map_eq_some_iff.mp hc
    cases (hmake id' path).symm.trans hid
    exact hcut (Text.subset_of_strip? hrest) (Option.filter_eq_some_iff.mp hparts).1
  unfold ofLine? at h
  dsimp only at h
  split_ifs at h
  · cases h
    cases hid
  · cases h
    cases hid
  · split at h
    next rest hrest =>
      obtain ⟨⟨key, value⟩, -, hset⟩ := Option.bind_eq_some_iff.mp h
      dsimp only at hset
      split_ifs at hset
      cases hset
      cases hid
    next =>
      split at h
      next rest hrest => exact hrequest (fun _ _ => rfl) hrest h
      next =>
        split at h
        next rest hrest => exact hrequest (fun _ _ => rfl) hrest h
        next =>
          obtain ⟨⟨id', rest⟩, hid', h⟩ := Option.bind_eq_some_iff.mp h
          obtain ⟨⟨payload, path⟩, -, h⟩ := Option.bind_eq_some_iff.mp h
          dsimp only at h
          split_ifs at h
          cases h
          cases hid
          exact hcut (List.Subset.refl _) hid'

theorem Admits.word (h : c.Admits answer) : ∀ ch ∈ answer, isWhiteSpace ch = false := by
  have hword : ∀ {word : Text}, word.any isWhiteSpace = false →
      ∀ ch ∈ word, isWhiteSpace ch = false := fun h ch hch => by
    simpa using List.any_eq_false.mp h ch hch
  cases c with
  | precompile id path =>
    rcases h with rfl | rfl
    · exact hword rfl
    · exact hword rfl
  | has id path =>
    rcases h with rfl | rfl | rfl
    · exact hword rfl
    · exact hword rfl
    · exact hword rfl
  | compile id payload path =>
    rcases h with rfl | ⟨page, rfl⟩
    · exact hword rfl
    · exact Base64.isWhiteSpace_of_mem_encode _
  | _ => exact h.elim

theorem admits_error (h : c.isRequest) : c.Admits "error".toList := by
  cases c with
  | precompile => exact .inr rfl
  | has => exact .inr (.inr rfl)
  | compile => exact .inl rfl
  | _ => cases h

theorem answers_reply (hid : c.id? = some id) (hcolon : ':' ∉ id) (h : c.Admits answer) :
    c.Answers (reply id answer) := by
  have hcut : cutColon? (reply id answer) = some (id, answer) := by
    rw [reply, cutColon?, List.append_assoc, Text.cut?_append_of_not_mem hcolon,
      Text.cut?_append_self (by simp)]
    simp
  exact .request hid hcut h h.word

/-- An answer is a line, if the identifier of the request is part of one. -/
theorem Answers.isLine (h : c.Answers out) (hid : ∀ id ∈ c.id?, '\n' ∉ id) :
    '\n' ∉ out ∧ out.getLast? ≠ some '\r' := by
  cases h with
  | pong => exact ⟨by decide, by decide⟩
  | @request _ id answer _ hsome hcut _ hword =>
    rw [Text.eq_of_cut? hcut]
    have hblank : ∀ ch, isWhiteSpace ch = true → ch ∉ answer := fun ch hch hm => by
      rw [hword ch hm] at hch
      cases hch
    refine ⟨?_, fun hlast => ?_⟩
    · simpa using ⟨hid id hsome, hblank '\n' rfl⟩
    · rcases List.eq_nil_or_concat answer with rfl | ⟨front, ch, rfl⟩
      · simp at hlast
      · simp only [List.concat_eq_append, ← List.append_assoc, List.getLast?_concat,
          Option.some.injEq] at hlast
        exact hblank ch (hlast ▸ rfl) (by simp)

end Lines

end Command

end Stencil
