import Stencil.Function.Video
import Stencil.Proofs.Path

namespace Stencil.VideoRef

variable {id s input : Text} {v : VideoRef}

/-- Is this what an address can point to? -/
structure Canonical (v : VideoRef) : Prop where
  nonempty : v.id ≠ []
  chars : ∀ c ∈ v.id, isIdChar c
  uploads : ∀ list, v = .playlist list → ¬['U', 'C'] <+: list

theorem isAlphanum_of_isIdChar {c : Char} (h : isIdChar c) : c.isAlphanum ∨ c = '_' ∨ c = '-' := by
  simpa [isIdChar, Char.isAlphanum, or_assoc] using h

theorem not_mem_of_isIdChar (h : ∀ c ∈ id, isIdChar c) {c : Char} (hc : isIdChar c = false) :
    c ∉ id := fun hm => by
  have := h c hm
  rw [hc] at this
  cases this

theorem of_id? (h : id? s = some id) : id ≠ [] ∧ ∀ c ∈ id, isIdChar c := by
  unfold id? at h
  dsimp only at h
  split at h
  next => cases h
  next hne =>
    cases Option.some.inj h
    exact ⟨fun he => hne (by simp [he]), List.all_eq_true.mp List.all_takeWhile⟩

theorem id?_self (hne : id ≠ []) (h : ∀ c ∈ id, isIdChar c) : id? id = some id := by
  have htake : id.takeWhile isIdChar = id := List.takeWhile_eq_self_iff.mpr h
  unfold id?
  rw [htake]
  simp [hne]

theorem canonical_video (h : id? s = some id) : (video id).Canonical :=
  ⟨(of_id? h).1, (of_id? h).2, fun _ he => by cases he⟩

theorem canonical_ofPlaylist (hne : id ≠ []) (h : ∀ c ∈ id, isIdChar c) :
    (ofPlaylist id).Canonical := by
  unfold ofPlaylist
  split
  next channel hs =>
    obtain rfl := Text.strip?_eq_some_iff.mp hs
    refine ⟨by simp [VideoRef.id], fun c hc => ?_, fun list he => ?_⟩
    · rcases List.mem_append.mp hc with hc | hc
      · obtain rfl : c = 'U' := by simpa using hc
        rfl
      · exact h c (List.mem_append_right _ hc)
    · obtain rfl := playlist.inj he
      simp [List.cons_prefix_cons]
  next hs =>
    refine ⟨hne, h, fun list he hpre => ?_⟩
    obtain rfl := playlist.inj he
    obtain ⟨channel, hc⟩ := hpre
    rw [Text.strip?_eq_some_iff.mpr hc.symm] at hs
    cases hs

theorem exists_id?_of_parameter? {key : Text} (h : parameter? s key = some id) :
    ∃ value, id? value = some id := by
  simp only [parameter?, Option.bind_eq_bind, Option.bind_eq_some_iff] at h
  obtain ⟨_, _, pair, _, hid⟩ := h
  exact ⟨pair.2, hid⟩

theorem canonical_of_ofId? (h : ofId? s = some v) : v.Canonical := by
  unfold ofId? at h
  split at h
  next => cases h
  next hs =>
    obtain ⟨hne, hall⟩ : s ≠ [] ∧ ∀ c ∈ s, isIdChar c := by simpa using hs
    split at h
    · cases Option.some.inj h
      exact canonical_ofPlaylist hne hall
    · cases Option.some.inj h
      exact canonical_video (id?_self hne hall)

theorem canonical_of_ofText? (h : ofText? input = some v) : v.Canonical := by
  unfold ofText? at h
  dsimp only at h
  split at h
  next hid =>
    cases Option.some.inj h
    obtain ⟨_, hid⟩ := exists_id?_of_parameter? hid
    exact canonical_video hid
  next hid =>
    cases Option.some.inj h
    obtain ⟨_, hid⟩ := exists_id?_of_parameter? hid
    exact canonical_ofPlaylist (of_id? hid).1 (of_id? hid).2
  next =>
    split at h
    · obtain ⟨id, hid, rfl⟩ := Option.map_eq_some_iff.mp h
      exact canonical_video hid
    · exact canonical_of_ofId? h

/-- An address with one parameter has this parameter and no other. -/
theorem parameter?_written {base : Text} (hbase : '?' ∉ base) (key : Text)
    (hkey : '=' ∉ key ∧ '&' ∉ key) (hne : id ≠ []) (h : ∀ c ∈ id, isIdChar c) (other : Text) :
    parameter? (base ++ '?' :: (key ++ '=' :: id)) other =
      if key = other then some id else none := by
  have hsplit : Text.splitOn ['&'] (key ++ '=' :: id) = [key ++ '=' :: id] :=
    Text.splitOn_of_not_mem (by simp [hkey.2, not_mem_of_isIdChar h (c := '&') rfl])
  simp only [parameter?, Text.cut?_append_cons hbase, Text.cut?_append_cons hkey.1, hsplit,
    Option.bind_eq_bind, Option.bind_some, List.filterMap_cons, List.filterMap_nil,
    List.find?_cons, List.find?_nil]
  by_cases hk : key = other
  · simp [hk, id?_self hne h]
  · simp [hk]

theorem parameter?_of_not_mem (h : '?' ∉ s) (key : Text) : parameter? s key = none := by
  simp [parameter?, Text.cut?_of_not_mem h]

theorem isWhiteSpace_of_isIdChar {c : Char} (h : isIdChar c) : isWhiteSpace c = false := by
  have hrange : 45 ≤ c.toNat ∧ c.toNat ≤ 122 := by
    simp only [isIdChar, Bool.or_eq_true, beq_iff_eq, Char.isAlpha, Char.isUpper, Char.isLower,
      Char.isDigit, Bool.and_eq_true, decide_eq_true_eq, ge_iff_le, UInt32.le_iff_toNat_le] at h
    rcases h with ((h | h) | rfl) | rfl
    · change 65 ≤ c.toNat ∧ c.toNat ≤ 90 ∨ 97 ≤ c.toNat ∧ c.toNat ≤ 122 at h
      omega
    · change 48 ≤ c.toNat ∧ c.toNat ≤ 57 at h
      omega
    · decide
    · decide
  simp only [isWhiteSpace, Bool.or_eq_false_iff, Bool.and_eq_false_iff, decide_eq_false_iff_not,
    beq_eq_false_iff_ne]
  omega

/-- An address that ends with an identifier is not surrounded by white space. -/
theorem trim_address {lead : Text} (hlead : lead.head?.any fun c => !isWhiteSpace c)
    (hne : id ≠ []) (h : ∀ c ∈ id, isIdChar c) : Text.trim (lead ++ id) = lead ++ id := by
  refine Text.trim_eq_self (fun c hc => ?_) fun c hc => ?_
  · cases lead with
    | nil => cases hlead
    | cons d lead =>
      obtain rfl : d = c := by simpa using hc
      simpa using hlead
  · rw [List.getLast?_append_of_ne_nil _ hne] at hc
    exact isWhiteSpace_of_isIdChar (h c (List.mem_of_getLast? hc))

/-- Can an address begin so, before the parameters that it asks for? -/
structure IsBase (base : Text) : Prop where
  starts : base.head?.any fun c => !isWhiteSpace c
  plain : '?' ∉ base

/-- An address with a base and one parameter. -/
def asking (base key id : Text) : Text := base ++ '?' :: (key ++ '=' :: id)

theorem trim_asking {base key : Text} (hb : IsBase base) (hne : id ≠ [])
    (h : ∀ c ∈ id, isIdChar c) : Text.trim (asking base key id) = asking base key id := by
  have hlead : (base ++ '?' :: (key ++ ['='])).head?.any fun c => !isWhiteSpace c := by
    have := hb.starts
    cases base with
    | nil => cases this
    | cons c base => exact this
  have ht := trim_address hlead hne h
  simpa [asking] using ht

theorem ofText?_asking_video {base : Text} (hb : IsBase base) (hne : id ≠ [])
    (h : ∀ c ∈ id, isIdChar c) : ofText? (asking base "v".toList id) = some (video id) := by
  have hv := parameter?_written hb.plain "v".toList (by decide) hne h "v".toList
  rw [if_pos rfl, ← asking] at hv
  unfold ofText?
  simp only [trim_asking hb hne h, hv]

theorem ofText?_asking_list {base : Text} (hb : IsBase base) (hne : id ≠ [])
    (h : ∀ c ∈ id, isIdChar c) : ofText? (asking base "list".toList id) = some (ofPlaylist id) := by
  have hwritten := parameter?_written hb.plain "list".toList (by decide) hne h
  have hv := hwritten "v".toList
  have hl := hwritten "list".toList
  rw [if_neg (by decide), ← asking] at hv
  rw [if_pos rfl, ← asking] at hl
  unfold ofText?
  simp only [trim_asking hb hne h, hv, hl]

theorem Canonical.ofPlaylist_eq (h : (playlist id).Canonical) : ofPlaylist id = playlist id := by
  unfold ofPlaylist
  split
  next channel hs => exact absurd ⟨channel, (Text.strip?_eq_some_iff.mp hs).symm⟩ (h.uploads id rfl)
  next => rfl

theorem asking_of_lead {lead base key : Text} (h : lead = base ++ '?' :: (key ++ ['=']))
    (id : Text) : lead ++ id = asking base key id := by
  simp [h, asking]

theorem ofText?_pageUrl (h : v.Canonical) : ofText? v.pageUrl = some v := by
  cases v with
  | video id =>
    have hurl : pageUrl (video id) = asking "https://www.youtube.com/watch".toList "v".toList id :=
      asking_of_lead (by decide +kernel) id
    rw [hurl]
    exact ofText?_asking_video ⟨by decide, by decide⟩ h.nonempty h.chars
  | playlist id =>
    have hurl : pageUrl (playlist id) =
        asking "https://www.youtube.com/playlist".toList "list".toList id :=
      asking_of_lead (by decide +kernel) id
    rw [hurl, ← h.ofPlaylist_eq]
    exact ofText?_asking_list ⟨by decide, by decide⟩ h.nonempty h.chars

/-- A pattern does not stand across the start of a text that lacks its last character. -/
theorem infix_of_append {pat lead : Text} {c : Char} (hlast : pat.getLast? = some c) (hc : c ∉ s)
    (h : pat <:+: lead ++ s) : pat <:+: lead := by
  obtain ⟨before, after, he⟩ := h
  rcases List.append_eq_append_iff.mp he with ⟨a, ha, -⟩ | ⟨a, ha, hs⟩
  · exact ⟨before, a, ha.symm⟩
  · cases a with
    | nil => exact ⟨before, [], by simpa using ha⟩
    | cons d a =>
      have hne : pat ≠ [] := by
        rintro rfl
        cases hlast
      have hends := congrArg List.getLast? ha
      rw [List.getLast?_append_of_ne_nil _ hne, hlast,
        List.getLast?_append_of_ne_nil _ (List.cons_ne_nil d a)] at hends
      exact absurd (hs ▸ List.mem_append_left after (List.mem_of_getLast? hends.symm)) hc

/-- The address of the player of a video has one of the markers, right before the identifier. -/
theorem findSome?_markers (h : ∀ c ∈ id, isIdChar c) :
    (markers.findSome? fun m =>
      Text.cut? m.toList ("https://www.youtube.com/embed/".toList ++ id)) =
      some ("https://www.youtube.com".toList, id) := by
  have hlead : "https://www.youtube.com/embed/".toList =
      "https://www.youtube.com".toList ++ "/embed/".toList := by decide +kernel
  have hfirst : Text.cut? "youtu.be/".toList ("https://www.youtube.com/embed/".toList ++ id) =
      none := by
    -- the identifier has no slash, so the marker would have to stand before it
    refine Option.eq_none_iff_forall_ne_some.mpr fun ⟨before, after⟩ hcut => ?_
    have hinfix := infix_of_append (by decide) (not_mem_of_isIdChar h (c := '/') rfl)
      ⟨before, after, (Text.eq_of_cut? hcut).symm⟩
    exact absurd hinfix (by decide +kernel)
  have hsecond : Text.cut? "/embed/".toList ("https://www.youtube.com/embed/".toList ++ id) =
      some ("https://www.youtube.com".toList, id) := by
    rw [hlead]
    exact Text.cut?_append_of_not_infix (by decide) (by decide +kernel) id
  rw [markers, List.findSome?_cons, hfirst, List.findSome?_cons, hsecond]

theorem ofText?_embedUrl (h : v.Canonical) : ofText? v.embedUrl = some v := by
  cases v with
  | video id =>
    have hne : id ≠ [] := h.nonempty
    have hall : ∀ c ∈ id, isIdChar c := h.chars
    have ht : Text.trim ("https://www.youtube.com/embed/".toList ++ id) =
        "https://www.youtube.com/embed/".toList ++ id := trim_address (by decide) hne hall
    have hplain : '?' ∉ "https://www.youtube.com/embed/".toList ++ id := by
      rw [List.mem_append, not_or]
      exact ⟨by decide, not_mem_of_isIdChar hall rfl⟩
    unfold ofText? embedUrl
    simp only [ht, parameter?_of_not_mem hplain, findSome?_markers hall, id?_self hne hall,
      Option.map_some]
  | playlist id =>
    have hurl : embedUrl (playlist id) =
        asking "https://www.youtube.com/embed/".toList "list".toList id :=
      asking_of_lead (by decide +kernel) id
    rw [hurl, ← h.ofPlaylist_eq]
    exact ofText?_asking_list ⟨by decide, by decide⟩ h.nonempty h.chars

/-- What an address points to has an identifier of identifier characters, and is read again from the
address of its page and from that of its player. -/
theorem addresses_read (h : ofText? input = some v) :
    v.id ≠ [] ∧ (∀ c ∈ v.id, c.isAlphanum ∨ c = '_' ∨ c = '-') ∧
      ofText? v.pageUrl = some v ∧ ofText? v.embedUrl = some v := by
  have hv := canonical_of_ofText? h
  exact ⟨hv.nonempty, fun c hc => isAlphanum_of_isIdChar (hv.chars c hc), ofText?_pageUrl hv,
    ofText?_embedUrl hv⟩

/-- The uploads of a channel, from an address with a list that also has a marker before a video. -/
theorem addresses_read_uploads :
    let input := " https://youtu.be/dQw4w9WgXcQ?t=42&list=UC_x5-X&list=PL1 ".toList
    let v : VideoRef := .playlist "UU_x5-X".toList
    ofText? input = some v ∧
      v.id ≠ [] ∧ (∀ c ∈ v.id, c.isAlphanum ∨ c = '_' ∨ c = '-') ∧
      ofText? v.pageUrl = some v ∧ ofText? v.embedUrl = some v := by
  intro input v
  have hread : ofText? input = some v := by decide +kernel
  exact ⟨hread, addresses_read hread⟩

end Stencil.VideoRef
