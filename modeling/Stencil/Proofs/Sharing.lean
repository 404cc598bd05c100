import Stencil.Proofs.Slot

namespace Stencil

namespace Reference

/-- Whether a reference starts before a percent sign does not depend on what is after the sign. -/
theorem digits?_percent {k u x : Text} (hk : '%' ∉ k) (hu : u ≠ [])
    (h : (digits? (Marker.opening ++ k) (u ++ '%' :: x)).isSome) (y : Text) :
    (digits? (Marker.opening ++ k) (u ++ '%' :: y)).isSome := by
  obtain ⟨⟨ds, rest⟩, hread⟩ := Option.isSome_iff_exists.mp h
  obtain ⟨he, hne, hd⟩ := digits?_eq_some_iff.mp hread
  have hinside : '%' ∉ '!' :: (k ++ ds ++ ['!']) := by
    have hds : '%' ∉ ds := fun hm => (ne_of_isDecimalDigit (hd _ hm)).1 rfl
    simp [hk, hds]
  have hwhole : u ++ '%' :: x = ('%' :: '!' :: (k ++ ds ++ ['!'])) ++ '%' :: rest := by
    simpa using he
  -- The text before the sign reaches at least to the last percent sign of the reference.
  have hreach : ∃ v, u = ('%' :: '!' :: (k ++ ds ++ ['!'])) ++ v ∧
      (v = [] ∨ ∃ w, v = '%' :: w) := by
    rcases List.append_eq_append_iff.mp hwhole with ⟨v, hv, hx⟩ | ⟨v, hv, hx⟩
    · cases v with
      | nil => exact ⟨[], by simpa using hv.symm, .inl rfl⟩
      | cons c v =>
        obtain ⟨rfl, -⟩ := List.cons.inj hx
        obtain ⟨d, u, rfl⟩ := List.exists_cons_of_ne_nil hu
        have htail := (List.cons.inj hv).2
        exact absurd (htail ▸ by simp) hinside
    · cases v with
      | nil => exact ⟨[], hv, .inl rfl⟩
      | cons c v =>
        obtain ⟨rfl, -⟩ := List.cons.inj hx
        exact ⟨'%' :: v, hv, .inr ⟨v, rfl⟩⟩
  obtain ⟨v, rfl, rfl | ⟨w, rfl⟩⟩ := hreach
  · exact Option.isSome_iff_exists.mpr
      ⟨(ds, y), digits?_eq_some_iff.mpr ⟨by simp, hne, hd⟩⟩
  · exact Option.isSome_iff_exists.mpr
      ⟨(ds, w ++ '%' :: y), digits?_eq_some_iff.mpr ⟨by simp, hne, hd⟩⟩

theorem digits?_fragment (n : Nat) (s : Text) :
    digits? fragment (write fragment n ++ s) = some (Text.ofNat n, s) :=
  digits?_write ['v'] n s

end Reference

/-- What a renderer writes: texts, and references to fragments that it has stashed, each by its
number among the renderer's own. -/
abbrev Draft := List (Text ⊕ Nat)

namespace Draft

/-- A draft with texts in the place of its references. -/
def written (tokens : List Text) (d : Draft) : Text :=
  d.flatMap (Sum.elim id fun k => tokens[k]?.getD [])

/-- Is every reference that is read in a draft, when it is written with these tokens, one of the
tokens? None starts in a text of the draft. -/
def Faithful (tokens : List Text) : Draft → Prop
  | [] => True
  | .inl t :: d =>
    (∀ u ∈ t.tails, u ≠ [] →
      Reference.digits? Reference.fragment (u ++ written tokens d) = none) ∧ Faithful tokens d
  | .inr k :: d => k < tokens.length ∧ Faithful tokens d

def decidableFaithful (tokens : List Text) : (d : Draft) → Decidable (d.Faithful tokens)
  | [] => .isTrue trivial
  | .inl t :: d =>
    haveI : Decidable (∀ u ∈ t.tails, u ≠ [] →
      Reference.digits? Reference.fragment (u ++ written tokens d) = none) :=
        List.decidableBAll _ _
    @instDecidableAnd _ _ inferInstance (decidableFaithful tokens d)
  | .inr _ :: d => @instDecidableAnd _ _ inferInstance (decidableFaithful tokens d)

instance (tokens : List Text) (d : Draft) : Decidable (d.Faithful tokens) :=
  decidableFaithful tokens d

/-- The tokens with these numbers. -/
def tokens (numbers : List Nat) : List Text :=
  numbers.map (Reference.write Reference.fragment)

@[simp] theorem length_tokens (numbers : List Nat) : (tokens numbers).length = numbers.length :=
  List.length_map _

variable {ns ms : List Nat} {d : Draft} {texts : List Text}

@[simp] theorem written_nil : written texts [] = [] := rfl

@[simp] theorem written_text (t : Text) (d : Draft) :
    written texts (.inl t :: d) = t ++ written texts d := rfl

@[simp] theorem written_reference (k : Nat) (d : Draft) :
    written texts (.inr k :: d) = texts[k]?.getD [] ++ written texts d := rfl

theorem getElem?_tokens {k : Nat} (hk : k < ns.length) :
    ∃ n ∈ ns, ns[k]? = some n ∧ (tokens ns)[k]? = some (Reference.write Reference.fragment n) := by
  have hn : ns[k]? = some ns[k] := List.getElem?_eq_getElem hk
  exact ⟨ns[k], List.getElem_mem hk, hn, by simp [tokens, hn]⟩

/-- Where a reference starts does not depend on the numbers of the tokens. -/
theorem isSome_written (hlength : ns.length = ms.length) (h : d.Faithful (tokens ns)) {u : Text}
    (hu : u ≠ [])
    (hread : (Reference.digits? Reference.fragment (u ++ written (tokens ms) d)).isSome) :
    (Reference.digits? Reference.fragment (u ++ written (tokens ns) d)).isSome := by
  induction d generalizing u with
  | nil => exact hread
  | cons p d ih =>
    cases p with
    | inl t =>
      have hmore := ih h.2 (u := u ++ t) (by simp [hu])
      rw [written_text, ← List.append_assoc] at hread ⊢
      exact hmore hread
    | inr k =>
      have hk : k < ns.length := by simpa using h.1
      obtain ⟨n, -, -, hn⟩ := getElem?_tokens hk
      obtain ⟨m, -, -, hm⟩ := getElem?_tokens (hlength ▸ hk)
      rw [written_reference, hn]
      rw [written_reference, hm] at hread
      exact Reference.digits?_percent (k := ['v']) (by decide) hu hread _

theorem Faithful.renumber (hlength : ns.length = ms.length) (h : d.Faithful (tokens ns)) :
    d.Faithful (tokens ms) := by
  induction d with
  | nil => trivial
  | cons p d ih =>
    cases p with
    | inl t =>
      refine ⟨fun u hu hne => ?_, ih h.2⟩
      by_contra hread
      have hsome := isSome_written hlength h.2 hne (Option.isSome_iff_ne_none.mpr hread)
      rw [h.1 u hu hne] at hsome
      cases hsome
    | inr k =>
      have hk : k < ns.length := by simpa using h.1
      exact ⟨by simpa [hlength] using hk, ih h.2⟩

/-- The tokens of a faithful draft, and nothing else in it, are replaced by what they mean. -/
theorem substitute_written {meaning : Text → Option Text} (h : d.Faithful (tokens ns))
    (hmeaning : ∀ n ∈ ns, (meaning (Text.ofNat n)).isSome) :
    Reference.substitute Reference.fragment meaning (written (tokens ns) d) =
      written (ns.map fun n => (meaning (Text.ofNat n)).getD []) d := by
  induction d with
  | nil => rw [written_nil, written_nil, Reference.substitute]
  | cons p d ih =>
    cases p with
    | inl t =>
      have htext : ∀ u, u <:+ t →
          Reference.substitute Reference.fragment meaning (u ++ written (tokens ns) d) =
            u ++ written (ns.map fun n => (meaning (Text.ofNat n)).getD []) d := by
        intro u hu
        induction u with
        | nil => exact ih h.2
        | cons c u ihu =>
          have hnone := h.1 (c :: u) ((List.mem_tails _ _).mpr hu) (List.cons_ne_nil c u)
          have hrest := ihu ((List.suffix_cons c u).trans hu)
          rw [List.cons_append] at hnone ⊢
          rw [Reference.substitute_cons_of_none hnone, hrest, List.cons_append]
      rw [written_text, written_text]
      exact htext t List.suffix_rfl
    | inr k =>
      have hk : k < ns.length := by simpa using h.1
      obtain ⟨n, hn, hget, htoken⟩ := getElem?_tokens hk
      obtain ⟨value, hvalue⟩ := Option.isSome_iff_exists.mp (hmeaning n hn)
      have hmeant : (ns.map fun n => (meaning (Text.ofNat n)).getD [])[k]? = some value := by
        simp [hget, hvalue]
      rw [written_reference, written_reference, htoken, hmeant]
      change Reference.substitute _ _ (Reference.write Reference.fragment n ++ _) = _
      rw [Reference.substitute_of_some (Reference.digits?_fragment n _), ih h.2, hvalue]
      rfl

end Draft

namespace Fragments

/-- A faithful draft expands to itself, with what the fragments of its tokens expand to in the place
of the tokens. -/
theorem expand_written {f : Fragments} {limit : Nat} {d : Draft} {ns : List Nat}
    (h : d.Faithful (Draft.tokens ns)) (hlimit : ∀ n ∈ ns, n < limit)
    (hbound : limit ≤ Text.indexBound) :
    f.expand limit (d.written (Draft.tokens ns)) =
      d.written (ns.map fun n => f.expand n (f.items[n]?.getD [])) := by
  rw [expand, Draft.substitute_written h (by simp)]
  refine congrArg (Draft.written · d) (List.map_congr_left fun n hn => ?_)
  have hindex : Text.toIndex? (Text.ofNat n) = some n :=
    Text.toIndex?_ofNat (Nat.lt_of_lt_of_le (hlimit n hn) hbound)
  simp [hindex, hlimit n hn]

end Fragments

/-- A renderer: the drafts that it stashes, in order, and what it writes in the end. -/
structure Renderer where
  drafts : List Draft
  final : Draft

namespace Renderer

/-- Is every reference that is read in what a renderer writes the token of an earlier stash of its
own? This is asked of what it writes when it works alone. -/
def Faithful (r : Renderer) : Prop :=
  (∀ k, (hk : k < r.drafts.length) → r.drafts[k].Faithful (Draft.tokens (List.range k))) ∧
    r.final.Faithful (Draft.tokens (List.range r.drafts.length))

instance (r : Renderer) : Decidable r.Faithful := instDecidableAnd

/-- Drafts with every reference replaced by the draft that it refers to, and so on. -/
def values (drafts : List Draft) : List Text :=
  drafts.foldl (fun values d => values ++ [d.written values]) []

/-- What a renderer writes in the end, with every reference replaced. -/
def result (r : Renderer) : Text := r.final.written (values r.drafts)

theorem values_concat (drafts : List Draft) (d : Draft) :
    values (drafts ++ [d]) = values drafts ++ [d.written (values drafts)] :=
  List.foldl_append

theorem values_take_succ {drafts : List Draft} {k : Nat} {d : Draft} (h : drafts[k]? = some d) :
    values (drafts.take (k + 1)) =
      values (drafts.take k) ++ [d.written (values (drafts.take k))] := by
  rw [List.take_add_one, h]
  exact values_concat _ d

@[simp] theorem length_values (drafts : List Draft) : (values drafts).length = drafts.length := by
  induction drafts using List.reverseRecOn with
  | nil => rfl
  | append_singleton drafts d ih =>
    rw [values_concat, List.length_append, List.length_append, ih]
    rfl

/-- Every draft has a value: the draft with the values of earlier ones in it. -/
theorem getElem?_values {drafts : List Draft} {k : Nat} {d : Draft} (h : drafts[k]? = some d) :
    (values drafts)[k]? = some (d.written (values (drafts.take k))) := by
  induction drafts using List.reverseRecOn with
  | nil => cases h
  | append_singleton drafts e ih =>
    rw [values_concat]
    by_cases hk : k < drafts.length
    · rw [List.getElem?_append_left hk] at h
      rw [List.getElem?_append_left (by simpa using hk), ih h,
        List.take_append_of_le_length (Nat.le_of_lt hk)]
    · have hlast : k = drafts.length := by
        have := (List.getElem?_eq_some_iff.mp h).1
        simp only [List.length_append, List.length_singleton] at this
        omega
      subst hlast
      have he : e = d := by simpa using h
      subst he
      simp

end Renderer

/-- Fragments that are shared, and the tokens that each renderer was given. The numbers in the
tokens of a renderer depend on what the others stash in between. -/
structure Sharing (ι : Type) where
  fragments : Fragments
  tokens : ι → List Text

namespace Sharing

open Renderer

variable {ι : Type} [DecidableEq ι]

def start : Sharing ι := ⟨.empty, fun _ => []⟩

/-- A renderer stashes its next draft, if it has one left. -/
def stash (renderers : ι → Renderer) (s : Sharing ι) (i : ι) : Sharing ι :=
  match (renderers i).drafts[(s.tokens i).length]? with
  | none => s
  | some d =>
    let (token, fragments) := s.fragments.stash (d.written (s.tokens i))
    ⟨fragments, Function.update s.tokens i (s.tokens i ++ [token])⟩

/-- The renderers stash their drafts by turns. -/
def run (renderers : ι → Renderer) (turns : List ι) : Sharing ι :=
  turns.foldl (stash renderers) start

def size (s : Sharing ι) : Nat := s.fragments.items.size

/-- Has a renderer stashed all its drafts? -/
def Done (renderers : ι → Renderer) (s : Sharing ι) (i : ι) : Prop :=
  (s.tokens i).length = (renderers i).drafts.length

instance (renderers : ι → Renderer) (s : Sharing ι) (i : ι) : Decidable (s.Done renderers i) :=
  inferInstanceAs (Decidable (_ = _))

/-- What a renderer assembles from what it writes in the end. -/
def outcome (renderers : ι → Renderer) (s : Sharing ι) (i : ι) : Text :=
  s.fragments.assemble ((renderers i).final.written (s.tokens i))

variable {renderers : ι → Renderer} {s : Sharing ι} {i j : ι} {d : Draft}

theorem run_concat (turns : List ι) (i : ι) :
    run renderers (turns ++ [i]) = stash renderers (run renderers turns) i :=
  List.foldl_append

theorem stash_of_none (h : (renderers i).drafts[(s.tokens i).length]? = none) :
    stash renderers s i = s := by
  simp only [stash, h]

theorem stash_of_some (h : (renderers i).drafts[(s.tokens i).length]? = some d) :
    stash renderers s i =
      ⟨⟨s.fragments.items.push (d.written (s.tokens i))⟩,
        Function.update s.tokens i
          (s.tokens i ++ [Reference.write Reference.fragment s.size])⟩ := by
  simp only [stash, h]
  rfl

theorem size_le_stash (i : ι) : s.size ≤ (stash renderers s i).size := by
  cases h : (renderers i).drafts[(s.tokens i).length]? with
  | none => rw [stash_of_none h]
  | some d =>
    rw [stash_of_some h]
    simp [size]

/-- Each token is that of a fragment of its own. -/
theorem length_tokens_le (turns : List ι) (i : ι) :
    ((run renderers turns).tokens i).length ≤ (run renderers turns).size := by
  induction turns using List.reverseRecOn with
  | nil => exact Nat.zero_le _
  | append_singleton turns j ih =>
    rw [run_concat]
    cases hj : (renderers j).drafts[((run renderers turns).tokens j).length]? with
    | none =>
      rw [stash_of_none hj]
      exact ih
    | some d =>
      rw [stash_of_some hj]
      have hsize : (run renderers turns).fragments.items.size = (run renderers turns).size := rfl
      by_cases h : i = j
      · subst h
        simp only [Function.update_self, List.length_append, List.length_singleton, size,
          Array.size_push]
        omega
      · simp only [Function.update_of_ne h, size, Array.size_push]
        omega

/-- The tokens of a renderer stand for its drafts: what their fragments expand to is the drafts with
every reference replaced. -/
def Kept (r : Renderer) (s : Sharing ι) (i : ι) : Prop :=
  ∃ ns : List Nat, s.tokens i = Draft.tokens ns ∧ ns.length ≤ r.drafts.length ∧
    (∀ n ∈ ns, n < s.size) ∧
      ns.map (fun n => s.fragments.expand n (s.fragments.items[n]?.getD [])) =
        values (r.drafts.take ns.length)

omit [DecidableEq ι] in
theorem kept_start (r : Renderer) (i : ι) : Kept r (start : Sharing ι) i :=
  ⟨[], rfl, Nat.zero_le _, by simp, rfl⟩

/-- What is stashed afterwards does not change what earlier fragments expand to. -/
theorem expand_push {f : Fragments} {ns : List Nat} (hns : ∀ n ∈ ns, n < f.items.size) (t : Text) :
    (ns.map fun n => (Fragments.mk (f.items.push t)).expand n ((f.items.push t)[n]?.getD [])) =
      ns.map fun n => f.expand n (f.items[n]?.getD []) := by
  have hold : ∀ m, m < f.items.size → (f.items.push t)[m]? = f.items[m]? := by
    intro m hm
    rw [Array.getElem?_push, if_neg (Nat.ne_of_lt hm)]
  refine List.map_congr_left fun n hn => ?_
  rw [hold n (hns n hn)]
  exact Fragments.expand_congr (fun m hm => hold m (hm.trans (hns n hn))) _

/-- A stash of another renderer. -/
theorem Kept.other {r : Renderer} (h : Kept r s i) (hne : i ≠ j) :
    Kept r (stash renderers s j) i := by
  cases hj : (renderers j).drafts[(s.tokens j).length]? with
  | none =>
    rw [stash_of_none hj]
    exact h
  | some d =>
    obtain ⟨ns, htokens, hlength, hsize, hvalues⟩ := h
    rw [stash_of_some hj]
    refine ⟨ns, ?_, hlength, fun n hn => ?_, ?_⟩
    · rw [← htokens]
      exact Function.update_of_ne hne _ _
    · have := hsize n hn
      simp only [size, Array.size_push] at this ⊢
      omega
    · rw [← hvalues]
      exact expand_push hsize _

/-- A stash of its own. -/
theorem Kept.own (hr : (renderers i).Faithful) (h : Kept (renderers i) s i)
    (hroom : s.size ≤ Text.indexBound) : Kept (renderers i) (stash renderers s i) i := by
  cases hi : (renderers i).drafts[(s.tokens i).length]? with
  | none =>
    rw [stash_of_none hi]
    exact h
  | some d =>
    obtain ⟨ns, htokens, hlength, hsize, hvalues⟩ := h
    have hnext : (renderers i).drafts[ns.length]? = some d := by
      simpa [htokens] using hi
    obtain ⟨hk, hd⟩ := List.getElem?_eq_some_iff.mp hnext
    have hfaithful : d.Faithful (Draft.tokens ns) := by
      have halone := hr.1 ns.length hk
      rw [hd] at halone
      exact halone.renumber List.length_range
    have hnew : s.fragments.expand s.size (d.written (Draft.tokens ns)) =
        d.written (values ((renderers i).drafts.take ns.length)) := by
      rw [Fragments.expand_written hfaithful hsize hroom, hvalues]
    rw [stash_of_some hi]
    refine ⟨ns ++ [s.size], ?_, by simpa using hk, ?_, ?_⟩
    · simp [htokens, Draft.tokens]
    · intro n hn
      simp only [size, Array.size_push]
      rcases List.mem_append.mp hn with hn | hn
      · exact Nat.lt_succ_of_lt (hsize n hn)
      · rw [List.mem_singleton.mp hn]
        exact Nat.lt_succ_self _
    · have hlast : (s.fragments.items.push (d.written (s.tokens i)))[s.size]? =
          some (d.written (Draft.tokens ns)) := by
        rw [htokens]
        exact Array.getElem?_push_size
      have hexpand : (Fragments.mk (s.fragments.items.push (d.written (s.tokens i)))).expand s.size
          (d.written (Draft.tokens ns)) =
            s.fragments.expand s.size (d.written (Draft.tokens ns)) := by
        refine Fragments.expand_congr (fun m hm => ?_) _
        have hm : m < s.fragments.items.size := hm
        rw [Array.getElem?_push, if_neg (Nat.ne_of_lt hm)]
      rw [List.length_append, List.length_singleton, values_take_succ hnext, List.map_append,
        expand_push hsize, hvalues, ← hnew, ← hexpand]
      simp [hlast]

theorem kept_run (hr : (renderers i).Faithful) {turns : List ι}
    (hroom : (run renderers turns).size ≤ Text.indexBound) :
    Kept (renderers i) (run renderers turns) i := by
  induction turns using List.reverseRecOn with
  | nil => exact kept_start _ _
  | append_singleton turns j ih =>
    rw [run_concat] at hroom ⊢
    have hbefore : (run renderers turns).size ≤ Text.indexBound :=
      (size_le_stash j).trans hroom
    by_cases hj : i = j
    · subst hj
      exact (ih hbefore).own hr hbefore
    · exact (ih hbefore).other hj

omit [DecidableEq ι] in
/-- What a renderer assembles when it has stashed all its drafts. -/
theorem Kept.outcome_eq (hr : (renderers i).Faithful) (h : Kept (renderers i) s i)
    (hdone : s.Done renderers i) (hroom : s.size ≤ Text.indexBound) :
    s.outcome renderers i = (renderers i).result := by
  obtain ⟨ns, htokens, hlength, hsize, hvalues⟩ := h
  have hall : ns.length = (renderers i).drafts.length := by
    simpa [Done, htokens] using hdone
  have hfaithful : (renderers i).final.Faithful (Draft.tokens ns) := hr.2.renumber (by simp [hall])
  rw [outcome, htokens]
  change s.fragments.expand s.size _ = _
  rw [Fragments.expand_written hfaithful hsize hroom, hvalues, hall, List.take_length]
  rfl

/-- A renderer that works alone has stashed a draft with each turn. -/
theorem run_alone {n : Nat} (hn : n ≤ (renderers i).drafts.length) :
    ((run renderers (List.replicate n i)).tokens i).length = n ∧
      (run renderers (List.replicate n i)).size = n := by
  induction n with
  | zero => exact ⟨rfl, rfl⟩
  | succ n ih =>
    obtain ⟨htokens, hsize⟩ := ih (by omega)
    have hnext : (renderers i).drafts[((run renderers (List.replicate n i)).tokens i).length]? =
        some (renderers i).drafts[n] := by
      rw [htokens]
      exact List.getElem?_eq_getElem hn
    rw [List.replicate_succ', run_concat, stash_of_some hnext]
    constructor
    · simp [htokens]
    · rw [size, Array.size_push]
      exact congrArg (· + 1) hsize

/-- When a renderer has stashed its drafts, by turns with any others, it assembles what it would
assemble alone: what it has written, with every reference replaced by its fragment, and so on. Every
fragment of its own has a text to be replaced by, so that no reference is left or dropped. -/
theorem outcome_eq_alone (renderers : ι → Renderer) (i : ι) (hr : (renderers i).Faithful)
    (turns : List ι) (hdone : (run renderers turns).Done renderers i)
    (hroom : (run renderers turns).size ≤ Text.indexBound) :
    (run renderers turns).outcome renderers i =
        (run renderers (List.replicate (renderers i).drafts.length i)).outcome renderers i ∧
      (run renderers turns).outcome renderers i = (renderers i).result ∧
      ∀ (k : Nat) (d : Draft), (renderers i).drafts[k]? = some d →
        (values (renderers i).drafts)[k]? =
          some (d.written (values ((renderers i).drafts.take k))) := by
  have hshared : (run renderers turns).outcome renderers i = (renderers i).result :=
    (kept_run hr hroom).outcome_eq hr hdone hroom
  obtain ⟨htokens, hsize⟩ := run_alone (Nat.le_refl (renderers i).drafts.length)
  -- Each of its drafts has a fragment among the shared ones, so that there is room for it alone.
  have hfew : (renderers i).drafts.length ≤ (run renderers turns).size := by
    rw [← show ((run renderers turns).tokens i).length = _ from hdone]
    exact length_tokens_le turns i
  have hroom' : (run renderers (List.replicate (renderers i).drafts.length i)).size ≤
      Text.indexBound := by
    rw [hsize]
    exact hfew.trans hroom
  have halone := (kept_run hr hroom').outcome_eq hr htokens hroom'
  exact ⟨hshared.trans halone.symm, hshared, fun k d h => getElem?_values h⟩

/-- A page that has a component in another, and a layout that stashes something between them. -/
def framed : Bool → Renderer
  | true => ⟨[[.inl "<b>".toList], [.inl "[".toList, .inr 0, .inl "]".toList]],
      [.inl "x".toList, .inr 1, .inl "y".toList]⟩
  | false => ⟨[[.inl "head".toList]], [.inr 0, .inr 0]⟩

theorem outcome_eq_alone_framed :
    (run framed [true, false, true]).outcome framed true =
        (run framed [true, true]).outcome framed true ∧
      (run framed [true, false, true]).outcome framed true = "x[<b>]y".toList ∧
      (values (framed true).drafts)[1]? = some "[<b>]".toList := by
  have hr : (framed true).Faithful := by decide
  have hdone : (run framed [true, false, true]).Done framed true := by decide
  have hroom : (run framed [true, false, true]).size ≤ Text.indexBound := by decide
  obtain ⟨halone, hresult, hvalues⟩ := outcome_eq_alone framed true hr _ hdone hroom
  exact ⟨halone, hresult, hvalues 1 _ rfl⟩

end Sharing

end Stencil
