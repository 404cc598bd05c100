import Stencil.Json.Reader
import Stencil.Proofs.Literal

namespace Stencil

/-- Do the names ascend in every dictionary of a value? -/
inductive Value.Ordered : Value → Prop
  | scalar {v : Value} (h : v.isScalar) : Ordered v
  | array {items : List Value} (h : ∀ v ∈ items, Ordered v) : Ordered (.array items)
  | map {entries : Dictionary Value} (hnames : entries.Ascending) (h : ∀ e ∈ entries, Ordered e.2) :
    Ordered (.map entries)

namespace Value.Ordered

theorem ascending {entries : Dictionary Value} (h : (Value.map entries).Ordered) :
    entries.Ascending := by
  cases h with
  | scalar hs => cases hs
  | map hnames _ => exact hnames

theorem of_mem {entries : Dictionary Value} (h : (Value.map entries).Ordered) {e : Text × Value}
    (he : e ∈ entries) : e.2.Ordered := by
  cases h with
  | scalar hs => cases hs
  | map _ hvalues => exact hvalues e he

theorem of_get? {entries : Dictionary Value} (h : (Value.map entries).Ordered) {name : Text}
    {v : Value} (hv : Dictionary.get? entries name = some v) : v.Ordered :=
  h.of_mem (Dictionary.mem_of_get? hv)

theorem index? {v key w : Value} (hv : v.Ordered) (h : v.index? key = some w) : w.Ordered := by
  cases hv with
  | scalar hs => cases v <;> first | cases h | cases hs
  | array hitems =>
    obtain ⟨i, -, hi⟩ := Option.bind_eq_some_iff.mp h
    split_ifs at hi
    exact hitems w (List.mem_of_getElem? hi)
  | map hnames hvalues => exact hvalues _ (Dictionary.mem_of_get? h)

theorem inherited : Value.Inherited Value.Ordered where
  null := .scalar rfl
  index? := index?

theorem ofList {pairs : List (Text × Value)} (h : ∀ e ∈ pairs, e.2.Ordered) :
    (Value.map (Dictionary.ofList pairs)).Ordered :=
  .map (Dictionary.ascending_ofList pairs) fun e he => h e (Dictionary.mem_of_mem_ofList he)

theorem insert {entries : Dictionary Value} (h : (Value.map entries).Ordered) (name : Text)
    {v : Value} (hv : v.Ordered) : (Value.map (Dictionary.insert entries name v)).Ordered := by
  refine .map (Dictionary.ascending_insert h.ascending name v) fun e he => ?_
  rcases Dictionary.mem_of_mem_insert he with rfl | he
  · exact hv
  · exact h.of_mem he

end Value.Ordered

namespace Json

/-- Has a token no value but a scalar? -/
def Token.Plain (t : Token) : Prop := ∀ v, t = .atom v → v.isScalar

theorem isScalar_of_float? {negative : Bool} {n : Nat} {e : Int} {v : Value}
    (h : float? negative n e = some v) : v.isScalar := by
  obtain ⟨x, -, rfl⟩ := Option.map_eq_some_iff.mp h
  rfl

theorem isScalar_of_integer? {negative : Bool} {n : Nat} {v : Value}
    (h : integer? negative n = some v) : v.isScalar := by
  unfold integer? at h
  split_ifs at h
  · exact isScalar_of_float? h
  · cases h
    rfl
  · cases h
    rfl
  · exact isScalar_of_float? h

theorem isScalar_of_value? {n : Numeral} {v : Value} (h : n.value? = some v) : v.isScalar := by
  unfold Numeral.value? at h
  dsimp only at h
  split at h
  · split_ifs at h
    · exact isScalar_of_integer? h
    · exact isScalar_of_float? h
  · split at h
    · exact isScalar_of_float? h
    · split_ifs at h
      · exact isScalar_of_float? h
      · exact isScalar_of_float? h
      · cases h
        rfl

theorem plain_of_name? {s rest : Text} {t : Token} (h : name? s = some (t, rest)) : t.Plain := by
  have hnamed : ∀ (name : String) (v : Value), v.isScalar →
      (Text.strip? name.toList s).map (fun rest => (Token.atom v, rest)) = some (t, rest) →
        t.Plain := by
    rintro name v hv he w rfl
    obtain ⟨r, -, he⟩ := Option.map_eq_some_iff.mp he
    cases he
    exact hv
  simp only [name?, Option.orElse_eq_some] at h
  rcases h with h | ⟨-, h | ⟨-, h⟩⟩
  · exact hnamed _ _ rfl h
  · exact hnamed _ _ rfl h
  · exact hnamed _ _ rfl h

theorem plain_of_token? {s rest : Text} {t : Token} (h : token? s = some (t, rest)) : t.Plain := by
  unfold token? at h
  split at h
  · cases h
  · obtain ⟨r, -, he⟩ := Option.map_eq_some_iff.mp h
    cases he
    rintro v ⟨⟩
  next c rest' _ =>
    split at h
    next u hu =>
      cases h
      rintro v rfl
      unfold sign? at hu
      split at hu <;> cases hu
    next =>
      split_ifs at h
      · obtain ⟨⟨n, r⟩, -, h⟩ := Option.bind_eq_some_iff.mp h
        obtain ⟨v, hv, he⟩ := Option.bind_eq_some_iff.mp h
        cases he
        rintro w ⟨⟩
        exact isScalar_of_value? hv
      · exact plain_of_name? h

theorem plain_of_tokens? {fuel : Nat} {s : Text} {ts : List Token} (h : tokens? fuel s = some ts) :
    ∀ t ∈ ts, t.Plain := by
  induction fuel generalizing s ts with
  | zero => cases h
  | succ fuel ih =>
    unfold tokens? at h
    split at h
    · cases h
      exact List.forall_mem_nil _
    · obtain ⟨⟨t, rest⟩, ht, h⟩ := Option.bind_eq_some_iff.mp h
      obtain ⟨more, hmore, he⟩ := Option.bind_eq_some_iff.mp h
      cases he
      exact List.forall_mem_cons.mpr ⟨plain_of_token? ht, ih hmore⟩

/-- Are the values in order that an open array or map has so far? -/
def Frame.Ordered : Frame → Prop
  | array items => ∀ v ∈ items, v.Ordered
  | map entries | member entries _ => ∀ e ∈ entries, e.2.Ordered

/-- Is the value in order that is finished, if one is? -/
def Expected.Ordered : Expected → Prop
  | after v => v.Ordered
  | _ => True

theorem ordered_reverse {items : List Value} (h : ∀ v ∈ items, v.Ordered) :
    (Value.array items.reverse).Ordered :=
  .array fun v hv => h v (List.mem_reverse.mp hv)

theorem ordered_ofList_reverse {entries : List (Text × Value)} (h : ∀ e ∈ entries, e.2.Ordered) :
    (Value.map (Dictionary.ofList entries.reverse)).Ordered :=
  .ofList fun e he => h e (List.mem_reverse.mp he)

/-- One token keeps what is open in order. -/
theorem ordered_advance? {fs gs : List Frame} {e next : Expected} {t : Token}
    (hfs : ∀ f ∈ fs, f.Ordered) (he : e.Ordered) (ht : t.Plain)
    (h : advance? fs e t = some (gs, next)) : (∀ f ∈ gs, f.Ordered) ∧ next.Ordered := by
  have hopen : ∀ {f : Frame}, f.Ordered → ∀ g ∈ f :: fs, g.Ordered := fun hf =>
    List.forall_mem_cons.mpr ⟨hf, hfs⟩
  have hatom : ∀ {v : Value}, t = .atom v → v.Ordered := fun hv => .scalar (ht _ hv)
  unfold advance? at h
  split at h
  case h_1 =>
    cases h
    obtain ⟨hitems, hout⟩ := List.forall_mem_cons.mp hfs
    exact ⟨hout, ordered_reverse hitems⟩
  case h_2 | h_3 =>
    split_ifs at h
    cases h
    exact ⟨hopen (List.forall_mem_nil _), trivial⟩
  case h_4 | h_5 =>
    split_ifs at h
    cases h
    exact ⟨hopen (List.forall_mem_nil _), trivial⟩
  case h_6 | h_7 =>
    cases h
    exact ⟨hfs, .scalar rfl⟩
  case h_8 | h_9 =>
    cases h
    exact ⟨hfs, hatom rfl⟩
  case h_10 =>
    cases h
    obtain ⟨hentries, hout⟩ := List.forall_mem_cons.mp hfs
    exact ⟨hout, ordered_ofList_reverse hentries⟩
  case h_11 | h_12 =>
    cases h
    exact ⟨hfs, trivial⟩
  case h_13 =>
    cases h
    obtain ⟨hentries, hout⟩ := List.forall_mem_cons.mp hfs
    exact ⟨List.forall_mem_cons.mpr ⟨hentries, hout⟩, trivial⟩
  case h_14 =>
    cases h
    obtain ⟨hitems, hout⟩ := List.forall_mem_cons.mp hfs
    exact ⟨List.forall_mem_cons.mpr ⟨List.forall_mem_cons.mpr ⟨he, hitems⟩, hout⟩, trivial⟩
  case h_15 =>
    cases h
    obtain ⟨hitems, hout⟩ := List.forall_mem_cons.mp hfs
    exact ⟨hout, ordered_reverse (List.forall_mem_cons.mpr ⟨he, hitems⟩)⟩
  case h_16 =>
    cases h
    obtain ⟨hentries, hout⟩ := List.forall_mem_cons.mp hfs
    exact ⟨List.forall_mem_cons.mpr ⟨List.forall_mem_cons.mpr ⟨he, hentries⟩, hout⟩, trivial⟩
  case h_17 =>
    cases h
    obtain ⟨hentries, hout⟩ := List.forall_mem_cons.mp hfs
    exact ⟨hout, ordered_ofList_reverse (List.forall_mem_cons.mpr ⟨he, hentries⟩)⟩
  case h_18 => cases h

theorem ordered_run? {fs : List Frame} {e : Expected} {ts : List Token} {v : Value}
    (hfs : ∀ f ∈ fs, f.Ordered) (he : e.Ordered) (ht : ∀ t ∈ ts, t.Plain)
    (h : run? fs e ts = some v) : v.Ordered := by
  induction ts generalizing fs e with
  | nil =>
    unfold run? at h
    split at h
    · cases h
      exact he
    · cases h
    next hcons => cases hcons
  | cons t ts ih =>
    have hstep : run? fs e (t :: ts) = (advance? fs e t).bind fun r => run? r.1 r.2 ts := by
      cases fs <;> cases e <;> rfl
    rw [hstep] at h
    obtain ⟨⟨gs, next⟩, hn, h⟩ := Option.bind_eq_some_iff.mp h
    obtain ⟨hplain, hmore⟩ := List.forall_mem_cons.mp ht
    obtain ⟨hgs, hnext⟩ := ordered_advance? hfs he hplain hn
    exact ih hgs hnext hmore h

/-- Data that are read from a JSON text are in order. -/
theorem ordered_read? {s : Text} {v : Value} (h : read? s = some v) : v.Ordered := by
  obtain ⟨ts, hts, h⟩ := Option.bind_eq_some_iff.mp h
  exact ordered_run? (e := .value) (List.forall_mem_nil _) trivial (plain_of_tokens? hts) h

end Json

end Stencil
