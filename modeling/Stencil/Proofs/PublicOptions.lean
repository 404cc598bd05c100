import Stencil.Layout
import Stencil.Proofs.Ordered
import Stencil.Proofs.Path

namespace Stencil.Layout

/-- The sign of closing tags. -/
def closingSign : Text := ['<', '/']

def scriptElement (body : Text) : Text :=
  "<script>OPTS=".toList ++ body ++ "</script>".toList

def styleElement (body : Text) : Text :=
  "<style>:root".toList ++ ['{'] ++ body ++ ['}'] ++ "</style>".toList

/-- The declaration of a style variable. -/
structure Declaration where
  name : Text
  value : Text
deriving Repr, DecidableEq

namespace Declaration

def assigned (d : Declaration) : Text := ['-', '-'] ++ d.name ++ [':'] ++ d.value

def written (d : Declaration) : Text := d.assigned ++ [';']

/-- The declaration for an option: what can stand in a name and in a value of what it has. -/
def ofOption (e : Text × Value) : Declaration :=
  ⟨e.1.filter isVariableChar, e.2.text.filter fun c => !endsVariable c⟩

/-- Is a declaration one that ends with its own sign, and does not end the style sheet? -/
structure Tight (d : Declaration) : Prop where
  named : d.name ≠ []
  name : ∀ c ∈ d.name, isAlphanumeric c ∨ c = '_' ∨ c = '-'
  value : ∀ c ∈ d.value, c ≠ ';' ∧ c ≠ '{' ∧ c ≠ '}' ∧ c ≠ '<' ∧ c ≠ '>'

end Declaration

/-- One declaration for each option whose name has a usable character, in their order. -/
def declarations (options : Dictionary Value) : List Declaration :=
  (options.map .ofOption).filter fun d => !d.name.isEmpty

variable {c : Char} {s t sign before after found rest : Text} {options : Dictionary Value}

theorem closingSign_infix_cons :
    closingSign <:+: c :: s ↔ c = '<' ∧ s.head? = some '/' ∨ closingSign <:+: s := by
  rw [List.infix_cons_iff, closingSign, List.cons_prefix_cons, eq_comm]
  cases s with
  | nil => simp
  | cons d s => simp [List.cons_prefix_cons, eq_comm]

/-- A sign of a closing tag can only be seen across the end of a text if it starts there. -/
theorem closingSign_infix_concat (hc : c ≠ '/') :
    closingSign <:+: s ++ [c] ↔ closingSign <:+: s := by
  rw [List.infix_concat_iff, or_iff_right]
  rintro ⟨t, ht⟩
  have hlast := congrArg List.getLast? ht
  simp [closingSign] at hlast
  exact hc hlast.symm

/-- With a backslash put into every sign of a closing tag, none is left, and none comes about. -/
theorem not_closingSign_infix_replace (s : Text) :
    ¬closingSign <:+: Text.replace ['<', '/'] ['<', '\\', '/'] s := by
  have hgo : ∀ k, ¬closingSign <:+: Text.replace.go ['<', '/'] ['<', '\\', '/'] k s ∧
      (k = 0 → (Text.replace.go ['<', '/'] ['<', '\\', '/'] 0 s).head? = some '/' →
        s.head? = some '/') := by
    induction s with
    | nil => intro k; cases k <;> simp [Text.replace.go, closingSign]
    | cons c s ih =>
      intro k
      cases k with
      | succ k => exact ⟨(ih k).1, fun h => by cases h⟩
      | zero =>
        unfold Text.replace.go
        split
        next => simp [closingSign_infix_cons, (ih 1).1]
        next hno =>
          refine ⟨?_, fun _ h => h⟩
          rw [closingSign_infix_cons]
          rintro (⟨rfl, hhead⟩ | h)
          · obtain ⟨rest, hs⟩ := List.head?_eq_some_iff.mp ((ih 0).2 rfl hhead)
            exact hno (by simp [hs])
          · exact (ih 0).1 h
  exact (hgo 0).1

/-- A closing tag after a text without the sign of one is the first. -/
theorem cut?_closingSign (h : ¬closingSign <:+: s) (rest : Text) :
    Text.cut? closingSign (s ++ closingSign ++ rest) = some (s, rest) :=
  Text.cut?_append_of_not_infix (by decide) (mt (closingSign_infix_concat (by decide)).mp h) rest

theorem isVariableChar_of_endsVariable (h : endsVariable c) : isVariableChar c = false := by
  simp only [endsVariable, Bool.or_eq_true, beq_iff_eq] at h
  rcases h with (((rfl | rfl) | rfl) | rfl) | rfl <;> decide

theorem Declaration.tight_ofOption {e : Text × Value} (h : (ofOption e).name ≠ []) :
    (ofOption e).Tight where
  named := h
  name c hc := by
    have hvariable := (List.mem_filter.mp hc).2
    simpa [isVariableChar, or_assoc] using hvariable
  value c hc := by
    have hends := (List.mem_filter.mp hc).2
    simpa [endsVariable, and_assoc] using hends

theorem tight_of_mem_declarations {d : Declaration} (h : d ∈ declarations options) : d.Tight := by
  obtain ⟨hd, hname⟩ := List.mem_filter.mp h
  obtain ⟨e, -, rfl⟩ := List.mem_map.mp hd
  exact Declaration.tight_ofOption (by simpa using hname)

theorem flatMap_styleVariable (options : Dictionary Value) :
    options.flatMap styleVariable = (declarations options).flatMap Declaration.written := by
  induction options with
  | nil => rfl
  | cons e options ih =>
    rw [List.flatMap_cons, ih]
    unfold styleVariable declarations
    by_cases h : (e.1.filter isVariableChar).isEmpty
    · simp [h, Declaration.ofOption]
    · simp [h, Declaration.ofOption, Declaration.written, Declaration.assigned]

theorem Declaration.Tight.endsVariable_of_mem {d : Declaration} (h : d.Tight)
    (hc : c ∈ d.assigned) : endsVariable c = false := by
  simp only [Declaration.assigned, List.mem_append, List.mem_cons, List.not_mem_nil, or_false] at hc
  rcases hc with (((rfl | rfl) | hc) | rfl) | hc
  · decide
  · decide
  · by_contra he
    have hvariable := isVariableChar_of_endsVariable (Bool.eq_true_of_not_eq_false he)
    rcases h.name c hc with ha | rfl | rfl
    · simp [isVariableChar, ha] at hvariable
    · exact he (by decide)
    · exact he (by decide)
  · decide
  · simpa [endsVariable, and_assoc] using h.value c hc

theorem endsVariable_of_mem_written {ds : List Declaration} (h : ∀ d ∈ ds, d.Tight)
    (hc : c ∈ ds.flatMap Declaration.written) : c = ';' ∨ endsVariable c = false := by
  obtain ⟨d, hd, hc⟩ := List.mem_flatMap.mp hc
  rcases List.mem_append.mp hc with hc | hc
  · exact .inr ((h d hd).endsVariable_of_mem hc)
  · exact .inl (List.mem_singleton.mp hc)

/-- The declarations are told apart by the signs that end them. -/
theorem splitOn_written {ds : List Declaration} (h : ∀ d ∈ ds, d.Tight) :
    Text.splitOn [';'] (ds.flatMap Declaration.written) = ds.map Declaration.assigned ++ [[]] := by
  induction ds with
  | nil => exact Text.splitOn_of_not_mem List.not_mem_nil
  | cons d ds ih =>
    obtain ⟨hd, hds⟩ := List.forall_mem_cons.mp h
    have hsign : ';' ∉ d.assigned := fun hm => by
      have := hd.endsVariable_of_mem hm
      cases this
    rw [List.flatMap_cons, Declaration.written, List.append_assoc, List.singleton_append,
      Text.splitOn_cons_of_not_mem hsign, ih hds, List.map_cons, List.cons_append]

theorem eq_of_cutAt? {read? : Text → Option (Text × Text)}
    (hread : ∀ t found rest, read? t = some (found, rest) → t = found ++ rest)
    (h : cutAt? read? s = some (before, found, rest)) : s = before ++ (found ++ rest) := by
  induction s generalizing before with
  | nil => cases h
  | cons c s ih =>
    unfold cutAt? at h
    split at h
    next hr =>
      cases h
      rw [List.nil_append]
      exact hread _ _ _ hr
    next =>
      obtain ⟨⟨b, f, r⟩, hcut, he⟩ := Option.map_eq_some_iff.mp h
      cases he
      exact congrArg (c :: ·) (ih hcut)

/-- What is before a sign and what follows from it on are the whole text. -/
theorem eq_of_before? (h : before? sign s = some (before, after)) : s = before ++ after := by
  obtain ⟨⟨b, f, r⟩, hcut, he⟩ := Option.map_eq_some_iff.mp h
  cases he
  refine eq_of_cutAt? (fun t found rest ht => ?_) hcut
  obtain ⟨u, hu, he⟩ := Option.map_eq_some_iff.mp ht
  cases he
  have hsuffix : rest <:+ t := by
    unfold stripAnyCase? at hu
    split at hu
    · cases hu
      exact List.drop_suffix _ _
    · cases hu
  exact (List.suffix_iff_eq_append.mp hsuffix).symm

theorem exists_injectHead (html snippet : Text) : ∃ before after, html = before ++ after ∧
    injectHead html snippet = before ++ snippet ++ after := by
  unfold injectHead
  split
  next before after h => exact ⟨before, after, eq_of_before? h, rfl⟩
  next => exact ⟨[], html, rfl, rfl⟩

theorem exists_injectPublic (html : Text) (scope : Scope) : ∃ before after, html = before ++ after ∧
    injectPublic html scope = before ++ publicSnippet scope ++ after := by
  unfold injectPublic
  dsimp only
  split
  next h => exact ⟨[], html, rfl, by rw [List.isEmpty_iff.mp h]; rfl⟩
  next => exact exists_injectHead html _

theorem ascending_publicOption? {scope : Scope} (h : (Value.map scope).Ordered) {key : Text}
    (hkey : publicOption? scope key = some options) : options.Ascending := by
  unfold publicOption? at hkey
  split at hkey
  next v hv =>
    cases hkey
    obtain ⟨w, hw, hv⟩ := Option.bind_eq_some_iff.mp hv
    exact ((h.of_get? hw).index? hv).ascending
  next => cases hkey

/-- The script for public options: there is no sign of a closing tag in it, so that its own closing
tag is the first that is read after its start. -/
inductive IsScript : Option (Dictionary Value) → Text → Prop
  | absent : IsScript none []
  | present {options : Dictionary Value} {body : Text}
      (json : body = Text.replace ['<', '/'] ['<', '\\', '/'] (Json.compact (.map options)))
      (sealed : ¬closingSign <:+: body)
      (closed : ∀ rest, Text.cut? closingSign (body ++ "</script>".toList ++ rest) =
        some (body, "script>".toList ++ rest)) : IsScript (some options) (scriptElement body)

/-- The style sheet for public options: it has one declaration for each option with a usable name,
in the order of the names, and nothing that ends the sheet or one of them too early. -/
inductive IsSheet : Option (Dictionary Value) → Text → Prop
  | absent : IsSheet none []
  | present {options : Dictionary Value} {body : Text} (ascending : options.Ascending)
      (tight : ∀ d ∈ declarations options, d.Tight)
      (declared : body = (declarations options).flatMap Declaration.written)
      (parted : Text.splitOn [';'] body = (declarations options).map Declaration.assigned ++ [[]])
      (sealed : ∀ c ∈ body, c ≠ '<' ∧ c ≠ '>' ∧ c ≠ '{' ∧ c ≠ '}') :
      IsSheet (some options) (styleElement body)

theorem isScript (options : Option (Dictionary Value)) :
    IsScript options ((options.map optionScript).getD []) := by
  cases options with
  | none => exact .absent
  | some options =>
    have hsealed := not_closingSign_infix_replace (Json.compact (.map options))
    refine .present rfl hsealed fun rest => ?_
    have hcut := cut?_closingSign hsealed ("script>".toList ++ rest)
    simpa [closingSign] using hcut

theorem isSheet {options : Option (Dictionary Value)} (h : ∀ d ∈ options, d.Ascending) :
    IsSheet options ((options.map variableStyle).getD []) := by
  cases options with
  | none => exact .absent
  | some options =>
    have htight : ∀ d ∈ declarations options, d.Tight := fun d => tight_of_mem_declarations
    have hstyle : variableStyle options =
        styleElement ((declarations options).flatMap Declaration.written) :=
      congrArg styleElement (flatMap_styleVariable options)
    rw [Option.map_some, Option.getD_some, hstyle]
    refine .present (h options rfl) htight rfl (splitOn_written htight) fun c hc => ?_
    rcases endsVariable_of_mem_written htight hc with rfl | hends
    · decide
    · simp only [endsVariable, Bool.or_eq_false_iff, beq_eq_false_iff_ne] at hends
      obtain ⟨⟨⟨⟨-, hopen⟩, hclose⟩, hstart⟩, hend⟩ := hends
      exact ⟨hstart, hend, hopen, hclose⟩

/-- What is put into the head of a page for its public options is a script and a style sheet, each
of which ends with its own sign and holds nothing that could end it before. -/
theorem publicOptions_sealed {scope : Scope} (h : (Value.map scope).Ordered) (html : Text) :
    ∃ before after script style, html = before ++ after ∧
      injectPublic html scope = before ++ (script ++ style) ++ after ∧
      IsScript (publicOption? scope "js".toList) script ∧
      IsSheet (publicOption? scope "css".toList) style := by
  obtain ⟨before, after, hhtml, hinjected⟩ := exists_injectPublic html scope
  exact ⟨before, after, _, _, hhtml, hinjected, isScript _,
    isSheet fun _ hd => ascending_publicOption? h hd⟩

/-- The data of a request, as they come. -/
def brand : Text := ("\x7b\"public\":\x7b\"css\":\x7b\"brand color\":\"red;\x7d</style>\"," ++
  "\"gap\":4,\"\x7d\":1\x7d,\"js\":\x7b\"tag\":\"</script>\"\x7d\x7d\x7d").toList

/-- Options that would end the script and the style sheet, and one without a usable name. -/
theorem publicOptions_sealed_brand :
    let css : Dictionary Value := [("brand color".toList, .str "red;\x7d</style>".toList),
      ("gap".toList, .int 4), ("\x7d".toList, .int 1)]
    let js : Dictionary Value := [("tag".toList, .str "</script>".toList)]
    let shown : Dictionary Value := [("css".toList, .map css), ("js".toList, .map js)]
    let scope : Scope := [("public".toList, .map shown)]
    Json.read? brand = some (.map scope) ∧
      (∃ before after script style, "<head></head>".toList = before ++ after ∧
        injectPublic "<head></head>".toList scope = before ++ (script ++ style) ++ after ∧
        IsScript (some js) script ∧ IsSheet (some css) style) ∧
      injectPublic "<head></head>".toList scope =
        ("<head><script>OPTS=\x7b\"tag\":\"<\\/script>\"\x7d</script>" ++
          "<style>:root\x7b--brandcolor:red/style;--gap:4;\x7d</style></head>").toList := by
  intro css js shown scope
  have hread : Json.read? brand = some (.map scope) := by rfl
  refine ⟨hread, ?_, by decide +kernel⟩
  exact publicOptions_sealed (Json.ordered_read? hread) _

end Stencil.Layout
