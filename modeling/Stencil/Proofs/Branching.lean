import Stencil.Proofs.Condition
import Stencil.Proofs.Folding
import Stencil.Proofs.Termination

namespace Stencil

open Placeholder

namespace Forest

/-- A forest up to the first mark between branches that is not inside another tag, and what is
between such marks after that, with what the mark before it asks for. -/
def cut : Forest (Option Nat) →
    Forest (Option Nat) × List (Option (Option Nat) × Forest (Option Nat))
  | nil => (nil, [])
  | char c rest => (char c rest.cut.1, rest.cut.2)
  | alone name index rest =>
    if name = "_elif".toList then (nil, (some index, rest.cut.1) :: rest.cut.2)
    else if name = "_else".toList then (nil, (none, rest.cut.1) :: rest.cut.2)
    else (alone name index rest.cut.1, rest.cut.2)
  | around name index content rest => (around name index content rest.cut.1, rest.cut.2)

/-- The branches of a condition around a forest, each with the index of what it asks for. A branch
without one is taken in any case. -/
def branches (first : Option Nat) (content : Forest (Option Nat)) :
    List (Option (Option Nat) × Forest (Option Nat)) :=
  (some first, content.cut.1) :: content.cut.2

end Forest

namespace Node

/-- The nodes of a forest with a tag after it: those of the forest, the tag, and what follows. -/
theorem listFrom_append {f : Forest (Option Nat)} {p : Placeholder} {u : Text}
    (hp : p.WellFormed) (hk : p.kind ≠ .closes)
    (hr : ReadBack (f.pieces p.depth) (p.written ++ u)) (before : Text) :
    listFrom p.depth before (write (f.pieces p.depth) ++ (p.written ++ u)) =
      listFrom p.depth before (write (f.pieces p.depth)) ++
        (ofFound ⟨[], p, p.written, u⟩).1 ::
          listFrom p.depth [] (ofFound ⟨[], p, p.written, u⟩).2 := by
  induction f generalizing before with
  | nil =>
    rw [Forest.pieces, write_nil, listFrom_of_none (s := []) rfl, List.nil_append,
      List.append_nil]
    exact listFrom_written hp hk before u
  | char c rest ih =>
    have halone : read? (c :: write (rest.pieces p.depth)) = none := by simpa using hr.alone.1
    rw [Forest.pieces, write_char, List.cons_append, listFrom_cons hr.1, listFrom_cons halone]
    exact ih hr.2 _
  | alone name index rest ih =>
    rw [Forest.pieces, write_placeholder, List.append_assoc, listFrom_written hr.1 (by simp),
      listFrom_written hr.1 (by simp), ofFound_alone, ofFound_alone, ih hr.2]
    rfl
  | around name index content rest _ ih =>
    simp only [Forest.pieces, List.cons_append] at hr
    obtain ⟨hopen, hr⟩ := hr
    obtain ⟨hcontent, hclose, hrest⟩ := readBack_append.mp hr
    simp only [write_placeholder, List.append_assoc] at hcontent
    have hinside : ReadBack (content.pieces (p.depth + 1))
        ((⟨name, p.depth, none, .closes⟩ : Placeholder).written ++
          write (rest.pieces p.depth)) := by
      simpa using (readBack_append.mp hr.alone).1
    simp only [Forest.pieces, List.cons_append, write_placeholder, write_append, List.append_assoc]
    rw [listFrom_written hopen (by simp), listFrom_written hopen (by simp),
      ofFound_around hcontent hclose, ofFound_around hinside hclose, ih hrest]
    rfl

end Node

namespace Branch

variable {depth : Nat}

/-- A branch whose body is a forest, as it is written at a depth. -/
def ofForest (depth : Nat) (b : Option (Option Nat) × Forest (Option Nat)) : Branch :=
  ⟨b.1, write (b.2.pieces depth)⟩

/-- The branches that are found in a written forest are those it is cut into. -/
theorem listFrom_write {f : Forest (Option Nat)} (hr : ReadBack (f.pieces depth) [])
    (condition : Option (Option Nat)) (before : Text) :
    listFrom depth condition before (write (f.pieces depth)) =
      ⟨condition, before ++ write (f.cut.1.pieces depth)⟩ :: f.cut.2.map (ofForest depth) := by
  induction f generalizing condition before with
  | nil => exact listFrom_of_none rfl
  | char c rest ih =>
    have hread : read? (c :: write (rest.pieces depth)) = none := by simpa using hr.1
    rw [Forest.pieces, write_char, listFrom_cons hread, ih hr.2]
    simp [Forest.cut, Forest.pieces]
  | alone name index rest ih =>
    have hnext := next?_written hr.1 (write (rest.pieces depth))
    have hmark : markAt? depth ⟨name, depth, index, .alone⟩ =
        mark? ⟨name, depth, index, .alone⟩ := if_pos ⟨rfl, rfl⟩
    have hbranch : ∀ next, mark? ⟨name, depth, index, .alone⟩ = some next →
        listFrom depth condition before (write ((Forest.alone name index rest).pieces depth)) =
          ⟨condition, before ++ []⟩ ::
            ((next, rest.cut.1) :: rest.cut.2).map (ofForest depth) := fun next hm => by
      rw [Forest.pieces, write_placeholder, listFrom_of_mark hnext (hmark.trans hm), ih hr.2]
      rfl
    unfold Forest.cut
    by_cases helif : name = "_elif".toList
    · rw [if_pos helif]
      exact hbranch (some index) (if_pos helif)
    · by_cases helse : name = "_else".toList
      · rw [if_neg helif, if_pos helse]
        exact hbranch none ((if_neg helif).trans (if_pos helse))
      · have hnone : mark? ⟨name, depth, index, .alone⟩ = none :=
          (if_neg helif).trans (if_neg helse)
        rw [if_neg helif, if_neg helse, Forest.pieces, write_placeholder,
          listFrom_of_other hnext (hmark.trans hnone), ih hr.2]
        simp [Forest.pieces]
  | around name index content rest _ ih =>
    have hpieces : ∀ g : Forest (Option Nat), (Forest.around name index content g).pieces depth =
        (Forest.around name index content .nil).pieces depth ++ g.pieces depth := by
      simp [Forest.pieces]
    rw [hpieces rest] at hr ⊢
    obtain ⟨htag, hrest⟩ := readBack_append.mp hr
    rw [List.append_nil] at htag
    rw [write_append, listFrom_pass htag fun _ => markAt?_around, ih hrest, Forest.cut,
      hpieces rest.cut.1]
    simp

theorem list_write {content : Forest (Option Nat)} (hr : ReadBack (content.pieces depth) [])
    (first : Option Nat) :
    list depth first (write (content.pieces depth)) =
      (content.branches first).map (ofForest depth) :=
  listFrom_write hr (some first) []

end Branch

namespace Condition

/-- In the late pass every condition is true or false. -/
theorem evalTokens_late {r : Resolver} (hr : r.pre = false) (ts : List Text) :
    ∃ b, evalTokens r ts = .known b := by
  have hcompletes : r.Completes ⟨r.scope, r.literals, true⟩ :=
    ⟨rfl, hr, rfl, fun _ _ h => h, fun _ _ h => h⟩
  obtain ⟨b, hb, -⟩ := (keeps_eval hcompletes).means_eval hcompletes (flat_ofTokens ts)
  exact ⟨b, hb⟩

end Condition

def Outcome.isTrue : Outcome → Bool
  | known b => b
  | residual _ => false

/-- Is that true which a branch asks for? -/
def Frame.holds {σ : Type} (frame : Frame σ) (scope : Scope) : Option (Option Nat) → Bool
  | none => true
  | some index => (Condition.evalTokens (frame.resolver scope)
      (frame.template.attributes index).args).isTrue

namespace Selection

/-- If all branches are decided, the first one that is true is selected. -/
theorem ofBranches_of_known {outcome : Branch → Outcome} {branches : List Branch}
    (h : ∀ b ∈ branches, ∃ d, outcome b = .known d) :
    ofBranches outcome branches = match branches.find? fun b => (outcome b).isTrue with
      | some b => .chosen b.body
      | none => .left [] := by
  induction branches with
  | nil => rfl
  | cons b more ih =>
    have hmore := ih fun c hc => h c (List.mem_cons_of_mem b hc)
    obtain ⟨d, hd⟩ := h b List.mem_cons_self
    cases d with
    | true => simp [ofBranches, hd, Outcome.isTrue]
    | false => simp [ofBranches, hd, Outcome.isTrue, hmore]

end Selection

namespace Rendering

variable {σ : Type} {frame : Frame σ}

theorem isTrue_outcome (frame : Frame σ) (scope : Scope) (b : Branch) :
    (Selection.outcome (frame.resolver scope) frame.template.attributes b).isTrue =
      frame.holds scope b.condition := by
  unfold Selection.outcome Frame.holds
  cases b.condition <;> rfl

/-- In the late pass the body of the first branch that holds is rendered, and nothing is put out if
there is none. -/
theorem condition_late (hlate : frame.pass.isEarly = false)
    (child : Text → Scope → Rendering σ Output) (p : Placeholder) (content : Text) (level : Nat)
    (scope : Scope) :
    condition frame child p content level scope =
      match (Branch.list (level + 1) p.attrs content).find? fun b =>
        frame.holds scope b.condition with
      | some b => child b.body scope
      | none => put scope [] := by
  have hknown : ∀ b : Branch, ∃ d,
      Selection.outcome (frame.resolver scope) frame.template.attributes b = .known d := by
    intro b
    unfold Selection.outcome
    cases b.condition with
    | none => exact ⟨true, rfl⟩
    | some index => exact Condition.evalTokens_late hlate _
  unfold condition
  dsimp only
  rw [Selection.ofBranches_of_known fun b _ => hknown b]
  simp only [isTrue_outcome]
  generalize List.find? _ _ = found
  cases found with
  | none => rfl
  | some b => exact congrFun (inPlace_late hlate child b.body) scope

/-- Renders the first branch that holds, by itself and at the level of what is inside the condition.
Nothing is put out if no branch holds. -/
def chosenBranch (ways : Ways σ) (frame : Frame σ) (level : Nat)
    (branches : List (Option (Option Nat) × Forest (Option Nat))) (scope : Scope) :
    Rendering σ Output :=
  match branches.find? fun b => frame.holds scope b.1 with
  | some b => whole ways frame level (write (b.2.pieces level)) scope
  | none => put scope []

theorem tag_condition (hlate : frame.pass.isEarly = false) {p : Placeholder}
    (hname : TagRole.ofName p.name = .condition) {level : Nat} {content : Forest (Option Nat)}
    (hr : ReadBack (content.pieces (level + 1)) []) (ways : Ways σ) (source : Text)
    (scope : Scope) :
    tag ways frame (whole ways frame (level + 1)) level p
        (some (write (content.pieces (level + 1)))) source scope =
      chosenBranch ways frame (level + 1) (content.branches p.attrs) scope := by
  have hcondition := condition_late hlate (whole ways frame (level + 1)) p
    (write (content.pieces (level + 1))) level scope
  have hasked : (fun b : Branch => frame.holds scope b.condition) ∘ Branch.ofForest (level + 1) =
      fun b => frame.holds scope b.1 := rfl
  rw [Branch.list_write hr, List.find?_map, hasked] at hcondition
  simp only [tag, hname, Option.getD_some, hcondition]
  unfold chosenBranch
  cases (content.branches p.attrs).find? fun b => frame.holds scope b.1 with
  | none => rfl
  | some b => rfl

/-- In the late pass a condition, wherever it stands, is rendered as its first branch that holds, as
if nothing else stood inside it. The scope and all other effects are those of this branch. -/
theorem whole_condition (hlate : frame.pass.isEarly = false) {name : Text}
    (hname : TagRole.ofName name = .condition) {level : Nat} {index : Option Nat}
    {before content rest : Forest (Option Nat)}
    (hread : ReadBack ((before.append (.around name index content rest)).pieces level) [])
    (ways : Ways σ) (scope : Scope) :
    whole ways frame level
        (write ((before.append (.around name index content rest)).pieces level)) scope = do
      let (first, scope) ← whole ways frame level (write (before.pieces level)) scope
      let (chosen, scope) ←
        chosenBranch ways frame (level + 1) (content.branches index) scope
      let (last, scope) ← whole ways frame level (write (rest.pieces level)) scope
      return (first ++ chosen ++ last, scope) := by
  rw [Forest.pieces_append] at hread ⊢
  simp only [Forest.pieces, List.cons_append] at hread ⊢
  obtain ⟨hbefore, hopen, hafter⟩ := readBack_append.mp hread
  obtain ⟨hcontent, hclose, hrest⟩ := readBack_append.mp hafter
  have hnodes : Node.list level (write (before.pieces level) ++
      ((⟨name, level, index, .opens⟩ : Placeholder).written ++
        (write (content.pieces (level + 1)) ++
          ((⟨name, level, none, .closes⟩ : Placeholder).written ++ write (rest.pieces level))))) =
      Node.list level (write (before.pieces level)) ++
        .tag ⟨name, level, index, .opens⟩ (some (write (content.pieces (level + 1))))
            (write ((Forest.around name index content .nil).pieces level)) ::
          Node.list level (write (rest.pieces level)) := by
    have happend := Node.listFrom_append hopen (by simp) (by simpa using hbefore) []
    rw [Node.ofFound_around (by simpa using hcontent) hclose] at happend
    exact happend
  simp only [write_append, write_placeholder]
  rw [whole_eq, hnodes, inTurn_append]
  simp only [inTurn, ← whole_eq, node, tag_condition hlate (p := ⟨name, level, index, .opens⟩)
    hname hcontent.alone, bind_assoc, pure_bind, List.append_assoc]

/-- Two conditions that ask for nothing, one in the last branch of the other, whose first branch has
an assignment. -/
def nest : Forest (Option Nat) :=
  .around "_if".toList none
    (.alone "_set".toList (some 0) (.char 'a' (.alone "_else".toList none
      (.char 'b' (.around "_if".toList none
        (.char 'c' (.alone "_else".toList none (.char 'd' .nil))) .nil))))) .nil

theorem whole_condition_nest :
    let frame := Frame.root Page.emptySite .late
      ⟨"index".toList, write (nest.pieces 0), [⟨[("x".toList, "1".toList)]⟩], [], [], []⟩
    let ways : Ways Unit := ⟨fun _ _ scope => put scope [], none⟩
    let out := (whole ways frame 0 frame.template.html [] ⟨.empty, [], ⟨(), []⟩⟩).1
    ReadBack (nest.pieces 0) [] ∧ TagRole.ofName "_if".toList = .condition ∧
      out.1 = "bd".toList ∧ out.2.map Prod.fst = [] := by
  intro frame ways out
  have hread : ReadBack ((Forest.append .nil nest).pieces 0) [] := by
    refine ⟨.of_name ?_ ?_ ?_ ?_ ?_, .of_name ?_ ?_ ?_ ?_ ?_, read?_of_ne ?_ _,
      .of_name ?_ ?_ ?_ ?_ ?_, read?_of_ne ?_ _, .of_name ?_ ?_ ?_ ?_ ?_, read?_of_ne ?_ _,
      .of_name ?_ ?_ ?_ ?_ ?_, read?_of_ne ?_ _, .of_name ?_ ?_ ?_ ?_ ?_,
      .of_name ?_ ?_ ?_ ?_ ?_, trivial⟩ <;> decide
  have hname : TagRole.ofName "_if".toList = .condition := by decide
  have hlate : frame.pass.isEarly = false := rfl
  have hwhole := whole_condition hlate hname hread ways []
  have hout : out = _ := congrArg (fun r => (r ⟨.empty, [], ⟨(), []⟩⟩).1) hwhole
  rw [hout]
  exact ⟨hread, hname, by decide +kernel, by decide +kernel⟩

end Rendering

end Stencil
