import ParseTables.Proofs.Lookup.Documents
import ParseTables.Proofs.Text.TeX
import ParseTables.Proofs.Text.Tokens

namespace ParseTables

open Grammar Render

namespace Text

/-- Words that are each written after a blank are found again. -/
theorem words_join {written : List String} (runs : ∀ word ∈ written, IsRun word.toList) :
    words (String.join (written.map fun word => " " ++ word)) = written := by
  refine (spread_map_iff.mp ?_).symm
  induction written with
  | nil => exact .gap fun c member => absurd member List.not_mem_nil
  | cons word rest ih =>
    rw [List.forall_mem_cons] at runs
    rw [List.map_cons, List.map_cons, String.join_cons, String.toList_append, String.toList_append]
    refine .word (by decide) runs.1 (fun c first => ?_) (ih runs.2)
    cases rest with
    | nil => simp at first
    | cons other rest =>
      obtain rfl : ' ' = c := by simpa using first
      decide

end Text

theorem insertDot_zero (names : List String) : insertDot names 0 = "." :: names := by
  simp [insertDot]

theorem insertDot_succ (name : String) (rest : List String) (position : Nat) :
    insertDot (name :: rest) (position + 1) = name :: insertDot rest position := by
  simp only [insertDot, List.length_cons, Nat.add_le_add_iff_right, List.take_succ_cons,
    List.drop_succ_cons]
  split <;> rfl

/-- A dot among dots can stand anywhere. -/
theorem insertDot_eq_iff {names : List String} {position later : Nat} (before : position ≤ later)
    (inside : later ≤ names.length) :
    insertDot names position = insertDot names later ↔
      ∀ name ∈ (names.take later).drop position, name = "." := by
  induction names generalizing position later with
  | nil =>
    obtain rfl : later = 0 := by simpa using inside
    obtain rfl : position = 0 := by omega
    simp
  | cons name rest ih =>
    cases later with
    | zero =>
      obtain rfl : position = 0 := by omega
      simp
    | succ later =>
      rw [List.length_cons, Nat.add_le_add_iff_right] at inside
      cases position with
      | succ position =>
        rw [insertDot_succ, insertDot_succ, List.take_succ_cons, List.drop_succ_cons,
          ← ih (Nat.le_of_succ_le_succ before) inside, List.cons_inj_right]
      | zero =>
        have shifted := ih (Nat.zero_le later) inside
        rw [insertDot_zero, List.drop_zero] at shifted
        rw [insertDot_zero, insertDot_succ, List.take_succ_cons, List.drop_zero,
          List.forall_mem_cons, ← shifted,
          List.cons.injEq, eq_comm]
        constructor
        · rintro ⟨rfl, same⟩
          exact ⟨rfl, same⟩
        · rintro ⟨rfl, same⟩
          exact ⟨rfl, same⟩

theorem isRun_dot : Text.IsRun ".".toList := by decide

/-- A dot that is joined to a name tells its place. -/
theorem dottedNames_inj {names : List String} {position later : Nat} (known : position ≤ names.length)
    (inside : later ≤ names.length) :
    dottedNames names position = dottedNames names later ↔ position = later := by
  have longer : ∀ name : String, "." ++ name ≠ name := fun name same => by
    have := congrArg String.length same
    rw [String.length_append, show ".".length = 1 from rfl] at this
    omega
  induction names generalizing position later with
  | nil =>
    rw [List.length_nil] at known inside
    obtain rfl : position = 0 := by omega
    obtain rfl : later = 0 := by omega
    simp
  | cons name rest ih =>
    rw [List.length_cons] at known inside
    cases position with
    | zero =>
      cases later with
      | zero => simp
      | succ later => simp [dottedNames, longer]
    | succ position =>
      cases later with
      | zero => simp [dottedNames, (longer name).symm]
      | succ later =>
        rw [dottedNames, dottedNames, List.cons_inj_right, Nat.add_right_cancel_iff]
        exact ih (Nat.le_of_succ_le_succ known) (Nat.le_of_succ_le_succ inside)

theorem isRun_dottedNames {names : List String} (runs : ∀ name ∈ names, Text.IsRun name.toList)
    (position : Nat) : ∀ name ∈ dottedNames names position, Text.IsRun name.toList := by
  induction names generalizing position with
  | nil =>
    cases position with
    | zero =>
      rw [dottedNames, List.forall_mem_singleton]
      exact isRun_dot
    | succ position =>
      rw [dottedNames]
      exact fun name member => absurd member List.not_mem_nil
  | cons name rest ih =>
    rw [List.forall_mem_cons] at runs
    cases position with
    | zero =>
      rw [dottedNames, List.forall_mem_cons, String.toList_append]
      refine ⟨⟨by simp, fun c member => ?_⟩, runs.2⟩
      exact (List.mem_append.mp member).elim (isRun_dot.2 c) (runs.1.2 c)
    | succ position =>
      rw [dottedNames, List.forall_mem_cons]
      exact ⟨runs.1, ih runs.2 position⟩

/-- Only the dot is added. -/
theorem mem_insertDot {names : List String} {position : Nat} {name : String}
    (member : name ∈ insertDot names position) : name ∈ names ∨ name = "." := by
  unfold insertDot at member
  split at member
  · rcases List.mem_append.mp member with before | after
    · exact Or.inl (List.mem_of_mem_take before)
    · exact (List.mem_cons.mp after).symm.imp_left List.mem_of_mem_drop
  · exact Or.inl member

/-- The plain text of an item with these names. -/
def dottedText (head : String) (names : List String) (position : Nat) : String :=
  head ++ " ->" ++ String.join ((dottedNames names position).map fun name => " " ++ name)

/-- The formula of an item with these names. -/
def dottedFormula [Text.TeX] (head : String) (names : List String) (position : Nat) : String :=
  "$" ++ Text.TeX.escape head ++ " \\rightarrow " ++
    " ".intercalate (insertDot (names.map Text.TeX.escape) position) ++ "$"

section Runs

variable {names : List String} (runs : ∀ name ∈ names, Text.IsRun name.toList) {position later : Nat}
  (inside : later ≤ names.length)
include runs inside

theorem dottedText_inj (head : String) (known : position ≤ names.length) :
    dottedText head names position = dottedText head names later ↔ position = later := by
  rw [dottedText, dottedText, String.append_right_inj, ← dottedNames_inj known inside]
  constructor
  · intro same
    rw [← Text.words_join (isRun_dottedNames runs position), same,
      Text.words_join (isRun_dottedNames runs later)]
  · intro same
    rw [same]

theorem dottedFormula_eq_iff [Text.TeX] [Text.TeX.Lawful] (head : String) (before : position ≤ later) :
    dottedFormula head names position = dottedFormula head names later ↔
      ∀ name ∈ (names.take later).drop position, name = "." := by
  have written : ∀ place, ∀ word ∈ insertDot (names.map Text.TeX.escape) place,
      Text.IsRun word.toList := by
    intro place word member
    rcases mem_insertDot member with escaped | rfl
    · obtain ⟨name, listed, rfl⟩ := List.mem_map.mp escaped
      exact Text.TeX.Lawful.run name (runs name listed)
    · exact isRun_dot
  have cut : dottedFormula head names position = dottedFormula head names later ↔
      insertDot (names.map Text.TeX.escape) position = insertDot (names.map Text.TeX.escape) later := by
    rw [dottedFormula, dottedFormula, String.append_left_inj, String.append_right_inj]
    constructor
    · intro same
      rw [← Text.words_intercalate (written position), same, Text.words_intercalate (written later)]
    · intro same
      rw [same]
  rw [cut, insertDot_eq_iff before (by rwa [List.length_map]), ← List.map_take, ← List.map_drop,
    List.forall_mem_map]
  simp only [Text.TeX.Lawful.point]

end Runs

/-- Every symbol between two places of a body is named like the dot. -/
def Grammar.OnlyPoints (g : Grammar) (rule : Rule) (position later : Nat) : Prop :=
  ∀ symbol ∈ (rule.body.take later).drop position, g.name? symbol = some "."

/-- A box has the formulas of the items of a state. Those of two items of a rule are the same if only
points are between the places of their dots, and not otherwise. -/
structure Render.StateBox.ShowsDots [Text.TeX] (g : Grammar) (state : LRState)
    (box : StateBox) : Prop where
  formulas : List.Forall₂ (fun item formula => item.latex? g = some formula)
    state.items.toList box.formulas
  alike : ∀ (place place' : Nat) (item item' : Item), state.items.toList[place]? = some item →
    state.items.toList[place']? = some item' → item.rule = item'.rule → item.position < item'.position →
    ∃ rule, g.rule? item.rule = some rule ∧
      (box.formulas[place]? = box.formulas[place']? ↔ g.OnlyPoints rule item.position item'.position)

/-- Whether two items of a rule can be told apart when they are written. -/
structure Analysis.ShowsDots [Text.TeX] (a : Analysis) : Prop where
  items : ∀ number rule, a.grammar.rule? number = some rule → ∀ position later, position < later →
    later ≤ rule.body.length → ∃ text text' formula formula',
      Item.text? a.grammar ⟨number, position⟩ = some text ∧
        Item.text? a.grammar ⟨number, later⟩ = some text' ∧
      Item.latex? a.grammar ⟨number, position⟩ = some formula ∧
        Item.latex? a.grammar ⟨number, later⟩ = some formula' ∧
      text ≠ text' ∧ (formula = formula' ↔ a.grammar.OnlyPoints rule position later)
  boxes : ∃ diagram : Diagram, a.render? .automaton .latex = some diagram.latex ∧
    List.Forall₂ (StateBox.ShowsDots a.grammar) a.automaton.states diagram.boxes

variable {g : Grammar}

theorem onlyPoints_iff {rule : Rule} {names : List String} (named : g.namesOf? rule.body = some names)
    (position later : Nat) :
    g.OnlyPoints rule position later ↔ ∀ name ∈ (names.take later).drop position, name = "." := by
  have same := namesOf?_eq_some_iff.mp named
  have slice : ((rule.body.take later).drop position).map g.name? =
      ((names.take later).drop position).map some := by
    rw [List.map_drop, List.map_take, same, ← List.map_take, ← List.map_drop]
  have each : g.OnlyPoints rule position later ↔
      ∀ name ∈ ((rule.body.take later).drop position).map g.name?, name = some "." := by
    rw [List.forall_mem_map, OnlyPoints]
  rw [each, slice, List.forall_mem_map]
  simp only [Option.some.injEq]

/-- The formulas in a box are those of the items. -/
theorem formulas_of_stateBox [Text.TeX] {state : LRState} {box : StateBox}
    (shown : StateBox.of? g state = some box) :
    state.items.toList.map (Item.latex? g) = box.formulas.map some := by
  unfold StateBox.of? at shown
  obtain ⟨kernel, -, shown⟩ := Option.bind_eq_some_iff.mp shown
  obtain ⟨extension, -, shown⟩ := Option.bind_eq_some_iff.mp shown
  obtain ⟨edges, -, shown⟩ := Option.bind_eq_some_iff.mp shown
  obtain ⟨formulas, written, shown⟩ := Option.bind_eq_some_iff.mp shown
  obtain rfl := Option.some.inj shown
  exact mapM_eq_some_iff.mp written

theorem getElem?_of_stateBox [Text.TeX] {state : LRState} {box : StateBox}
    (shown : StateBox.of? g state = some box) {place : Nat} {item : Item}
    (found : state.items.toList[place]? = some item) : box.formulas[place]? = item.latex? g := by
  have same := congrArg (·[place]?) (formulas_of_stateBox shown)
  simp only [List.getElem?_map, found, Option.map_some] at same
  cases written : box.formulas[place]? with
  | none => simp [written] at same
  | some formula => simpa [written] using same.symm

section OfRules

variable {pairs : List (String × String)} {designated : Option String}
    (built : ofRules pairs designated = .ok g)
include built

/-- The names with which a rule is written are words. -/
theorem exists_ruleNames [Text.TeX] {number : Nat} {rule : Rule} (defined : g.rule? number = some rule) :
    ∃ head names,
    g.namesOf? rule.body = some names ∧ names.length = rule.body.length ∧
    (∀ name ∈ names, Text.IsRun name.toList) ∧
    (∀ position, Item.text? g ⟨number, position⟩ = some (dottedText head names position)) ∧
    ∀ position, Item.latex? g ⟨number, position⟩ = some (dottedFormula head names position) := by
  have wf := wellFormed_ofRules built
  obtain ⟨head, headed⟩ := hasSymbol_head wf defined
  obtain ⟨names, named⟩ := exists_namesOf (hasSymbol_body wf defined)
  have same := namesOf?_eq_some_iff.mp named
  have length := congrArg List.length same
  rw [List.length_map, List.length_map] at length
  refine ⟨head, names, named, length.symm, fun name member => ?_, fun position => ?_, fun position => ?_⟩
  · obtain ⟨symbol, inBody, called⟩ := List.mem_map.mp (same ▸ List.mem_map_of_mem member)
    exact (reads_of_ofRules built).isRun
      (name?_mem_names (wf.body_bounds defined symbol inBody).1 called)
  · simp [Item.text?, dottedText, defined, headed, named]
  · simp [Item.latex?, dottedFormula, defined, headed, named]

/-- Two items of a rule as formulas. -/
theorem latex?_eq_iff [Text.TeX] [Text.TeX.Lawful] {number : Nat} {rule : Rule}
    (defined : g.rule? number = some rule) {position later : Nat} (before : position ≤ later)
    (inside : later ≤ rule.body.length) :
    Item.latex? g ⟨number, position⟩ = Item.latex? g ⟨number, later⟩ ↔
      g.OnlyPoints rule position later := by
  obtain ⟨head, names, named, length, runs, -, formula⟩ := exists_ruleNames built defined
  rw [formula, formula, Option.some.injEq, onlyPoints_iff named]
  exact dottedFormula_eq_iff runs (length ▸ inside) head before

theorem showsDots_box [Text.TeX] [Text.TeX.Lawful] {state : LRState}
    (fits : ∀ item ∈ state.items, item.Fits g) {box : StateBox}
    (shown : StateBox.of? g state = some box) : box.ShowsDots g state := by
  constructor
  · rw [← mapM_iff_forall₂, mapM_eq_some_iff]
    exact formulas_of_stateBox shown
  · intro place place' item item' found found' same before
    obtain ⟨rule, defined, inside⟩ := fits item' (SortedSet.mem_toList.mp (List.mem_of_getElem? found'))
    rw [← same] at defined
    have later : item' = ⟨item.rule, item'.position⟩ := by rw [same]
    refine ⟨rule, defined, ?_⟩
    rw [getElem?_of_stateBox shown found, getElem?_of_stateBox shown found', later]
    exact latex?_eq_iff built defined (Nat.le_of_lt before) inside

/-- The plain text of an item tells where its dot is. The formula does not tell on which side of a symbol
that is named like the dot it stands, on its own or in the box of a state, but nothing else is lost. -/
theorem showsDots [Text.TeX] [Text.TeX.Lawful] (policy : ReducePolicy) :
    (Analysis.ofGrammar g policy).ShowsDots := by
  have wf := wellFormed_ofRules built
  have builds := Analysis.buildsInRange wf policy
  constructor
  · intro number rule defined position later before inside
    obtain ⟨head, names, named, length, runs, text, formula⟩ := exists_ruleNames built defined
    rw [← length] at inside
    refine ⟨_, _, _, _, text position, text later, formula position, formula later, ?_, ?_⟩
    · rw [ne_eq, dottedText_inj runs inside head (by omega)]
      omega
    · exact (dottedFormula_eq_iff runs inside head (Nat.le_of_lt before)).trans
        (onlyPoints_iff named position later).symm
  · obtain ⟨diagram, drawn⟩ := exists_diagram wf builds.items fun state reached edge leaves =>
      (builds.edges state reached edge leaves).1
    refine ⟨diagram, congrArg (Option.bind · (inFormat? .latex)) drawn, ?_⟩
    obtain ⟨boxes, shown, made⟩ := Option.bind_eq_some_iff.mp drawn
    obtain rfl := Option.some.inj made
    exact forall₂_of_mapM shown fun state reached box =>
      showsDots_box built fun item inside => builds.items state reached item (Or.inl inside)

end OfRules

/-- A terminal that is named like the dot. -/
def pointed : Grammar := ⟨"S'", #["S"], #[".", "x"], 1, [⟨1, [2, 1]⟩, ⟨1, [3]⟩]⟩

theorem ofRules_pointed : ofRules [("S", ". S"), ("S", "x")] none = .ok pointed := by cbv

theorem showsDots_pointed : ∃ g, ofRules [("S", ". S"), ("S", "x")] none = .ok g ∧
    (Analysis.ofGrammar g .anyMultiple).ShowsDots :=
  ⟨pointed, ofRules_pointed, showsDots ofRules_pointed .anyMultiple⟩

/-- Before the terminal and after it, the dot makes the same formula. -/
theorem dot_lost : ¬ ∀ (pairs : List (String × String)) (designated : Option String) (g : Grammar),
    ofRules pairs designated = .ok g → ∀ number rule, g.rule? number = some rule → ∀ position later,
    position ≤ rule.body.length → later ≤ rule.body.length → position ≠ later →
    Item.latex? g ⟨number, position⟩ ≠ Item.latex? g ⟨number, later⟩ := by
  intro apart
  refine apart _ none pointed ofRules_pointed 1 ⟨1, [2, 1]⟩ rfl 0 1 (by decide)
    (by decide) (by decide) ?_
  refine (latex?_eq_iff ofRules_pointed rfl (by decide) (by decide)).mpr fun symbol between => ?_
  obtain rfl : symbol = 2 := List.mem_singleton.mp between
  rfl

end ParseTables
