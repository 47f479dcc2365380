import ParseTables.Proofs.ShiftReduce.Conflicts
import ParseTables.Proofs.ShiftReduce.Drive

namespace ParseTables

namespace Grammar

/-- One symbol begins a body of another, and the rest of that body can vanish. -/
def Wraps (g : Grammar) (inner outer : Nat) : Prop :=
  ∃ rule ∈ g.listed, ∃ rest, rule.head = outer ∧ rule.body = inner :: rest ∧ g.Derives rest []

theorem listed_of_chain {g : Grammar} (wf : g.WellFormed) {inner outer : Nat}
    (chain : Relation.TransGen g.Wraps inner outer) : outer ∈ g.nonTerminals := by
  obtain ⟨-, -, rule, member, -, head, -⟩ := Relation.TransGen.tail'_iff.mp chain
  exact head ▸ wf.head_mem member

/-- With this terminal next, the reductions on this stack go round. Either the symbol pushed last grows
into itself by rules whose further symbols vanish, so the stack comes back as it was. Or symbols that
vanish lead from a state to the same state, so they are pushed again and again. -/
inductive GoesRound (g : Grammar) (terminal : Nat) (states : List Nat) : Prop
  | turn {symbol : Nat} {older : List Nat} : g.Spells states (symbol :: older) →
      Relation.TransGen g.Wraps symbol symbol → terminal ∈ g.follow symbol → GoesRound g terminal states
  | growth {state : Nat} {between below newer older : List Nat} :
      states = state :: between ++ state :: below → g.Spells states (newer ++ older) →
      newer.length = between.length + 1 →
      (∀ symbol ∈ newer, g.Derives [symbol] [] ∧ terminal ∈ g.follow symbol) →
      GoesRound g terminal states

end Grammar

namespace ShiftReduce

open Driver Grammar

variable {g : Grammar}

theorem head?_actions_of_calm (calm : g.slrTable.hasConflict = false) {state terminal : Nat}
    {action : LRAction} (member : action ∈ g.slrTable.actions state terminal) :
    (g.slrTable.actions state terminal).head? = some action := by
  have few := hasConflict_eq_false.mp calm state terminal
  obtain ⟨other, only⟩ := List.length_eq_one_iff.mp (Nat.le_antisymm few (List.length_pos_of_mem member))
  rw [only] at member ⊢
  rw [List.mem_singleton.mp member]
  rfl

section Calm

variable (wf : g.WellFormed) (calm : g.slrTable.hasConflict = false)
include wf calm

theorem reaches_of_vanishing {symbols : List Nat} (vanish : g.Derives symbols []) {number place : Nat}
    {rule : Rule} (found : g.rule? number = some rule) {after : List Nat}
    (dropped : rule.body.drop place = symbols ++ after) {terminal : Nat}
    (next : g.Continues after rule.head terminal) {state : Nat} {below spelled : List Nat}
    (path : g.Spells (state :: below) spelled) (member : ⟨number, place⟩ ∈ g.itemsAt state)
    (position : Nat) (later : List Nat) :
    ∃ top under, Reaches (plainAdvance g.slrTable g) ⟨state, below, position, terminal :: later⟩
        ⟨top, under, position, terminal :: later⟩ ∧
      Pushed g state below spelled symbols number place top under := by
  have prefers : ∀ state terminal number, number ∈ g.reductionsOn state terminal →
      (g.slrTable.actions state terminal).head? = some (.reduce number) ∨ False :=
    fun _ _ _ reduces => Or.inl (head?_actions_of_calm calm (reduce_mem_actions.mpr reduces))
  rcases reaches_of_parses wf prefers (parses_nil_iff.mpr vanish) found dropped next later position path
      member with pushed | ⟨-, -, -, -, -, never, -⟩
  · exact pushed
  · exact never.elim

theorem next_of_complete {number : Nat} {rule : Rule} (listed : rule ∈ g.listed) (positive : 0 < number)
    (found : g.rule? number = some rule) {state top target : Nat} {below under : List Nat}
    (popped : (top :: under).drop rule.body.length = state :: below)
    (complete : ⟨number, rule.body.length⟩ ∈ g.itemsAt top)
    (edge : g.target? state rule.head = some target) {terminal : Nat}
    (follows : terminal ∈ g.follow rule.head) (position : Nat) (later : List Nat) :
    Next (plainAdvance g.slrTable g) ⟨top, under, position, terminal :: later⟩
      ⟨target, state :: below, position, terminal :: later⟩ := by
  have reduces : number ∈ g.reductionsOn top terminal :=
    mem_reductionsOn.mpr ⟨positive, rule, found, complete, follows⟩
  have action := head?_actions_of_calm calm (reduce_mem_actions.mpr reduces)
  have edge' := (goto?_eq (wf.head_mem listed)).trans edge
  exact ⟨_, plainAdvance_reduce action found popped edge' position later⟩

/-- A symbol that vanishes is pushed where there is an edge on it. -/
theorem proceeds_of_vanishing {state symbol target : Nat} {below spelled : List Nat}
    (path : g.Spells (state :: below) spelled) (edge : g.target? state symbol = some target)
    (vanishes : g.Derives [symbol] []) {terminal : Nat} (follows : terminal ∈ g.follow symbol)
    (position : Nat) (later : List Nat) :
    Proceeds (plainAdvance g.slrTable g) ⟨state, below, position, terminal :: later⟩
      ⟨target, state :: below, position, terminal :: later⟩ := by
  obtain ⟨rule, listed, rfl, empty⟩ := exists_rule_of_vanishing vanishes
  obtain ⟨number, positive, found⟩ := exists_number listed
  obtain ⟨item, member, next⟩ := (itemsAt_target edge).1
  have opened := opening_mem member next (isNonTerminal_of_listed (wf.head_mem listed)) found
  obtain ⟨top, under, reaches, pushed⟩ := reaches_of_vanishing wf calm empty found
    (List.append_nil _).symm (continues_nil.mpr (Or.inr follows)) path opened position later
  exact Relation.TransGen.tail' reaches
    (next_of_complete wf calm listed positive found pushed.popped pushed.complete edge follows position
      later)

/-- A symbol with nothing after it but symbols that vanish gives way to the head of its rule. -/
theorem proceeds_of_wraps {exposed inner outer target : Nat} {below older : List Nat}
    (path : g.Spells (exposed :: below) older) (wraps : g.Wraps inner outer)
    (edge : g.target? exposed outer = some target) {terminal : Nat}
    (follows : terminal ∈ g.follow outer) (position : Nat) (later : List Nat) :
    ∃ target', g.target? exposed inner = some target' ∧
      (inner ∈ g.nonTerminals → terminal ∈ g.follow inner) ∧
      Proceeds (plainAdvance g.slrTable g) ⟨target', exposed :: below, position, terminal :: later⟩
        ⟨target, exposed :: below, position, terminal :: later⟩ := by
  obtain ⟨rule, listed, rest, rfl, body, vanish⟩ := wraps
  obtain ⟨number, positive, found⟩ := exists_number listed
  obtain ⟨item, member, next⟩ := (itemsAt_target edge).1
  have opened := opening_mem member next (isNonTerminal_of_listed (wf.head_mem listed)) found
  have ends : g.Continues [] rule.head terminal := continues_nil.mpr (Or.inr follows)
  have dropped : rule.body.drop 0 = inner :: rest := body
  obtain ⟨upcoming, dropped', occurs⟩ := next_of_drop found dropped
  obtain ⟨target', edge'⟩ := exists_target opened upcoming
  have passed := advanced_mem_target opened upcoming edge'
  obtain ⟨top, under, reaches, pushed⟩ := reaches_of_vanishing wf calm vanish found
    (dropped'.trans (List.append_nil _).symm) ends (path.push edge') passed position later
  have pushed' := pushed.cons
  rw [← body] at pushed'
  refine ⟨target', edge', fun listed' => ?_, Relation.TransGen.tail' reaches
    (next_of_complete wf calm listed positive found pushed'.popped pushed'.complete edge follows position
      later)⟩
  refine Follows.of_continues wf (List.mem_cons_of_mem _ listed) occurs listed' ?_
  exact Or.inr ⟨(nullable_first_iff wf).mpr vanish, Or.inr follows⟩

theorem proceeds_of_chain {exposed inner outer target : Nat} {below older : List Nat}
    (path : g.Spells (exposed :: below) older) (chain : Relation.TransGen g.Wraps inner outer)
    (edge : g.target? exposed outer = some target) {terminal : Nat}
    (follows : terminal ∈ g.follow outer) (position : Nat) (later : List Nat) :
    ∃ target', g.target? exposed inner = some target' ∧
      Proceeds (plainAdvance g.slrTable g) ⟨target', exposed :: below, position, terminal :: later⟩
        ⟨target, exposed :: below, position, terminal :: later⟩ := by
  induction chain generalizing target with
  | single wraps =>
    obtain ⟨target', edge', -, proceeds⟩ :=
      proceeds_of_wraps wf calm path wraps edge follows position later
    exact ⟨target', edge', proceeds⟩
  | @tail middle outer chain wraps ih =>
    obtain ⟨target', edge', follows', proceeds⟩ :=
      proceeds_of_wraps wf calm path wraps edge follows position later
    obtain ⟨target'', edge'', proceeds'⟩ := ih edge' (follows' (listed_of_chain wf chain))
    exact ⟨target'', edge'', proceeds'.trans proceeds⟩

/-- Symbols that vanish lead from a state over the same states wherever it stands. -/
theorem proceeds_of_top {top state symbol : Nat} {segment below rest base spelled : List Nat}
    (path : g.Spells (top :: (segment ++ state :: below)) (symbol :: rest))
    (path' : g.Spells (segment ++ state :: base) spelled) (vanishes : g.Derives [symbol] [])
    {terminal : Nat} (follows : terminal ∈ g.follow symbol) (position : Nat) (later : List Nat) :
    Proceeds (plainAdvance g.slrTable g) (.at position (terminal :: later) (segment ++ state :: base))
        (.at position (terminal :: later) (top :: segment ++ state :: base)) ∧
      g.Spells (top :: segment ++ state :: base) (symbol :: spelled) := by
  cases segment with
  | nil =>
    cases path with
    | push _ edge =>
      exact ⟨proceeds_of_vanishing wf calm path' edge vanishes follows position later, path'.push edge⟩
  | cons first segment =>
    cases path with
    | push _ edge =>
      exact ⟨proceeds_of_vanishing wf calm path' edge vanishes follows position later, path'.push edge⟩

theorem reaches_of_segment {state : Nat} {segment newer below older base spelled : List Nat}
    (path : g.Spells (segment ++ state :: below) (newer ++ older)) (same : newer.length = segment.length)
    {terminal : Nat} (vanish : ∀ symbol ∈ newer, g.Derives [symbol] [] ∧ terminal ∈ g.follow symbol)
    (path' : g.Spells (state :: base) spelled) (position : Nat) (later : List Nat) :
    Reaches (plainAdvance g.slrTable g) (.at position (terminal :: later) (state :: base))
        (.at position (terminal :: later) (segment ++ state :: base)) ∧
      g.Spells (segment ++ state :: base) (newer ++ spelled) := by
  induction segment generalizing newer with
  | nil =>
    obtain rfl := List.length_eq_zero_iff.mp same
    exact ⟨.refl, path'⟩
  | cons top segment ih =>
    obtain ⟨symbol, newer, rfl⟩ := List.exists_cons_of_length_eq_add_one same
    have inner : g.Spells (segment ++ state :: below) (newer ++ older) := path.tail
    obtain ⟨reaches, spells⟩ := ih inner (Nat.succ.inj same)
      (fun other member => vanish other (List.mem_cons_of_mem _ member))
    obtain ⟨vanishes, follows⟩ := vanish symbol List.mem_cons_self
    obtain ⟨proceeds, spells'⟩ := proceeds_of_top wf calm path spells vanishes follows position later
    exact ⟨reaches.trans proceeds.to_reflTransGen, spells'⟩

/-- Nothing ends where reductions go round. -/
theorem endless_of_goesRound {terminal : Nat} {states : List Nat} (round : g.GoesRound terminal states)
    (position : Nat) (later : List Nat) :
    Endless (plainAdvance g.slrTable g) (.at position (terminal :: later) states) := by
  cases round with
  | @turn symbol older path chain follows =>
    cases path with
    | @push exposed below _ _ target path edge =>
      obtain ⟨target', edge', proceeds⟩ :=
        proceeds_of_chain wf calm path chain edge follows position later
      obtain rfl := Option.some.inj (edge.symm.trans edge')
      let Round (config : Plain) : Prop :=
        config = .at position (terminal :: later) (target :: exposed :: below)
      refine @Endless.of_rounds _ _ _ Round ?_ _ rfl
      rintro config rfl
      exact ⟨_, proceeds, rfl⟩
  | @growth state between below newer older split path same vanish =>
    subst split
    let Round (config : Plain) : Prop := ∃ base spelled,
      config = .at position (terminal :: later) (state :: base) ∧ g.Spells (state :: base) spelled
    refine @Endless.of_rounds _ _ _ Round ?_ _ ⟨_, _, rfl, path⟩
    rintro config ⟨base, spelled, rfl, path'⟩
    obtain ⟨symbol, newer, rfl⟩ := List.exists_cons_of_length_eq_add_one same
    have inner : g.Spells (between ++ state :: below) (newer ++ older) := path.tail
    obtain ⟨reaches, spells⟩ := reaches_of_segment wf calm inner (Nat.succ.inj same)
      (fun other member => vanish other (List.mem_cons_of_mem _ member)) path' position later
    obtain ⟨vanishes, follows⟩ := vanish symbol List.mem_cons_self
    obtain ⟨proceeds, spells'⟩ := proceeds_of_top wf calm path spells vanishes follows position later
    exact ⟨_, Relation.TransGen.trans_right reaches proceeds, _, _, rfl, spells'⟩

end Calm

end ShiftReduce

end ParseTables
