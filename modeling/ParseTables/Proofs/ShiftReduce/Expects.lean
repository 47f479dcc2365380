import ParseTables.Proofs.Lookahead.Begins
import ParseTables.Proofs.ShiftReduce.Round

namespace ParseTables

namespace Grammar

/-- A terminal comes after the rule of an item of the topmost state. The stack is given with the symbols
that it spells. Such terminals are fewer than those that follow the head of the rule anywhere. -/
inductive Expects (g : Grammar) : Nat → List Nat → List Nat → Item → Nat → Prop
  | start : Expects g 0 [] [] ⟨0, 0⟩ g.endMark
  | pass {state below spelled item last symbol target} : Expects g state below spelled item last →
      item.next? g = some symbol → g.target? state symbol = some target →
      Expects g target (state :: below) (symbol :: spelled) item.advanced last
  | opening {state below spelled number place last outer rest opened rule terminal} :
      Expects g state below spelled ⟨number, place⟩ last → g.rule? number = some outer →
      outer.body.drop place = rule.head :: rest → 0 < opened → g.rule? opened = some rule →
      g.Before rest (· = last) terminal → Expects g state below spelled ⟨opened, 0⟩ terminal

variable {g : Grammar} {state last : Nat} {below spelled : List Nat} {item : Item}

theorem Expects.spells (expects : g.Expects state below spelled item last) :
    g.Spells (state :: below) spelled := by
  induction expects with
  | start => exact .start
  | pass _ _ edge ih => exact ih.push edge
  | opening _ _ _ _ _ _ ih => exact ih

theorem Expects.member (wf : g.WellFormed) (expects : g.Expects state below spelled item last) :
    item ∈ g.itemsAt state := by
  induction expects with
  | start =>
    rw [itemsAt_zero]
    exact ItemSet.mem_closure_of_mem (SortedSet.mem_singleton.mpr rfl)
  | pass _ next edge ih => exact advanced_mem_target ih next edge
  | opening _ found dropped positive opened _ ih =>
    have listed := wf.head_mem (mem_listed_of_rule? positive opened)
    exact opening_mem ih (next_of_drop found dropped).1 (isNonTerminal_of_listed listed) opened

theorem Expects.follows (wf : g.WellFormed) (expects : g.Expects state below spelled item last)
    {rule : Rule} (found : g.rule? item.rule = some rule) : g.Follows rule.head last := by
  induction expects generalizing rule with
  | start =>
    cases Option.some.inj found
    exact Or.inl ⟨rfl, rfl⟩
  | pass _ _ _ ih => exact ih found
  | opening _ foundOuter dropped positive foundOpened before ih =>
    cases Option.some.inj (found.symm.trans foundOpened)
    have listed := wf.head_mem (mem_listed_of_rule? positive foundOpened)
    have occurs := (next_of_drop foundOuter dropped).2.2
    refine Or.inr (Follows.of_continues wf (List.mem_of_getElem? foundOuter) occurs listed ?_)
    exact before.mono fun same => same ▸ ih foundOuter

theorem Expects.continues (wf : g.WellFormed) (expects : g.Expects state below spelled item last)
    {rule : Rule} (found : g.rule? item.rule = some rule) {rest : List Nat} {terminal : Nat}
    (before : g.Before rest (· = last) terminal) : g.Continues rest rule.head terminal :=
  before.mono fun same => same ▸ expects.follows wf found

/-- What may come next for an item follows the symbol passed last, and the one before it if that one
vanishes, and so on. -/
theorem Expects.mem_follow (wf : g.WellFormed) (expects : g.Expects state below spelled item last)
    {rule : Rule} (found : g.rule? item.rule = some rule) {terminal : Nat}
    (before : g.Before (rule.body.drop item.position) (· = last) terminal) {newer older : List Nat}
    {symbol : Nat} (split : spelled = newer ++ symbol :: older)
    (vanish : ∀ other ∈ newer, g.Derives [other] []) (listed : symbol ∈ g.nonTerminals) :
    terminal ∈ g.follow symbol := by
  induction expects generalizing rule newer with
  | start => simp at split
  | @pass _ _ _ item last passed _ expects next _ ih =>
    obtain ⟨number, place⟩ := item
    obtain ⟨rest, dropped⟩ := drop_of_next found next
    obtain ⟨-, dropped', occurs⟩ := next_of_drop found dropped
    have before' : g.Before rest (· = last) terminal := dropped' ▸ before
    cases newer with
    | nil =>
      obtain ⟨rfl, -⟩ := List.cons.inj split
      exact Follows.of_continues wf (List.mem_of_getElem? found) occurs listed
        (expects.continues wf found before')
    | cons other newer =>
      obtain ⟨rfl, split'⟩ := List.cons.inj split
      have null := (nullable_first_iff wf).mpr (vanish passed List.mem_cons_self)
      refine ih found ?_ split' (fun inner member => vanish inner (List.mem_cons_of_mem _ member))
      rw [dropped]
      exact before_append (u := [passed]).mpr (Or.inr ⟨null, before'⟩)
  | @opening _ _ _ _ _ _ _ _ _ opened _ _ foundOuter dropped positive foundOpened beforeRest ih =>
    obtain rfl := Option.some.inj (foundOpened.symm.trans found)
    refine ih foundOuter ?_ split vanish
    rw [dropped]
    refine before_append (u := [opened.head]).mpr ?_
    have inner := Before.of_body wf (mem_listed_of_rule? positive found) before
    exact inner.mono fun same => same ▸ beforeRest

/-- If every symbol can begin or vanish, each item on each stack expects some terminal. -/
theorem Fertile.exists_expects (fertile : g.Fertile) (wf : g.WellFormed)
    (path : g.Spells (state :: below) spelled) (member : item ∈ g.itemsAt state) :
    ∃ last, g.Expects state below spelled item last := by
  -- an item opens rules with something expected after them
  have opens : ∀ {state below spelled}, ∀ parent : Item,
      (∃ last, g.Expects state below spelled parent last) →
      ∀ number rule, parent.next? g = some rule.head → g.isNonTerminal rule.head →
        g.rule? number = some rule → ∃ last, g.Expects state below spelled ⟨number, 0⟩ last := by
    rintro state below spelled ⟨outer, place⟩ ⟨last, expects⟩ number rule next - found
    obtain ⟨rule', found', -⟩ := ItemSet.next?_eq_some.mp next
    obtain ⟨rest, dropped⟩ := drop_of_next found' next
    have positive : 0 < number := by
      refine Nat.pos_of_ne_zero fun zero => ?_
      subst zero
      cases Option.some.inj found
      exact Nat.lt_irrefl 0 (wf.next_bounds next).1
    have inside : ∀ symbol ∈ rest, symbol ∈ rule'.body := fun symbol member =>
      List.mem_of_mem_drop (dropped ▸ List.mem_cons_of_mem _ member)
    obtain ⟨terminal, before⟩ := fertile.exists_before wf
      (fun symbol member => wf.body_bounds found' symbol (inside symbol member)) last
    exact ⟨terminal, .opening expects found' dropped positive found before⟩
  generalize stack : state :: below = states at path
  induction path generalizing state below item with
  | start =>
    obtain ⟨rfl, rfl⟩ := List.cons.inj stack
    rw [itemsAt_zero] at member
    refine ItemSet.closure_induction (P := fun item => ∃ last, g.Expects 0 [] [] item last)
      (fun item first => ?_) (fun parent _ => opens parent) member
    obtain rfl := SortedSet.mem_singleton.mp first
    exact ⟨g.endMark, .start⟩
  | @push state' below' spelled' symbol target _ edge ih =>
    obtain ⟨rfl, rfl⟩ := List.cons.inj stack
    rw [(itemsAt_target edge).2] at member
    refine ItemSet.closure_induction
      (P := fun item => ∃ last, g.Expects state (state' :: below') (symbol :: spelled') item last)
      (fun item passed => ?_) (fun parent _ => opens parent) member
    obtain ⟨previous, inside, next, rfl⟩ := ItemSet.mem_passing.mp passed
    obtain ⟨last, expects⟩ := ih inside rfl
    exact ⟨last, .pass expects next edge⟩

end Grammar

namespace ShiftReduce

open Driver Grammar

variable {g : Grammar}

section Calm

variable (wf : g.WellFormed) (calm : g.slrTable.hasConflict = false)
include wf calm

/-- The parser shifts a terminal that the symbols after the dot of an item begin with. -/
theorem reaches_of_begins {terminal : Nat} {symbols : List Nat} (begins : g.Begins terminal symbols)
    {number place : Nat} {rule : Rule} (found : g.rule? number = some rule) {after : List Nat}
    (dropped : rule.body.drop place = symbols ++ after) {state : Nat} {below spelled : List Nat}
    (path : g.Spells (state :: below) spelled) (member : ⟨number, place⟩ ∈ g.itemsAt state)
    (position : Nat) (later : List Nat) :
    ∃ last, Reaches (plainAdvance g.slrTable g) ⟨state, below, position, terminal :: later⟩ last ∧
      last.rest = later := by
  induction begins generalizing number place rule after state below spelled with
  | here isTerminal =>
    obtain ⟨next, -⟩ := next_of_drop found dropped
    obtain ⟨target, edge⟩ := exists_target member next
    have moved :=
      plainAdvance_shift (g := g) (head?_actions_of_target isTerminal edge) below position later
    exact ⟨_, .single ⟨_, moved⟩, rfl⟩
  | @skip symbol rest vanishes begins ih =>
    obtain ⟨next, dropped', occurs⟩ := next_of_drop found dropped
    obtain ⟨target, edge⟩ := exists_target member next
    have follows := Follows.of_continues wf (List.mem_of_getElem? found) occurs
      (wf.listed_of_vanishing vanishes) (before_append.mpr (Or.inl ((begins_iff wf).mp begins)))
    have proceeds := proceeds_of_vanishing wf calm path edge vanishes follows position later
    obtain ⟨last, reaches, read⟩ :=
      ih found dropped' (path.push edge) (advanced_mem_target member next edge)
    exact ⟨last, proceeds.to_reflTransGen.trans reaches, read⟩
  | enter listed begins ih =>
    obtain ⟨number', -, found'⟩ := exists_number listed
    have opened := opening_mem member (next_of_drop found dropped).1
      (isNonTerminal_of_listed (wf.head_mem listed)) found'
    exact ih found' (List.append_nil _).symm path opened

omit wf calm in
theorem halts_at_end {table : ActionTable} {last : Plain} (read : last.rest = []) :
    Halts (plainAdvance table g) last := by
  have stopped : plainAdvance table g last = .stop none (.rejected (.inputExhausted g.endMark)) := by
    simp [plainAdvance, read]
  exact Halts.of_stop stopped

/-- Once the body of an item has been pushed, the parser stops on the terminal expected after it. -/
def Completes (g : Grammar) (state : Nat) (below : List Nat) (item : Item) (last : Nat) : Prop :=
  ∀ rule top under, g.rule? item.rule = some rule →
    (top :: under).drop (rule.body.length - item.position) = state :: below →
    ⟨item.rule, rule.body.length⟩ ∈ g.itemsAt top →
    ∀ position, Halts (plainAdvance g.slrTable g) ⟨top, under, position, [last]⟩

omit wf calm in
theorem Completes.pass {state last symbol target : Nat} {below : List Nat} {item : Item}
    (completes : Completes g state below item last) (next : item.next? g = some symbol) :
    Completes g target (state :: below) item.advanced last := by
  intro rule top under found popped complete position
  obtain ⟨rule', found', place⟩ := ItemSet.next?_eq_some.mp next
  cases Option.some.inj (found'.symm.trans found)
  have inside := (List.getElem?_eq_some_iff.mp place).1
  have popped' : (top :: under).drop (rule.body.length - (item.position + 1)) =
      target :: state :: below := popped
  refine completes rule top under found ?_ complete position
  rw [show rule.body.length - item.position = rule.body.length - (item.position + 1) + 1 by omega,
    ← List.drop_drop, popped']
  rfl

/-- The parser stops on a terminal that the item of its state leads up to. -/
theorem Completes.halts {state last : Nat} {below spelled : List Nat} {item : Item}
    (completes : Completes g state below item last)
    (expects : g.Expects state below spelled item last) {rule : Rule}
    (found : g.rule? item.rule = some rule) {terminal : Nat}
    (before : g.Before (rule.body.drop item.position) (· = last) terminal) (position : Nat) :
    Halts (plainAdvance g.slrTable g) ⟨state, below, position, [terminal]⟩ := by
  have member := expects.member wf
  rcases before with begins | ⟨vanish, rfl⟩
  · obtain ⟨last, reaches, read⟩ := reaches_of_begins wf calm ((begins_iff wf).mpr begins) found
      (List.append_nil _).symm expects.spells member position []
    exact Halts.of_reaches reaches (halts_at_end read)
  · have ends : g.Continues [] rule.head terminal := continues_nil.mpr (expects.follows wf found)
    obtain ⟨top, under, reaches, pushed⟩ := reaches_of_vanishing wf calm
      ((nullable_first_iff wf).mp vanish) found (List.append_nil _).symm ends expects.spells member
      position []
    obtain ⟨rule', found', inside⟩ := fits_itemsAt member
    cases Option.some.inj (found.symm.trans found')
    refine Halts.of_reaches reaches (completes rule top under found ?_ ?_ position)
    · rw [← List.length_drop]
      exact pushed.popped
    · have complete := pushed.member
      rwa [List.length_drop, Nat.add_sub_cancel' inside] at complete

theorem completes_of_expects {state last : Nat} {below spelled : List Nat} {item : Item}
    (expects : g.Expects state below spelled item last) : Completes g state below item last := by
  induction expects with
  | start =>
    intro rule top under found _ complete position
    cases Option.some.inj found
    have action := head?_actions_of_calm calm (accept_mem_actions.mpr ⟨rfl, complete⟩)
    have stopped : plainAdvance g.slrTable g ⟨top, under, position, [g.endMark]⟩ =
        .stop (some ⟨top :: under, position, some .accept⟩) .accepted := by
      simp [plainAdvance, action]
    exact Halts.of_stop stopped
  | pass _ next _ ih => exact ih.pass next
  | @opening state below spelled number place last outer rest opened rule terminal expects foundOuter
      dropped positive foundOpened before ih =>
    intro rule' top under found popped complete position
    obtain rfl := Option.some.inj (foundOpened.symm.trans found)
    have listed := mem_listed_of_rule? positive foundOpened
    obtain ⟨next, dropped', occurs⟩ := next_of_drop foundOuter dropped
    obtain ⟨target, edge⟩ := exists_target (expects.member wf) next
    have follows := Follows.of_continues wf (List.mem_of_getElem? foundOuter) occurs (wf.head_mem listed)
      (expects.continues wf foundOuter before)
    have reduced := next_of_complete wf calm listed positive foundOpened popped complete edge follows
      position []
    refine Halts.of_reaches (.single reduced) ?_
    exact (ih.pass next).halts wf calm (expects.pass next edge) foundOuter (dropped' ▸ before) position

/-- If every symbol can begin or vanish, there is a terminal on which the parser stops with a stack,
although it follows all the upper symbols of the stack over symbols that vanish. -/
theorem exists_stopping (fertile : g.Fertile) {state : Nat} {below spelled : List Nat} {item : Item}
    (path : g.Spells (state :: below) spelled) (member : item ∈ g.itemsAt state) :
    ∃ terminal, Halts (plainAdvance g.slrTable g) ⟨state, below, 0, [terminal]⟩ ∧
      ∀ newer symbol older, spelled = newer ++ symbol :: older →
        (∀ other ∈ newer, g.Derives [other] []) → symbol ∈ g.nonTerminals →
          terminal ∈ g.follow symbol := by
  obtain ⟨rule, found, -⟩ := fits_itemsAt member
  obtain ⟨last, expects⟩ := fertile.exists_expects wf path member
  obtain ⟨terminal, before⟩ := fertile.exists_before wf
    (fun symbol inside => wf.body_bounds found symbol (List.mem_of_mem_drop inside)) last
  exact ⟨terminal, (completes_of_expects wf calm expects).halts wf calm expects found before 0,
    fun _ _ _ => expects.mem_follow wf found before⟩

/-- If every symbol can begin or vanish, no reductions go round. -/
theorem not_goesRound_of_fertile (fertile : g.Fertile) {terminal : Nat} {states : List Nat} :
    ¬ g.GoesRound terminal states := by
  intro round
  cases round with
  | @turn symbol older path chain follows =>
    cases path with
    | @push exposed below _ _ target path edge =>
      obtain ⟨item, member⟩ := (path.push edge).exists_item
      obtain ⟨other, ⟨steps, verdict, halts⟩, follows'⟩ :=
        exists_stopping wf calm fertile (path.push edge) member
      have again := follows' [] symbol older rfl (fun _ inside => absurd inside List.not_mem_nil)
        (listed_of_chain wf chain)
      exact halts.not_endless (endless_of_goesRound wf calm (.turn (path.push edge) chain again) 0 [])
  | @growth state between below newer older split path same vanish =>
    subst split
    obtain ⟨item, member⟩ := path.exists_item
    obtain ⟨other, ⟨steps, verdict, halts⟩, follows'⟩ := exists_stopping wf calm fertile path member
    have again : ∀ symbol ∈ newer, g.Derives [symbol] [] ∧ other ∈ g.follow symbol := by
      intro symbol inside
      have vanishes := (vanish symbol inside).1
      obtain ⟨upper, lower, rfl⟩ := List.append_of_mem inside
      refine ⟨vanishes, follows' upper symbol (lower ++ older) (by simp) (fun above inUpper => ?_)
        (wf.listed_of_vanishing vanishes)⟩
      exact (vanish above (List.mem_append_left _ inUpper)).1
    exact halts.not_endless (endless_of_goesRound wf calm (.growth rfl path same again) 0 [])

end Calm

end ShiftReduce

end ParseTables
