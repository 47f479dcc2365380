import ParseTables.Proofs.ShiftReduce.Round

namespace ParseTables

namespace Grammar

variable {g : Grammar}

/-- The symbols pushed since a head was, topmost first: the lowest one has grown from the head by rules
whose further symbols vanish, and the others vanish. -/
def GrownFrom (g : Grammar) (head : Nat) (symbols : List Nat) : Prop :=
  ∃ vanishing lowest, symbols = vanishing ++ [lowest] ∧
    (∀ symbol ∈ vanishing, g.Derives [symbol] []) ∧ Relation.ReflTransGen g.Wraps head lowest

theorem GrownFrom.refl (head : Nat) : g.GrownFrom head [head] :=
  ⟨[], head, rfl, fun _ member => absurd member List.not_mem_nil, .refl⟩

theorem Wraps.vanishes {inner outer : Nat} (wraps : g.Wraps inner outer)
    (vanishes : g.Derives [inner] []) : g.Derives [outer] [] := by
  obtain ⟨rule, listed, rest, rfl, body, vanish⟩ := wraps
  have empty : g.Derives rule.body [] := by
    rw [body]
    exact vanishes.append vanish
  exact (Derives.of_rule listed).trans empty

theorem vanishes_of_chain {inner outer : Nat} (chain : Relation.ReflTransGen g.Wraps inner outer)
    (vanishes : g.Derives [inner] []) : g.Derives [outer] [] := by
  induction chain with
  | refl => exact vanishes
  | tail _ wraps ih => exact wraps.vanishes ih

/-- A body that takes up all the symbols since a head goes on growing from it. -/
theorem GrownFrom.wraps {head : Nat} {rule : Rule} (listed : rule ∈ g.listed)
    (grown : g.GrownFrom head rule.body.reverse) :
    ∃ vanishing lowest, rule.body.reverse = vanishing ++ [lowest] ∧
      Relation.ReflTransGen g.Wraps head lowest ∧ g.Wraps lowest rule.head := by
  obtain ⟨vanishing, lowest, split, vanish, chain⟩ := grown
  have body : rule.body = lowest :: vanishing.reverse := by
    have reversed := congrArg List.reverse split
    simpa using reversed
  refine ⟨vanishing, lowest, split, chain, rule, listed, vanishing.reverse, rfl, body, ?_⟩
  exact derives_nil_iff.mpr fun symbol member => vanish symbol (List.mem_reverse.mp member)

/-- A body that leaves some of the symbols since a head vanishes. -/
theorem GrownFrom.left {head : Nat} {rule : Rule} (listed : rule ∈ g.listed) {rest : List Nat}
    (some : rest ≠ []) (grown : g.GrownFrom head (rule.body.reverse ++ rest)) :
    g.Derives [rule.head] [] ∧ g.GrownFrom head rest := by
  obtain ⟨vanishing, lowest, split, vanish, chain⟩ := grown
  obtain ⟨others, last, rfl⟩ : ∃ others last, rest = others ++ [last] :=
    ⟨rest.dropLast, rest.getLast some, (List.dropLast_append_getLast some).symm⟩
  rw [← List.append_assoc] at split
  obtain ⟨inner, same⟩ := List.append_inj' split rfl
  obtain rfl := List.singleton_inj.mp same
  have empty : g.Derives rule.body [] := derives_nil_iff.mpr fun symbol member =>
    vanish symbol (inner ▸ List.mem_append_left _ (List.mem_reverse.mpr member))
  exact ⟨(Derives.of_rule listed).trans empty, others, last, rfl,
    fun symbol member => vanish symbol (inner ▸ List.mem_append_right _ member), chain⟩

theorem GrownFrom.reduce {head : Nat} {rule : Rule} (listed : rule ∈ g.listed) {rest : List Nat}
    (grown : g.GrownFrom head (rule.body.reverse ++ rest)) : g.GrownFrom head (rule.head :: rest) := by
  by_cases some : rest = []
  · rw [some, List.append_nil] at grown
    obtain ⟨-, lowest, -, chain, wraps⟩ := grown.wraps listed
    rw [some]
    exact ⟨[], rule.head, rfl, fun _ member => absurd member List.not_mem_nil, chain.tail wraps⟩
  · obtain ⟨vanishes, vanishing, lowest, rfl, vanish, chain⟩ := grown.left listed some
    refine ⟨rule.head :: vanishing, lowest, rfl, fun symbol member => ?_, chain⟩
    rcases List.mem_cons.mp member with rfl | old
    · exact vanishes
    · exact vanish symbol old

theorem GrownFrom.vanish {head : Nat} {symbols : List Nat} (grown : g.GrownFrom head symbols)
    (vanishes : g.Derives [head] []) : ∀ symbol ∈ symbols, g.Derives [symbol] [] := by
  obtain ⟨vanishing, lowest, rfl, vanish, chain⟩ := grown
  intro symbol member
  rcases List.mem_append.mp member with inside | last
  · exact vanish symbol inside
  · rw [List.mem_singleton.mp last]
    exact vanishes_of_chain chain vanishes

end Grammar

namespace ShiftReduce

open Driver Grammar

variable {g : Grammar}

/-- A stack that the parser had at a position. -/
def Recorded (history : List Step) (position : Nat) (stack : List Nat) : Prop :=
  ∃ step ∈ history, step.states = stack ∧ step.position = position

/-- What a reduction kept in mind tells about the stack on the state that it exposed. Each part of the
stack that reaches above that state has been the whole stack before, with the same terminal next. -/
structure Remembers (g : Grammar) (history : List Step) (config : Config) (made : Reduction)
    (current : Nat) (upper base newer : List Nat) : Prop where
  stacked : config.state :: config.below = upper ++ made.exposed :: base
  height : base.length + 1 = made.height
  lengths : newer.length = upper.length
  grown : g.GrownFrom made.head newer
  follows : ∀ symbol ∈ newer, current ∈ g.follow symbol
  recorded : ∀ stack, stack <:+ config.state :: config.below → made.height < stack.length →
    stack = config.state :: config.below ∨ Recorded history config.position stack

/-- The stack spells symbols, and each reduction kept in mind tells about the upper ones of them. -/
def Memory (g : Grammar) (history : List Step) (config : Config) : Prop :=
  ∃ spelled, g.Spells (config.state :: config.below) spelled ∧
    ∀ made ∈ config.reductions, ∃ current later upper base newer older,
      config.rest = current :: later ∧ spelled = newer ++ older ∧
        Remembers g history config made current upper base newer

theorem Memory.initial (input : List Nat) : Memory g [] (.initial input) :=
  ⟨[], .start, fun _ member => absurd member List.not_mem_nil⟩

theorem split_of_popped {body newer older spelled : List Nat}
    (same : newer ++ older = body.reverse ++ spelled) (inside : body.length ≤ newer.length) :
    newer = body.reverse ++ newer.drop body.length ∧ spelled = newer.drop body.length ++ older := by
  have taken := congrArg (List.take body.length) same
  have dropped := congrArg (List.drop body.length) same
  rw [List.take_append_of_le_length inside, List.take_left' List.length_reverse] at taken
  rw [List.drop_append_of_le_length inside, List.drop_left' List.length_reverse] at dropped
  refine ⟨?_, dropped.symm⟩
  rw [← taken, List.take_append_drop]

theorem Remembers.reduce {history : List Step} {config : Config} {made : Reduction}
    {current origin : Nat} {upper base newer older spelled remaining : List Nat} {rule : Rule}
    (remembers : Remembers g history config made current upper base newer) (listed : rule ∈ g.listed)
    (follows : current ∈ g.follow rule.head)
    (popped : (config.state :: config.below).drop rule.body.length = origin :: remaining)
    (kept : made.height ≤ remaining.length + 1) (split : newer ++ older = rule.body.reverse ++ spelled)
    (action : Option LRAction) (target : Nat) (reductions : List Reduction) :
    Remembers g (history ++ [⟨config.state :: config.below, config.position, action⟩])
        ⟨target, origin :: remaining, config.position, config.rest, reductions⟩ made current
        (target :: upper.drop rule.body.length) base (rule.head :: newer.drop rule.body.length) ∧
      spelled = newer.drop rule.body.length ++ older := by
  obtain ⟨stacked, height, lengths, grown, continues, recorded⟩ := remembers
  have popped' := popped
  rw [stacked] at popped'
  obtain ⟨inside, whole⟩ := popped_above popped' (by omega)
  obtain ⟨body, rest⟩ := split_of_popped split (by omega)
  refine ⟨⟨?_, height, ?_, ?_, fun symbol member => ?_, fun stack suffix high => ?_⟩, rest⟩
  · show target :: origin :: remaining = target :: upper.drop rule.body.length ++ made.exposed :: base
    rw [whole, List.cons_append]
  · simp [lengths]
  · rw [body] at grown
    exact grown.reduce listed
  · rcases List.mem_cons.mp member with rfl | old
    · exact follows
    · exact continues symbol (List.mem_of_mem_drop old)
  · -- a smaller part of the stack was there before the reduction
    rcases List.suffix_cons_iff.mp suffix with all | part
    · exact Or.inl all
    · right
      rw [← popped] at part
      rcases recorded stack (part.trans (List.drop_suffix _ _)) high with same | ⟨old, member, known⟩
      · exact ⟨_, List.mem_append_right _ List.mem_cons_self, same.symm, rfl⟩
      · exact ⟨old, List.mem_append_left _ member, known⟩

theorem Memory.go (wf : g.WellFormed) {history : List Step} {config next : Config} {recorded : Step}
    (memory : Memory g history config) (moved : advance g.slrTable g config = .go recorded next) :
    Memory g (history ++ [recorded]) next := by
  obtain ⟨spelled, path, remembered⟩ := memory
  cases advance_eq_go.mp moved with
  | @shift current later target unread action =>
    have edge := (shift_mem_actions.mp (List.mem_of_head? action)).2
    exact ⟨current :: spelled, path.push edge, fun _ member => absurd member List.not_mem_nil⟩
  | @reduce current later number rule exposed remaining target unread action found popped _ edge =>
    obtain ⟨spelled', target', listed, follows, split, edge', path'⟩ :=
      spells_reduced wf path action found popped
    obtain rfl := Option.some.inj (edge'.symm.trans edge)
    refine ⟨rule.head :: spelled', path', fun made member => ?_⟩
    rcases List.mem_append.mp member with old | new
    · obtain ⟨inside, low⟩ := List.mem_filter.mp old
      obtain ⟨current', later', upper, base, newer, older, unread', same, remembers⟩ :=
        remembered made inside
      rw [unread] at unread'
      obtain ⟨rfl, rfl⟩ := List.cons.inj unread'
      obtain ⟨remembers', rest⟩ := remembers.reduce listed follows popped (of_decide_eq_true low)
        (same.symm.trans split) (some (.reduce number)) target'
        (config.kept (remaining.length + 1) ++ [⟨exposed, remaining.length + 1, rule.head⟩])
      refine ⟨current, later, _, base, rule.head :: newer.drop rule.body.length, older, unread, ?_,
        remembers'⟩
      rw [rest, List.cons_append]
    · obtain rfl := List.mem_singleton.mp new
      refine ⟨current, later, [target'], remaining, [rule.head], spelled', unread, rfl, rfl, rfl, rfl,
        .refl _, by simpa using follows, fun stack suffix high => ?_⟩
      rcases List.suffix_cons_iff.mp suffix with all | part
      · exact Or.inl all
      · exact absurd part.length_le (by simpa using high)

theorem Memory.advances (wf : g.WellFormed) {history steps : List Step} {config last : Config}
    (memory : Memory g history config) (path : Advances (advance g.slrTable g) config steps last) :
    Memory g (history ++ steps) last := by
  induction path generalizing history with
  | refl => rwa [List.append_nil]
  | @step config recorded next steps last moved _ ih =>
    have rest := ih (memory.go wf moved)
    rwa [List.append_assoc, List.singleton_append] at rest

theorem Remembers.exists_step {history : List Step} {config : Config} {made : Reduction}
    {current : Nat} {upper base newer : List Nat}
    (remembers : Remembers g history config made current upper base newer) {stack : List Nat}
    (suffix : stack <:+ config.state :: config.below) (high : made.height < stack.length)
    (action : Option LRAction) :
    Recorded (history ++ [⟨config.state :: config.below, config.position, action⟩]) config.position
      stack := by
  rcases remembers.recorded stack suffix high with same | ⟨step, member, known⟩
  · exact ⟨_, List.mem_append_right _ List.mem_cons_self, same.symm, rfl⟩
  · exact ⟨step, List.mem_append_left _ member, known⟩

/-- A body that takes up all the symbols on the exposed state turns round to the lowest of them. -/
theorem Remembers.turns {history : List Step} {config : Config} {made : Reduction} {current : Nat}
    {upper base newer older : List Nat}
    (remembers : Remembers g history config made current upper base newer)
    (path : g.Spells (config.state :: config.below) (newer ++ older)) {rule : Rule}
    (listed : rule ∈ g.listed) (taken : newer = rule.body.reverse) (head : made.head = rule.head) :
    ∃ stack, stack <:+ config.state :: config.below ∧ made.height < stack.length ∧
      g.GoesRound current stack := by
  obtain ⟨stacked, height, lengths, grown, follows, -⟩ := remembers
  rw [taken, head] at grown
  obtain ⟨vanishing, lowest, split, chain, wraps⟩ := grown.wraps listed
  rw [taken, split] at path follows lengths
  obtain ⟨others, bottom, rfl⟩ : ∃ others bottom, upper = others ++ [bottom] := by
    rcases List.eq_nil_or_concat upper with rfl | ⟨others, bottom, rfl⟩
    · simp at lengths
    · exact ⟨others, bottom, List.concat_eq_append⟩
  rw [stacked, List.append_assoc, List.append_assoc, List.singleton_append,
    List.singleton_append] at path
  have lower := path.lower (by simpa using lengths)
  refine ⟨bottom :: made.exposed :: base, ⟨others, ?_⟩, ?_, .turn lower ?_ (follows lowest (by simp))⟩
  · rw [stacked, List.append_assoc, List.singleton_append]
  · simp only [List.length_cons]
    omega
  · exact Relation.TransGen.head' wraps chain

/-- A body that leaves symbols on the exposed state comes upon that state again, over vanishing
symbols. -/
theorem Remembers.grows {history : List Step} {config : Config} {made : Reduction} {current : Nat}
    {upper base newer older rest : List Nat}
    (remembers : Remembers g history config made current upper base newer)
    (path : g.Spells (config.state :: config.below) (newer ++ older)) {rule : Rule}
    (listed : rule ∈ g.listed) (split : newer = rule.body.reverse ++ rest) (left : rest ≠ [])
    (head : made.head = rule.head) {between : List Nat}
    (popped : upper.drop rule.body.length = made.exposed :: between) :
    ∃ stack, stack <:+ config.state :: config.below ∧ made.height < stack.length ∧
      g.GoesRound current stack := by
  obtain ⟨stacked, height, lengths, grown, follows, -⟩ := remembers
  rw [split, head] at grown
  obtain ⟨vanishes, grownRest⟩ := grown.left listed left
  have counts := congrArg List.length popped
  have whole : config.state :: config.below =
      upper.take rule.body.length ++ made.exposed :: (between ++ made.exposed :: base) := by
    rw [stacked, ← List.cons_append, ← popped, ← List.append_assoc, List.take_append_drop]
  have sizes : rule.body.length + rest.length = upper.length := by
    rw [← lengths, split, List.length_append, List.length_reverse]
  rw [whole, split, List.append_assoc] at path
  simp only [List.length_drop, List.length_cons] at counts
  have lower := path.lower (by simp only [List.length_reverse, List.length_take]; omega)
  refine ⟨_, ⟨_, whole.symm⟩, ?_, .growth rfl lower (by omega) fun symbol member => ⟨?_, ?_⟩⟩
  · simp only [List.length_append, List.length_cons]
    omega
  · exact grownRest.vanish vanishes symbol member
  · exact follows symbol (split ▸ List.mem_append_right _ member)

/-- A repeated reduction goes round on the exposed state. -/
theorem Remembers.exists_round {history : List Step} {config : Config} {made : Reduction}
    {current exposed : Nat} {upper base newer older spelled remaining : List Nat} {rule : Rule}
    (remembers : Remembers g history config made current upper base newer)
    (path : g.Spells (config.state :: config.below) (newer ++ older)) (listed : rule ∈ g.listed)
    (split : newer ++ older = rule.body.reverse ++ spelled) (head : made.head = rule.head)
    (same : made.exposed = exposed)
    (popped : (config.state :: config.below).drop rule.body.length = exposed :: remaining)
    (kept : made.height ≤ remaining.length + 1) :
    ∃ stack, stack <:+ config.state :: config.below ∧ made.height < stack.length ∧
      g.GoesRound current stack := by
  have height := remembers.height
  have lengths := remembers.lengths
  rw [remembers.stacked] at popped
  obtain ⟨few, whole⟩ := popped_above popped (by omega)
  obtain ⟨body, -⟩ := split_of_popped split (by omega)
  cases above : upper.drop rule.body.length with
  | nil =>
    have none : newer.drop rule.body.length = [] := by
      have counts := congrArg List.length above
      simp only [List.length_drop, List.length_nil] at counts
      exact List.drop_eq_nil_of_le (by omega)
    rw [none, List.append_nil] at body
    exact remembers.turns path listed body head
  | cons first between =>
    rw [above, List.cons_append] at whole
    obtain ⟨rfl, -⟩ := List.cons.inj whole
    have some : newer.drop rule.body.length ≠ [] := by
      have counts := congrArg List.length above
      simp only [List.length_drop, List.length_cons] at counts
      refine List.ne_nil_of_length_pos ?_
      rw [List.length_drop]
      omega
    exact remembers.grows path listed body some head (same ▸ above)

/-- A rejected cycle has gone round: on one of the recorded stacks, with the terminal that comes next. -/
theorem Memory.exists_goesRound (wf : g.WellFormed) {history : List Step} {config : Config}
    {recorded : Option Step} {verdict : Verdict} (memory : Memory g history config)
    (stopped : advance g.slrTable g config = .stop recorded verdict) (cyclic : Cyclic verdict) :
    ∃ current later stack, config.rest = current :: later ∧ g.GoesRound current stack ∧
      Recorded (history ++ recorded.toList) config.position stack := by
  obtain ⟨spelled, path, remembered⟩ := memory
  obtain ⟨state, current, rfl⟩ := cyclic
  cases advance_eq_stop.mp stopped with
  | @cycle _ later number rule exposed remaining unread action found popped again =>
    obtain ⟨made, member, same, head⟩ := again
    obtain ⟨spelled', -, listed, -, split, -, -⟩ := spells_reduced wf path action found popped
    obtain ⟨inside, low⟩ := List.mem_filter.mp member
    have kept : made.height ≤ remaining.length + 1 := of_decide_eq_true low
    obtain ⟨current', later', upper, base, newer, older, unread', rfl, remembers⟩ :=
      remembered made inside
    rw [unread] at unread'
    obtain ⟨rfl, rfl⟩ := List.cons.inj unread'
    obtain ⟨stack, suffix, high, round⟩ :=
      remembers.exists_round path listed split head same popped kept
    exact ⟨current, later, stack, unread, round, remembers.exists_step suffix high _⟩

end ShiftReduce

end ParseTables
