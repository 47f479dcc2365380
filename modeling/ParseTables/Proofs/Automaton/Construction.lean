import Mathlib.Logic.Function.Basic
import Mathlib.Logic.Relation
import ParseTables.Proofs.Automaton.Kernels

namespace ParseTables

/-- The state with an edge put in by its symbol, in the place of one with the same symbol. -/
def LRState.link (state : LRState) (edge : Edge) : LRState :=
  { state with edges := (state.edges.filter fun other => other.symbol < edge.symbol) ++
      edge :: state.edges.filter fun other => edge.symbol < other.symbol }

/-- The automaton by a queue of states: the states so far, their numbers by their sets of items, and the
states that wait for their edges. -/
structure Construction where
  states : List LRState
  index : List (ItemSet × Nat)
  queue : List Nat

namespace Construction

open Grammar

/-- The first state waits for its edges. -/
def start (g : Grammar) : Construction :=
  let items := startKernel.closure g
  ⟨[⟨startKernel, items, []⟩], [(items, 0)], [0]⟩

/-- Adds the edge of a state on a symbol. The target is looked up by its closed set of items, and if
there is no such state, a new one is queued. -/
def visit (g : Grammar) (source : Nat) (items : ItemSet) (work : Construction) (symbol : Nat) :
    Construction :=
  let kernel := items.passing g symbol
  let closed := kernel.closure g
  match work.index.lookup closed with
  | some target =>
    { work with states := work.states.modify source fun state => state.link ⟨symbol, target⟩ }
  | none =>
    let target := work.states.length
    let new : LRState := ⟨kernel, closed, []⟩
    { states := (work.states ++ [new]).modify source fun state => state.link ⟨symbol, target⟩
      index := work.index ++ [(closed, target)]
      queue := work.queue ++ [target] }

/-- Takes the first state off the queue and adds its edges in ascending order of their symbols. -/
def next? (g : Grammar) (work : Construction) : Option Construction :=
  match work.queue with
  | [] => none
  | source :: rest =>
    (work.states[source]?).map fun state =>
      (state.items.transitions g).toList.foldl (visit g source state.items) { work with queue := rest }

/-- The construction when it has found the given kernels and has given the states the given edges. -/
def outline (g : Grammar) (found : Numbering ItemSet) (edges : Nat → List Edge) (queue : List Nat) :
    Construction :=
  ⟨found.toList.mapIdx fun number kernel => ⟨kernel, kernel.closure g, edges number⟩,
    found.toList.mapIdx fun number kernel => (kernel.closure g, number), queue⟩

end Construction

variable {g : Grammar}

theorem LRState.link_edges {state : LRState} {edge : Edge}
    (last : ∀ other ∈ state.edges, other.symbol < edge.symbol) :
    state.link edge = { state with edges := state.edges ++ [edge] } := by
  have lower := List.filter_eq_self.mpr fun other member => decide_eq_true (last other member)
  have higher : (state.edges.filter fun other => edge.symbol < other.symbol) = [] := by
    refine List.filter_eq_nil_iff.mpr fun other member => ?_
    have below := last other member
    simp only [decide_eq_true_eq]
    omega
  rw [link, lower, higher]

namespace Construction

open Grammar

/-- States with different kernels are told apart by their sets of items. -/
theorem lookup_closure {kernel : ItemSet} {kernels : List ItemSet} (isKernel : IsKernel kernel)
    (areKernels : ∀ other ∈ kernels, IsKernel other) (number : Nat → Nat) :
    (kernels.mapIdx fun place other => (other.closure g, number place)).lookup (kernel.closure g) =
      (kernels.idxOf? kernel).map number := by
  induction kernels generalizing number with
  | nil => rfl
  | cons first rest ih =>
    rw [List.mapIdx_cons, List.lookup_cons, List.idxOf?_cons]
    by_cases same : first = kernel
    · simp [same]
    · have different : kernel.closure g ≠ first.closure g := fun closures =>
        same (isKernel.eq_of_closure_eq (areKernels first List.mem_cons_self) closures).symm
      have later :=
        ih (fun other member => areKernels other (List.mem_cons_of_mem _ member)) (number ∘ (· + 1))
      rw [beq_false_of_ne different, beq_false_of_ne same, if_neg Bool.false_ne_true, Option.map_map]
      exact later

/-- With one more edge the outline is that of the states with this edge. -/
theorem modify_outline (kernels : List ItemSet) {edges : Nat → List Edge} {source symbol : Nat}
    (target : Nat) (last : ∀ other ∈ edges source, other.symbol < symbol) :
    (kernels.mapIdx fun number kernel =>
      (⟨kernel, kernel.closure g, edges number⟩ : LRState)).modify source
        (fun state => state.link ⟨symbol, target⟩) =
      kernels.mapIdx fun number kernel =>
        ⟨kernel, kernel.closure g,
          Function.update edges source (edges source ++ [⟨symbol, target⟩]) number⟩ := by
  refine List.ext_getElem? fun number => ?_
  rw [List.getElem?_modify, List.getElem?_mapIdx, List.getElem?_mapIdx]
  cases kernels[number]? with
  | none => rfl
  | some kernel =>
    by_cases same : source = number
    · subst same
      have linked : (⟨kernel, kernel.closure g, edges source⟩ : LRState).link ⟨symbol, target⟩ =
          ⟨kernel, kernel.closure g, edges source ++ [⟨symbol, target⟩]⟩ := LRState.link_edges last
      simp [linked]
    · simp [same, Function.update_of_ne (Ne.symm same)]

theorem range'_append_range' {first second last : Nat} (low : first ≤ second) (high : second ≤ last) :
    List.range' first (second - first) ++ List.range' second (last - second) =
      List.range' first (last - first) := by
  obtain ⟨count, rfl⟩ := Nat.exists_eq_add_of_le low
  obtain ⟨more, rfl⟩ := Nat.exists_eq_add_of_le high
  have glued : List.range' first count ++ List.range' (first + count) more =
      List.range' first (count + more) :=
    List.range'_append_1
  have counts : first + count - first = count ∧ first + count + more - (first + count) = more ∧
      first + count + more - first = count + more := by omega
  rw [counts.1, counts.2.1, counts.2.2, glued]

section Visiting

variable {found : Numbering ItemSet} {edges : Nat → List Edge} {source : Nat} {items : ItemSet}

/-- A visit adds the kernel that is reached, if it is new, and the edge to it. -/
theorem visit_outline (queue : List Nat) (areKernels : ∀ kernel ∈ found.toList, IsKernel kernel)
    {symbol : Nat} (moves : symbol ∈ items.transitions g)
    (last : ∀ other ∈ edges source, other.symbol < symbol) (bare : edges found.toList.length = []) :
    ∃ target, (found.add (items.passing g symbol)).number? (items.passing g symbol) = some target ∧
      visit g source items (outline g found edges queue) symbol =
        outline g (found.add (items.passing g symbol))
          (Function.update edges source (edges source ++ [⟨symbol, target⟩]))
          (queue ++ List.range' found.toList.length
            ((found.add (items.passing g symbol)).toList.length - found.toList.length)) := by
  have lookup := lookup_closure (g := g) (isKernel_passing moves) areKernels id
  rw [Option.map_id, id, ← Numbering.number?_eq] at lookup
  unfold visit
  simp only [outline, id] at lookup ⊢
  rw [lookup]
  cases known : found.number? (items.passing g symbol) with
  | some target =>
    refine ⟨target, ?_, ?_⟩
    · rw [Numbering.add_of_number? known, known]
    · rw [Numbering.add_of_number? known]
      simp [modify_outline _ _ last]
  | none =>
    refine ⟨found.toList.length, Numbering.number?_add_new known, ?_⟩
    have states :=
      modify_outline (g := g) (found.toList ++ [items.passing g symbol]) found.toList.length last
    rw [List.mapIdx_concat, bare] at states
    simp only [Numbering.toList_add_new known, List.mapIdx_concat, List.length_append,
      List.length_mapIdx]
    rw [states]
    simp

/-- The kernels that passing some symbols leads to, in this order, are added. -/
def addPassing (g : Grammar) (items : ItemSet) (found : Numbering ItemSet) (symbol : Nat) :
    Numbering ItemSet :=
  found.add (items.passing g symbol)

theorem visitAll_eq :
    g.visitAll found items = (items.transitions g).toList.foldl (addPassing g items) found := by
  rw [visitAll, ItemSet.successors_eq, List.foldl_map]
  rfl

theorem prefix_foldl_addPassing (symbols : List Nat) (found : Numbering ItemSet) :
    found.toList <+: (symbols.foldl (addPassing g items) found).toList := by
  induction symbols generalizing found with
  | nil => exact List.prefix_rfl
  | cons symbol rest ih => exact (found.prefix_add _).trans (ih (found.add _))

/-- The visits of a state add all that it leads to, and the edges to where it leads. -/
theorem foldl_visit (symbols queue : List Nat) (areKernels : ∀ kernel ∈ found.toList, IsKernel kernel)
    (move : ∀ symbol ∈ symbols, symbol ∈ items.transitions g) (inside : source < found.toList.length)
    (ascending : symbols.Pairwise (· < ·))
    (last : ∀ other ∈ edges source, ∀ symbol ∈ symbols, other.symbol < symbol)
    (bare : ∀ number, found.toList.length ≤ number → edges number = []) :
    symbols.foldl (visit g source items) (outline g found edges queue) =
      outline g (symbols.foldl (addPassing g items) found)
        (Function.update edges source (edges source ++ symbols.filterMap fun symbol =>
          ((symbols.foldl (addPassing g items) found).number? (items.passing g symbol)).map
          (⟨symbol, ·⟩)))
        (queue ++ List.range' found.toList.length
          ((symbols.foldl (addPassing g items) found).toList.length - found.toList.length)) := by
  induction symbols generalizing found edges queue with
  | nil => simp
  | cons symbol rest ih =>
    have moves := move symbol List.mem_cons_self
    obtain ⟨target, numbered, visited⟩ := visit_outline queue areKernels moves
      (fun other member => last other member symbol List.mem_cons_self) (bare _ (Nat.le_refl _))
    have kept := found.prefix_add (items.passing g symbol)
    have kept' : (found.add (items.passing g symbol)).toList <+:
        (rest.foldl (addPassing g items) (found.add (items.passing g symbol))).toList :=
      prefix_foldl_addPassing rest _
    have longer := kept.length_le
    have longer' := kept'.length_le
    have later := List.pairwise_cons.mp ascending
    rw [List.foldl_cons, List.foldl_cons, visited, addPassing, ih _ ?areKernels
      (fun symbol member => move symbol (List.mem_cons_of_mem _ member))
      (Nat.lt_of_lt_of_le inside longer) later.2
      ?last ?bare]
    case areKernels =>
      intro kernel member
      rcases Numbering.mem_add.mp member with old | rfl
      · exact areKernels kernel old
      · exact isKernel_passing moves
    case last =>
      intro other member next inRest
      rw [Function.update_self] at member
      rcases List.mem_append.mp member with old | new
      · exact last other old next (List.mem_cons_of_mem _ inRest)
      · rw [List.mem_singleton.mp new]
        exact later.1 next inRest
    case bare =>
      intro number outside
      rw [Function.update_of_ne (by omega), bare number (by omega)]
    have numbered' : (rest.foldl (addPassing g items) (found.add (items.passing g symbol))).number?
        (items.passing g symbol) = some target := Numbering.number?_of_prefix kept' numbered
    rw [Function.update_idem, Function.update_self, List.filterMap_cons, numbered', List.append_assoc,
      List.append_assoc, range'_append_range' longer longer']
    rfl

/-- The edges that the states before a place have among the kernels found so far. -/
def edgesBefore (g : Grammar) (place : Nat) (found : Numbering ItemSet) (number : Nat) : List Edge :=
  if number < place then
    ((found.toList[number]?).map fun kernel => g.edgesAmong found (kernel.closure g)).getD []
  else []

/-- The construction when the states before a place have their edges and the others wait. -/
def stage (g : Grammar) (place : Nat) (found : Numbering ItemSet) : Construction :=
  outline g found (edgesBefore g place found) (List.range' place (found.toList.length - place))

theorem stage_start : stage g 0 (Numbering.empty.add startKernel) = start g := by
  unfold stage outline
  rw [toList_startKernel]
  rfl

theorem getElem?_of_prefix {found' : Numbering ItemSet} (kept : found.toList <+: found'.toList)
    {number : Nat} {kernel : ItemSet} (entry : found.toList[number]? = some kernel) :
    found'.toList[number]? = some kernel := by
  obtain ⟨more, whole⟩ := kept
  rw [← whole, List.getElem?_append_left (List.getElem?_eq_some_iff.mp entry).1, entry]

/-- Edges among kernels do not change when more kernels are found, if all their targets have been
found. -/
theorem edgesAmong_of_prefix {found' : Numbering ItemSet} (kept : found.toList <+: found'.toList)
    (closed : ∀ successor ∈ items.successors g, successor.2 ∈ found.toList) :
    g.edgesAmong found items = g.edgesAmong found' items := by
  refine List.filterMap_congr fun (symbol, kernel) member => ?_
  obtain ⟨target, numbered⟩ := Numbering.exists_number? (closed (symbol, kernel) member)
  simp only [numbered, Numbering.number?_of_prefix kept numbered]

/-- The edges of a state are final as soon as it has been visited. -/
theorem edgesBefore_visitAll {place : Nat} (before : g.Swept place found) {kernel : ItemSet}
    (entry : found.toList[place]? = some kernel) :
    Function.update (edgesBefore g place found) place
        (g.edgesAmong (g.visitAll found (kernel.closure g)) (kernel.closure g)) =
      edgesBefore g (place + 1) (g.visitAll found (kernel.closure g)) := by
  have kept : found.toList <+: (g.visitAll found (kernel.closure g)).toList := (before.visitAll entry).1
  have inside := (List.getElem?_eq_some_iff.mp entry).1
  funext number
  rcases Nat.lt_trichotomy number place with earlier | rfl | later
  · have entry' := List.getElem?_eq_getElem (Nat.lt_trans earlier inside)
    rw [Function.update_of_ne (Nat.ne_of_lt earlier), edgesBefore, edgesBefore, if_pos earlier,
      if_pos (Nat.lt_succ_of_lt earlier), entry', getElem?_of_prefix kept entry']
    exact edgesAmong_of_prefix kept (before.swept number earlier _ entry')
  · rw [Function.update_self, edgesBefore, if_pos (Nat.lt_succ_self number),
      getElem?_of_prefix kept entry]
    rfl
  · rw [Function.update_of_ne (Nat.ne_of_gt later), edgesBefore, edgesBefore, if_neg (by omega),
      if_neg (by omega)]

theorem next?_stage {place : Nat} (before : g.Swept place found)
    (areKernels : ∀ kernel ∈ found.toList, IsKernel kernel) {kernel : ItemSet}
    (entry : found.toList[place]? = some kernel) :
    (stage g place found).next? g =
      some (stage g (place + 1) (g.visitAll found (kernel.closure g))) := by
  have inside := (List.getElem?_eq_some_iff.mp entry).1
  have bare : ∀ number, place ≤ number → edgesBefore g place found number = [] := fun number outside =>
    if_neg (Nat.not_lt.mpr outside)
  have kept : found.toList.length ≤ (g.visitAll found (kernel.closure g)).toList.length :=
    (before.visitAll entry).1.length_le
  have queue : (stage g place found).queue =
      place :: List.range' (place + 1) (found.toList.length - (place + 1)) := by
    have count : found.toList.length - place = found.toList.length - (place + 1) + 1 := by omega
    rw [stage, outline, count, List.range'_succ]
  have state : (stage g place found).states[place]? = some ⟨kernel, kernel.closure g, []⟩ := by
    simp [stage, outline, List.getElem?_mapIdx, entry, bare]
  have none := bare place (Nat.le_refl place)
  have visited := foldl_visit ((kernel.closure g).transitions g).toList
    (List.range' (place + 1) (found.toList.length - (place + 1))) areKernels
    (fun symbol member => member) inside
    (((kernel.closure g).transitions g).ascending.imp Nat.compare_eq_lt.mp)
    (fun other member => absurd (none ▸ member) List.not_mem_nil)
    (fun number outside => bare number (Nat.le_trans (Nat.le_of_lt inside) outside))
  rw [← visitAll_eq, ← edgesAmong_eq, none, List.nil_append, edgesBefore_visitAll before entry,
    range'_append_range' inside kept] at visited
  unfold next?
  simp only [queue, state, Option.map_some]
  exact congrArg some visited

end Visiting

/-- The loop goes on as the search does. -/
theorem run_stage (limit : Nat) {place : Nat} {found : Numbering ItemSet} (before : g.Swept place found)
    (areKernels : ∀ kernel ∈ found.toList, IsKernel kernel) (inside : place ≤ found.toList.length)
    (enough : 2 ^ g.itemCount ≤ limit + place) :
    Relation.ReflTransGen (fun earlier later => next? g earlier = some later) (stage g place found)
      (stage g (g.search limit place found).toList.length (g.search limit place found)) := by
  fun_induction Grammar.search g limit place found with
  | case1 place found =>
    have few := length_le_of_fits before.distinct before.fits
    have ended : place = found.toList.length := by omega
    rw [ended]
  | case2 place found limit ended =>
    rw [Numbering.entry?_eq, List.getElem?_eq_none_iff] at ended
    rw [Nat.le_antisymm inside ended]
  | case3 limit place found kernel entry ih =>
    rw [Numbering.entry?_eq] at entry
    obtain ⟨kept, after⟩ := before.visitAll entry
    have more := kept.length_le
    have within := (List.getElem?_eq_some_iff.mp entry).1
    refine .head (next?_stage before areKernels entry) (ih after ?_ (by omega) (by omega))
    intro other member
    rcases mem_visitAll.mp member with old | ⟨symbol, moves, rfl⟩
    · exact areKernels other old
    · exact isKernel_passing moves

/-- When no state waits any more, the states are those of the automaton. -/
theorem states_stage_last : (stage g g.kernels.toList.length g.kernels).states = g.automaton.states := by
  refine List.ext_getElem? fun number => ?_
  rw [getElem?_states, stage, outline, List.getElem?_mapIdx]
  cases entry : g.kernels.toList[number]? with
  | none => rfl
  | some kernel =>
    have inside := (List.getElem?_eq_some_iff.mp entry).1
    simp only [edgesBefore, if_pos inside, entry, Option.map_some, Option.getD_some]

/-- The loop over the queue ends with the states of the automaton. -/
theorem exists_run (g : Grammar) : ∃ index,
    Relation.ReflTransGen (fun earlier later => next? g earlier = some later) (start g)
      ⟨g.automaton.states, index, []⟩ := by
  refine ⟨(stage g g.kernels.toList.length g.kernels).index, ?_⟩
  have run := run_stage (g := g) (1 <<< g.itemCount) swept_start
    (fun kernel member => Or.inl (List.mem_singleton.mp (toList_startKernel ▸ member))) (Nat.zero_le _)
    (Nat.one_shiftLeft _).ge
  rw [stage_start] at run
  have last : stage g g.kernels.toList.length g.kernels =
      ⟨g.automaton.states, (stage g g.kernels.toList.length g.kernels).index, []⟩ := by
    rw [← states_stage_last]
    simp [stage, outline]
  rw [← last]
  exact run

end Construction

end ParseTables
