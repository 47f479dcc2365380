import ParseTables.Proofs.Lookahead.Adjacent

namespace ParseTables

namespace FollowSets

/-- The terminals after a symbol, none if it has no set. -/
def after (sets : FollowSets) (symbol : Nat) : SortedSet Nat := (sets.get? symbol).getD ∅

/-- The terminals after one symbol that are missing after another. -/
def delta (sets : FollowSets) (source target : Nat) : SortedSet Nat :=
  (sets.after source).filter fun terminal => terminal ∉ sets.after target

/-- Nothing is missing after the target of a link. -/
def Carried (sets : FollowSets) (link : FollowLink) : Prop :=
  (sets.after link.source).Le (sets.after link.target)

theorem isEmpty_delta_iff {sets : FollowSets} {source target : Nat} :
    (sets.delta source target).isEmpty ↔ sets.Carried ⟨source, target⟩ := by
  rw [SortedSet.isEmpty_iff]
  constructor
  · intro empty terminal member
    by_contra missing
    have inside : terminal ∈ sets.delta source target :=
      SortedSet.mem_filter.mpr ⟨member, decide_eq_true missing⟩
    exact SortedSet.not_mem_empty (empty ▸ inside)
  · intro carried
    refine SortedSet.ext fun terminal =>
      ⟨fun member => ?_, fun member => absurd member SortedSet.not_mem_empty⟩
    obtain ⟨source, missing⟩ := SortedSet.mem_filter.mp member
    exact absurd (carried terminal source) (of_decide_eq_true missing)

theorem after_le {sets sets' : FollowSets} (below : ByNonTerminal.Below SortedSet.Le sets sets')
    (symbol : Nat) : (sets.after symbol).Le (sets'.after symbol) := by
  intro terminal member
  unfold after at member ⊢
  cases entry : sets.get? symbol with
  | none => simp [entry] at member
  | some found =>
    obtain ⟨found', entry', above⟩ := below.get? entry
    rw [entry] at member
    rw [entry']
    exact above terminal member

theorem mem_after_update {sets : FollowSets} {more : SortedSet Nat} {target symbol terminal : Nat}
    (known : (sets.get? target).isSome) : terminal ∈ after (sets.update (more ∪ ·) target) symbol ↔
      terminal ∈ sets.after symbol ∨ symbol = target ∧ terminal ∈ more := by
  unfold after
  rw [ByNonTerminal.get?_update]
  by_cases same : target = symbol
  · subst same
    obtain ⟨old, entry⟩ := Option.isSome_iff_exists.mp known
    simp [entry, or_comm]
  · simp [same, Ne.symm same]

end FollowSets

/-- The sets so far, the non-terminals whose sets are to be relayed, in order, and the set of those. -/
structure Worklist where
  sets : FollowSets
  queue : List Nat
  queued : SortedSet Nat

namespace Worklist

/-- All listed non-terminals are to be relayed, in ascending order. -/
def initial (g : Grammar) : Worklist :=
  ⟨g.followSeeds g.firstSets, g.nonTerminals, SortedSet.ofList g.nonTerminals⟩

/-- Carries over what a target misses. If that is anything, the target is queued unless it is already. -/
def relay (source : Nat) (work : Worklist) (target : Nat) : Worklist :=
  let delta := work.sets.delta source target
  if delta.isEmpty then work
  else
    { sets := work.sets.update (delta ∪ ·) target
      queue := if target ∈ work.queued then work.queue else work.queue ++ [target]
      queued := work.queued.insert target }

/-- The first non-terminal of the queue is taken off it and relayed to each of its targets, in some
order. -/
inductive Visits (links : List FollowLink) : Worklist → Worklist → Prop
  | visit {sets : FollowSets} {source : Nat} {rest : List Nat} {queued : SortedSet Nat}
      {targets : List Nat} :
      targets.Nodup →
      (∀ target, target ∈ targets ↔ ⟨source, target⟩ ∈ links) →
      Visits links ⟨sets, source :: rest, queued⟩
        (targets.foldl (relay source) ⟨sets, rest, queued.filter (· ≠ source)⟩)

/-- There is always an order in which to go on. -/
theorem exists_visit (links : List FollowLink) {work : Worklist} (busy : work.queue ≠ []) :
    ∃ next, Visits links work next := by
  obtain ⟨sets, queue, queued⟩ := work
  obtain ⟨source, rest, rfl⟩ := List.exists_cons_of_ne_nil busy
  let targets := distinct ((links.filter fun link => link.source = source).map FollowLink.target)
  refine ⟨targets.foldl (relay source) _, .visit (nodup_distinct _) fun target => ?_⟩
  rw [mem_distinct, List.mem_map]
  constructor
  · rintro ⟨⟨source', target'⟩, member, rfl⟩
    obtain ⟨linked, same⟩ := List.mem_filter.mp member
    obtain rfl : source' = source := of_decide_eq_true same
    exact linked
  · intro linked
    exact ⟨⟨source, target⟩, List.mem_filter.mpr ⟨linked, decide_eq_true rfl⟩, rfl⟩

/-- What the worklist keeps: its sets lie between the seeds and the Follow sets, and where a link, unless
it is exempt, has not been carried over, its source is in the queue. -/
structure Sound (g : Grammar) (Exempt : FollowLink → Prop) (work : Worklist) : Prop where
  seeded : ByNonTerminal.Below SortedSet.Le (g.followSeeds g.firstSets) work.sets
  below : ByNonTerminal.Below SortedSet.Le work.sets (g.followSets g.firstSets)
  distinct : work.queue.Nodup
  queued : ∀ symbol, symbol ∈ work.queued ↔ symbol ∈ work.queue
  pending : ∀ link ∈ g.followLinks g.firstSets,
    link.source ∈ work.queue ∨ Exempt link ∨ work.sets.Carried link

/-- Bounds how many non-terminals can still be taken off the queue: each terminal that is yet to be
carried over queues one of them. -/
def load (g : Grammar) (work : Worklist) : Nat := g.followMissing work.sets + work.queue.length

open Grammar

variable {g : Grammar} {work next : Worklist}

theorem followLink_listed (wf : g.WellFormed) {link : FollowLink}
    (linked : link ∈ g.followLinks g.firstSets) :
    link.source ∈ g.nonTerminals ∧ link.target ∈ g.nonTerminals := by
  obtain ⟨rule, member, before, rest, head, body, nonTerminal, -, -⟩ := mem_followLinks.mp linked
  refine ⟨head ▸ wf.head_mem member, mem_nonTerminals_iff.mpr ?_⟩
  have inBody : link.target ∈ rule.body := by simp [body]
  have positive := wf.body_pos rule member _ inBody
  have low := wf.body_lt rule member _ inBody
  have high : ¬ g.isTerminal link.target := by simp [nonTerminal]
  rw [isTerminal_iff] at high
  omega

theorem Sound.initial (wf : g.WellFormed) : Sound g (fun _ => False) (initial g) where
  seeded := ByNonTerminal.Below.refl SortedSet.Le.refl _
  below := (followSetsAlong_at_rest (g.followLinks g.firstSets)).2.1
  distinct := List.nodup_range'
  queued := fun _ => SortedSet.mem_ofList
  pending := fun _ linked => Or.inl (followLink_listed wf linked).1

theorem Sound.followSound {Exempt : FollowLink → Prop} (sound : Sound g Exempt work) :
    g.FollowSound work.sets := by
  intro head follow entry terminal member
  obtain ⟨found, entry', above⟩ := sound.below.get? entry
  exact (followSetsAlong_at_rest (g.followLinks g.firstSets)).1 head found entry' terminal
    (above terminal member)

/-- The Follow sets have carried over all links. -/
theorem carried_followSets (wf : g.WellFormed) {link : FollowLink}
    (linked : link ∈ g.followLinks g.firstSets) : (g.followSets g.firstSets).Carried link := by
  obtain ⟨rule, member, before, rest, head, body, -, vanishes, -⟩ := mem_followLinks.mp linked
  have carried := follow_le_of_nullable member body (followLink_listed wf linked).2 vanishes
  rw [head] at carried
  exact carried

theorem Sound.known {Exempt : FollowLink → Prop} (sound : Sound g Exempt work) {symbol : Nat}
    (listed : symbol ∈ g.nonTerminals) : (work.sets.get? symbol).isSome := by
  rw [ByNonTerminal.get?_isSome_of_below sound.seeded, followSeeds_eq,
    ByNonTerminal.get?_isSome_of_below (below_foldl_seed _ _)]
  exact get?_endSeed.mpr listed

/-- Nothing happens to a target that misses nothing. -/
theorem relay_carried {source target : Nat} (carried : work.sets.Carried ⟨source, target⟩) :
    work.relay source target = work :=
  if_pos (FollowSets.isEmpty_delta_iff.mpr carried)

/-- A target that misses something gets it and waits from then on. -/
theorem relay_missed {source target : Nat} (missed : ¬ work.sets.Carried ⟨source, target⟩) :
    work.relay source target = ⟨work.sets.update (work.sets.delta source target ∪ ·) target,
      if target ∈ work.queued then work.queue else work.queue ++ [target], work.queued.insert target⟩ :=
  if_neg fun empty => missed (FollowSets.isEmpty_delta_iff.mp empty)

theorem below_relay (work : Worklist) (source target : Nat) :
    ByNonTerminal.Below SortedSet.Le work.sets (work.relay source target).sets := by
  by_cases carried : work.sets.Carried ⟨source, target⟩
  · rw [relay_carried carried]
    exact .refl SortedSet.Le.refl _
  · rw [relay_missed carried]
    exact ByNonTerminal.below_update SortedSet.Le.refl (fun s => SortedSet.le_union _ s) _ _

/-- Afterwards the target has what it had and all that the source has. -/
theorem mem_after_relay {source target symbol terminal : Nat} (known : (work.sets.get? target).isSome) :
    terminal ∈ (work.relay source target).sets.after symbol ↔
      terminal ∈ work.sets.after symbol ∨ symbol = target ∧ terminal ∈ work.sets.after source := by
  by_cases carried : work.sets.Carried ⟨source, target⟩
  · rw [relay_carried carried]
    exact ⟨Or.inl, fun either => either.elim id fun added => added.1 ▸ carried terminal added.2⟩
  · rw [relay_missed carried, FollowSets.mem_after_update known, FollowSets.delta, SortedSet.mem_filter]
    grind

theorem mem_queue_relay {source target symbol : Nat}
    (queued : target ∈ work.queued ↔ target ∈ work.queue) :
    symbol ∈ (work.relay source target).queue ↔
      symbol ∈ work.queue ∨ symbol = target ∧ ¬ work.sets.Carried ⟨source, target⟩ := by
  by_cases carried : work.sets.Carried ⟨source, target⟩
  · simp [relay_carried carried, carried]
  · rw [relay_missed carried]
    grind

/-- The load does not grow: if the target is queued, it is for a terminal that it missed. -/
theorem load_relay {source target : Nat} (known : (work.sets.get? target).isSome)
    (sound' : g.FollowSound (work.relay source target).sets) :
    (work.relay source target).load g ≤ work.load g := by
  by_cases carried : work.sets.Carried ⟨source, target⟩
  · exact Nat.le_of_eq (congrArg (load g) (relay_carried carried))
  · have less : g.followMissing (work.relay source target).sets < g.followMissing work.sets := by
      by_contra full
      have unchanged := sound'.eq_of_missing_le (below_relay work source target) (Nat.not_lt.mp full)
      refine carried fun terminal inside => ?_
      have entered : terminal ∈ (work.relay source target).sets.after target :=
        (mem_after_relay known).mpr (Or.inr ⟨rfl, inside⟩)
      rwa [← unchanged] at entered
    have longer : (work.relay source target).queue.length ≤ work.queue.length + 1 := by
      rw [relay_missed carried]
      grind
    unfold load
    omega

/-- One target less is exempt after it has been served. -/
theorem Sound.relay (wf : g.WellFormed) {source target : Nat} {remaining : List Nat}
    (sound : Sound g (fun link => link.source = source ∧ link.target ∈ target :: remaining) work)
    (linked : ⟨source, target⟩ ∈ g.followLinks g.firstSets) :
    Sound g (fun link => link.source = source ∧ link.target ∈ remaining) (work.relay source target) := by
  have known := sound.known (followLink_listed wf linked).2
  have waiting : ∀ symbol, symbol ∈ (work.relay source target).queue ↔
      symbol ∈ work.queue ∨ symbol = target ∧ ¬ work.sets.Carried ⟨source, target⟩ :=
    fun _ => mem_queue_relay (sound.queued target)
  refine ⟨.trans SortedSet.Le.trans _ _ _ sound.seeded (below_relay work source target),
    ?below, ?distinct,
    ?queued, fun link member => ?pending⟩
  case below =>
    by_cases carried : work.sets.Carried ⟨source, target⟩
    · rw [relay_carried carried]
      exact sound.below
    · rw [relay_missed carried]
      refine sound.below.update fun old found _ entry low terminal member => ?_
      rcases SortedSet.mem_union.mp member with missed | inside
      · have reached :=
          FollowSets.after_le sound.below source terminal (SortedSet.mem_filter.mp missed).1
        have relayed := carried_followSets wf linked terminal reached
        rwa [FollowSets.after, entry] at relayed
      · exact low terminal inside
  case distinct =>
    have distinct := sound.distinct
    have queued := sound.queued target
    by_cases carried : work.sets.Carried ⟨source, target⟩
    · rwa [relay_carried carried]
    · rw [relay_missed carried]
      grind
  case queued =>
    intro symbol
    have queued := sound.queued symbol
    rw [waiting symbol]
    by_cases carried : work.sets.Carried ⟨source, target⟩
    · simp [relay_carried carried, carried, queued]
    · simp [relay_missed carried, carried, queued, or_comm]
  case pending =>
    by_cases requeued : link.source = target ∧ ¬ work.sets.Carried ⟨source, target⟩
    · exact Or.inl ((waiting _).mpr (Or.inr requeued))
    -- the source of the link has got nothing new
    have unchanged : ∀ terminal ∈ (work.relay source target).sets.after link.source,
        terminal ∈ work.sets.after link.source := by
      intro terminal inside
      rcases (mem_after_relay known).mp inside with before | ⟨same, added⟩
      · exact before
      · have carried := not_not.mp fun missed => requeued ⟨same, missed⟩
        exact same ▸ carried terminal added
    rcases sound.pending link member with waits | ⟨same, among⟩ | carried
    · exact Or.inl ((waiting _).mpr (Or.inl waits))
    · rcases List.mem_cons.mp among with served | later
      · refine Or.inr (Or.inr fun terminal inside => ?_)
        exact (mem_after_relay known).mpr (Or.inr ⟨served, same ▸ unchanged terminal inside⟩)
      · exact Or.inr (Or.inl ⟨same, later⟩)
    · refine Or.inr (Or.inr fun terminal inside => ?_)
      exact (mem_after_relay known).mpr (Or.inl (carried terminal (unchanged terminal inside)))

/-- When all targets of a non-terminal have been served, nothing is exempt any more. -/
theorem Sound.foldl_relay (wf : g.WellFormed) {source : Nat} {targets : List Nat}
    (linked : ∀ target ∈ targets, ⟨source, target⟩ ∈ g.followLinks g.firstSets)
    (sound : Sound g (fun link => link.source = source ∧ link.target ∈ targets) work) :
    Sound g (fun _ => False) (targets.foldl (Worklist.relay source) work) ∧
      (targets.foldl (Worklist.relay source) work).load g ≤ work.load g := by
  induction targets generalizing work with
  | nil =>
    have pending := sound.pending
    simp only [List.not_mem_nil, and_false] at pending
    exact ⟨{ sound with pending := pending }, Nat.le_refl _⟩
  | cons target remaining ih =>
    have first := linked target List.mem_cons_self
    have served := sound.relay wf first
    have lighter := load_relay (sound.known (followLink_listed wf first).2) served.followSound
    have rest := ih (fun later member => linked later (List.mem_cons_of_mem _ member)) served
    exact ⟨rest.1, Nat.le_trans rest.2 lighter⟩

/-- What the worklist keeps, it keeps from visit to visit, and each visit lessens the load. -/
theorem Sound.visits (wf : g.WellFormed) (sound : Sound g (fun _ => False) work)
    (visit : Visits (g.followLinks g.firstSets) work next) :
    Sound g (fun _ => False) next ∧ next.load g < work.load g := by
  obtain ⟨-, among⟩ := visit
  rename_i sets source rest queued targets
  have fresh := List.nodup_cons.mp sound.distinct
  have taken : Sound g (fun link => link.source = source ∧ link.target ∈ targets)
      ⟨sets, rest, queued.filter (· ≠ source)⟩ := by
    refine ⟨sound.seeded, sound.below, fresh.2, fun symbol => ?_, fun link member => ?_⟩
    · have waits : symbol ∈ queued ↔ symbol ∈ source :: rest := sound.queued symbol
      rw [SortedSet.mem_filter, waits]
      grind
    · rcases sound.pending link member with waits | never | carried
      · rcases List.mem_cons.mp waits with same | later
        · exact Or.inr (Or.inl ⟨same, (among _).mpr (same ▸ member)⟩)
        · exact Or.inl later
      · exact never.elim
      · exact Or.inr (Or.inr carried)
  have served := taken.foldl_relay wf fun target member => (among target).mp member
  refine ⟨served.1, Nat.lt_of_le_of_lt served.2 ?_⟩
  unfold load
  exact Nat.lt_succ_self _

/-- No sequence of visits goes on for ever. -/
theorem Sound.acc (wf : g.WellFormed) (sound : Sound g (fun _ => False) work) :
    Acc (fun later earlier => Visits (g.followLinks g.firstSets) earlier later) work := by
  induction bound : work.load g using Nat.strongRecOn generalizing work with
  | ind load ih =>
    refine .intro work fun next visit => ?_
    have served := sound.visits wf visit
    exact ih (next.load g) (bound ▸ served.2) served.1 rfl

/-- Once nothing waits, the sets are those of the sweeps. -/
theorem Sound.sets_eq (sound : Sound g (fun _ => False) work) (done : work.queue = []) :
    work.sets = g.followSets g.firstSets := by
  have carries : ∀ link ∈ g.followLinks g.firstSets, work.sets.Carried link := by
    intro link member
    rcases sound.pending link member with waits | never | carried
    · simp [done] at waits
    · exact never.elim
    · exact carried
  refine ByNonTerminal.ext_get? fun symbol => ?_
  have known : ((g.followSets g.firstSets).get? symbol).isSome = (work.sets.get? symbol).isSome :=
    ByNonTerminal.get?_isSome_of_below sound.below
  cases entry : work.sets.get? symbol with
  | none =>
    rw [entry] at known
    exact (Option.isNone_iff_eq_none.mp (Option.isSome_eq_false_iff.mp known)).symm
  | some found =>
    obtain ⟨found', entry', low⟩ := sound.below.get? entry
    have high : found'.Le found := by
      have least :=
        followSetsAlong_induction (P := fun symbol terminal => terminal ∈ work.sets.after symbol)
        (fun symbol seeds seeded terminal member => ?_) carries entry'
      · rwa [FollowSets.after, entry] at least
      · have above := FollowSets.after_le sound.seeded symbol terminal
        rw [FollowSets.after, seeded] at above
        exact above member
    rw [entry', SortedSet.Le.antisymm _ _ low high]

theorem Sound.reached (wf : g.WellFormed)
    (run : Relation.ReflTransGen (Visits (g.followLinks g.firstSets)) (Worklist.initial g) work) :
    Sound g (fun _ => False) work := by
  induction run with
  | refl => exact .initial wf
  | tail _ visit sound => exact (sound.visits wf visit).1

end Worklist

namespace Grammar

open Worklist

/-- In whatever order the targets are taken, the worklist ends, and it ends with the Follow sets. They
hold exactly the terminals that can come right after a non-terminal. -/
theorem follow_sets_exact {pairs : List (String × String)} {designated : Option String} {g : Grammar}
    (built : Grammar.ofRules pairs designated = .ok g) :
    Acc (fun later earlier => Visits (g.followLinks g.firstSets) earlier later) (initial g) ∧
    (∀ work, Relation.ReflTransGen (Visits (g.followLinks g.firstSets)) (initial g) work →
      (work.queue ≠ [] → ∃ next, Visits (g.followLinks g.firstSets) work next) ∧
      (work.queue = [] → work.sets = g.followSets g.firstSets)) ∧
    ∀ symbol ∈ g.nonTerminals, ∃ found, (g.followSets g.firstSets).get? symbol = some found ∧
      ∀ terminal, terminal ∈ found ↔ g.isTerminal terminal ∧ g.Adjacent symbol terminal := by
  have wf := wellFormed_ofRules built
  refine ⟨(Sound.initial wf).acc wf, fun work run => ⟨exists_visit _, (Sound.reached wf run).sets_eq⟩,
    fun symbol listed => ?_⟩
  obtain ⟨-, found, -, entry, -⟩ := exists_seed listed
  refine ⟨found, entry, fun terminal => ?_⟩
  rw [← mem_follow_iff wf listed, follow, entry, Option.getD_some]

/-- Two non-terminals that end each other's bodies: `S -> A x`, `S -> B y`, `A -> a B`, `A -> e`, `B -> b
A` and `B -> e`. -/
def mutualTails : Grammar :=
  ⟨"S'", #["S", "A", "B"], #["x", "y", "a", "b"], 1, [⟨1, [2, 4]⟩, ⟨1, [3, 5]⟩, ⟨2, [6, 3]⟩, ⟨2, []⟩,
    ⟨3, [7, 2]⟩, ⟨3, []⟩]⟩

/-- What stands behind `B` comes right after `A` as well, and the other way round. The end mark comes
right after neither. -/
theorem follow_sets_mutualTails :
    Grammar.ofRules [("S", "A x"), ("S", "B y"), ("A", "a B"), ("A", "e"), ("B", "b A"),
      ("B", "e")] none =
        .ok mutualTails ∧
      Acc (fun later earlier => Visits [⟨2, 3⟩, ⟨3, 2⟩] earlier later) (initial mutualTails) ∧
      (∀ symbol ∈ [2, 3], ∀ terminal ∈ [4, 5], mutualTails.Adjacent symbol terminal) ∧
      ∀ symbol ∈ [2, 3], ¬ mutualTails.Adjacent symbol mutualTails.endMark := by
  have built : Grammar.ofRules
      [("S", "A x"), ("S", "B y"), ("A", "a B"), ("A", "e"), ("B", "b A"), ("B", "e")] none =
        .ok mutualTails := by cbv
  obtain ⟨ends, -, exact⟩ := follow_sets_exact built
  have links : mutualTails.followLinks mutualTails.firstSets = [⟨2, 3⟩, ⟨3, 2⟩] := by decide +kernel
  have listed : ∀ symbol ∈ [2, 3], symbol ∈ mutualTails.nonTerminals := by decide +kernel
  have found : ∀ symbol ∈ [2, 3], (mutualTails.followSets mutualTails.firstSets).get? symbol =
      some (SortedSet.ofList [4, 5]) := by decide +kernel
  refine ⟨built, links ▸ ends, fun symbol either terminal next => ?_, fun symbol either adjacent => ?_⟩
  all_goals
    obtain ⟨follow, entry, meaning⟩ := exact symbol (listed symbol either)
    rw [found symbol either, Option.some.injEq] at entry
  · exact ((meaning terminal).mp (entry ▸ SortedSet.mem_ofList.mpr next)).2
  · have inside := (meaning mutualTails.endMark).mpr ⟨endMark_isTerminal, adjacent⟩
    rw [← entry] at inside
    exact absurd inside (by decide +kernel)

end Grammar

end ParseTables
