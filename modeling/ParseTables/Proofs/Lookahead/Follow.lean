import ParseTables.Lookahead.Follow
import ParseTables.Proofs.Lookahead.First

namespace ParseTables

/-- All members of one set are members of the other. -/
def SortedSet.Le (s t : SortedSet Nat) : Prop := ∀ a ∈ s, a ∈ t

theorem SortedSet.Le.refl (s : SortedSet Nat) : s.Le s := fun _ => id

theorem SortedSet.Le.trans (r s t : SortedSet Nat) (first : r.Le s) (second : s.Le t) : r.Le t :=
  fun a member => second a (first a member)

theorem SortedSet.Le.antisymm (s t : SortedSet Nat) (first : s.Le t) (second : t.Le s) : s = t :=
  SortedSet.ext fun a => ⟨first a, second a⟩

theorem SortedSet.le_union (s t : SortedSet Nat) : t.Le (s ∪ t) :=
  fun _ member => SortedSet.mem_union.mpr (Or.inr member)

theorem mem_occurrences {symbol : Nat} {body rest : List Nat} :
    (symbol, rest) ∈ occurrences body ↔ ∃ before, body = before ++ symbol :: rest := by
  induction body with
  | nil => simp [occurrences]
  | cons head tail ih =>
    rw [occurrences, List.mem_cons, Prod.mk.injEq, ih]
    constructor
    · rintro (⟨rfl, rfl⟩ | ⟨before, rfl⟩)
      · exact ⟨[], rfl⟩
      · exact ⟨head :: before, rfl⟩
    · rintro ⟨before, split⟩
      cases before with
      | nil => exact Or.inl ⟨(List.cons.inj split).1.symm, (List.cons.inj split).2.symm⟩
      | cons other before => exact Or.inr ⟨before, (List.cons.inj split).2⟩

namespace Grammar

variable {g : Grammar}

theorem endMark_isTerminal : g.isTerminal g.endMark := by
  rw [isTerminal_iff, endMark, terminalCount]
  omega

theorem mem_nonTerminalOccurrences {rule : Rule} {symbol : Nat} {rest : List Nat} :
    (symbol, rest) ∈ g.nonTerminalOccurrences rule ↔
      (∃ before, rule.body = before ++ symbol :: rest) ∧ g.isTerminal symbol = false := by
  rw [nonTerminalOccurrences, List.mem_filter, mem_occurrences, Bool.not_eq_true']

theorem mem_followLinks {link : FollowLink} : link ∈ g.followLinks g.firstSets ↔
    ∃ rule ∈ g.listed, ∃ before rest, rule.head = link.source ∧
      rule.body = before ++ link.target :: rest ∧
      g.isTerminal link.target = false ∧ (g.first rest).nullable ∧ link.source ≠ link.target := by
  simp only [followLinks, List.mem_flatMap, List.mem_filterMap]
  constructor
  · rintro ⟨rule, member, ⟨symbol, rest⟩, occurs, made⟩
    obtain ⟨⟨before, body⟩, nonTerminal⟩ := mem_nonTerminalOccurrences.mp occurs
    split at made
    · rename_i linked
      cases Option.some.inj made
      exact ⟨rule, member, before, rest, rfl, body, nonTerminal, linked⟩
    · simp at made
  · rintro ⟨rule, member, before, rest, head, body, nonTerminal, vanishes, different⟩
    refine ⟨rule, member, (link.target, rest),
      mem_nonTerminalOccurrences.mpr ⟨⟨before, body⟩, nonTerminal⟩, ?_⟩
    rw [if_pos ⟨vanishes, head ▸ different⟩, head]

/-- Entries of Follow sets hold terminals only. -/
def FollowSound (g : Grammar) (sets : FollowSets) : Prop :=
  ∀ head follow, sets.get? head = some follow → ∀ terminal ∈ follow, g.isTerminal terminal

theorem FollowSound.update {sets : FollowSets} (sound : g.FollowSound sets) {more : SortedSet Nat}
    (terminals : ∀ terminal ∈ more, g.isTerminal terminal) (symbol : Nat) :
    g.FollowSound (sets.update (more ∪ ·) symbol) := by
  intro head follow entry terminal member
  rw [ByNonTerminal.get?_update] at entry
  split at entry
  · obtain ⟨old, before, rfl⟩ := Option.map_eq_some_iff.mp entry
    exact (SortedSet.mem_union.mp member).elim (terminals terminal) (sound head old before terminal)
  · exact sound head follow entry terminal member

theorem FollowSound.relay {sets : FollowSets} (sound : g.FollowSound sets) (link : FollowLink) :
    g.FollowSound (sets.relay link) := by
  refine sound.update (fun terminal member => ?_) link.target
  cases entry : sets.get? link.source with
  | none => simp [entry] at member
  | some follow =>
    rw [entry] at member
    exact sound _ follow entry terminal member

/-- The seeds put First of the rest of a body behind each occurrence. -/
def seed (g : Grammar) (sets : FollowSets) (entry : Nat × List Nat) : FollowSets :=
  sets.update ((g.first entry.2).terminals ∪ ·) entry.1

/-- The Follow sets before anything is known about the rules. -/
def endSeed (g : Grammar) : FollowSets :=
  (ByNonTerminal.replicate g.nonTerminalCount ∅).update (·.insert g.endMark) g.start

theorem followSeeds_eq :
    g.followSeeds g.firstSets = (g.listed.flatMap g.nonTerminalOccurrences).foldl g.seed g.endSeed := rfl

theorem below_seed (sets : FollowSets) (entry : Nat × List Nat) :
    ByNonTerminal.Below SortedSet.Le sets (g.seed sets entry) :=
  ByNonTerminal.below_update SortedSet.Le.refl (fun s => SortedSet.le_union _ s) sets _

theorem below_foldl_seed (sets : FollowSets) (entries : List (Nat × List Nat)) :
    ByNonTerminal.Below SortedSet.Le sets (entries.foldl g.seed sets) :=
  le_foldl (ByNonTerminal.Below.refl SortedSet.Le.refl) (ByNonTerminal.Below.trans SortedSet.Le.trans)
    below_seed entries sets

theorem mem_foldl_seed {entries : List (Nat × List Nat)} {sets : FollowSets} {symbol : Nat}
    {rest : List Nat} (member : (symbol, rest) ∈ entries) (known : (sets.get? symbol).isSome)
    {terminal : Nat} (begins : terminal ∈ (g.first rest).terminals) :
    ∃ follow, (entries.foldl g.seed sets).get? symbol = some follow ∧ terminal ∈ follow := by
  induction entries generalizing sets with
  | nil => exact absurd member List.not_mem_nil
  | cons entry others ih =>
    rcases List.mem_cons.mp member with rfl | later
    · obtain ⟨old, before⟩ := Option.isSome_iff_exists.mp known
      have entered : (g.seed sets (symbol, rest)).get? symbol =
          some ((g.first rest).terminals ∪ old) := by
        simp [seed, ByNonTerminal.get?_update, before]
      obtain ⟨follow, found, more⟩ := (below_foldl_seed (g.seed sets (symbol, rest)) others).get? entered
      exact ⟨follow, found, more terminal (SortedSet.mem_union.mpr (Or.inl begins))⟩
    · refine ih later ?_
      rwa [ByNonTerminal.get?_isSome_of_below (below_seed sets entry)]

theorem get?_endSeed {symbol : Nat} : (g.endSeed.get? symbol).isSome ↔ symbol ∈ g.nonTerminals := by
  rw [endSeed, ByNonTerminal.get?_update, ByNonTerminal.get?_replicate, mem_nonTerminals_iff]
  split <;> split <;> simp_all

theorem of_mem_endSeed {symbol terminal : Nat} {found : SortedSet Nat}
    (entry : g.endSeed.get? symbol = some found) (member : terminal ∈ found) :
    symbol = g.start ∧ terminal = g.endMark := by
  rw [endSeed, ByNonTerminal.get?_update, ByNonTerminal.get?_replicate] at entry
  split at entry
  · rename_i start
    obtain ⟨old, before, rfl⟩ := Option.map_eq_some_iff.mp entry
    split at before
    · cases Option.some.inj before
      rcases SortedSet.mem_insert.mp member with mark | inside
      · exact ⟨start.symm, mark⟩
      · exact absurd inside SortedSet.not_mem_empty
    · simp at before
  · split at entry
    · cases Option.some.inj entry
      exact absurd member SortedSet.not_mem_empty
    · simp at entry

/-- What holds of the end mark after the start symbol and of First after each occurrence holds of the
seeds. -/
theorem followSeeds_induction {P : Nat → Nat → Prop} (ends : P g.start g.endMark)
    (begins : ∀ rule ∈ g.listed, ∀ before symbol rest, rule.body = before ++ symbol :: rest →
      ∀ terminal ∈ (g.firstSets.ofSequence g rest).terminals, P symbol terminal)
    {symbol : Nat} {found : SortedSet Nat}
    (entry : (g.followSeeds g.firstSets).get? symbol = some found) :
    ∀ terminal ∈ found, P symbol terminal := by
  let Kept (sets : FollowSets) : Prop :=
    ∀ symbol found, sets.get? symbol = some found → ∀ terminal ∈ found, P symbol terminal
  have start : Kept g.endSeed := by
    intro symbol found entry terminal member
    obtain ⟨rfl, rfl⟩ := of_mem_endSeed entry member
    exact ends
  have seeds : ∀ (sets : FollowSets)
      (occurrence : { entry // entry ∈ g.listed.flatMap g.nonTerminalOccurrences }),
      Kept sets → Kept (g.seed sets occurrence) := by
    intro sets ⟨⟨occurring, rest⟩, occurs⟩ kept symbol found entry terminal member
    obtain ⟨rule, listed, occurs⟩ := List.mem_flatMap.mp occurs
    obtain ⟨⟨before, body⟩, -⟩ := mem_nonTerminalOccurrences.mp occurs
    rw [seed, ByNonTerminal.get?_update] at entry
    split at entry
    · rename_i same
      obtain ⟨old, known, rfl⟩ := Option.map_eq_some_iff.mp entry
      rcases SortedSet.mem_union.mp member with later | earlier
      · exact same ▸ begins rule listed before occurring rest body terminal later
      · exact kept symbol old known terminal earlier
    · exact kept symbol found entry terminal member
  rw [followSeeds_eq, ← List.foldl_attach] at entry
  exact foldl_kept seeds _ start symbol found entry

theorem below_relay (sets : FollowSets) (link : FollowLink) :
    ByNonTerminal.Below SortedSet.Le sets (sets.relay link) :=
  ByNonTerminal.below_update SortedSet.Le.refl (fun s => SortedSet.le_union _ s) sets _

/-- Sets that lie above others miss less, unless they are the same. -/
theorem FollowSound.eq_of_missing_le {sets sets' : FollowSets} (sound : g.FollowSound sets')
    (below : ByNonTerminal.Below SortedSet.Le sets sets')
    (missing : g.followMissing sets ≤ g.followMissing sets') : sets = sets' := by
  refine ByNonTerminal.eq_of_total_le below (fun s t inside low => ?_) missing
  obtain ⟨head, entry⟩ := ByNonTerminal.mem_entries_iff.mp inside
  have size : t.size ≤ g.terminalCount := by
    rw [← length_terminals]
    exact SortedSet.size_le_length fun terminal member =>
      mem_terminals_iff.mpr (sound head t entry terminal member)
  have smaller : s.size ≤ t.size := SortedSet.size_le_length low
  exact ⟨by omega, fun full => SortedSet.eq_of_size_le low (by omega)⟩

/-- Sweeps along links, in any order, end with sets above the seeds that the links no longer change. -/
theorem followSetsAlong_at_rest (links : List FollowLink) :
    g.FollowSound (g.followSetsAlong g.firstSets links) ∧
      ByNonTerminal.Below SortedSet.Le (g.followSeeds g.firstSets)
        (g.followSetsAlong g.firstSets links) ∧
      ∀ link ∈ links, (g.followSetsAlong g.firstSets links).relay link =
        g.followSetsAlong g.firstSets links := by
  have start : g.FollowSound (g.followSeeds g.firstSets) := by
    intro symbol found entry
    exact followSeeds_induction (P := fun _ terminal => g.isTerminal terminal) endMark_isTerminal
      (fun _ _ _ _ rest _ terminal begins =>
        ((g.firstSets_at_rest.1.ofSequence rest).1 terminal begins).1) entry
  exact saturate_at_rest (ByNonTerminal.Below.refl SortedSet.Le.refl)
    (ByNonTerminal.Below.trans SortedSet.Le.trans) (ByNonTerminal.Below.antisymm SortedSet.Le.antisymm)
    below_relay (fun sets link kept => kept.relay link)
      (fun _ _ kept => kept.eq_of_missing_le) links start

/-- What holds of the seeds and goes along every link holds of the sets that the sweeps lead to. They are
the least ones in this sense. -/
theorem followSetsAlong_induction {links : List FollowLink} {P : Nat → Nat → Prop}
    (seeds : ∀ symbol found, (g.followSeeds g.firstSets).get? symbol = some found →
      ∀ terminal ∈ found, P symbol terminal)
    (carries : ∀ link ∈ links, ∀ terminal, P link.source terminal → P link.target terminal)
    {symbol : Nat} {found : SortedSet Nat}
    (entry : (g.followSetsAlong g.firstSets links).get? symbol = some found) :
    ∀ terminal ∈ found, P symbol terminal := by
  let Kept (sets : FollowSets) : Prop :=
    ∀ symbol found, sets.get? symbol = some found → ∀ terminal ∈ found, P symbol terminal
  have relays : ∀ (sets : FollowSets) (link : { link // link ∈ links }), Kept sets →
      Kept (sets.relay link) := by
    intro sets link kept symbol found entry terminal member
    rw [FollowSets.relay, ByNonTerminal.get?_update] at entry
    split at entry
    · rename_i target
      obtain ⟨old, before, rfl⟩ := Option.map_eq_some_iff.mp entry
      rcases SortedSet.mem_union.mp member with carried | known
      · cases source : sets.get? link.1.source with
        | none => simp [source] at carried
        | some follow =>
          rw [source] at carried
          exact target ▸ carries link.1 link.2 terminal (kept _ follow source terminal carried)
      · exact kept symbol old before terminal known
    · exact kept symbol found entry terminal member
  have sweeps : ∀ sets, Kept sets → Kept (links.foldl FollowSets.relay sets) := by
    intro sets kept
    rw [← List.foldl_attach]
    exact foldl_kept relays links.attach kept
  obtain ⟨last, kept, result, -⟩ := @saturate_last _ g.followMissing _ Kept sweeps _ seeds
  rw [followSetsAlong, result] at entry
  exact sweeps last kept symbol found entry

/-- The terminals that follow a listed non-terminal. -/
def follow (g : Grammar) (symbol : Nat) : SortedSet Nat :=
  ((g.followSets g.firstSets).get? symbol).getD ∅

theorem isTerminal_of_mem_follow {symbol terminal : Nat} (member : terminal ∈ g.follow symbol) :
    g.isTerminal terminal := by
  unfold follow at member
  cases entry : (g.followSets g.firstSets).get? symbol with
  | none => simp [entry] at member
  | some found =>
    rw [entry] at member
    exact (followSetsAlong_at_rest (g.followLinks g.firstSets)).1 symbol found entry terminal member

/-- The terminals that may come after a symbol, where the end mark comes after the hidden one. -/
def Follows (g : Grammar) (symbol terminal : Nat) : Prop :=
  symbol = 0 ∧ terminal = g.endMark ∨ terminal ∈ g.follow symbol

/-- The terminals that may come next before a string, given those that may come after it. -/
def Before (g : Grammar) (rest : List Nat) (After : Nat → Prop) (terminal : Nat) : Prop :=
  terminal ∈ (g.first rest).terminals ∨ (g.first rest).nullable ∧ After terminal

/-- The terminals that may come after a place in a body of `head`, given the rest of that body. -/
def Continues (g : Grammar) (rest : List Nat) (head : Nat) : Nat → Prop :=
  g.Before rest (g.Follows head)

theorem before_nil {After : Nat → Prop} {terminal : Nat} :
    g.Before [] After terminal ↔ After terminal := by
  simp [Before, first, FirstSets.ofSequence]

theorem before_append {u v : List Nat} {After : Nat → Prop} {terminal : Nat} :
    g.Before (u ++ v) After terminal ↔ g.Before u (g.Before v After) terminal := by
  unfold Before
  rw [first_append]
  by_cases null : (g.first u).nullable
  · simp only [null, if_true, true_and]
    rw [SortedSet.mem_union, or_assoc]
  · simp [null]

theorem Before.mono {rest : List Nat} {After After' : Nat → Prop} {terminal : Nat}
    (before : g.Before rest After terminal) (weaker : After terminal → After' terminal) :
    g.Before rest After' terminal :=
  before.imp_right (And.imp_right weaker)

theorem continues_nil {head terminal : Nat} :
    g.Continues [] head terminal ↔ g.Follows head terminal := before_nil

theorem exists_seed {symbol : Nat} (listed : symbol ∈ g.nonTerminals) :
    ∃ seeds found, (g.followSeeds g.firstSets).get? symbol = some seeds ∧
      (g.followSets g.firstSets).get? symbol = some found ∧ seeds.Le found := by
  have seeded : ((g.followSeeds g.firstSets).get? symbol).isSome := by
    rw [followSeeds_eq, ByNonTerminal.get?_isSome_of_below (below_foldl_seed _ _)]
    exact get?_endSeed.mpr listed
  obtain ⟨seeds, entry⟩ := Option.isSome_iff_exists.mp seeded
  obtain ⟨found, entry', above⟩ := (followSetsAlong_at_rest (g.followLinks g.firstSets)).2.1.get? entry
  exact ⟨seeds, found, entry, entry', above⟩

theorem endMark_mem_follow_start (wf : g.WellFormed) : g.endMark ∈ g.follow g.start := by
  have listed : g.start ∈ g.nonTerminals := mem_nonTerminals_iff.mpr ⟨wf.start_pos, wf.start_le⟩
  obtain ⟨seeds, found, entry, entry', above⟩ := exists_seed listed
  have first : g.endSeed.get? g.start = some ((∅ : SortedSet Nat).insert g.endMark) := by
    simp [endSeed, ByNonTerminal.get?_update, ByNonTerminal.get?_replicate, wf.start_pos, wf.start_le]
  rw [followSeeds_eq] at entry
  obtain ⟨seeds', entry'', kept⟩ :=
    (below_foldl_seed g.endSeed (g.listed.flatMap g.nonTerminalOccurrences)).get? first
  rw [entry''] at entry
  cases Option.some.inj entry
  rw [follow, entry']
  exact above _ (kept _ (SortedSet.mem_insert.mpr (Or.inl rfl)))

theorem mem_follow_of_first {rule : Rule} (member : rule ∈ g.listed) {before rest : List Nat}
    {symbol terminal : Nat} (body : rule.body = before ++ symbol :: rest)
    (listed : symbol ∈ g.nonTerminals) (begins : terminal ∈ (g.first rest).terminals) :
    terminal ∈ g.follow symbol := by
  obtain ⟨seeds, found, entry, entry', above⟩ := exists_seed listed
  have occurs : (symbol, rest) ∈ g.listed.flatMap g.nonTerminalOccurrences :=
    List.mem_flatMap.mpr ⟨rule, member,
      mem_nonTerminalOccurrences.mpr ⟨⟨before, body⟩, not_isTerminal_of_listed listed⟩⟩
  obtain ⟨seeds', seeded, inside⟩ := mem_foldl_seed occurs (get?_endSeed.mpr listed) begins
  rw [← followSeeds_eq, entry] at seeded
  cases Option.some.inj seeded
  rw [follow, entry']
  exact above terminal inside

theorem follow_le_of_nullable {rule : Rule} (member : rule ∈ g.listed) {before rest : List Nat}
    {symbol : Nat} (body : rule.body = before ++ symbol :: rest) (listed : symbol ∈ g.nonTerminals)
    (vanishes : (g.first rest).nullable) : (g.follow rule.head).Le (g.follow symbol) := by
  by_cases same : rule.head = symbol
  · rw [same]
    exact .refl _
  · have linked : (⟨rule.head, symbol⟩ : FollowLink) ∈ g.followLinks g.firstSets := mem_followLinks.mpr
      ⟨rule, member, before, rest, rfl, body, not_isTerminal_of_listed listed, vanishes, same⟩
    obtain ⟨-, found, -, entry, -⟩ := exists_seed listed
    have rest' := (followSetsAlong_at_rest (g := g) (g.followLinks g.firstSets)).2.2 _ linked
    have merged := congrArg (fun sets : FollowSets => sets.get? symbol) rest'
    simp only [FollowSets.relay, ByNonTerminal.get?_update, if_true] at merged
    intro terminal inside
    unfold follow at inside ⊢
    unfold followSets at entry inside ⊢
    rw [entry, Option.map_some, Option.some.injEq] at merged
    rw [entry, Option.getD_some, ← merged]
    exact SortedSet.mem_union.mpr (Or.inl inside)

/-- In a body that vanishes, what follows the head follows each symbol. -/
theorem mem_follow_of_vanishing (wf : g.WellFormed) {rule : Rule} (member : rule ∈ g.listed)
    (vanish : g.Derives rule.body []) {symbol terminal : Nat} (occurs : symbol ∈ rule.body)
    (follows : terminal ∈ g.follow rule.head) : terminal ∈ g.follow symbol := by
  obtain ⟨before, after, body⟩ := List.append_of_mem occurs
  have each := derives_nil_iff.mp vanish
  have rest : g.Derives after [] :=
    derives_nil_iff.mpr fun other late => each other (by simp [body, late])
  exact follow_le_of_nullable member body (wf.listed_of_vanishing (each symbol occurs))
    ((nullable_first_iff wf).mpr rest) terminal follows

/-- Whatever may come after an occurrence of a non-terminal follows it. -/
theorem Follows.of_continues (wf : g.WellFormed) {rule : Rule} (member : rule ∈ g.rules)
    {before rest : List Nat} {symbol terminal : Nat} (body : rule.body = before ++ symbol :: rest)
    (listed : symbol ∈ g.nonTerminals) (next : g.Continues rest rule.head terminal) :
    terminal ∈ g.follow symbol := by
  rcases List.mem_cons.mp member with rfl | inListed
  · -- the hidden rule has the start symbol for its body
    cases before with
    | nil =>
      obtain ⟨rfl, rfl⟩ := List.cons.inj body
      rcases continues_nil.mp next with ⟨-, rfl⟩ | inside
      · exact endMark_mem_follow_start wf
      · exact absurd inside SortedSet.not_mem_empty
    | cons _ before => simp at body
  · rcases next with begins | ⟨vanishes, ⟨hidden, -⟩ | follows⟩
    · exact mem_follow_of_first inListed body listed begins
    · exact absurd hidden (Nat.ne_of_gt (wf.head_pos rule inListed))
    · exact follow_le_of_nullable inListed body listed vanishes terminal follows

/-- The first token of what a string stands for, or else the one after it, is foreseen before it. -/
theorem Parses.foreseen (wf : g.WellFormed) {symbols word : List Nat} (parses : g.Parses symbols word)
    {after : List Nat} {head terminal : Nat} (next : g.Continues after head terminal)
    (later : List Nat) :
    ∃ current others, word ++ terminal :: later = current :: others ∧
      g.Continues (symbols ++ after) head current := by
  cases word with
  | nil =>
    refine ⟨terminal, later, rfl, before_append.mpr (Or.inr ⟨?_, next⟩)⟩
    exact (nullable_first_iff wf).mpr parses.derives
  | cons current others =>
    refine ⟨current, others ++ terminal :: later, rfl, before_append.mpr (Or.inl ?_)⟩
    exact (mem_first_iff wf).mpr
      ⟨parses.isTerminal current List.mem_cons_self, others, parses.derives⟩

end Grammar

end ParseTables
