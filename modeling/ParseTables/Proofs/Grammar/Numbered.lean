import Mathlib.Data.List.Nodup
import ParseTables.Proofs.Grammar.Reading
import ParseTables.Proofs.Grammar.Sentence
import ParseTables.Proofs.Text.Words

namespace ParseTables

theorem distinct_eq_eraseDups {α : Type} [DecidableEq α] (l : List α) : distinct l = l.eraseDups := by
  -- the elements that are equal to the first are gone before the rest is taken up
  generalize size : l.length = n
  induction n using Nat.strongRecOn generalizing l with
  | ind n ih =>
    cases l with
    | nil => rfl
    | cons a rest =>
      have shorter : (rest.filter fun b => b ≠ a).length < n := by
        have := List.length_filter_le (fun b => b ≠ a) rest
        rw [List.length_cons] at size
        omega
      rw [distinct, ← distinct_filter, ih _ shorter _ rfl, List.eraseDups_cons]
      congr 3
      funext b
      by_cases same : b = a <;> simp [same]

theorem headName_eq_ok_iff {text name : String} :
    headName text = .ok name ↔ Text.words text = [name] ∧ name ≠ endName ∧ ¬ isEmptyWord name := by
  unfold headName leftSideWord
  match Text.words text with
  | [] => simp [bind, Except.bind]
  | [word] =>
    by_cases reserved : word = endName ∨ isEmptyWord word
    · have excluded : ¬ (word = name ∧ name ≠ endName ∧ ¬ isEmptyWord name) := by
        rintro ⟨rfl, notEnd, notEmpty⟩
        exact reserved.elim notEnd notEmpty
      simpa [bind, Except.bind, if_pos reserved] using excluded
    · rw [not_or] at reserved
      simp only [bind, Except.bind, if_neg (not_or.mpr reserved), Except.ok.injEq,
        List.cons.injEq, and_true]
      exact ⟨fun same => ⟨same, same ▸ reserved⟩, And.left⟩
  | _ :: _ :: _ => simp [bind, Except.bind]

theorem trim_of_headName {text name : String} (named : headName text = .ok name) :
    Text.trim text = name :=
  Text.words_eq_of_trim (headName_eq_ok_iff.mp named).1

/-- The heads of pairs, without the blanks around them. -/
def trimmedHeads (pairs : List (String × String)) : List String :=
  pairs.map fun pair => Text.trim pair.1

/-- The heads of pairs in the order of their first appearance. -/
def headsOf (pairs : List (String × String)) : List String := (trimmedHeads pairs).eraseDups

/-- The words of bodies that stand for symbols and head no rule. -/
def terminalWords (pairs : List (String × String)) : List String :=
  (pairs.flatMap fun pair => bodyWords pair.2).filter fun word => word ∉ trimmedHeads pairs

theorem Named.map_head {pairs : List (String × String)} {rules : List NamedRule}
    (named : Named pairs rules) : rules.map NamedRule.head = trimmedHeads pairs := by
  have heads := named.heads
  clear named
  induction pairs generalizing rules with
  | nil =>
    obtain rfl := List.map_eq_nil_iff.mp heads
    rfl
  | cons pair rest ih =>
    cases rules with
    | nil => cases heads
    | cons rule rules =>
      obtain ⟨first, others⟩ := List.cons.inj heads
      rw [List.map_cons, ih others, ← trim_of_headName first.symm]
      rfl

theorem Named.flatMap_body {pairs : List (String × String)} {rules : List NamedRule}
    (named : Named pairs rules) :
    rules.flatMap NamedRule.body = pairs.flatMap fun pair => bodyWords pair.2 := by
  rw [List.flatMap_def, named.bodies, ← List.flatMap_def]

/-- The tables of a draft with all rules of these pairs. Each symbol has a name of its own. The
hidden start symbol comes first, then the heads and the terminals in the order of their first
appearance, and the end mark last. -/
structure Draft.Numbered (draft : Draft) (pairs : List (String × String))
    (designated : Option String) : Prop where
  distinct : (draft.symbols.toList.map Symbol.name).Nodup
  /-- The names of all symbols but the hidden one are found again, and no other names. -/
  table : ∀ name symbol, draft.indices[name]? = some symbol ↔
    0 < symbol ∧ draft.symbols[symbol]?.map Symbol.name = some name
  names : draft.symbols.toList.tail.map Symbol.name =
    headsOf pairs ++ (terminalWords pairs).eraseDups ++ [endName]
  kinds : ∀ symbol entry, draft.symbols[symbol]? = some entry →
    (entry.isNonTerminal ↔ symbol ≤ (headsOf pairs).length)
  last : draft.endMark + 1 = draft.symbols.size
  start : 0 < draft.start ∧ draft.start ≤ (headsOf pairs).length ∧
    draft.symbols[draft.start]?.map Symbol.name = designated.or (trimmedHeads pairs).head?
  hidden : draft.rules[0]? = some ⟨0, [draft.start]⟩
  rules : ∀ number rule, 0 < number → draft.rules[number]? = some rule →
    0 < rule.head ∧ rule.head ≤ (headsOf pairs).length ∧
    ∀ symbol ∈ rule.body, 0 < symbol ∧ symbol ≠ draft.endMark ∧ symbol < draft.symbols.size
  productions : ∀ symbol index name numbers,
    draft.symbols[symbol]? = some (Draft.Symbol.nonTerminal index name numbers) →
    index = symbol ∧ numbers ≠ [] ∧ numbers.Pairwise (· < ·) ∧
    ∀ number, number ∈ numbers ↔ ∃ rule, draft.rules[number]? = some rule ∧ rule.head = symbol

/-- What a grammar tells of a symbol, a name or a rule is what the tables have for it. -/
structure Draft.Agrees (draft : Draft) (g : Grammar) : Prop where
  symbol : ∀ symbol, draft.symbols[symbol]? = (g.name? symbol).map fun name =>
    if g.isNonTerminal symbol then .nonTerminal symbol name (g.productions symbol)
    else .terminal name
  index : ∀ name, draft.indices[name]? = g.index? name
  rule : ∀ number, draft.rules[number]? = g.rule? number
  start : draft.start = g.start
  endMark : draft.endMark = g.endMark

namespace Grammar

/-- The symbols are the hidden start symbol, the heads and the terminals in the order of their first
appearance, and the end mark. The hidden rule comes first and the others are about listed symbols
only. -/
structure Numbered (g : Grammar) (pairs : List (String × String))
    (designated : Option String) : Prop where
  symbols : List.range g.symbolCount = 0 :: (g.nonTerminals ++ g.terminals)
  named : ∀ symbol, (∃ name, g.name? symbol = some name) ↔ symbol < g.symbolCount
  distinct : ∀ symbol < g.symbolCount, ∀ other < g.symbolCount,
    g.name? symbol = g.name? other → symbol = other
  /-- The names of all symbols but the hidden one are found again, and no other names. -/
  table : ∀ name symbol, g.index? name = some symbol ↔ 0 < symbol ∧ g.name? symbol = some name
  heads : g.nonTerminals.map g.name? = (headsOf pairs).map some
  terminals : g.terminals.map g.name? = ((terminalWords pairs).eraseDups ++ [endName]).map some
  kinds : (∀ symbol ∈ g.nonTerminals, ¬ g.isTerminal symbol) ∧
    ∀ symbol ∈ g.terminals, g.isTerminal symbol
  last : g.terminals.getLast? = some g.endMark ∧ g.endMark + 1 = g.symbolCount
  start : g.start ∈ g.nonTerminals ∧ g.name? g.start = designated.or (trimmedHeads pairs).head?
  hidden : g.rule? 0 = some ⟨0, [g.start]⟩
  rules : ∀ number rule, 0 < number → g.rule? number = some rule → rule.head ∈ g.nonTerminals ∧
    ∀ symbol ∈ rule.body, 0 < symbol ∧ symbol ≠ g.endMark ∧ symbol < g.symbolCount
  productions : ∀ symbol, symbol = 0 ∨ symbol ∈ g.nonTerminals → g.productions symbol ≠ [] ∧
    (g.productions symbol).Pairwise (· < ·) ∧
    ∀ number, number ∈ g.productions symbol ↔ ∃ rule, g.rule? number = some rule ∧ rule.head = symbol

variable {g : Grammar}

theorem nonTerminals_append_terminals : g.nonTerminals ++ g.terminals = List.range' 1 g.endMark := by
  have start : g.nonTerminalCount + 1 = 1 + 1 * g.nonTerminalCount := by omega
  rw [nonTerminals, terminals, start, List.range'_append, endMark]

theorem range_symbolCount : List.range g.symbolCount = 0 :: (g.nonTerminals ++ g.terminals) := by
  rw [nonTerminals_append_terminals, symbolCount, List.range_eq_range', List.range'_succ]

theorem getLast?_terminals : g.terminals.getLast? = some g.endMark := by
  rw [terminals, terminalCount, List.range'_concat, List.getLast?_concat]
  congr 1
  unfold endMark terminalCount
  omega

theorem exists_name_iff {symbol : Nat} :
    (∃ name, g.name? symbol = some name) ↔ symbol < g.symbolCount := by
  constructor
  · rintro ⟨name, named⟩
    by_cases positive : 0 < symbol
    · exact Nat.lt_succ_of_le (le_endMark_of_name? positive named)
    · exact Nat.lt_of_le_of_lt (Nat.le_of_not_lt positive) (Nat.succ_pos _)
  · intro bound
    by_cases positive : 0 < symbol
    · exact exists_name positive (Nat.le_of_lt_succ bound)
    · obtain rfl : symbol = 0 := by omega
      exact ⟨g.hiddenName, rfl⟩

theorem name?_mem_names {symbol : Nat} {name : String} (positive : 0 < symbol)
    (named : g.name? symbol = some name) : name ∈ g.names := by
  obtain ⟨place, rfl⟩ := Nat.exists_eq_succ_of_ne_zero (Nat.ne_of_gt positive)
  rw [Nat.succ_eq_add_one, name?_succ] at named
  exact List.mem_of_getElem? named

theorem index?_eq_some_iff (wf : g.WellFormed) {name : String} {symbol : Nat} :
    g.index? name = some symbol ↔ 0 < symbol ∧ g.name? symbol = some name := by
  constructor
  · intro found
    obtain ⟨place, located, rfl⟩ := Option.map_eq_some_iff.mp found
    obtain ⟨inside, same, -⟩ := List.idxOf?_eq_some_iff.mp located
    refine ⟨Nat.succ_pos place, ?_⟩
    rw [name?_succ, List.getElem?_eq_getElem inside, same]
  · rintro ⟨positive, named⟩
    exact index?_of_name? wf positive named

/-- The hidden name is not one of the others. -/
theorem name?_injective (wf : g.WellFormed) (fresh : g.hiddenName ∉ g.names) {symbol other : Nat}
    (bound : symbol < g.symbolCount) (bound' : other < g.symbolCount)
    (same : g.name? symbol = g.name? other) : symbol = other := by
  have hidden : ∀ {symbol}, 0 < symbol → g.name? symbol ≠ g.name? 0 := fun positive same =>
    fresh (name?_mem_names positive same)
  rcases Nat.eq_zero_or_pos symbol with rfl | positive
  · rcases Nat.eq_zero_or_pos other with rfl | positive'
    · rfl
    · exact absurd same.symm (hidden positive')
  · rcases Nat.eq_zero_or_pos other with rfl | positive'
    · exact absurd same (hidden positive)
    · exact eq_of_name? wf ⟨positive, Nat.le_of_lt_succ bound⟩ positive' same

theorem mem_productions {symbol number : Nat} :
    number ∈ g.productions symbol ↔ ∃ rule, g.rule? number = some rule ∧ rule.head = symbol := by
  simp only [productions, List.mem_map, List.mem_filter, beq_iff_eq, Prod.exists,
    List.mem_zipIdx_iff_getElem?, rule?]
  constructor
  · rintro ⟨rule, _, ⟨found, head⟩, rfl⟩
    exact ⟨rule, found, head⟩
  · rintro ⟨rule, found, head⟩
    exact ⟨rule, number, ⟨found, head⟩, rfl⟩

theorem productions_ascending (symbol : Nat) : (g.productions symbol).Pairwise (· < ·) := by
  have numbers : g.rules.zipIdx.map Prod.snd = List.range g.rules.length := by
    rw [List.zipIdx_map_snd, List.range_eq_range']
  exact (numbers ▸ List.pairwise_lt_range).sublist (List.filter_sublist.map Prod.snd)

/-- The symbols after the hidden one have the listed names, in order. -/
theorem map_name?_symbols : (g.nonTerminals ++ g.terminals).map g.name? = g.names.map some := by
  rw [nonTerminals_append_terminals]
  refine List.ext_getElem (by simp [length_names]) fun place inside inside' => ?_
  rw [List.getElem_map, List.getElem_map, List.getElem_range', Nat.one_mul, Nat.add_comm, name?_succ]
  exact List.getElem?_eq_getElem _

theorem map_name?_kinds : g.nonTerminals.map g.name? = g.heads.toList.map some ∧
    g.terminals.map g.name? = (g.terminalNames.toList ++ [endName]).map some := by
  have both := @map_name?_symbols g
  rw [names, List.append_assoc, List.map_append, List.map_append] at both
  exact List.append_inj both (by simp [nonTerminals, nonTerminalCount])

section OfRules

variable {pairs : List (String × String)} {designated : Option String}

theorem start_mem (wf : g.WellFormed) : g.start ∈ g.nonTerminals :=
  mem_nonTerminals_iff.mpr ⟨wf.start_pos, wf.start_le⟩

/-- Each head has a rule: the hidden start symbol the hidden one, and the others those that they were
listed for. -/
theorem productions_ne_nil (built : ofRules pairs designated = .ok g) {symbol : Nat}
    (listed : symbol = 0 ∨ symbol ∈ g.nonTerminals) : g.productions symbol ≠ [] := by
  have wf := wellFormed_ofRules built
  have reads := reads_of_ofRules built
  suffices found : ∃ number rule, g.rule? number = some rule ∧ rule.head = symbol by
    obtain ⟨number, defined⟩ := found
    exact List.ne_nil_of_mem (mem_productions.mpr defined)
  rcases listed with rfl | listed
  · exact ⟨0, _, rfl, rfl⟩
  · obtain ⟨positive, bound⟩ := mem_nonTerminals_iff.mp listed
    obtain ⟨name, named⟩ := exists_name positive (Nat.le_trans bound (Nat.le_add_right _ _))
    obtain ⟨pair, member, head⟩ :=
      (reads.mem_heads name).mp ((mem_nonTerminals_iff_name wf positive named).mp listed)
    have entered : some name ∈ g.listed.map fun rule => g.name? rule.head := by
      rw [reads.heads]
      exact List.mem_map.mpr ⟨pair, member, by rw [head]; rfl⟩
    obtain ⟨rule, inListed, same⟩ := List.mem_map.mp entered
    obtain ⟨number, -, defined⟩ := exists_number inListed
    refine ⟨number, rule, defined,
      eq_of_name? wf ⟨wf.head_pos rule inListed, ?_⟩ positive (same.trans named.symm)⟩
    exact Nat.le_trans (wf.head_le rule inListed) (Nat.le_add_right _ _)

theorem exists_named (built : ofRules pairs designated = .ok g) :
    ∃ rules place startName, Named pairs rules ∧
    g = ofNamed (ParseTables.distinct (rules.map NamedRule.head)) place startName rules := by
  obtain ⟨first, rest, place, read, -, -, whole⟩ := ofEntries_eq_ok_iff.mp built
  exact ⟨first :: rest, place + 1, _, named_of_read read, whole⟩

theorem heads_ofRules (built : ofRules pairs designated = .ok g) :
    g.heads.toList = headsOf pairs := by
  obtain ⟨rules, place, startName, named, rfl⟩ := exists_named built
  rw [headsOf, ← named.map_head, ← distinct_eq_eraseDups]
  rfl

theorem terminalNames_ofRules (built : ofRules pairs designated = .ok g) :
    g.terminalNames.toList = (terminalWords pairs).eraseDups := by
  obtain ⟨rules, place, startName, named, rfl⟩ := exists_named built
  rw [terminalWords, ← named.map_head, ← named.flatMap_body, ← distinct_eq_eraseDups]
  simp only [← mem_distinct (l := rules.map NamedRule.head)]
  rfl

theorem hiddenName_not_mem (built : ofRules pairs designated = .ok g) : g.hiddenName ∉ g.names := by
  obtain ⟨rules, place, startName, -, rfl⟩ := exists_named built
  exact freshName_not_mem _ _

theorem start_ofRules (built : ofRules pairs designated = .ok g) :
    g.name? g.start = designated.or (trimmedHeads pairs).head? := by
  obtain ⟨rules, place, startName, named, -⟩ := exists_named built
  rw [(reads_of_ofRules built).start]
  cases pairs with
  | nil => rfl
  | cons pair rest =>
    cases rules with
    | nil => cases named.heads
    | cons rule rules =>
      have head : .ok rule.head = headName pair.1 := (List.cons.inj named.heads).1
      have trimmed : rule.head = Text.trim pair.1 := (List.cons.inj named.map_head).1
      rw [List.head?_cons, Option.bind_some, ← head, trimmedHeads, List.map_cons, List.head?_cons,
        ← trimmed]
      rfl

theorem numbered (built : ofRules pairs designated = .ok g) : g.Numbered pairs designated := by
  have wf := wellFormed_ofRules built
  obtain ⟨heads, terminals⟩ := @map_name?_kinds g
  constructor
  · exact range_symbolCount
  · exact fun symbol => exists_name_iff
  · exact fun symbol bound other bound' => name?_injective wf (hiddenName_not_mem built) bound bound'
  · exact fun name symbol => index?_eq_some_iff wf
  · rw [heads, heads_ofRules built]
  · rw [terminals, terminalNames_ofRules built]
  · refine ⟨fun symbol listed terminal => ?_, fun symbol => mem_terminals_iff.mp⟩
    exact Nat.not_le.mpr (isTerminal_iff.mp terminal).1 (mem_nonTerminals_iff.mp listed).2
  · exact ⟨getLast?_terminals, rfl⟩
  · exact ⟨start_mem wf, start_ofRules built⟩
  · rfl
  · intro number rule positive defined
    have listed := mem_listed_of_rule? positive defined
    refine ⟨mem_nonTerminals_iff.mpr ⟨wf.head_pos rule listed, wf.head_le rule listed⟩,
      fun symbol inBody => ?_⟩
    have bound := wf.body_lt rule listed symbol inBody
    exact ⟨wf.body_pos rule listed symbol inBody, Nat.ne_of_lt bound, Nat.lt_succ_of_lt bound⟩
  · intro symbol listed
    exact ⟨productions_ne_nil built listed, productions_ascending symbol, fun number => mem_productions⟩

/-- The tables of a grammar are numbered because the grammar is, which has all that they hold. -/
theorem numbered_draft (built : ofRules pairs designated = .ok g) {draft : Draft}
    (shows : draft.Shows g) : draft.Numbered pairs designated := by
  have wf := wellFormed_ofRules built
  have numbered := numbered built
  have heads : g.nonTerminalCount = (headsOf pairs).length := by
    rw [← heads_ofRules built, Array.length_toList, nonTerminalCount]
  have kind {symbol : Nat} : g.isNonTerminal symbol ↔ symbol ≤ (headsOf pairs).length := by
    rw [isNonTerminal, decide_eq_true_iff, heads]
  constructor
  · rw [shows.map_name]
    exact List.nodup_cons.mpr ⟨hiddenName_not_mem built, wf.names_nodup⟩
  · intro name symbol
    rw [shows.indices, index?_eq_some_iff wf, shows.name?]
  · rw [List.map_tail, shows.map_name, List.tail_cons, names, heads_ofRules built,
      terminalNames_ofRules built]
  · intro symbol entry found
    rw [shows.symbol?, Option.map_eq_some_iff] at found
    obtain ⟨name, -, rfl⟩ := found
    rw [← kind]
    split <;> simp [Draft.Symbol.isNonTerminal, *]
  · rw [shows.endMark, shows.size]
    rfl
  · obtain ⟨positive, bound⟩ := mem_nonTerminals_iff.mp numbered.start.1
    rw [shows.start, ← shows.name?, ← heads]
    exact ⟨positive, bound, numbered.start.2⟩
  · rw [← shows.rule?, shows.start]
    rfl
  · intro number rule positive found
    obtain ⟨listed, body⟩ := numbered.rules number rule positive ((shows.rule? number).trans found)
    obtain ⟨positive, bound⟩ := mem_nonTerminals_iff.mp listed
    rw [← heads, shows.endMark, shows.size]
    exact ⟨positive, bound, body⟩
  · intro symbol index name numbers found
    rw [shows.symbol?, Option.map_eq_some_iff] at found
    obtain ⟨other, -, entry⟩ := found
    split at entry
    · rename_i kind
      obtain ⟨rfl, -, rfl⟩ := Draft.Symbol.nonTerminal.inj entry
      have bound : symbol ≤ g.nonTerminalCount := of_decide_eq_true kind
      have listed : symbol = 0 ∨ symbol ∈ g.nonTerminals := by
        rw [mem_nonTerminals_iff]
        omega
      have headed := numbered.productions symbol listed
      simp only [shows.rule?] at headed
      exact ⟨rfl, headed⟩
    · cases entry

/-- The tables that the rules are entered into end as the numbering by the pairs says, and the
grammar is looked up in them. -/
theorem numbered_ofRules (built : ofRules pairs designated = .ok g) :
    ∃ draft, Draft.ofRules pairs designated = .ok draft ∧ draft.Numbered pairs designated ∧
      draft.Agrees g ∧ g.Numbered pairs designated := by
  obtain ⟨draft, filled, shows⟩ := exists_draft built
  exact ⟨draft, filled, numbered_draft built shows,
    ⟨shows.symbol?, shows.indices, fun number => (shows.rule? number).symm, shows.start,
      shows.endMark⟩, numbered built⟩

end OfRules

/-- A terminal and a head take the first two primed names of the start symbol, so the hidden one has
three primes. -/
theorem numbered_primedNames : ∃ g draft,
    ofRules [("s", "s' x"), (" s'' ", "ε s"), ("s", "s'' e")] none = .ok g ∧
    g.hiddenName = "s'''" ∧ g.names = ["s", "s''", "s'", "x", "$"] ∧
    Draft.ofRules [("s", "s' x"), (" s'' ", "ε s"), ("s", "s'' e")] none = .ok draft ∧
    draft.symbols = #[.nonTerminal 0 "s'''" [0], .nonTerminal 1 "s" [1, 3], .nonTerminal 2 "s''" [2],
      .terminal "s'", .terminal "x", .terminal "$"] ∧
    draft.Numbered [("s", "s' x"), (" s'' ", "ε s"), ("s", "s'' e")] none ∧ draft.Agrees g ∧
    g.Numbered [("s", "s' x"), (" s'' ", "ε s"), ("s", "s'' e")] none := by
  have built : ofRules [("s", "s' x"), (" s'' ", "ε s"), ("s", "s'' e")] none =
      .ok ⟨"s'''", #["s", "s''"], #["s'", "x"], 1, [⟨1, [3, 4]⟩, ⟨2, [1]⟩, ⟨1, [2]⟩]⟩ := by cbv
  have symbols : (Draft.ofRules [("s", "s' x"), (" s'' ", "ε s"), ("s", "s'' e")] none).map
      Draft.symbols = .ok #[.nonTerminal 0 "s'''" [0], .nonTerminal 1 "s" [1, 3],
        .nonTerminal 2 "s''" [2], .terminal "s'", .terminal "x", .terminal "$"] := by cbv
  obtain ⟨draft, filled, numbered⟩ := numbered_ofRules built
  rw [filled] at symbols
  exact ⟨_, draft, built, rfl, rfl, filled, Except.ok.inj symbols, numbered⟩

end Grammar

end ParseTables
