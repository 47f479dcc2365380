import ParseTables.Proofs.Grammar.Draft

namespace ParseTables

/-- The name is the head of one of the pairs. -/
def Heads (pairs : List (String × String)) (name : String) : Prop :=
  ∃ pair ∈ pairs, headName pair.1 = .ok name

/-- The word stands in the body of one of the pairs. -/
def Occurs (pairs : List (String × String)) (word : String) : Prop :=
  ∃ pair ∈ pairs, word ∈ bodyWords pair.2

/-- The rules have the names of the pairs, in their order. The lines that errors refer to do not
matter. -/
structure Named (pairs : List (String × String)) (rules : List NamedRule) : Prop where
  heads : (rules.map fun rule => Except.ok rule.head) = pairs.map fun pair => headName pair.1
  bodies : rules.map NamedRule.body = pairs.map fun pair => bodyWords pair.2

/-- The entries for pairs, numbered from a line on. -/
def entriesFrom (line : Nat) (pairs : List (String × String)) : List RuleEntry :=
  (pairs.zipIdx line).map fun ((head, body), line) => ⟨line, head, body⟩

theorem RuleEntry.named_eq_ok_iff {entry : RuleEntry} {rule : NamedRule} : entry.named = .ok rule ↔
    headName entry.head = .ok rule.head ∧ rule.line = entry.line ∧ rule.body = bodyWords entry.body := by
  unfold named
  cases headName entry.head with
  | error fault => simp
  | ok head =>
    obtain ⟨line, head', body⟩ := rule
    simp only [Except.ok.injEq, NamedRule.mk.injEq]
    exact ⟨fun ⟨lines, heads, bodies⟩ => ⟨heads, lines.symm, bodies.symm⟩,
      fun ⟨heads, lines, bodies⟩ => ⟨lines.symm, heads, bodies.symm⟩⟩

theorem NamedRule.fault?_eq_none_iff {heads : List String} {rule : NamedRule} :
    rule.fault? heads = none ↔
    ∀ word ∈ rule.body, word ≠ endName ∧ (Text.startsUppercase word → word ∈ heads) := by
  unfold fault? wordFault?
  rw [List.findSome?_eq_none_iff]
  refine forall₂_congr fun word _ => ?_
  by_cases reserved : word = endName
  · simp [reserved]
  · by_cases known : word ∈ heads <;> simp [reserved, known]

theorem named_of_read {pairs : List (String × String)} {line : Nat} {rules : List NamedRule}
    (read : (entriesFrom line pairs).mapM RuleEntry.named = .ok rules) : Named pairs rules := by
  rw [mapM_eq_ok_iff] at read
  induction pairs generalizing line rules with
  | nil =>
    obtain rfl : rules = [] := List.map_eq_nil_iff.mp read.symm
    exact ⟨rfl, rfl⟩
  | cons pair rest ih =>
    cases rules with
    | nil => cases read
    | cons rule rules =>
      obtain ⟨first, others⟩ := List.cons.inj read
      obtain ⟨head, -, body⟩ := RuleEntry.named_eq_ok_iff.mp first
      obtain ⟨heads, bodies⟩ := ih others
      exact ⟨congr (congrArg List.cons head.symm) heads, congr (congrArg List.cons body) bodies⟩

/-- Pairs with proper heads are read. -/
theorem exists_read {pairs : List (String × String)} (line : Nat)
    (proper : ∀ pair ∈ pairs, ∃ name, headName pair.1 = .ok name) :
    ∃ rules, (entriesFrom line pairs).mapM RuleEntry.named = .ok rules := by
  cases read : (entriesFrom line pairs).mapM RuleEntry.named with
  | ok rules => exact ⟨rules, rfl⟩
  | error e =>
    obtain ⟨entry, member, failed⟩ := exists_of_mapM_error read
    obtain ⟨⟨⟨head, body⟩, line⟩, inside, rfl⟩ := List.mem_map.mp member
    obtain ⟨name, named⟩ := proper (head, body) (List.fst_mem_of_mem_zipIdx inside)
    have succeeds : RuleEntry.named ⟨line, head, body⟩ = .ok ⟨line, name, bodyWords body⟩ :=
      RuleEntry.named_eq_ok_iff.mpr ⟨named, rfl, rfl⟩
    cases failed.symm.trans succeeds

namespace Named

variable {pairs : List (String × String)} {rules : List NamedRule}

theorem exists_headName (named : Named pairs rules) {pair : String × String} (member : pair ∈ pairs) :
    ∃ name, headName pair.1 = .ok name := by
  have listed : headName pair.1 ∈ pairs.map fun pair => headName pair.1 := List.mem_map_of_mem member
  rw [← named.heads] at listed
  obtain ⟨rule, -, same⟩ := List.mem_map.mp listed
  exact ⟨rule.head, same.symm⟩

theorem mem_heads (named : Named pairs rules) {name : String} :
    name ∈ distinct (rules.map NamedRule.head) ↔ Heads pairs name := by
  have same : (.ok name : Except RuleFault String) ∈ rules.map (fun rule => .ok rule.head) ↔
      .ok name ∈ pairs.map fun pair => headName pair.1 := by rw [named.heads]
  rw [mem_distinct]
  simpa [Heads] using same

theorem mem_bodies (named : Named pairs rules) {word : String} :
    (∃ rule ∈ rules, word ∈ rule.body) ↔ Occurs pairs word := by
  rw [← List.mem_flatMap, List.flatMap_def, named.bodies, ← List.flatMap_def, List.mem_flatMap]
  exact Iff.rfl

/-- No rule is at fault if each word of a body is another than the end mark, and heads a rule if it looks
like a non-terminal. -/
theorem faultless_iff (named : Named pairs rules) :
    (∀ rule ∈ rules, rule.fault? (distinct (rules.map NamedRule.head)) = none) ↔
      ∀ word, Occurs pairs word → word ≠ endName ∧ (Text.startsUppercase word → Heads pairs word) := by
  simp only [NamedRule.fault?_eq_none_iff, named.mem_heads, ← named.mem_bodies]
  exact ⟨fun sound word ⟨rule, member, inBody⟩ => sound rule member word inBody,
    fun sound rule member word inBody => sound word ⟨rule, member, inBody⟩⟩

end Named

namespace Grammar

/-- Pairs make a grammar if there are any, their heads are proper, the designated start symbol is among
the heads, and no body has the end mark or a word with an upper-case first letter that heads no pair. -/
theorem exists_ofRules_iff {pairs : List (String × String)} {designated : Option String} :
    (∃ g, ofRules pairs designated = .ok g) ↔
      pairs ≠ [] ∧ (∀ pair ∈ pairs, ∃ name, headName pair.1 = .ok name) ∧
      (∀ start ∈ designated, Heads pairs start) ∧
      ∀ word, Occurs pairs word → word ≠ endName ∧ (Text.startsUppercase word → Heads pairs word) := by
  constructor
  · rintro ⟨g, built⟩
    obtain ⟨first, rest, place, read, found, sound, -⟩ := ofEntries_eq_ok_iff.mp built
    have named : Named pairs (first :: rest) := named_of_read read
    refine ⟨?_, fun pair => named.exists_headName, fun start chosen => ?_, named.faultless_iff.mp sound⟩
    · rintro rfl
      cases named.heads
    · obtain rfl : designated = some start := chosen
      obtain ⟨inside, same, -⟩ := List.idxOf?_eq_some_iff.mp found
      exact named.mem_heads.mp (List.mem_iff_getElem.mpr ⟨place, inside, same⟩)
  · rintro ⟨nonempty, proper, started, sound⟩
    obtain ⟨rules, read⟩ := exists_read 1 proper
    have named : Named pairs rules := named_of_read read
    cases rules with
    | nil => exact absurd (List.map_eq_nil_iff.mp named.heads.symm) nonempty
    | cons first rest =>
      have member : designated.getD first.head ∈ distinct ((first :: rest).map NamedRule.head) := by
        cases designated with
        | none => exact mem_distinct.mpr List.mem_cons_self
        | some start => exact named.mem_heads.mpr (started start rfl)
      obtain ⟨place, found⟩ := Option.ne_none_iff_exists'.mp fun missing =>
        List.idxOf?_eq_none_iff.mp missing member
      exact ⟨_, ofEntries_eq_ok_iff.mpr
        ⟨first, rest, place, read, found, named.faultless_iff.mpr sound, rfl⟩⟩

/-- A grammar has these pairs as its rules, by names. -/
structure Reads (g : Grammar) (pairs : List (String × String)) (designated : Option String) : Prop where
  wf : g.WellFormed
  mem_heads : ∀ name, name ∈ g.heads ↔ Heads pairs name
  mem_terminals : ∀ word, word ∈ g.terminalNames ↔ Occurs pairs word ∧ ¬ Heads pairs word
  heads : (g.listed.map fun rule => g.name? rule.head) = pairs.map fun pair => (headName pair.1).toOption
  bodies : (g.listed.map fun rule => rule.body.map g.name?) = pairs.map fun pair =>
    (bodyWords pair.2).map some
  start : g.name? g.start = designated.or (pairs.head?.bind fun pair => (headName pair.1).toOption)

theorem Reads.mem_names {pairs : List (String × String)} {designated : Option String} {g : Grammar}
    (reads : g.Reads pairs designated) {name : String} :
    name ∈ g.names ↔ Heads pairs name ∨ Occurs pairs name ∨ name = endName := by
  simp only [names, List.mem_append, List.mem_singleton, Array.mem_toList_iff, reads.mem_heads,
    reads.mem_terminals]
  by_cases heads : Heads pairs name <;> simp [heads]

theorem name?_ofNamed {heads : List String} {start : Nat} {startName word : String}
    {rules : List NamedRule} (known : word ∈ heads ++ bodyTerminals heads rules) :
    (ofNamed heads start startName rules).name? ((heads ++ bodyTerminals heads rules).idxOf word + 1) =
      some word := by
  have inside := List.idxOf_lt_length_of_mem known
  rw [name?_succ, names_ofNamed, List.getElem?_append_left inside, List.getElem?_eq_getElem inside]
  exact congrArg some (List.getElem_idxOf inside)

/-- Each listed rule of a grammar has the names of the pair in its place. -/
theorem reads_of_ofRules {pairs : List (String × String)} {designated : Option String} {g : Grammar}
    (built : ofRules pairs designated = .ok g) : g.Reads pairs designated := by
  have wf := wellFormed_ofRules built
  obtain ⟨first, rest, place, read, found, sound, rfl⟩ := ofEntries_eq_ok_iff.mp built
  have named : Named pairs (first :: rest) := named_of_read read
  have known : ∀ rule ∈ first :: rest, ∀ word, word = rule.head ∨ word ∈ rule.body →
      word ∈ distinct ((first :: rest).map NamedRule.head) ++
        bodyTerminals (distinct ((first :: rest).map NamedRule.head)) (first :: rest) := by
    intro rule member word place
    by_cases head : word ∈ distinct ((first :: rest).map NamedRule.head)
    · exact List.mem_append_left _ head
    · rcases place with rfl | inBody
      · exact absurd (mem_distinct.mpr (List.mem_map_of_mem member)) head
      · exact List.mem_append_right _ (mem_bodyTerminals.mpr ⟨⟨rule, member, inBody⟩, head⟩)
  constructor
  · exact wf
  · intro name
    exact List.mem_toArray.trans named.mem_heads
  · intro word
    refine List.mem_toArray.trans (mem_bodyTerminals.trans ?_)
    rw [named.mem_heads, named.mem_bodies]
  · have heads := congrArg (List.map Except.toOption) named.heads
    rw [List.map_map, List.map_map] at heads
    refine Eq.trans ?_ heads
    refine List.map_map.trans (List.map_congr_left fun rule member => ?_)
    exact name?_ofNamed (known rule member rule.head (Or.inl rfl))
  · have bodies := congrArg (List.map (List.map some)) named.bodies
    rw [List.map_map, List.map_map] at bodies
    refine Eq.trans ?_ bodies
    refine List.map_map.trans (List.map_congr_left fun rule member => ?_)
    refine List.map_map.trans (List.map_congr_left fun word inBody => ?_)
    exact name?_ofNamed (known rule member word (Or.inr inBody))
  · obtain ⟨inside, same, -⟩ := List.idxOf?_eq_some_iff.mp found
    have leading : pairs.head?.bind (fun pair => (headName pair.1).toOption) = some first.head := by
      have heads := named.heads
      cases pairs with
      | nil => cases heads
      | cons pair _ => exact congrArg Except.toOption (List.cons.inj heads).1.symm
    have named : (ofNamed (distinct ((first :: rest).map NamedRule.head)) (place + 1)
        (designated.getD first.head) (first :: rest)).name? (place + 1) =
        (distinct ((first :: rest).map NamedRule.head))[place]? := by
      rw [name?_succ, names_ofNamed, List.append_assoc, List.getElem?_append_left inside]
    rw [leading, Option.or_some, ← same, ← List.getElem?_eq_getElem inside]
    exact named

end Grammar

end ParseTables
