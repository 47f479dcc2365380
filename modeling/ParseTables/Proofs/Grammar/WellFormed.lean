import ParseTables.Proofs.Grammar.AtOnce

namespace ParseTables

/-- The rules are about listed symbols only, and no two symbols share a name. All arguments about a
grammar start from this and never look at how the rules were read. -/
structure Grammar.WellFormed (g : Grammar) : Prop where
  start_pos : 0 < g.start
  start_le : g.start ≤ g.nonTerminalCount
  head_pos : ∀ rule ∈ g.listed, 0 < rule.head
  head_le : ∀ rule ∈ g.listed, rule.head ≤ g.nonTerminalCount
  body_pos : ∀ rule ∈ g.listed, ∀ symbol ∈ rule.body, 0 < symbol
  body_lt : ∀ rule ∈ g.listed, ∀ symbol ∈ rule.body, symbol < g.endMark
  names_nodup : g.names.Nodup

namespace Grammar

variable {g : Grammar}

theorem mem_listed_of_rule? {number : Nat} {rule : Rule} (positive : 0 < number)
    (found : g.rule? number = some rule) : rule ∈ g.listed := by
  obtain ⟨place, rfl⟩ := Nat.exists_eq_succ_of_ne_zero (Nat.ne_of_gt positive)
  exact List.mem_of_getElem? found

theorem exists_number {rule : Rule} (member : rule ∈ g.listed) :
    ∃ number, 0 < number ∧ g.rule? number = some rule := by
  obtain ⟨place, found⟩ := List.mem_iff_getElem?.mp member
  exact ⟨place + 1, Nat.succ_pos place, found⟩

end Grammar

/-- All of a list is read exactly if each of its elements is. -/
theorem mapM_eq_ok_iff {α β ε : Type} {f : α → Except ε β} {l : List α} {out : List β} :
    l.mapM f = .ok out ↔ l.map f = out.map .ok := by
  induction l generalizing out with
  | nil => cases out <;> simp [pure, Except.pure]
  | cons a rest ih =>
    rw [List.mapM_cons]
    cases first : f a with
    | error e => cases out <;> simp [bind, Except.bind, first]
    | ok b =>
      cases later : rest.mapM f with
      | error e => cases out <;> simp [bind, Except.bind, first, ← ih, later]
      | ok bs => cases out <;> simp [bind, Except.bind, pure, Except.pure, first, ← ih, later]

/-- All of a list can be looked up exactly if each of its elements can. -/
theorem mapM_eq_some_iff {α β : Type} {f : α → Option β} {l : List α} {out : List β} :
    l.mapM f = some out ↔ l.map f = out.map some := by
  induction l generalizing out with
  | nil => cases out <;> simp
  | cons a rest ih =>
    rw [List.mapM_cons]
    cases first : f a with
    | none => cases out <;> simp [first]
    | some b =>
      cases later : rest.mapM f with
      | none => cases out <;> simp [first, ← ih, later]
      | some others => cases out <;> simp [first, ← ih, later]

theorem exists_of_mapM_eq_some {α β : Type} {f : α → Option β} {l : List α} {out : List β}
    (found : l.mapM f = some out) {b : β} (member : b ∈ out) : ∃ a ∈ l, f a = some b :=
  List.mem_map.mp (mapM_eq_some_iff.mp found ▸ List.mem_map_of_mem member)

theorem mapM_eq_map {α β : Type} {f : α → Option β} {value : α → β} {l : List α}
    (each : ∀ a ∈ l, f a = some (value a)) : l.mapM f = some (l.map value) := by
  rw [mapM_eq_some_iff, List.map_map]
  exact List.map_congr_left each

theorem exists_mapM {α β : Type} {f : α → Option β} {l : List α} (each : ∀ a ∈ l, ∃ b, f a = some b) :
    ∃ out, l.mapM f = some out := by
  induction l with
  | nil => exact ⟨[], rfl⟩
  | cons a rest ih =>
    obtain ⟨b, first⟩ := each a List.mem_cons_self
    obtain ⟨others, later⟩ := ih fun other member => each other (List.mem_cons_of_mem _ member)
    exact ⟨b :: others, by simp [first, later]⟩

theorem mapM_eq_none_of_mem {α β : Type} {f : α → Option β} {l : List α} {a : α} (member : a ∈ l)
    (missing : f a = none) : l.mapM f = none := by
  induction member with
  | head => simp [missing]
  | tail _ _ ih => simp [ih]

theorem exists_of_mem_mapM {α β ε : Type} {f : α → Except ε β} {l : List α} {out : List β}
    (read : l.mapM f = .ok out) {b : β} (member : b ∈ out) : ∃ a ∈ l, f a = .ok b :=
  List.mem_map.mp (mapM_eq_ok_iff.mp read ▸ List.mem_map_of_mem member)

/-- The error of a result, if it is one. -/
def errorOf? {α ε : Type} : Except ε α → Option ε
  | .error e => some e
  | .ok _ => none

theorem errorOf?_eq_some_iff {α ε : Type} {result : Except ε α} {e : ε} :
    errorOf? result = some e ↔ result = .error e := by
  cases result <;> simp [errorOf?]

theorem errorOf?_eq_none_iff {α ε : Type} {result : Except ε α} :
    errorOf? result = none ↔ ∃ a, result = .ok a := by
  cases result <;> simp [errorOf?]

/-- Reading fails with the error of the first element that cannot be read. -/
theorem mapM_eq_error_iff {α β ε : Type} {f : α → Except ε β} {l : List α} {e : ε} :
    l.mapM f = .error e ↔ l.findSome? (fun a => errorOf? (f a)) = some e := by
  induction l with
  | nil => simp [pure, Except.pure]
  | cons a rest ih =>
    rw [List.mapM_cons, List.findSome?_cons]
    cases f a with
    | error other => simp [errorOf?, bind, Except.bind]
    | ok c =>
      rw [show errorOf? (.ok c : Except ε β) = none from rfl, ← ih]
      cases rest.mapM f <;> simp [bind, Except.bind, pure, Except.pure]

theorem exists_of_mapM_error {α β ε : Type} {f : α → Except ε β} {l : List α} {e : ε}
    (failed : l.mapM f = .error e) : ∃ a ∈ l, f a = .error e := by
  obtain ⟨a, member, fails⟩ := List.exists_of_findSome?_eq_some (mapM_eq_error_iff.mp failed)
  exact ⟨a, member, errorOf?_eq_some_iff.mp fails⟩

/-- A head is never the end mark, because that word is reserved. -/
theorem RuleEntry.named_head_ne_end {entry : RuleEntry} {rule : NamedRule}
    (read : entry.named = .ok rule) : rule.head ≠ endName := by
  unfold RuleEntry.named at read
  split at read
  · simp at read
  · rename_i head named
    cases Except.ok.inj read
    unfold headName at named
    cases word : leftSideWord entry.head with
    | error fault => simp [word, bind, Except.bind] at named
    | ok text =>
      simp only [word, bind, Except.bind] at named
      split at named
      · simp at named
      · rename_i free
        cases Except.ok.inj named
        exact fun reserved => free (Or.inl reserved)

theorem NamedRule.body_ne_end {heads : List String} {rule : NamedRule}
    (sound : rule.fault? heads = none) {word : String} (member : word ∈ rule.body) :
    word ≠ endName := by
  rintro rfl
  have checked := List.findSome?_eq_none_iff.mp sound endName member
  simp [wordFault?] at checked

namespace Grammar

variable {heads : List String} {start : Nat} {startName : String} {rules : List NamedRule}

/-- The terminals that `ofNamed` finds in the bodies. -/
def bodyTerminals (heads : List String) (rules : List NamedRule) : List String :=
  distinct ((rules.flatMap NamedRule.body).filter fun word => word ∉ heads)

theorem mem_bodyTerminals {word : String} : word ∈ bodyTerminals heads rules ↔
    (∃ rule ∈ rules, word ∈ rule.body) ∧ word ∉ heads := by
  simp [bodyTerminals, mem_distinct]

theorem names_ofNamed : (ofNamed heads start startName rules).names =
    heads ++ bodyTerminals heads rules ++ [endName] := rfl

theorem endMark_ofNamed : (ofNamed heads start startName rules).endMark =
    heads.length + (bodyTerminals heads rules).length + 1 := by
  simp [ofNamed, bodyTerminals, endMark, nonTerminalCount, terminalCount, Nat.add_assoc]

theorem nonTerminalCount_ofNamed :
    (ofNamed heads start startName rules).nonTerminalCount = heads.length := rfl

/-- The numbering of names turns checked named rules into a well-formed grammar. -/
theorem wellFormed_ofNamed (nodup : heads.Nodup) (free : endName ∉ heads)
    (positive : 0 < start) (listed : start ≤ heads.length)
    (headed : ∀ rule ∈ rules, rule.head ∈ heads)
    (sound : ∀ rule ∈ rules, ∀ word ∈ rule.body, word ≠ endName) :
    (ofNamed heads start startName rules).WellFormed := by
  have disjoint : ∀ word ∈ heads, word ∉ bodyTerminals heads rules :=
    fun word inHeads inBodies => (mem_bodyTerminals.mp inBodies).2 inHeads
  have free' : endName ∉ bodyTerminals heads rules := by
    intro member
    obtain ⟨⟨rule, inRules, inBody⟩, -⟩ := mem_bodyTerminals.mp member
    exact sound rule inRules endName inBody rfl
  have located : ∀ rule ∈ rules, ∀ word ∈ rule.body, word ∈ heads ++ bodyTerminals heads rules := by
    intro rule inRules word inBody
    by_cases inHeads : word ∈ heads
    · exact List.mem_append_left _ inHeads
    · exact List.mem_append_right _ (mem_bodyTerminals.mpr ⟨⟨rule, inRules, inBody⟩, inHeads⟩)
  have listedRule : ∀ rule ∈ (ofNamed heads start startName rules).listed, ∃ named ∈ rules,
      rule = ⟨(heads ++ bodyTerminals heads rules).idxOf named.head + 1,
        named.body.map fun word => (heads ++ bodyTerminals heads rules).idxOf word + 1⟩ := by
    intro rule member
    obtain ⟨named, inRules, rfl⟩ := List.mem_map.mp member
    exact ⟨named, inRules, rfl⟩
  constructor
  · exact positive
  · exact listed
  · intro rule member
    obtain ⟨named, -, rfl⟩ := listedRule rule member
    exact Nat.succ_pos _
  · intro rule member
    obtain ⟨named, inRules, rfl⟩ := listedRule rule member
    rw [nonTerminalCount_ofNamed]
    show (heads ++ bodyTerminals heads rules).idxOf named.head + 1 ≤ heads.length
    rw [List.idxOf_append, if_pos (headed named inRules)]
    exact List.idxOf_lt_length_of_mem (headed named inRules)
  · intro rule member symbol inBody
    obtain ⟨named, -, rfl⟩ := listedRule rule member
    obtain ⟨word, -, rfl⟩ := List.mem_map.mp inBody
    exact Nat.succ_pos _
  · intro rule member symbol inBody
    obtain ⟨named, inRules, rfl⟩ := listedRule rule member
    obtain ⟨word, inside, rfl⟩ := List.mem_map.mp inBody
    have bound := List.idxOf_lt_length_of_mem (located named inRules word inside)
    rw [List.length_append] at bound
    rw [endMark_ofNamed]
    omega
  · rw [names_ofNamed]
    refine List.nodup_append.mpr ⟨?_, by simp, ?_⟩
    · refine List.nodup_append.mpr ⟨nodup, nodup_distinct _, ?_⟩
      rintro a inHeads b inBodies rfl
      exact disjoint a inHeads inBodies
    · rintro a member b last rfl
      rw [List.mem_singleton.mp last] at member
      rcases List.mem_append.mp member with inHeads | inBodies
      · exact free inHeads
      · exact free' inBodies

theorem ofHeads_eq_ok_iff {g : Grammar} : ofHeads heads startName rules = .ok g ↔ ∃ place,
    heads.idxOf? startName = some place ∧ (∀ rule ∈ rules, rule.fault? heads = none) ∧
      g = ofNamed heads (place + 1) startName rules := by
  unfold ofHeads
  cases heads.idxOf? startName with
  | none => simp
  | some place =>
    simp only [Option.some.injEq, exists_eq_left', ← List.findSome?_eq_none_iff (l := rules)]
    cases rules.findSome? (NamedRule.fault? heads) <;> simp [eq_comm]

/-- Entered rules make a grammar if all are read, the start symbol heads one, and none is at fault. -/
theorem atOnce_eq_ok_iff {entries : List RuleEntry} {designated : Option String} {g : Grammar} :
    atOnce entries designated = .ok g ↔ ∃ first rest place,
      entries.mapM RuleEntry.named = .ok (first :: rest) ∧
      (distinct ((first :: rest).map NamedRule.head)).idxOf? (designated.getD first.head) = some place ∧
      (∀ rule ∈ first :: rest, rule.fault? (distinct ((first :: rest).map NamedRule.head)) = none) ∧
      g = ofNamed (distinct ((first :: rest).map NamedRule.head)) (place + 1)
        (designated.getD first.head)
        (first :: rest) := by
  unfold atOnce
  constructor
  · intro built
    cases read : entries.mapM RuleEntry.named with
    | error e => simp [read, bind, Except.bind] at built
    | ok rules =>
      simp only [read, bind, Except.bind] at built
      split at built
      · simp at built
      · rename_i first rest
        obtain ⟨place, found, sound, whole⟩ := ofHeads_eq_ok_iff.mp built
        exact ⟨first, rest, place, rfl, found, sound, whole⟩
  · rintro ⟨first, rest, place, read, found, sound, whole⟩
    simp only [read, bind, Except.bind]
    exact ofHeads_eq_ok_iff.mpr ⟨place, found, sound, whole⟩

theorem wellFormed_atOnce {entries : List RuleEntry} {designated : Option String} {g : Grammar}
    (built : atOnce entries designated = .ok g) : g.WellFormed := by
  obtain ⟨first, rest, place, read, found, sound, rfl⟩ := atOnce_eq_ok_iff.mp built
  obtain ⟨inside, -, -⟩ := List.idxOf?_eq_some_iff.mp found
  refine wellFormed_ofNamed (nodup_distinct _) ?_ (Nat.succ_pos _) inside ?_ ?_
  · intro member
    obtain ⟨rule, inRules, reserved⟩ := List.mem_map.mp (mem_distinct.mp member)
    obtain ⟨entry, -, named⟩ := exists_of_mem_mapM read inRules
    exact entry.named_head_ne_end named reserved
  · intro rule inRules
    exact mem_distinct.mpr (List.mem_map_of_mem inRules)
  · intro rule inRules word inBody
    exact NamedRule.body_ne_end (sound rule inRules) inBody

end Grammar

end ParseTables
