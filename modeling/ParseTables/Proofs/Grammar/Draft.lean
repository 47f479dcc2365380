import Mathlib.Data.List.Basic
import ParseTables.Proofs.Grammar.WellFormed

namespace ParseTables

/-- The names after one more word was met: it is entered unless it is known. -/
def enlarge (heads known : List String) (word : String) : List String :=
  if word ∈ heads ++ known then known else known ++ [word]

section Enlarge

variable {heads known : List String} {word : String}

theorem prefix_enlarge : known <+: enlarge heads known word := by
  unfold enlarge
  split
  · exact List.prefix_rfl
  · exact List.prefix_append known [word]

theorem prefix_foldl_enlarge {words : List String} : known <+: words.foldl (enlarge heads) known := by
  induction words generalizing known with
  | nil => exact List.prefix_rfl
  | cons word rest ih => exact prefix_enlarge.trans ih

theorem mem_enlarge : word ∈ heads ++ enlarge heads known word := by
  unfold enlarge
  split
  · assumption
  · simp

theorem mem_foldl_enlarge {words : List String} (member : word ∈ words) :
    word ∈ heads ++ words.foldl (enlarge heads) known := by
  induction words generalizing known with
  | nil => cases member
  | cons first rest ih =>
    rw [List.foldl_cons]
    rcases List.mem_cons.mp member with rfl | later
    · exact ((List.prefix_append_right_inj heads).mpr prefix_foldl_enlarge).subset mem_enlarge
    · exact ih later

/-- Words are entered in the order of their first appearance. -/
theorem foldl_enlarge (words : List String) : words.foldl (enlarge heads) known =
    known ++ (distinct words).filter fun word => word ∉ heads ++ known := by
  induction words generalizing known with
  | nil => simp [distinct]
  | cons word rest ih =>
    rw [List.foldl_cons, ih, distinct, List.filter_cons, enlarge]
    by_cases old : word ∈ heads ++ known
    · have kept : ∀ other ∈ distinct rest, decide (other ∉ heads ++ known) =
          (decide (other ∉ heads ++ known) && decide (other ≠ word)) := by
        intro other _
        by_cases same : other = word
        · simp [same, List.mem_append.mp old]
        · simp [same]
      simp only [old, if_true, not_true_eq_false, decide_false, Bool.false_eq_true, if_false,
        List.filter_filter]
      rw [List.filter_congr kept]
    · simp only [old, if_false, not_false_eq_true, decide_true, if_true, List.filter_filter,
        List.append_assoc, List.singleton_append]
      congr 2
      refine List.filter_congr fun other _ => ?_
      simp only [← List.append_assoc, List.mem_append (s := heads ++ known), List.mem_singleton,
        not_or, Bool.decide_and]

/-- The words of bodies are entered as terminals unless they are heads. -/
theorem foldl_enlarge_nil (words : List String) :
    words.foldl (enlarge heads) [] = distinct (words.filter fun word => word ∉ heads) := by
  rw [foldl_enlarge, List.nil_append, List.append_nil, distinct_filter]

theorem foldl_enlarge_heads (words : List String) : words.foldl (enlarge []) [] = distinct words := by
  rw [foldl_enlarge_nil, List.filter_eq_self.mpr fun word _ => by simp]

end Enlarge

/-- A new name stands after all others. -/
theorem idxOf?_concat {names : List String} {name : String} (fresh : name ∉ names)
    (other : String) : (names ++ [name]).idxOf? other =
      if name = other then some names.length else names.idxOf? other := by
  unfold List.idxOf?
  rw [List.findIdx?_append]
  by_cases same : name = other
  · subst same
    have missing : names.findIdx? (· == name) = none :=
      List.findIdx?_eq_none_iff.mpr fun known member => by
        rw [beq_eq_false_iff_ne]
        rintro rfl
        exact fresh member
    rw [if_pos rfl, missing]
    simp
  · simp [same]

theorem idxOf?_of_mem {names : List String} {name : String} (member : name ∈ names) :
    names.idxOf? name = some (names.idxOf name) := by
  rw [List.idxOf_eq_getD_idxOf?]
  obtain ⟨place, found⟩ := Option.isSome_iff_exists.mp (List.isSome_idxOf?.mpr member)
  rw [found, Option.getD_some]

namespace Draft

/-- The numbers of the rules that a symbol heads. -/
def rulesOf (rules : List Rule) (head : Nat) : List Nat :=
  (rules.zipIdx.filter fun entry => entry.1.head == head).map Prod.snd

/-- The symbols with these names, the non-terminals with the numbers of their rules. -/
def outline (nonTerminals terminals : List String) (rules : List Rule) : List Symbol :=
  (nonTerminals.mapIdx fun index name => .nonTerminal index name (rulesOf rules index)) ++
    terminals.map .terminal

section Outline

variable {nonTerminals terminals : List String} {rules : List Rule}

theorem length_outline :
    (outline nonTerminals terminals rules).length = nonTerminals.length + terminals.length := by
  simp [outline]

theorem outline_concat_terminal {name : String} :
    outline nonTerminals (terminals ++ [name]) rules =
      outline nonTerminals terminals rules ++ [.terminal name] := by
  simp [outline]

theorem outline_concat_head {name : String} :
    outline (nonTerminals ++ [name]) [] [] =
      outline nonTerminals [] [] ++ [.nonTerminal nonTerminals.length name []] := by
  simp [outline, rulesOf]

theorem rulesOf_concat {rule : Rule} {head : Nat} : rulesOf (rules ++ [rule]) head =
    if rule.head = head then rulesOf rules head ++ [rules.length] else rulesOf rules head := by
  unfold rulesOf
  rw [List.zipIdx_append, List.filter_append, List.map_append]
  by_cases same : rule.head = head <;> simp [same]

/-- A new rule shows with its head only. -/
theorem modify_outline {rule : Rule} :
    (outline nonTerminals terminals rules).modify rule.head (Symbol.addProduction rules.length) =
      outline nonTerminals terminals (rules ++ [rule]) := by
  refine List.ext_getElem? fun place => ?_
  rw [List.getElem?_modify]
  simp only [outline, List.getElem?_append, List.length_mapIdx, List.getElem?_mapIdx,
    List.getElem?_map, rulesOf_concat]
  by_cases inside : place < nonTerminals.length
  · rw [if_pos inside, if_pos inside]
    by_cases same : rule.head = place <;> cases nonTerminals[place]? <;>
      simp [same, Symbol.addProduction]
  · rw [if_neg inside, if_neg inside]
    cases terminals[place - nonTerminals.length]? <;> simp [Symbol.addProduction]

theorem rename_outline {hidden name : String} :
    (outline (hidden :: nonTerminals) terminals rules).modify 0 (Symbol.rename name) =
      outline (name :: nonTerminals) terminals rules := by
  simp [outline, Symbol.rename]

end Outline

/-- The tables of a draft after these heads and terminals were entered and these rules added,
while the hidden start symbol has no name. The terminals have come from words that do not look
like non-terminals. -/
structure Holds (draft : Draft) (heads terminals : List String) (rules : List Rule)
    (start : Nat) : Prop where
  symbols : draft.symbols.toList = outline ("" :: heads) terminals rules
  indices : ∀ name, draft.indices[name]? = ((heads ++ terminals).idxOf? name).map (· + 1)
  rules : draft.rules.toList = rules
  start : draft.start = start
  lower : ∀ name ∈ terminals, ¬ Text.startsUppercase name

variable {draft : Draft} {heads terminals : List String} {rules : List Rule} {start line : Nat}
  {head name word : String}

theorem holds_empty : empty.Holds [] [] [] 0 where
  symbols := rfl
  indices _ := Std.TreeMap.getElem?_emptyc
  rules := rfl
  start := rfl
  lower _ member := absurd member List.not_mem_nil

namespace Holds

theorem size (holds : draft.Holds heads terminals rules start) :
    draft.symbols.size = (heads ++ terminals).length + 1 := by
  rw [← Array.length_toList, holds.symbols, length_outline, List.length_cons, List.length_append]
  omega

theorem find?_of_mem (holds : draft.Holds heads terminals rules start)
    (known : name ∈ heads ++ terminals) :
    draft.indices[name]? = some ((heads ++ terminals).idxOf name + 1) := by
  rw [holds.indices, idxOf?_of_mem known, Option.map_some]

theorem find?_of_not_mem (holds : draft.Holds heads terminals rules start)
    (fresh : name ∉ heads ++ terminals) : draft.indices[name]? = none := by
  rw [holds.indices, List.idxOf?_eq_none_iff.mpr fresh, Option.map_none]

/-- A symbol that is pushed gets the next number, by which its name is found from then on. -/
theorem find?_insert (holds : draft.Holds heads terminals rules start)
    (fresh : name ∉ heads ++ terminals) (other : String) :
    (draft.indices.insert name draft.symbols.size)[other]? =
      ((heads ++ terminals ++ [name]).idxOf? other).map (· + 1) := by
  rw [Std.TreeMap.getElem?_insert, idxOf?_concat fresh, holds.size, holds.indices]
  by_cases same : name = other <;> simp [same]

theorem addNonTerminal (holds : draft.Holds heads [] [] start) (fresh : name ∉ heads) :
    (draft.addNonTerminal name).Holds (heads ++ [name]) [] [] start where
  symbols := by
    rw [Draft.addNonTerminal, Array.toList_push, holds.symbols, holds.size, ← List.cons_append,
      outline_concat_head, List.append_nil, List.length_cons]
  indices other := by
    have found := holds.find?_insert (List.append_nil heads ▸ fresh) other
    rwa [List.append_nil] at found ⊢
  rules := holds.rules
  start := holds.start
  lower := holds.lower

theorem addTerminal (holds : draft.Holds heads terminals rules start)
    (fresh : name ∉ heads ++ terminals) (lower : ¬ Text.startsUppercase name) :
    (draft.addTerminal name).Holds heads (terminals ++ [name]) rules start where
  symbols := by
    rw [Draft.addTerminal, Array.toList_push, holds.symbols, outline_concat_terminal]
  indices other := List.append_assoc heads terminals [name] ▸ holds.find?_insert fresh other
  rules := holds.rules
  start := holds.start
  lower other member := by
    rcases List.mem_append.mp member with old | new
    · exact holds.lower other old
    · exact List.mem_singleton.mp new ▸ lower

theorem addProduction (holds : draft.Holds heads terminals rules start) (rule : Rule) :
    (draft.addProduction rule.head rule.body).Holds heads terminals (rules ++ [rule]) start where
  symbols := by
    have size : draft.rules.size = rules.length := by rw [← holds.rules, Array.length_toList]
    rw [Draft.addProduction, Array.toList_modify, holds.symbols, size, modify_outline]
  indices := holds.indices
  rules := by rw [Draft.addProduction, Array.toList_push, holds.rules]
  start := holds.start
  lower := holds.lower

theorem enterHead (holds : draft.Holds heads [] [] start) (entry : RuleEntry) :
    (draft.enterHead entry).Holds (enlarge [] heads entry.head) [] [] start := by
  unfold Draft.enterHead enlarge
  rw [Std.TreeMap.contains_eq_isSome_getElem?, List.nil_append]
  by_cases known : entry.head ∈ heads
  · rw [holds.find?_of_mem (List.mem_append_left [] known), if_pos known]
    exact holds
  · rw [holds.find?_of_not_mem (by rwa [List.append_nil]), if_neg known]
    exact holds.addNonTerminal known

theorem enterHeads (holds : draft.Holds heads [] [] start) (entries : List RuleEntry) :
    (entries.foldl Draft.enterHead draft).Holds
      ((entries.map RuleEntry.head).foldl (enlarge []) heads) [] [] start := by
  induction entries generalizing draft heads with
  | nil => exact holds
  | cons entry rest ih => exact ih (holds.enterHead entry)

/-- Whether a word is at fault does not depend on the terminals entered so far: a word that looks
like a non-terminal is never one of them. -/
theorem enterWord_error (holds : draft.Holds heads terminals rules start) {error : GrammarError}
    (faulty : wordFault? heads line head word = some error) :
    draft.enterWord line head word = .error error := by
  unfold wordFault? at faulty
  unfold enterWord
  by_cases reserved : word = endName
  · rw [if_pos reserved] at faulty ⊢
    exact congrArg Except.error (Option.some.inj faulty)
  · rw [if_neg reserved] at faulty ⊢
    by_cases undefined : word ∉ heads ∧ Text.startsUppercase word
    · rw [if_pos undefined] at faulty
      have fresh : word ∉ heads ++ terminals := fun known =>
        (List.mem_append.mp known).elim undefined.1 fun listed => holds.lower word listed undefined.2
      rw [holds.find?_of_not_mem fresh]
      exact (if_pos undefined.2).trans (congrArg Except.error (Option.some.inj faulty))
    · rw [if_neg undefined] at faulty
      cases faulty

theorem enterWord_ok (holds : draft.Holds heads terminals rules start)
    (sound : wordFault? heads line head word = none) : ∃ after,
      draft.enterWord line head word =
        .ok (after, (heads ++ enlarge heads terminals word).idxOf word + 1) ∧
      after.Holds heads (enlarge heads terminals word) rules start := by
  unfold wordFault? at sound
  unfold enterWord enlarge
  by_cases reserved : word = endName
  · simp [reserved] at sound
  · rw [if_neg reserved] at sound ⊢
    by_cases known : word ∈ heads ++ terminals
    · rw [holds.find?_of_mem known, if_pos known]
      exact ⟨draft, rfl, holds⟩
    · have lower : ¬ Text.startsUppercase word := fun upper => by
        rw [if_pos ⟨fun listed => known (List.mem_append_left _ listed), upper⟩] at sound
        cases sound
      rw [holds.find?_of_not_mem known, if_neg known, ← List.append_assoc,
        List.idxOf_append_of_notMem known, List.idxOf_cons_self, holds.size]
      exact ⟨_, if_neg lower, holds.addTerminal known lower⟩

end Holds

/-- The symbols of words, given the heads and all terminals. -/
def numbers (heads terminals words : List String) : List Nat :=
  words.map fun word => (heads ++ terminals).idxOf word + 1

/-- A rule by the numbers of its names. -/
def numbered (heads terminals : List String) (rule : NamedRule) : Rule :=
  ⟨(heads ++ terminals).idxOf rule.head + 1, numbers heads terminals rule.body⟩

section Prefix

variable {later : List String} (earlier : terminals <+: later)
include earlier

/-- A word that is known keeps its number. -/
theorem idxOf_eq_of_known (known : word ∈ heads ++ terminals) :
    (heads ++ terminals).idxOf word = (heads ++ later).idxOf word :=
  ((List.prefix_append_right_inj heads).mpr earlier).idxOf_eq_of_mem known

theorem numbered_eq_of_known {rule : NamedRule} (head : rule.head ∈ heads ++ terminals)
    (body : ∀ word ∈ rule.body, word ∈ heads ++ terminals) :
    numbered heads terminals rule = numbered heads later rule := by
  unfold numbered numbers
  rw [idxOf_eq_of_known earlier head]
  congr 1
  exact List.map_congr_left fun word member => by rw [idxOf_eq_of_known earlier (body word member)]

end Prefix

namespace Holds

theorem enterBody_error (holds : draft.Holds heads terminals rules start) {words : List String}
    {error : GrammarError} (faulty : (words.filter fun word => !isEmptyWord word).findSome?
      (wordFault? heads line head) = some error) :
    draft.enterBody line head words = .error error := by
  induction words generalizing draft terminals with
  | nil => cases faulty
  | cons word rest ih =>
    unfold enterBody
    by_cases empty : isEmptyWord word
    · rw [List.filter_cons_of_neg (by simpa using empty)] at faulty
      rw [if_pos empty]
      exact ih holds faulty
    · rw [List.filter_cons_of_pos (by simpa using empty), List.findSome?_cons] at faulty
      rw [if_neg empty]
      cases first : wordFault? heads line head word with
      | some other =>
        rw [first] at faulty
        rw [holds.enterWord_error first]
        exact congrArg Except.error (Option.some.inj faulty)
      | none =>
        rw [first] at faulty
        obtain ⟨after, entered, holds⟩ := holds.enterWord_ok first
        simp only [entered, bind, Except.bind, ih holds faulty]

theorem enterBody_ok (holds : draft.Holds heads terminals rules start) {words solid : List String}
    (split : (words.filter fun word => !isEmptyWord word) = solid)
    (sound : solid.findSome? (wordFault? heads line head) = none) : ∃ after,
      draft.enterBody line head words =
        .ok (after, numbers heads (solid.foldl (enlarge heads) terminals) solid) ∧
      after.Holds heads (solid.foldl (enlarge heads) terminals) rules start := by
  subst split
  induction words generalizing draft terminals with
  | nil => exact ⟨draft, rfl, holds⟩
  | cons word rest ih =>
    unfold enterBody
    by_cases empty : isEmptyWord word
    · rw [List.filter_cons_of_neg (by simpa using empty)] at sound ⊢
      rw [if_pos empty]
      exact ih holds sound
    · rw [List.filter_cons_of_pos (by simpa using empty)] at sound ⊢
      rw [List.findSome?_cons] at sound
      cases first : wordFault? heads line head word with
      | some other => rw [first] at sound; cases sound
      | none =>
        rw [first] at sound
        obtain ⟨after, entered, holds⟩ := holds.enterWord_ok first
        obtain ⟨full, rest, holds⟩ := ih holds sound
        refine ⟨full, ?_, holds⟩
        simp only [if_neg empty, entered, bind, Except.bind, rest]
        rw [idxOf_eq_of_known prefix_foldl_enlarge mem_enlarge]
        rfl

theorem enterRule_error (holds : draft.Holds heads terminals rules start) {entry : RuleEntry}
    {error : GrammarError} (faulty : entry.rule.fault? heads = some error) :
    draft.enterRule entry = .error error := by
  have failed : draft.enterBody entry.line entry.head (Text.words entry.body) = .error error :=
    holds.enterBody_error faulty
  rw [Draft.enterRule, failed]
  rfl

theorem enterRule_ok (holds : draft.Holds heads terminals rules start) {entry : RuleEntry}
    (headed : entry.head ∈ heads) (sound : entry.rule.fault? heads = none) : ∃ after,
      draft.enterRule entry = .ok after ∧
      after.Holds heads (entry.rule.body.foldl (enlarge heads) terminals)
        (rules ++ [numbered heads (entry.rule.body.foldl (enlarge heads) terminals) entry.rule])
        start := by
  obtain ⟨full, body, holds'⟩ : ∃ full, draft.enterBody entry.line entry.head (Text.words entry.body) =
      .ok (full, numbers heads (entry.rule.body.foldl (enlarge heads) terminals) entry.rule.body) ∧
      full.Holds heads (entry.rule.body.foldl (enlarge heads) terminals) rules start :=
    holds.enterBody_ok rfl sound
  have known := List.mem_append_left terminals headed
  rw [Draft.enterRule, body, Std.TreeMap.getD_eq_getD_getElem?, holds.find?_of_mem known,
    idxOf_eq_of_known prefix_foldl_enlarge known]
  exact ⟨_, rfl, holds'.addProduction (numbered heads _ entry.rule)⟩

theorem foldlM_enterRule_error (holds : draft.Holds heads terminals rules start)
    {entries : List RuleEntry} (headed : ∀ entry ∈ entries, entry.head ∈ heads)
    {error : GrammarError}
    (faulty : (entries.map RuleEntry.rule).findSome? (NamedRule.fault? heads) = some error) :
    entries.foldlM Draft.enterRule draft = .error error := by
  induction entries generalizing draft terminals rules with
  | nil => cases faulty
  | cons entry rest ih =>
    rw [List.map_cons, List.findSome?_cons] at faulty
    rw [List.foldlM_cons]
    cases first : entry.rule.fault? heads with
    | some other =>
      rw [first] at faulty
      rw [holds.enterRule_error first]
      exact congrArg Except.error (Option.some.inj faulty)
    | none =>
      rw [first] at faulty
      obtain ⟨after, entered, holds⟩ := holds.enterRule_ok (headed entry List.mem_cons_self) first
      rw [entered]
      exact ih holds (fun other member => headed other (List.mem_cons_of_mem _ member)) faulty

/-- When all bodies have been entered, each rule has the numbers that its names have in the end. -/
theorem foldlM_enterRule_ok (holds : draft.Holds heads terminals rules start)
    {entries : List RuleEntry} (headed : ∀ entry ∈ entries, entry.head ∈ heads)
    {later : List String}
    (whole : ((entries.map RuleEntry.rule).flatMap NamedRule.body).foldl (enlarge heads) terminals =
      later)
    (sound : (entries.map RuleEntry.rule).findSome? (NamedRule.fault? heads) = none) : ∃ after,
      entries.foldlM Draft.enterRule draft = .ok after ∧
      after.Holds heads later
        (rules ++ (entries.map RuleEntry.rule).map (numbered heads later)) start := by
  induction entries generalizing draft terminals rules with
  | nil =>
    subst whole
    exact ⟨draft, rfl, by simpa using holds⟩
  | cons entry rest ih =>
    rw [List.map_cons, List.flatMap_cons, List.foldl_append] at whole
    rw [List.map_cons, List.findSome?_cons] at sound
    cases first : entry.rule.fault? heads with
    | some other => rw [first] at sound; cases sound
    | none =>
      rw [first] at sound
      obtain ⟨after, entered, holds⟩ := holds.enterRule_ok (headed entry List.mem_cons_self) first
      obtain ⟨full, others, holds⟩ :=
        ih holds (fun other member => headed other (List.mem_cons_of_mem _ member)) whole sound
      refine ⟨full, by rw [List.foldlM_cons, entered]; exact others, ?_⟩
      have kept : numbered heads (entry.rule.body.foldl (enlarge heads) terminals) entry.rule =
          numbered heads later entry.rule :=
        numbered_eq_of_known (whole ▸ prefix_foldl_enlarge)
          (List.mem_append_left _ (headed entry List.mem_cons_self)) fun word => mem_foldl_enlarge
      rwa [List.append_assoc, List.singleton_append, kept] at holds

theorem enterHeads_empty (entries : List RuleEntry) :
    (entries.foldl Draft.enterHead empty).Holds
      (distinct ((entries.map RuleEntry.rule).map NamedRule.head)) [] [] 0 := by
  have entered := holds_empty.enterHeads entries
  rw [foldl_enlarge_heads] at entered
  rwa [List.map_map]

end Holds

/-- Shorter names do not matter for a primed name. -/
theorem primedName_eq {indices : Std.TreeMap String Nat} {taken : List String}
    (same : ∀ other, name.length ≤ other.length → (other ∈ indices ↔ other ∈ taken)) :
    primedName indices name = freshName taken name := by
  fun_induction primedName indices name generalizing taken with
  | case1 name occurs ih =>
    rw [freshName, if_pos ((same name (Nat.le_refl _)).mp occurs)]
    refine ih fun other longer => ?_
    rw [String.length_append] at longer
    have different : other ≠ name := by
      rintro rfl
      exact absurd longer (Nat.not_succ_le_self _)
    rw [List.mem_erase_of_ne different]
    exact same other (by omega)
  | case2 name free =>
    rw [freshName, if_neg fun member => free ((same name (Nat.le_refl _)).mpr member)]

/-- The tables of a draft that is complete hold a grammar. -/
structure Shows (draft : Draft) (g : Grammar) : Prop where
  symbols : draft.symbols.toList = outline (g.hiddenName :: g.heads.toList)
    (g.terminalNames.toList ++ [endName]) g.rules
  indices : ∀ name, draft.indices[name]? = g.index? name
  rules : draft.rules.toList = g.rules
  start : draft.start = g.start
  endMark : draft.endMark = g.endMark

/-- The end mark is the last symbol, and the hidden name is chosen when it has been entered. -/
theorem Holds.close {listed : List Rule}
    (holds : draft.Holds heads terminals (⟨0, [start]⟩ :: listed) start)
    (free : endName ∉ heads ++ terminals) (startName : String) :
    (draft.close startName).Shows
      ⟨freshName (heads ++ terminals ++ [endName]) startName, heads.toArray, terminals.toArray,
        start, listed⟩ := by
  have closed := holds.addTerminal free (by decide +kernel)
  constructor
  · rw [Draft.close, Array.toList_modify, closed.symbols, rename_outline]
    congr 2
    refine primedName_eq fun other _ => ?_
    rw [Std.TreeMap.mem_iff_isSome_getElem?, closed.indices, Option.isSome_map,
      List.isSome_idxOf?, List.append_assoc]
  · intro name
    exact (closed.indices name).trans (by rw [← List.append_assoc]; rfl)
  · exact closed.rules
  · exact closed.start
  · show draft.symbols.size = heads.length + (terminals.length + 1)
    rw [holds.size, List.length_append, Nat.add_assoc]

namespace Holds

theorem begin (holds : draft.Holds heads [] [] start) (start' : Nat) :
    ({ draft with start := start' }.addProduction 0 [start']).Holds heads [] [⟨0, [start']⟩]
      start' := by
  have started : ({ draft with start := start' } : Draft).Holds heads [] [] start' :=
    ⟨holds.symbols, holds.indices, holds.rules, rfl, holds.lower⟩
  exact started.addProduction ⟨0, [start']⟩

variable (holds : draft.Holds heads [] [] start) {startName : String} {entries : List RuleEntry}
include holds

theorem enterRules_unknown (unknown : heads.idxOf? startName = none) :
    draft.enterRules startName entries = .error (.unknownStart startName) := by
  rw [Draft.enterRules, holds.indices, List.append_nil, unknown]
  rfl

theorem enterRules_error {place : Nat} (found : heads.idxOf? startName = some place)
    (headed : ∀ entry ∈ entries, entry.head ∈ heads) {error : GrammarError}
    (faulty : (entries.map RuleEntry.rule).findSome? (NamedRule.fault? heads) = some error) :
    draft.enterRules startName entries = .error error := by
  have failed := (holds.begin (place + 1)).foldlM_enterRule_error headed faulty
  rw [Draft.enterRules, holds.indices, List.append_nil, found, Option.map_some]
  simp only [failed]
  rfl

theorem enterRules_ok {place : Nat} (found : heads.idxOf? startName = some place)
    (headed : ∀ entry ∈ entries, entry.head ∈ heads)
    (sound : (entries.map RuleEntry.rule).findSome? (NamedRule.fault? heads) = none)
    (wf : (Grammar.ofNamed heads (place + 1) startName (entries.map RuleEntry.rule)).WellFormed) :
    ∃ after, draft.enterRules startName entries = .ok after ∧
      after.Shows (.ofNamed heads (place + 1) startName (entries.map RuleEntry.rule)) := by
  obtain ⟨full, filled, holds'⟩ := (holds.begin (place + 1)).foldlM_enterRule_ok headed
    (foldl_enlarge_nil ((entries.map RuleEntry.rule).flatMap NamedRule.body)) sound
  refine ⟨full.close startName, ?_, holds'.close (fun known => ?_) startName⟩
  · rw [Draft.enterRules, holds.indices, List.append_nil, found, Option.map_some]
    simp only [filled]
    rfl
  · have nodup := wf.names_nodup
    rw [Grammar.names_ofNamed] at nodup
    exact (List.nodup_append.mp nodup).2.2 endName known endName (List.mem_singleton_self _) rfl

end Holds

/-- The loops that fill the tables end as all entries together say: with the same error, or with
tables that hold the grammar. -/
theorem ofEntries_outcome (entries : List RuleEntry) (designated : Option String) :
    (∃ error, Grammar.atOnce entries designated = .error error ∧
      ofEntries entries designated = .error error) ∨
    ∃ g draft, Grammar.atOnce entries designated = .ok g ∧
      ofEntries entries designated = .ok draft ∧ draft.Shows g := by
  unfold ofEntries
  cases read : entries.mapM RuleEntry.headed with
  | error error => exact Or.inl ⟨error, by rw [Grammar.atOnce, mapM_named, read]; rfl, rfl⟩
  | ok headed =>
    have named : entries.mapM RuleEntry.named = .ok (headed.map RuleEntry.rule) := by
      rw [mapM_named, read]
      rfl
    cases headed with
    | nil => exact Or.inl ⟨.empty, by rw [Grammar.atOnce, named]; rfl, rfl⟩
    | cons first rest =>
      have whole : Grammar.atOnce entries designated = Grammar.ofHeads
          (distinct (((first :: rest).map RuleEntry.rule).map NamedRule.head))
          (designated.getD first.head) ((first :: rest).map RuleEntry.rule) := by
        rw [Grammar.atOnce, named]
        rfl
      have holds := Holds.enterHeads_empty (first :: rest)
      have headed : ∀ entry ∈ first :: rest,
          entry.head ∈ distinct (((first :: rest).map RuleEntry.rule).map NamedRule.head) :=
        fun entry member => mem_distinct.mpr (List.mem_map_of_mem (List.mem_map_of_mem member))
      generalize distinct (((first :: rest).map RuleEntry.rule).map NamedRule.head) = heads at *
      unfold Grammar.ofHeads at whole
      split at whole
      · rename_i unknown
        exact Or.inl ⟨_, whole, holds.enterRules_unknown unknown⟩
      · rename_i place found
        split at whole
        · rename_i error faulty
          exact Or.inl ⟨_, whole, holds.enterRules_error found headed faulty⟩
        · rename_i sound
          obtain ⟨draft, filled, shows⟩ :=
            holds.enterRules_ok found headed sound (Grammar.wellFormed_atOnce whole)
          exact Or.inr ⟨_, draft, whole, filled, shows⟩

section Outline

variable {hidden : String} {nonTerminals terminals : List String}

theorem map_name_outline :
    (outline nonTerminals terminals rules).map Symbol.name = nonTerminals ++ terminals := by
  have listed : (nonTerminals.mapIdx fun index name =>
      Symbol.nonTerminal index name (rulesOf rules index)).map Symbol.name = nonTerminals :=
    List.ext_getElem (by simp) fun place _ _ => by simp [Symbol.name]
  rw [outline, List.map_append, listed, List.map_map]
  simp [Function.comp_def, Symbol.name]

/-- The non-terminals are in front of the terminals. -/
theorem filter_outline :
    (outline nonTerminals terminals rules).filter Symbol.isNonTerminal =
      outline nonTerminals [] rules ∧
    (outline nonTerminals terminals rules).filter (fun symbol => !symbol.isNonTerminal) =
      outline [] terminals rules := by
  have kinds : ∀ symbol ∈ nonTerminals.mapIdx fun index name =>
      Symbol.nonTerminal index name (rulesOf rules index), symbol.isNonTerminal := by
    intro symbol member
    obtain ⟨place, inside, rfl⟩ := List.mem_mapIdx.mp member
    rfl
  have others : ∀ symbol ∈ terminals.map Symbol.terminal, symbol.isNonTerminal = false := by
    intro symbol member
    obtain ⟨name, -, rfl⟩ := List.mem_map.mp member
    rfl
  simp only [outline, List.filter_append, List.mapIdx_nil, List.nil_append, List.map_nil,
    List.append_nil]
  constructor
  · rw [List.filter_eq_self.mpr kinds, List.filter_eq_nil_iff.mpr fun symbol member => by
      rw [others symbol member]; exact Bool.false_ne_true, List.append_nil]
  · rw [List.filter_eq_nil_iff.mpr fun symbol member => by simp [kinds symbol member],
      List.filter_eq_self.mpr fun symbol member => by simp [others symbol member], List.nil_append]

end Outline

namespace Shows

variable {g : Grammar} (shows : draft.Shows g)
include shows

theorem map_name : draft.symbols.toList.map Symbol.name = g.hiddenName :: g.names := by
  rw [shows.symbols, map_name_outline, List.cons_append, Grammar.names, List.append_assoc]

theorem size : draft.symbols.size = g.symbolCount := by
  rw [← Array.length_toList, ← List.length_map Symbol.name, shows.map_name, List.length_cons]
  simp [Grammar.names, Grammar.symbolCount, Grammar.endMark, Grammar.nonTerminalCount,
    Grammar.terminalCount, Nat.add_assoc]

/-- A symbol has the name that it was entered with. -/
theorem name? (symbol : Nat) : g.name? symbol = draft.symbols[symbol]?.map Symbol.name := by
  rw [← Array.getElem?_toList, ← List.getElem?_map, shows.map_name]
  cases symbol with
  | zero => rfl
  | succ place => rw [Grammar.name?_succ, List.getElem?_cons_succ]

theorem rule? (number : Nat) : g.rule? number = draft.rules[number]? := by
  rw [← Array.getElem?_toList, shows.rules]
  rfl

/-- Each symbol knows its number and those of its rules. -/
theorem symbol? (symbol : Nat) : draft.symbols[symbol]? = (g.name? symbol).map fun name =>
    if g.isNonTerminal symbol then .nonTerminal symbol name (g.productions symbol)
    else .terminal name := by
  have count : (g.hiddenName :: g.heads.toList).length = g.nonTerminalCount + 1 := by
    rw [List.length_cons, Array.length_toList, Grammar.nonTerminalCount]
  rw [shows.name?, ← Array.getElem?_toList, shows.symbols, outline, List.getElem?_append,
    List.length_mapIdx, count, List.getElem?_mapIdx, List.getElem?_map]
  by_cases inside : symbol < g.nonTerminalCount + 1
  · have kind : g.isNonTerminal symbol := decide_eq_true (Nat.le_of_lt_succ inside)
    rw [if_pos inside]
    cases (g.hiddenName :: g.heads.toList)[symbol]? with
    | none => rfl
    | some name => simp [kind, Symbol.name, Grammar.productions, rulesOf]
  · have kind : g.isNonTerminal symbol = false :=
      decide_eq_false fun below => inside (Nat.lt_succ_of_le below)
    rw [if_neg inside]
    cases (g.terminalNames.toList ++ [endName])[symbol - (g.nonTerminalCount + 1)]? with
    | none => rfl
    | some name => simp [kind, Symbol.name]

theorem grammar_eq : draft.grammar = g := by
  have hidden := shows.name? 0
  unfold Draft.grammar
  rw [← hidden, shows.symbols, filter_outline.1, filter_outline.2, map_name_outline,
    map_name_outline, shows.rules, shows.start]
  simp [Grammar.name?, Grammar.rules]

end Shows

end Draft

namespace Grammar

/-- The loops build the grammar that all entries together make. -/
theorem ofEntries_eq (entries : List RuleEntry) (designated : Option String) :
    ofEntries entries designated = atOnce entries designated := by
  unfold ofEntries
  rcases Draft.ofEntries_outcome entries designated with
    ⟨error, refused, failed⟩ | ⟨g, draft, built, filled, shows⟩
  · rw [refused, failed]
    rfl
  · rw [built, filled]
    exact congrArg Except.ok shows.grammar_eq

theorem ofEntries_eq_ok_iff {entries : List RuleEntry} {designated : Option String} {g : Grammar} :
    ofEntries entries designated = .ok g ↔ ∃ first rest place,
      entries.mapM RuleEntry.named = .ok (first :: rest) ∧
      (distinct ((first :: rest).map NamedRule.head)).idxOf? (designated.getD first.head) = some place ∧
      (∀ rule ∈ first :: rest, rule.fault? (distinct ((first :: rest).map NamedRule.head)) = none) ∧
      g = ofNamed (distinct ((first :: rest).map NamedRule.head)) (place + 1)
        (designated.getD first.head) (first :: rest) := by
  rw [ofEntries_eq, atOnce_eq_ok_iff]

theorem wellFormed_ofRules {pairs : List (String × String)} {designated : Option String}
    {g : Grammar} (built : ofRules pairs designated = .ok g) : g.WellFormed :=
  wellFormed_atOnce ((ofEntries_eq _ designated).symm.trans built)

/-- What a grammar tells about its symbols and rules is what the tables have. -/
theorem exists_draft {pairs : List (String × String)} {designated : Option String} {g : Grammar}
    (built : ofRules pairs designated = .ok g) :
    ∃ draft, Draft.ofRules pairs designated = .ok draft ∧ draft.Shows g := by
  rcases Draft.ofEntries_outcome _ designated with
    ⟨error, refused, -⟩ | ⟨other, draft, whole, filled, shows⟩
  · exact absurd (refused.symm.trans ((ofEntries_eq _ designated).symm.trans built)) nofun
  · cases whole.symm.trans ((ofEntries_eq _ designated).symm.trans built)
    exact ⟨draft, filled, shows⟩

end Grammar

end ParseTables
