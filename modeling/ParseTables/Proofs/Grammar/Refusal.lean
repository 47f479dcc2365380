import ParseTables.Proofs.Grammar.Numbered

namespace ParseTables

variable {heads : List String} {line : Nat}

/-- A head is a single word, and neither the end mark nor an empty word. -/
def ProperHead (text : String) : Prop :=
  Text.IsRun (Text.trim text).toList ∧ Text.trim text ≠ endName ∧ ¬ isEmptyWord (Text.trim text)

/-- What is wrong with a head. -/
inductive HeadFault (text : String) : RuleFault → Prop where
  | empty : Text.trim text = "" → HeadFault text .emptyLeftSide
  | blank {c : Char} : c ∈ (Text.trim text).toList → Text.isBlank c → HeadFault text .blankInLeftSide
  | reserved : Text.trim text = endName ∨ isEmptyWord (Text.trim text) →
      HeadFault text (.reservedLeftSide (Text.trim text))

/-- A body may have empty words, heads, and such other words as can be terminals. -/
def Usable (heads : List String) (word : String) : Prop :=
  isEmptyWord word ∨ word ∈ heads ∨ word ≠ endName ∧ ¬ Text.startsUppercase word

/-- What is wrong with a word in the body of a rule, given by its line and its head. -/
inductive WordFault (heads : List String) (line : Nat) (head word : String) : GrammarError → Prop where
  | endMark : word = endName → WordFault heads line head word (.malformedRule line .endMarkInBody)
  | undefined : word ∉ heads → Text.startsUppercase word →
      WordFault heads line head word (.undefinedSymbol word head)

/-- The reason for which pairs are refused: the first fault in the order of the checks. A check is made
only when all earlier ones have passed. -/
inductive Refused (pairs : List (String × String)) (designated : Option String) :
    GrammarError → Prop where
  /-- The first head that is not proper, by its position. -/
  | head {before after : List (String × String)} {head body : String} {fault : RuleFault} :
      pairs = before ++ (head, body) :: after → (∀ pair ∈ before, ProperHead pair.1) →
        HeadFault head fault →
      Refused pairs designated (.malformedRule (before.length + 1) fault)
  | empty : pairs = [] → Refused pairs designated .empty
  | start {name : String} : pairs ≠ [] → (∀ pair ∈ pairs, ProperHead pair.1) → designated = some name →
      name ∉ trimmedHeads pairs → Refused pairs designated (.unknownStart name)
  /-- The first word of the first body that has one which cannot be used. -/
  | body {before after : List (String × String)} {head text word : String} {early late : List String}
      {error : GrammarError} :
      (∀ pair ∈ pairs, ProperHead pair.1) → (∀ name ∈ designated, name ∈ trimmedHeads pairs) →
      pairs = before ++ (head, text) :: after →
      (∀ pair ∈ before, ∀ word ∈ Text.words pair.2, Usable (trimmedHeads pairs) word) →
      Text.words text = early ++ word :: late → (∀ word ∈ early, Usable (trimmedHeads pairs) word) →
      WordFault (trimmedHeads pairs) (before.length + 1) (Text.trim head) word error →
      Refused pairs designated error

theorem exists_headName_iff {text : String} : (∃ name, headName text = .ok name) ↔ ProperHead text := by
  simp only [headName_eq_ok_iff, Text.words_eq_singleton_iff, ProperHead]
  constructor
  · rintro ⟨name, ⟨rfl, run⟩, free⟩
    exact ⟨run, free⟩
  · rintro ⟨run, free⟩
    exact ⟨Text.trim text, ⟨rfl, run⟩, free⟩

theorem headName_of_proper {text : String} (proper : ProperHead text) :
    headName text = .ok (Text.trim text) := by
  obtain ⟨name, named⟩ := exists_headName_iff.mpr proper
  rw [named, trim_of_headName named]

theorem eq_of_isEmptyWord {word : String} (empty : isEmptyWord word) :
    word = "e" ∨ word = "ε" ∨ word = "ϵ" := by
  simpa [isEmptyWord, or_assoc] using empty

theorem other_of_isEmptyWord {word : String} (empty : isEmptyWord word) :
    word ≠ endName ∧ ¬ Text.startsUppercase word := by
  rcases eq_of_isEmptyWord empty with rfl | rfl | rfl <;> exact ⟨by decide, by decide +kernel⟩

theorem isRun_of_reserved {word : String} (reserved : word = endName ∨ isEmptyWord word) :
    Text.IsRun word.toList := by
  have solid : word.toList ≠ [] ∧ word.toList.all (fun c => !Text.isBlank c) := by
    rcases reserved with rfl | empty
    · decide
    · rcases eq_of_isEmptyWord empty with rfl | rfl | rfl <;> decide
  exact ⟨solid.1, fun c member => by simpa using List.all_eq_true.mp solid.2 c member⟩

theorem headName_eq_error {text : String} {fault : RuleFault} (faulty : HeadFault text fault) :
    headName text = .error fault := by
  unfold headName leftSideWord
  cases faulty with
  | empty empty =>
    rw [Text.words_eq_nil_iff.mpr empty]
    rfl
  | @blank c member blank =>
    -- neither no word nor a single one leaves a blank inside
    match found : Text.words text with
    | [] =>
      rw [Text.words_eq_nil_iff.mp found] at member
      cases member
    | [word] => exact absurd blank ((Text.words_eq_singleton_iff.mp found).2.2 c member)
    | _ :: _ :: _ => rfl
  | reserved reserved =>
    rw [Text.words_eq_singleton_iff.mpr ⟨rfl, isRun_of_reserved reserved⟩]
    exact if_pos reserved

theorem exists_headFault {text : String} (improper : ¬ ProperHead text) :
    ∃ fault, HeadFault text fault := by
  by_cases run : Text.IsRun (Text.trim text).toList
  · by_cases reserved : Text.trim text = endName ∨ isEmptyWord (Text.trim text)
    · exact ⟨_, .reserved reserved⟩
    · exact absurd ⟨run, not_or.mp reserved⟩ improper
  · by_cases empty : Text.trim text = ""
    · exact ⟨_, .empty empty⟩
    · simp only [Text.IsRun, not_and, not_forall, not_not] at run
      obtain ⟨c, member, blank⟩ := run fun none => empty (String.toList_eq_nil_iff.mp none)
      exact ⟨_, .blank member blank⟩

theorem headName_eq_error_iff {text : String} {fault : RuleFault} :
    headName text = .error fault ↔ HeadFault text fault := by
  refine ⟨fun failed => ?_, headName_eq_error⟩
  have improper : ¬ ProperHead text :=
    fun proper => by cases failed.symm.trans (headName_of_proper proper)
  obtain ⟨fault', faulty⟩ := exists_headFault improper
  cases failed.symm.trans (headName_eq_error faulty)
  exact faulty

theorem RuleEntry.named_eq_error_iff {entry : RuleEntry} {error : GrammarError} :
    entry.named = .error error ↔
    ∃ fault, HeadFault entry.head fault ∧ error = .malformedRule entry.line fault := by
  simp only [← headName_eq_error_iff]
  unfold named
  cases headName entry.head with
  | error fault => simp [eq_comm]
  | ok head => simp

theorem wordFault?_eq_some_iff {head word : String} {error : GrammarError} :
    wordFault? heads line head word = some error ↔ WordFault heads line head word error := by
  unfold wordFault?
  constructor
  · intro found
    split at found
    · cases found
      exact .endMark ‹_›
    · split at found
      · rename_i undefined
        cases found
        exact .undefined undefined.1 undefined.2
      · cases found
  · rintro (rfl | ⟨unknown, upper⟩)
    · exact if_pos rfl
    · rw [if_neg, if_pos ⟨unknown, upper⟩]
      rintro rfl
      exact absurd upper (by decide +kernel)

theorem usable_iff (free : endName ∉ heads) {word : String} :
    Usable heads word ↔ word ≠ endName ∧ (Text.startsUppercase word → word ∈ heads) := by
  constructor
  · rintro (empty | known | ⟨other, lower⟩)
    · obtain ⟨other, lower⟩ := other_of_isEmptyWord empty
      exact ⟨other, fun upper => absurd upper lower⟩
    · exact ⟨fun same => free (same ▸ known), fun _ => known⟩
    · exact ⟨other, fun upper => absurd upper lower⟩
  · rintro ⟨other, known⟩
    by_cases upper : Text.startsUppercase word
    · exact Or.inr (Or.inl (known upper))
    · exact Or.inr (Or.inr ⟨other, upper⟩)

/-- A word can be used if nothing is wrong with it. The end mark is never among the heads. -/
theorem wordFault?_eq_none_iff (free : endName ∉ heads) {head word : String} :
    wordFault? heads line head word = none ↔ Usable heads word := by
  rw [usable_iff free]
  unfold wordFault?
  by_cases reserved : word = endName
  · simp [reserved]
  · by_cases known : word ∈ heads <;> simp [reserved, known]

theorem bodies_usable_iff (free : endName ∉ heads) {pairs : List (String × String)} :
    (∀ word, Occurs pairs word → word ≠ endName ∧ (Text.startsUppercase word → word ∈ heads)) ↔
      ∀ pair ∈ pairs, ∀ word ∈ Text.words pair.2, Usable heads word := by
  simp only [← usable_iff free]
  constructor
  · intro usable pair member word inBody
    by_cases empty : isEmptyWord word
    · exact Or.inl empty
    · exact usable word ⟨pair, member, List.mem_filter.mpr ⟨inBody, by simpa using empty⟩⟩
  · rintro usable word ⟨pair, member, inBody⟩
    exact usable pair member word (List.mem_filter.mp inBody).1

theorem wordFault?_of_isEmptyWord {head word : String} (empty : isEmptyWord word) :
    wordFault? heads line head word = none := by
  obtain ⟨other, lower⟩ := other_of_isEmptyWord empty
  exact (if_neg other).trans (if_neg fun upper => lower upper.2)

/-- Empty words are never at fault, so a body may be scanned with them. -/
theorem fault?_bodyWords {head text : String} :
    NamedRule.fault? heads ⟨line, head, bodyWords text⟩ =
      (Text.words text).findSome? (wordFault? heads line head) := by
  show (bodyWords text).findSome? (wordFault? heads line head) = _
  unfold bodyWords
  induction Text.words text with
  | nil => rfl
  | cons word rest ih =>
    by_cases empty : isEmptyWord word
    · rw [List.filter_cons_of_neg (by simpa using empty), ih, List.findSome?_cons,
        wordFault?_of_isEmptyWord empty]
    · rw [List.filter_cons_of_pos (by simpa using empty), List.findSome?_cons, List.findSome?_cons, ih]

/-- The first of numbered elements with a fault, where the numbers do not matter for whether there is
one. -/
theorem findSome?_zipIdx_eq_some_iff {α β : Type} {f : α × Nat → Option β} (sound : α → Prop)
    (passes : ∀ a n, f (a, n) = none ↔ sound a) {l : List α} {b : β} :
    (l.zipIdx line).findSome? f = some b ↔
      ∃ before a after, l = before ++ a :: after ∧ (∀ other ∈ before, sound other) ∧
        f (a, before.length + line) = some b := by
  rw [List.findSome?_eq_some_iff]
  constructor
  · rintro ⟨numbered, ⟨a, n⟩, rest, split, faulty, sounds⟩
    obtain ⟨before, tail, rfl, rfl, cut⟩ := List.zipIdx_eq_append_iff.mp split
    rw [Nat.add_comm] at cut
    obtain ⟨_, after, rfl, entry, -⟩ := List.zipIdx_eq_cons_iff.mp cut.symm
    obtain ⟨rfl, rfl⟩ := Prod.mk.inj entry
    refine ⟨before, a, after, rfl, fun other member => ?_, faulty⟩
    rw [← List.zipIdx_map_fst line before] at member
    obtain ⟨⟨_, n⟩, inside, rfl⟩ := List.mem_map.mp member
    exact (passes _ n).mp (sounds _ inside)
  · rintro ⟨before, a, after, rfl, sounds, faulty⟩
    rw [List.zipIdx_append, List.zipIdx_cons, Nat.add_comm line]
    refine ⟨_, _, _, rfl, faulty, ?_⟩
    rintro ⟨other, n⟩ member
    exact (passes other n).mpr (sounds other (List.fst_mem_of_mem_zipIdx member))

/-- The rules of pairs with proper heads, numbered from a line on. -/
def namedFrom (line : Nat) (pairs : List (String × String)) : List NamedRule :=
  (pairs.zipIdx line).map fun (pair, n) => ⟨n, Text.trim pair.1, bodyWords pair.2⟩

theorem map_head_namedFrom {pairs : List (String × String)} :
    (namedFrom line pairs).map NamedRule.head = trimmedHeads pairs :=
  calc (namedFrom line pairs).map NamedRule.head
    _ = (pairs.zipIdx line).map ((fun pair => Text.trim pair.1) ∘ Prod.fst) := List.map_map
    _ = trimmedHeads pairs := by rw [← List.map_map, List.zipIdx_map_fst, trimmedHeads]

theorem namedFrom_eq_nil_iff {pairs : List (String × String)} :
    namedFrom line pairs = [] ↔ pairs = [] := by
  rw [namedFrom, List.map_eq_nil_iff, List.zipIdx_eq_nil_iff]

/-- The pairs are read if all heads are proper. -/
theorem read_eq_ok_iff {pairs : List (String × String)} {rules : List NamedRule} :
    (entriesFrom line pairs).mapM RuleEntry.named = .ok rules ↔
      (∀ pair ∈ pairs, ProperHead pair.1) ∧ rules = namedFrom line pairs := by
  have succeeds (proper : ∀ pair ∈ pairs, ProperHead pair.1) :
      (entriesFrom line pairs).mapM RuleEntry.named = .ok (namedFrom line pairs) := by
    rw [mapM_eq_ok_iff, entriesFrom, namedFrom, List.map_map, List.map_map]
    refine List.map_congr_left fun entry member => RuleEntry.named_eq_ok_iff.mpr ⟨?_, rfl, rfl⟩
    exact headName_of_proper (proper entry.1 (List.fst_mem_of_mem_zipIdx member))
  constructor
  · intro read
    have proper : ∀ pair ∈ pairs, ProperHead pair.1 := fun pair member =>
      exists_headName_iff.mp ((named_of_read read).exists_headName member)
    cases read.symm.trans (succeeds proper)
    exact ⟨proper, rfl⟩
  · rintro ⟨proper, rfl⟩
    exact succeeds proper

/-- The pairs are not read if some head is not proper, and the first such head is reported. -/
theorem read_eq_error_iff {pairs : List (String × String)} {error : GrammarError} :
    (entriesFrom line pairs).mapM RuleEntry.named = .error error ↔ ∃ before pair after,
      pairs = before ++ pair :: after ∧ (∀ other ∈ before, ProperHead other.1) ∧
      ∃ fault, HeadFault pair.1 fault ∧ error = .malformedRule (before.length + line) fault := by
  rw [mapM_eq_error_iff, entriesFrom, List.findSome?_map,
    findSome?_zipIdx_eq_some_iff (fun pair => ProperHead pair.1) fun pair n => ?_]
  · simp only [Function.comp_apply, errorOf?_eq_some_iff, RuleEntry.named_eq_error_iff]
  · rw [Function.comp_apply, errorOf?_eq_none_iff, ← exists_headName_iff]
    exact ⟨fun ⟨rule, read⟩ => ⟨rule.head, (RuleEntry.named_eq_ok_iff.mp read).1⟩,
      fun ⟨name, named⟩ =>
        ⟨⟨n, name, bodyWords pair.2⟩, RuleEntry.named_eq_ok_iff.mpr ⟨named, rfl, rfl⟩⟩⟩

/-- The first word that cannot be used is reported, for the first body that has one. -/
theorem scan_eq_some_iff {pairs : List (String × String)} {error : GrammarError}
    (free : endName ∉ heads) :
    (namedFrom line pairs).findSome? (NamedRule.fault? heads) = some error ↔ ∃ before pair after,
      pairs = before ++ pair :: after ∧
        (∀ other ∈ before, ∀ word ∈ Text.words other.2, Usable heads word) ∧
      ∃ early word late, Text.words pair.2 = early ++ word :: late ∧
        WordFault heads (before.length + line) (Text.trim pair.1) word error ∧
          ∀ word ∈ early, Usable heads word := by
  rw [namedFrom, List.findSome?_map,
    findSome?_zipIdx_eq_some_iff (fun pair => ∀ word ∈ Text.words pair.2, Usable heads word)
      fun pair n => ?_]
  · simp only [Function.comp_apply, fault?_bodyWords, List.findSome?_eq_some_iff, wordFault?_eq_some_iff,
      wordFault?_eq_none_iff free]
  · simp only [Function.comp_apply, fault?_bodyWords, List.findSome?_eq_none_iff,
      wordFault?_eq_none_iff free]

theorem fault?_distinct : NamedRule.fault? (distinct heads) = NamedRule.fault? heads := by
  funext rule
  unfold NamedRule.fault?
  congr 1
  funext word
  simp only [wordFault?, mem_distinct]

theorem endName_not_mem {pairs : List (String × String)} (proper : ∀ pair ∈ pairs, ProperHead pair.1) :
    endName ∉ trimmedHeads pairs := by
  intro member
  obtain ⟨pair, inPairs, same⟩ := List.mem_map.mp member
  exact (proper pair inPairs).2.1 same

namespace Grammar

variable {pairs : List (String × String)} {designated : Option String}

/-- Entered rules are refused if they are not read, if there are none, if the designated start symbol
heads none of them, or if one is at fault, and the first of these reasons is reported. -/
theorem ofEntries_eq_error_iff {entries : List RuleEntry} {error : GrammarError} :
    ofEntries entries designated = .error error ↔ entries.mapM RuleEntry.named = .error error ∨
      ∃ rules, entries.mapM RuleEntry.named = .ok rules ∧ (rules = [] ∧ error = .empty ∨
        rules ≠ [] ∧
          (∃ name ∈ designated, name ∉ rules.map NamedRule.head ∧ error = .unknownStart name) ∨
        (∀ name ∈ designated, name ∈ rules.map NamedRule.head) ∧
          rules.findSome? (NamedRule.fault? (rules.map NamedRule.head)) = some error) := by
  rw [ofEntries_eq]
  unfold atOnce ofHeads
  cases read : entries.mapM RuleEntry.named with
  | error other => simp [bind, Except.bind]
  | ok rules =>
    simp only [bind, Except.bind, reduceCtorEq, Except.ok.injEq, exists_eq_left', false_or]
    cases rules with
    | nil => simp [eq_comm]
    | cons first rest =>
      simp only [fault?_distinct, reduceCtorEq, false_and, false_or, ne_eq, not_false_eq_true, true_and]
      generalize names : (first :: rest).map NamedRule.head = heads
      by_cases listed : designated.getD first.head ∈ heads
      · obtain ⟨place, found⟩ := Option.ne_none_iff_exists'.mp fun missing =>
          List.idxOf?_eq_none_iff.mp missing (mem_distinct.mpr listed)
        have started : ∀ name ∈ designated, name ∈ heads := by
          rintro name rfl
          exact listed
        rw [found, or_iff_right fun ⟨name, chosen, unlisted, _⟩ => unlisted (started name chosen),
          and_iff_right started]
        cases scan : (first :: rest).findSome? (NamedRule.fault? heads) <;> simp
      · -- the first head is listed, so the start symbol is another and was designated
        obtain ⟨name, rfl⟩ : ∃ name, designated = some name := by
          refine Option.ne_none_iff_exists'.mp ?_
          rintro rfl
          exact listed (names ▸ List.mem_cons_self)
        rw [List.idxOf?_eq_none_iff.mpr fun member => listed (mem_distinct.mp member),
          or_iff_left fun ⟨started, _⟩ => listed (started name rfl)]
        have unlisted : name ∉ heads := listed
        simp [unlisted, eq_comm]

theorem heads_iff (proper : ∀ pair ∈ pairs, ProperHead pair.1) {name : String} :
    Heads pairs name ↔ name ∈ trimmedHeads pairs := by
  rw [trimmedHeads, List.mem_map]
  refine exists_congr fun pair => and_congr_right fun member => ?_
  rw [headName_of_proper (proper pair member), Except.ok.injEq]

/-- Pairs make a grammar exactly if there are any, each head is proper, the designated start symbol is
among the heads, and every word of a body can be used there. Otherwise the error is the first fault in
the order of the checks. -/
theorem ofRules_outcome (pairs : List (String × String)) (designated : Option String) :
    ((∃ g, ofRules pairs designated = .ok g) ↔ pairs ≠ [] ∧ (∀ pair ∈ pairs, ProperHead pair.1) ∧
      (∀ name ∈ designated, name ∈ trimmedHeads pairs) ∧
      ∀ pair ∈ pairs, ∀ word ∈ Text.words pair.2, Usable (trimmedHeads pairs) word) ∧
    ∀ error, ofRules pairs designated = .error error ↔ Refused pairs designated error := by
  constructor
  · rw [exists_ofRules_iff]
    simp only [exists_headName_iff]
    refine and_congr_right fun _ => and_congr_right fun proper => ?_
    simp only [heads_iff proper, bodies_usable_iff (endName_not_mem proper)]
  · intro error
    rw [show ofRules pairs designated = ofEntries (entriesFrom 1 pairs) designated from rfl,
      ofEntries_eq_error_iff,
      read_eq_error_iff]
    simp only [read_eq_ok_iff]
    constructor
    · rintro (⟨before, pair, after, whole, proper, fault, faulty, rfl⟩ | ⟨_, ⟨proper, rfl⟩, refused⟩)
      · exact .head whole proper faulty
      · rw [map_head_namedFrom, scan_eq_some_iff (endName_not_mem proper)] at refused
        obtain ⟨none, rfl⟩ | ⟨some, name, chosen, unknown, rfl⟩ | ⟨started, scanned⟩ := refused
        · exact .empty (namedFrom_eq_nil_iff.mp none)
        · exact .start (fun none => some (namedFrom_eq_nil_iff.mpr none)) proper chosen unknown
        · obtain ⟨before, pair, after, whole, sound, early, word, late, split, faulty, usable⟩ := scanned
          exact .body proper started whole sound split usable faulty
    · rintro (⟨whole, proper, faulty⟩ | rfl | ⟨some, proper, chosen, unknown⟩ |
        ⟨proper, started, whole, sound, split, usable, faulty⟩)
      · exact Or.inl ⟨_, _, _, whole, proper, _, faulty, rfl⟩
      · exact Or.inr ⟨[], ⟨fun _ member => absurd member List.not_mem_nil, rfl⟩, Or.inl ⟨rfl, rfl⟩⟩
      · refine Or.inr
          ⟨_, ⟨proper, rfl⟩, Or.inr (Or.inl ⟨mt namedFrom_eq_nil_iff.mp some, _, chosen, ?_, rfl⟩)⟩
        rwa [map_head_namedFrom]
      · refine Or.inr ⟨_, ⟨proper, rfl⟩, Or.inr (Or.inr ?_)⟩
        rw [map_head_namedFrom, scan_eq_some_iff (endName_not_mem proper)]
        exact ⟨started, _, _, _, whole, sound, _, _, _, split, faulty, usable⟩

example : ofRules [("S", "a B $"), ("A", "x"), ("S T", "B")] (some "Z") =
    .error (.malformedRule 3 .blankInLeftSide) := by cbv

example :
    ofRules [("S", "a ε A"), (" A ", "ϵ B $"), ("S", "$")] (some "A") =
      .error (.undefinedSymbol "B" "A") := by
  cbv

end Grammar

end ParseTables
