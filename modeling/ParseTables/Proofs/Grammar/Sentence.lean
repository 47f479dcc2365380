import Mathlib.Data.List.Nodup
import ParseTables.Proofs.Lookahead.First
import ParseTables.Sentence

namespace ParseTables.Grammar

variable {g : Grammar}

/-- A string of terminals that is derived from the start symbol. -/
def IsSentence (g : Grammar) (word : List Nat) : Prop :=
  g.Derives [g.start] word ∧ ∀ terminal ∈ word, g.isTerminal terminal

/-- Whether an input that begins with these tokens is wrong, whatever comes after them. -/
def Excludes (g : Grammar) (tokens : List Nat) : Prop :=
  ∀ sentence, g.IsSentence sentence → ¬ tokens <+: sentence ++ [g.endMark]

/-- The end mark is in no string that is derived from one without it. -/
theorem Derives.endMark_not_mem (wf : g.WellFormed) {u v : List Nat} (derives : g.Derives u v)
    (free : g.endMark ∉ u) : g.endMark ∉ v := by
  induction derives with
  | refl => exact free
  | tail _ step ih =>
    cases step with
    | @rewrite rule before after member =>
      simp only [List.mem_append, List.mem_cons, not_or] at ih ⊢
      refine ⟨⟨ih.1, fun inBody => ?_⟩, ih.2.2⟩
      exact Nat.lt_irrefl _ (wf.body_lt rule member _ inBody)

theorem WellFormed.start_ne_endMark (wf : g.WellFormed) : g.start ≠ g.endMark := by
  have := wf.start_le
  unfold endMark terminalCount
  omega

theorem WellFormed.endMark_not_mem_form (wf : g.WellFormed) {form : List Nat}
    (derives : g.Derives [g.start] form) : g.endMark ∉ form :=
  derives.endMark_not_mem wf fun member => wf.start_ne_endMark (List.mem_singleton.mp member).symm

theorem IsSentence.isWord (wf : g.WellFormed) {word : List Nat} (sentence : g.IsSentence word) :
    g.IsWord word := fun terminal member =>
  ⟨sentence.2 terminal member, fun last => wf.endMark_not_mem_form sentence.1 (last ▸ member)⟩

theorem IsWord.isSentence_iff {word : List Nat} (isWord : g.IsWord word) :
    g.IsSentence word ↔ g.Derives [g.start] word :=
  ⟨And.left, fun derives => ⟨derives, isWord.isTerminal⟩⟩

/-- Nothing comes after the end mark of a closed word. -/
theorem IsWord.nil_of_closed {word : List Nat} (isWord : g.IsWord word) {common other : List Nat}
    (closed : g.endMark ∈ common) (split : word ++ [g.endMark] = common ++ other) : other = [] := by
  rcases List.eq_nil_or_concat other with empty | ⟨before, last, rfl⟩
  · exact empty
  · rw [List.concat_eq_append, ← List.append_assoc] at split
    have same : word = common ++ before := (List.append_inj' split rfl).1
    exact absurd (same ▸ List.mem_append_left before closed) isWord.endMark_not_mem

/-- Two closed words that begin alike end at the same place or go on together. -/
theorem IsWord.ends_alike {word word' : List Nat} (isWord : g.IsWord word) (isWord' : g.IsWord word')
    {common late other : List Nat} (split : word ++ [g.endMark] = common ++ late)
    (split' : word' ++ [g.endMark] = common ++ other) : late = [] ↔ other = [] := by
  constructor
  · rintro rfl
    rw [List.append_nil] at split
    exact isWord'.nil_of_closed (by simp [← split]) split'
  · rintro rfl
    rw [List.append_nil] at split'
    exact isWord.nil_of_closed (by simp [← split']) split

theorem index?_of_name? (wf : g.WellFormed) {symbol : Nat} (positive : 0 < symbol) {name : String}
    (named : g.name? symbol = some name) : g.index? name = some symbol := by
  obtain ⟨place, rfl⟩ := Nat.exists_eq_succ_of_ne_zero (Nat.ne_of_gt positive)
  rw [Nat.succ_eq_add_one, name?_succ] at named
  obtain ⟨inside, rfl⟩ := List.getElem?_eq_some_iff.mp named
  have located : g.names.idxOf? g.names[place] = some place := by
    refine List.idxOf?_eq_some_iff.mpr ⟨inside, rfl, fun earlier before same => ?_⟩
    have := (List.Nodup.getElem_inj_iff wf.names_nodup).mp same
    omega
  rw [index?, located]
  rfl

theorem length_names : g.names.length = g.endMark := by
  simp [names, endMark, nonTerminalCount, terminalCount]

theorem exists_name {symbol : Nat} (positive : 0 < symbol) (bound : symbol ≤ g.endMark) :
    ∃ name, g.name? symbol = some name := by
  obtain ⟨place, rfl⟩ := Nat.exists_eq_succ_of_ne_zero (Nat.ne_of_gt positive)
  have count := @length_names g
  rw [Nat.succ_eq_add_one, name?_succ]
  exact ⟨_, List.getElem?_eq_getElem (by omega)⟩

theorem name?_endMark : g.name? g.endMark = some endName := by
  have count : g.endMark = g.heads.size + g.terminalNames.size + 1 := by
    simp [endMark, nonTerminalCount, terminalCount, Nat.add_assoc]
  have place : g.names[g.heads.size + g.terminalNames.size]? = some endName := by
    simp [names]
  rw [count, name?_succ, place]

theorem le_endMark_of_name? {symbol : Nat} {name : String} (positive : 0 < symbol)
    (named : g.name? symbol = some name) : symbol ≤ g.endMark := by
  obtain ⟨place, rfl⟩ := Nat.exists_eq_succ_of_ne_zero (Nat.ne_of_gt positive)
  rw [Nat.succ_eq_add_one, name?_succ] at named
  obtain ⟨inside, -⟩ := List.getElem?_eq_some_iff.mp named
  rwa [length_names] at inside

theorem exists_nonTerminal {head : String} (member : head ∈ g.heads) :
    ∃ symbol ∈ g.nonTerminals, g.name? symbol = some head := by
  obtain ⟨place, inside, rfl⟩ := Array.mem_iff_getElem.mp member
  refine ⟨place + 1, mem_nonTerminals_iff.mpr ⟨Nat.succ_pos place, inside⟩, ?_⟩
  rw [name?, if_pos inside, Array.getElem?_eq_getElem inside]

/-- The non-terminals are told by their names. -/
theorem mem_nonTerminals_iff_name (wf : g.WellFormed) {symbol : Nat} {name : String}
    (positive : 0 < symbol) (named : g.name? symbol = some name) :
    symbol ∈ g.nonTerminals ↔ name ∈ g.heads := by
  rw [mem_nonTerminals_iff]
  constructor
  · rintro ⟨-, bound⟩
    obtain ⟨place, rfl⟩ := Nat.exists_eq_succ_of_ne_zero (Nat.ne_of_gt positive)
    rw [Nat.succ_eq_add_one, name?, if_pos (show place < g.heads.size from bound)] at named
    exact Array.mem_of_getElem? named
  · intro member
    obtain ⟨other, listed, again⟩ := exists_nonTerminal member
    have positive' := (mem_nonTerminals_iff.mp listed).1
    have same := (index?_of_name? wf positive' again).symm.trans (index?_of_name? wf positive named)
    exact mem_nonTerminals_iff.mp (Option.some.inj same ▸ listed)

theorem eq_of_name? (wf : g.WellFormed) {symbol symbol' : Nat} (bounds : 0 < symbol ∧ symbol ≤ g.endMark)
    (positive' : 0 < symbol') (names : g.name? symbol = g.name? symbol') : symbol = symbol' := by
  obtain ⟨name, named⟩ := exists_name bounds.1 bounds.2
  have located := index?_of_name? wf bounds.1 named
  rw [names] at named
  exact Option.some.inj (located.symm.trans (index?_of_name? wf positive' named))

/-- The end mark comes last, so there are symbols. -/
theorem endMark_pos : 0 < g.endMark := Nat.succ_pos _

theorem terminal?_of_name? (wf : g.WellFormed) {terminal : Nat} (isTerminal : g.isTerminal terminal)
    {name : String} (named : g.name? terminal = some name) : g.terminal? name = some terminal := by
  have positive : 0 < terminal := Nat.lt_of_le_of_lt (Nat.zero_le _) (isTerminal_iff.mp isTerminal).1
  rw [Grammar.terminal?, index?_of_name? wf positive named]
  simp [isTerminal]

theorem exists_names {word : List Nat} (terminals : ∀ terminal ∈ word, g.isTerminal terminal) :
    ∃ names, g.namesOf? word = some names := by
  refine exists_mapM fun terminal member => ?_
  have bounds := isTerminal_iff.mp (terminals terminal member)
  exact exists_name (by omega) bounds.2

theorem mapM_names {read : String → Except Rejection Nat} {word : List Nat}
    (reads : ∀ terminal ∈ word, ∀ name, g.name? terminal = some name → read name = .ok terminal)
    {names : List String} (named : g.namesOf? word = some names) : names.mapM read = .ok word := by
  induction word generalizing names with
  | nil =>
    cases Option.some.inj named
    rfl
  | cons terminal rest ih =>
    rw [namesOf?, List.mapM_cons] at named
    obtain ⟨name, first, named⟩ := Option.bind_eq_some_iff.mp named
    obtain ⟨others, later, last⟩ := Option.bind_eq_some_iff.mp named
    cases Option.some.inj last
    rw [List.mapM_cons, reads terminal List.mem_cons_self name first,
      ih (fun other member => reads other (List.mem_cons_of_mem _ member)) later]
    rfl

theorem resolve_of_names (wf : g.WellFormed) {word : List Nat}
    (terminals : ∀ terminal ∈ word, g.isTerminal terminal) {names : List String}
    (named : g.namesOf? word = some names) : g.resolve names = .ok (g.closeInput word) := by
  unfold resolve
  rw [mapM_names (fun terminal member name known => ?_) named]
  · rfl
  · rw [terminal?_of_name? wf (terminals terminal member) known]

theorem exists_unknown {tokens : List String} {reason : Rejection}
    (failed : g.resolve tokens = .error reason) : ∃ token, reason = .unknownSymbol token := by
  simp only [resolve, bind, Except.bind] at failed
  split at failed
  · rename_i other read
    obtain rfl : other = reason := Except.error.inj failed
    obtain ⟨token, -, unknown⟩ := exists_of_mapM_error read
    split at unknown
    · cases unknown
    · exact ⟨token, (Except.error.inj unknown).symm⟩
  · cases failed

/-- A resolved input ends with the end mark. -/
theorem exists_word_of_resolve {tokens : List String} {input : List Nat}
    (resolved : g.resolve tokens = .ok input) : ∃ word, input = word ++ [g.endMark] := by
  simp only [resolve, bind, Except.bind] at resolved
  split at resolved
  · cases resolved
  · rename_i terminals _
    have closed : g.closeInput terminals = input := Except.ok.inj resolved
    rw [← closed, closeInput]
    split
    · rename_i last
      obtain ⟨word, whole⟩ := List.getLast?_eq_some_iff.mp last
      exact ⟨word, whole⟩
    · exact ⟨terminals, rfl⟩

/-- A word may be written with or without the end mark after it. -/
theorem resolve_names (wf : g.WellFormed) {word : List Nat} (isWord : g.IsWord word)
    {names tokens : List String} (named : g.namesOf? word = some names)
    (written : tokens = names ∨ tokens = names ++ [endName]) :
    g.resolve tokens = .ok (word ++ [g.endMark]) := by
  rcases written with rfl | rfl
  · rw [resolve_of_names wf isWord.isTerminal named, closeInput, if_neg]
    intro last
    exact isWord.endMark_not_mem (List.mem_of_getLast? last)
  · have named' : g.namesOf? (word ++ [g.endMark]) = some (names ++ [endName]) := by
      unfold namesOf? at named ⊢
      simp [List.mapM_append, named, name?_endMark]
    have terminals : ∀ terminal ∈ word ++ [g.endMark], g.isTerminal terminal := by
      intro terminal member
      rcases List.mem_append.mp member with inWord | last
      · exact isWord.isTerminal terminal inWord
      · rw [List.mem_singleton.mp last, isTerminal_iff, endMark, terminalCount]
        omega
    rw [resolve_of_names wf terminals named', closeInput, if_pos (by simp)]

end ParseTables.Grammar
