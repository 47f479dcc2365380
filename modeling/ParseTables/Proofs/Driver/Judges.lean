import ParseTables.Proofs.Driver.Lockstep
import ParseTables.Proofs.Grammar.Sentence

namespace ParseTables.Driver

variable {Config Step : Type} {g : Grammar}

/-- A right trace of a run on a word accepts it just if it is derived, and otherwise it ends at the first
token at which no sentence goes on in that way. -/
structure Judges (g : Grammar) (position : Step → Nat) (word : List Nat)
    (trace : Trace Step) : Prop where
  input : trace.input = word ++ [g.endMark]
  accepts : trace.accepted ↔ g.Derives [g.start] word
  rejects : trace.accepted = false → ∃ reason last, trace.verdict = .rejected reason ∧
    trace.steps.getLast? = some last ∧ position last < trace.input.length ∧
      g.Excludes (trace.input.take (position last + 1))

/-- A machine that accepts the sentences and, on a closed word, stops otherwise only with a rejection.
The rejection is recorded where it happens, and depends on no token after the next one. -/
structure Recognizer (g : Grammar) (machine : Machine Config Step) extends Reader machine.advance where
  initial : List Nat → Config
  recordedAt : Step → Nat
  position_initial : ∀ input, position (initial input) = 0
  rest_initial : ∀ input, rest (initial input) = input
  withRest_initial : ∀ input other, withRest (initial input) other = initial other
  accepts : ∀ {sentence}, g.IsSentence sentence →
    (machine.run (initial (sentence ++ [g.endMark]))).verdict = .accepted
  stops : ∀ {word steps last recorded verdict},
    Advances machine.advance (initial (word ++ [g.endMark])) steps last →
    machine.advance last = .stop recorded verdict →
    verdict = .accepted ∧ g.Derives [g.start] word ∨
      ∃ reason step, verdict = .rejected reason ∧ recorded = some step ∧
        recordedAt step = position last ∧ position last < (word ++ [g.endMark]).length
  rejects_elsewhere : ∀ {config recorded reason current late other},
    machine.advance config = .stop recorded (.rejected reason) → rest config = current :: late →
    (late = [] ↔ other = []) →
    ∃ reason', machine.advance (withRest config (current :: other)) =
      .stop recorded (.rejected reason')

namespace Recognizer

variable {machine : Machine Config Step} (recognizer : Recognizer g machine)
include recognizer

/-- No closed sentence begins with the tokens up to the one at which the machine rejects. -/
theorem excludes (wf : g.WellFormed) {word : List Nat} (isWord : g.IsWord word) {before : List Step}
    {last : Config} {step : Step} {reason : Rejection}
    (path : Advances machine.advance (recognizer.initial (word ++ [g.endMark])) before last)
    (stopped : machine.advance last = .stop (some step) (.rejected reason))
    (inside : recognizer.position last < (word ++ [g.endMark]).length) :
    g.Excludes ((word ++ [g.endMark]).take (recognizer.position last + 1)) := by
  intro sentence isSentence shared
  rw [← recognizer.rest_initial (word ++ [g.endMark])] at inside shared
  obtain ⟨common, current, late, other, unread, split, split', path'⟩ :=
    recognizer.elsewhere path (recognizer.position_initial _) inside shared
  rw [recognizer.rest_initial] at split
  rw [recognizer.withRest_initial] at path'
  have alike := isWord.ends_alike (isSentence.isWord wf) split split'
  obtain ⟨reason', stopped'⟩ := recognizer.rejects_elsewhere stopped unread alike
  have halts : HaltsWith machine.advance (recognizer.initial (sentence ++ [g.endMark]))
      (before ++ [step]) (.rejected reason') := ⟨before, _, some step, path', stopped', rfl⟩
  have accepted := recognizer.accepts isSentence
  rw [Machine.run_eq halts] at accepted
  simp at accepted

/-- A machine that looks one token ahead and accepts every sentence also rejects at the first wrong
token, because a sentence that begins with the same tokens would be rejected too. -/
theorem judges (wf : g.WellFormed) {word : List Nat} (isWord : g.IsWord word) :
    let run := machine.run (recognizer.initial (word ++ [g.endMark]))
    Judges g recognizer.recordedAt word ⟨word ++ [g.endMark], run.steps, run.verdict⟩ := by
  intro run
  obtain ⟨before, last, recorded, path, stopped, steps⟩ :=
    machine.run_halts (recognizer.initial (word ++ [g.endMark]))
  have ends := recognizer.stops path stopped
  refine ⟨rfl, ⟨fun accepted => ?_, fun derives => ?_⟩, fun refused => ?_⟩
  · have accepted' : run.verdict = .accepted := of_decide_eq_true accepted
    rcases ends with ⟨-, derives⟩ | ⟨reason, -, rejected, -⟩
    · exact derives
    · exact absurd (accepted'.symm.trans rejected) (by simp)
  · exact decide_eq_true (recognizer.accepts (isWord.isSentence_iff.mpr derives))
  · have refused' : run.verdict ≠ .accepted := of_decide_eq_false refused
    rcases ends with ⟨accepted, -⟩ | ⟨reason, step, rejected, rfl, place, inside⟩
    · exact absurd accepted refused'
    refine ⟨reason, step, rejected, by simp [run, steps], by rwa [place], ?_⟩
    rw [rejected] at stopped
    rw [place]
    exact recognizer.excludes wf isWord path stopped inside

end Recognizer

/-- A parser that is right about the terminals of a word is right about the word, written with or without
the end mark. -/
theorem judges_names (wf : g.WellFormed) {word : List Nat} (isWord : g.IsWord word)
    {position : Step → Nat} {trace : List String → Trace Step} (run : Run Step)
    (traced : ∀ tokens, g.resolve tokens = .ok (word ++ [g.endMark]) →
      trace tokens = ⟨word ++ [g.endMark], run.steps, run.verdict⟩)
    (judges : Judges g position word ⟨word ++ [g.endMark], run.steps, run.verdict⟩) :
    ∃ names, g.namesOf? word = some names ∧ Judges g position word (trace names) ∧
      Judges g position word (trace (names ++ [endName])) := by
  obtain ⟨names, named⟩ := Grammar.exists_names isWord.isTerminal
  refine ⟨names, named, ?_, ?_⟩
  · rw [traced _ (Grammar.resolve_names wf isWord named (Or.inl rfl))]
    exact judges
  · rw [traced _ (Grammar.resolve_names wf isWord named (Or.inr rfl))]
    exact judges

end ParseTables.Driver
