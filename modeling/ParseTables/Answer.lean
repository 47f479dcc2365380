import ParseTables.Grammar.OfText
import ParseTables.Render.Document

namespace ParseTables.Answer

open Text (Json)

/-- The answer to a question that cannot be answered. -/
def refusal (reason : String) : Json := .object [("error", .text reason)]

/-- Answers a question about the analysis of a grammar given as text. A text that is no grammar is
answered by an object with the reason. -/
def about (text : String) (question : Analysis → Option Json) : Option String :=
  match Grammar.ofText text with
  | .error e => some (refusal e.message).render
  | .ok g => (question (.ofGrammar g .anyMultiple)).map Json.render

def firstFollow (text : String) : Option String :=
  about text fun a => a.sets?.map Render.SetsTable.json

def predictiveTable (text : String) : Option String :=
  about text fun a => a.predictiveGrid?.map Render.PredictiveGrid.json

def automaton (text : String) : Option String :=
  about text fun a => a.diagram?.map Render.Diagram.json

def actionTable (text : String) : Option String :=
  about text fun a => do
    let report ← a.conflictReport?
    let table ← a.actionGrid?
    return (Json.object [("report", report.json), ("table", table.json)]).sorted

/-- Whether the preferred parser accepts an input, and the reason if it does not. The keys are in
order. -/
def parse (text input : String) : Option String :=
  about text fun a =>
    match a.preferred? with
    | none => some (refusal "the grammar is neither LL(1) nor SLR(1)")
    | some kind =>
      let parser := ("parser", Json.text kind.grammarClass)
      match a.parse kind (splitInput input) with
      | .accepted => some (Json.object [parser, ("accepted", .bool true)]).sorted
      | .rejected reason => do
        let message ← reason.message? a.grammar
        return (Json.object
          [parser, ("accepted", .bool false), ("reason", .text message)]).sorted
      | .undefinedRule _ => none

end ParseTables.Answer
