import ParseTables.Analysis
import ParseTables.Render.ActionTable
import ParseTables.Render.Automaton
import ParseTables.Render.Conflicts
import ParseTables.Render.PredictiveTable
import ParseTables.Render.Sets

namespace ParseTables

/-- What can be shown of an analysis. -/
inductive Subject where
  | productions
  | sets
  | predictiveTable
  | automaton
  | conflicts
  | actionTable
deriving DecidableEq

/-- How it can be written. -/
inductive Format where
  | plain
  | latex
  | json
deriving DecidableEq

namespace Analysis

open Render

def listing? (a : Analysis) : Option Listing := Listing.ofGrammar? a.grammar

def sets? (a : Analysis) : Option SetsTable := SetsTable.of? a.grammar a.first a.follow

def predictiveGrid? (a : Analysis) : Option PredictiveGrid :=
  PredictiveGrid.of? a.grammar a.predictive

def diagram? [Text.TeX] (a : Analysis) : Option Diagram := Diagram.of? a.grammar a.automaton

def conflictReport? (a : Analysis) : Option ConflictReport :=
  ConflictReport.of? a.grammar a.conflicts

def actionGrid? (a : Analysis) : Option ActionGrid := ActionGrid.of? a.grammar a.actions

end Analysis

namespace Render

open Text (Json)

/-- What can be written in each format. The plain text is missing if a column of it would be wider
than a field can be. -/
class Document (α : Type) where
  plain? : α → Option String
  latex : α → String
  json : α → Json

instance [Text.TeX] : Document Listing := ⟨Listing.plain?, Listing.latex, Listing.json⟩

instance [Text.TeX] : Document SetsTable := ⟨fun t => some t.plain, SetsTable.latex, SetsTable.json⟩

instance [Text.TeX] : Document PredictiveGrid :=
  ⟨PredictiveGrid.plain?, PredictiveGrid.latex, PredictiveGrid.json⟩

instance [Text.TeX] : Document Diagram := ⟨fun d => some d.plain, Diagram.latex, Diagram.json⟩

instance [Text.TeX] : Document ConflictReport :=
  ⟨fun r => some r.plain, ConflictReport.latex, ConflictReport.json⟩

instance [Text.TeX] : Document ActionGrid := ⟨ActionGrid.plain?, ActionGrid.latex, ActionGrid.json⟩

def inFormat? {α : Type} [Document α] (format : Format) (document : α) : Option String :=
  match format with
  | .plain => Document.plain? document
  | .latex => some (Document.latex document)
  | .json => some (Document.json document).render

end Render

open Render in
def Analysis.render? [Text.TeX] (a : Analysis) (subject : Subject) (format : Format) : Option String :=
  match subject with
  | .productions => a.listing?.bind (inFormat? format)
  | .sets => a.sets?.bind (inFormat? format)
  | .predictiveTable => a.predictiveGrid?.bind (inFormat? format)
  | .automaton => a.diagram?.bind (inFormat? format)
  | .conflicts => a.conflictReport?.bind (inFormat? format)
  | .actionTable => a.actionGrid?.bind (inFormat? format)

end ParseTables
