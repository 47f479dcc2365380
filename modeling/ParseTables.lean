import ParseTables.Answer
import ParseTables.Journal
import ParseTables.Main
import ParseTables.Proofs.Predictive.Correct
import ParseTables.Proofs.ShiftReduce.Cycle
import ParseTables.Proofs.Predictive.Exact
import ParseTables.Proofs.ShiftReduce.Exact
import ParseTables.Proofs.Predictive.Descent
import ParseTables.Proofs.Automaton.Viable
import ParseTables.Proofs.ShiftReduce.Rightmost
import ParseTables.Proofs.Predictive.Leftmost
import ParseTables.Proofs.Lookahead.Passes
import ParseTables.Proofs.Lookahead.Worklist
import ParseTables.Proofs.Automaton.Subsets
import ParseTables.Proofs.Driver.Verdicts
import ParseTables.Proofs.Unambiguous
import ParseTables.Proofs.Embedding.Reordered
import ParseTables.Proofs.Embedding.Extended
import ParseTables.Proofs.Grammar.Numbered
import ParseTables.Proofs.Grammar.Layout
import ParseTables.Proofs.Render.Listing
import ParseTables.Proofs.Lookup.InRange
import ParseTables.Proofs.Predictive.Overlap
import ParseTables.Proofs.ShiftReduce.Reported
import ParseTables.Proofs.Grammar.Refusal
import ParseTables.Proofs.Item.Hull
import ParseTables.Proofs.Text.Tokens
import ParseTables.Proofs.Render.Dotted
import ParseTables.Proofs.Render.Sets
import ParseTables.Proofs.Automaton.Breadth
import ParseTables.Proofs.Render.Aligned
