import SoundLaw.Automaton.Construction
import SoundLaw.Automaton.Graph
import SoundLaw.Automaton.Run
import SoundLaw.Call
import SoundLaw.CommandLine
import SoundLaw.Element
import SoundLaw.Environment
import SoundLaw.Fault
import SoundLaw.Feature.Model
import SoundLaw.Feature.Schema
import SoundLaw.Feature.Store
import SoundLaw.Feature.Value
import SoundLaw.MacroStore
import SoundLaw.Macros
import SoundLaw.Main
import SoundLaw.Number.Binary64
import SoundLaw.Number.Numeral
import SoundLaw.Number.Shortest
import SoundLaw.Pattern.Expression
import SoundLaw.Pattern.Legality
import SoundLaw.Pattern.Lexeme
import SoundLaw.Pattern.Parsing
import SoundLaw.Proofs.Blanks
import SoundLaw.Proofs.Bounds
import SoundLaw.Proofs.Candidates
import SoundLaw.Proofs.Closure
import SoundLaw.Proofs.Compilation
import SoundLaw.Proofs.Context
import SoundLaw.Proofs.Definitions
import SoundLaw.Proofs.Edges
import SoundLaw.Proofs.Elements
import SoundLaw.Proofs.EmptySpan
import SoundLaw.Proofs.Entries
import SoundLaw.Proofs.Expansion
import SoundLaw.Proofs.FaultTexts
import SoundLaw.Proofs.Grammar.Phrases
import SoundLaw.Proofs.Grammar.Reading
import SoundLaw.Proofs.Halting
import SoundLaw.Proofs.Inlining
import SoundLaw.Proofs.Insertions
import SoundLaw.Proofs.Lexing
import SoundLaw.Proofs.LocalRules
import SoundLaw.Proofs.Matching
import SoundLaw.Proofs.Meaning
import SoundLaw.Proofs.Mirror
import SoundLaw.Proofs.Models
import SoundLaw.Proofs.Nesting
import SoundLaw.Proofs.OneModel
import SoundLaw.Proofs.Outcomes
import SoundLaw.Proofs.Parsing
import SoundLaw.Proofs.Printing.EmptyGroups
import SoundLaw.Proofs.Printing.Environments
import SoundLaw.Proofs.Printing.Lexemes
import SoundLaw.Proofs.Printing.Rendering
import SoundLaw.Proofs.Printing.Rereading
import SoundLaw.Proofs.Printing.Spacing
import SoundLaw.Proofs.Printing.Unwrapping
import SoundLaw.Proofs.Progress
import SoundLaw.Proofs.Rearrangement
import SoundLaw.Proofs.Recutting
import SoundLaw.Proofs.Rejections
import SoundLaw.Proofs.Replacing
import SoundLaw.Proofs.RuleWords
import SoundLaw.Proofs.Scan
import SoundLaw.Proofs.Search
import SoundLaw.Proofs.Segmentation
import SoundLaw.Proofs.Sentinel
import SoundLaw.Proofs.SourcePatterns
import SoundLaw.Proofs.Stores
import SoundLaw.Proofs.Substitution
import SoundLaw.Proofs.Texts
import SoundLaw.Proofs.Units
import SoundLaw.Proofs.Wiring.Item
import SoundLaw.Proofs.Wiring.Liveness
import SoundLaw.Proofs.Wiring.References
import SoundLaw.Proofs.Wiring.Row
import SoundLaw.Proofs.Wiring.Run
import SoundLaw.Proofs.Worklist
import SoundLaw.Rule.Application
import SoundLaw.Rule.Change
import SoundLaw.Rule.Reading
import SoundLaw.Script
import SoundLaw.Segment
import SoundLaw.Segmenter
import SoundLaw.Side
import SoundLaw.Text.Alphabetic
import SoundLaw.Text.Blank
import SoundLaw.Text.Cluster
import SoundLaw.Text.ClusterBreak
import SoundLaw.Text.Invisible
import SoundLaw.Text.Nesting
import SoundLaw.Text.Quoted
import SoundLaw.Text.Ranges
import SoundLaw.Word
import SoundLaw.Proofs.Histories
import SoundLaw.Proofs.Descriptors
import SoundLaw.Proofs.Overwriting
import SoundLaw.Proofs.Scripts
import SoundLaw.Proofs.Stores
