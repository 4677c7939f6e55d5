import LetPrint.Automaton.Canonical
import LetPrint.Automaton.Item
import LetPrint.Automaton.Merged
import LetPrint.Automaton.Table
import LetPrint.CommandLine
import LetPrint.Environment
import LetPrint.Error
import LetPrint.Evaluation
import LetPrint.Event
import LetPrint.Grammar.Basic
import LetPrint.Grammar.First
import LetPrint.Grammar.Symbol
import LetPrint.Language
import LetPrint.Lexer
import LetPrint.Main
import LetPrint.Parser
import LetPrint.Pattern.Basic
import LetPrint.Pattern.Escape
import LetPrint.Pattern.Match
import LetPrint.Pattern.Nodes
import LetPrint.Pattern.Reader
import LetPrint.Pattern.SetReader
import LetPrint.Pattern.Size
import LetPrint.Position
import LetPrint.Program
import LetPrint.Session
import LetPrint.Stream
import LetPrint.Text.Bytes
import LetPrint.Text.Classes
import LetPrint.Text.Quoted
import LetPrint.Text.Ranges
import LetPrint.Token
import LetPrint.Proofs.ItemOrder
import LetPrint.Proofs.Derivation
import LetPrint.Proofs.FirstSets
import LetPrint.Proofs.ItemSets
import LetPrint.Proofs.Canonical
import LetPrint.Proofs.Merged
import LetPrint.Proofs.Tables
import LetPrint.Proofs.Settling
import LetPrint.Proofs.Runs
import LetPrint.Proofs.PostOrder
import LetPrint.Proofs.Acceptance
import LetPrint.Proofs.Ambiguity
import LetPrint.Proofs.Beginnings
import LetPrint.Proofs.Climbing
import LetPrint.Proofs.Lifting
import LetPrint.Proofs.Halting
import LetPrint.Proofs.Clauses
import LetPrint.Proofs.Reading
import LetPrint.Proofs.Scoping
import LetPrint.Proofs.Pulling
import LetPrint.Proofs.FirstError
import LetPrint.Proofs.Matching
import LetPrint.Proofs.Scanner
import LetPrint.Proofs.Places
import LetPrint.Proofs.LineBreaks
import LetPrint.Proofs.Phrases
import LetPrint.Proofs.Declarations
import LetPrint.Proofs.Execution
import LetPrint.Proofs.Sessions
import LetPrint.Proofs.Settled
import LetPrint.Proofs.SourceOrder
import LetPrint.Proofs.Joining
import LetPrint.Proofs.Cores
import LetPrint.Proofs.Faultless
import LetPrint.Proofs.ViablePrefixes
import LetPrint.Proofs.Spelling
import LetPrint.Proofs.Writing
import LetPrint.Proofs.Rounds
import LetPrint.Proofs.Conflicts
import LetPrint.Proofs.Rightmost
import LetPrint.Proofs.ValidItems
import LetPrint.Proofs.Reordering
import LetPrint.Proofs.Anchoring
import LetPrint.Proofs.Room
import LetPrint.Proofs.Strays
import LetPrint.Proofs.Relocation
import LetPrint.Proofs.Slices
import LetPrint.Proofs.Spans
import LetPrint.Proofs.Legible
import LetPrint.Proofs.Listings
import LetPrint.Proofs.Placeless
import LetPrint.Proofs.Layout
import LetPrint.Proofs.Operations
