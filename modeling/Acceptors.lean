import Acceptors.Error
import Acceptors.Config
import Acceptors.Alphabet
import Acceptors.StateSet
import Acceptors.Numbering
import Acceptors.Grid
import Acceptors.Search
import Acceptors.StateNames
import Acceptors.Nfa.Basic
import Acceptors.Nfa.Run
import Acceptors.Nfa.Path
import Acceptors.Nfa.EpsilonFree
import Acceptors.Nfa.Combine
import Acceptors.Dfa.Basic
import Acceptors.Dfa.Complete
import Acceptors.Dfa.Restrict
import Acceptors.Dfa.Multiples
import Acceptors.Dfa.Embed
import Acceptors.Dfa.Subset
import Acceptors.Minimal.PairTable
import Acceptors.Minimal.DisjointSets
import Acceptors.Minimal.Minimize
import Acceptors.Automaton
import Acceptors.Pattern.Token
import Acceptors.Pattern.Regex
import Acceptors.Pattern.Piece
import Acceptors.Pattern.Postorder
import Acceptors.Pattern.Compiler
import Acceptors.Text.Blank
import Acceptors.Text.Unprintable
import Acceptors.Text.Quoted
import Acceptors.Text.Name
import Acceptors.SourceError
import Acceptors.Listing
import Acceptors.Table.Basic
import Acceptors.Table.Reader
import Acceptors.Table.Writer
import Acceptors.Grammar.Basic
import Acceptors.Grammar.Derivation
import Acceptors.Grammar.Reader
import Acceptors.Grammar.Writer
import Acceptors.Grammar.Conversion
import Acceptors.Definition
import Acceptors.Builder
import Acceptors.Proofs.Nfa.Language
import Acceptors.Proofs.Nfa.Shape
import Acceptors.Proofs.Nfa.Joined
import Acceptors.Proofs.Nfa.Combined
import Acceptors.Proofs.Pattern.Language
import Acceptors.Proofs.Pattern.Printed
import Acceptors.Proofs.Pattern.Expanded
import Acceptors.Proofs.Pattern.Postfix
import Acceptors.Proofs.Pattern.Spelled
import Acceptors.Proofs.Pattern.Compiled
import Acceptors.Proofs.Pattern.Grouped
import Acceptors.Proofs.Dfa.Language
import Acceptors.Proofs.Dfa.Completed
import Acceptors.Proofs.Dfa.Embedded
import Acceptors.Proofs.Nfa.EpsilonFree
import Acceptors.Proofs.Dfa.Subsets
import Acceptors.Proofs.Intersection
import Acceptors.Proofs.Dfa.Restricted
import Acceptors.Proofs.Minimal.Separated
import Acceptors.Proofs.Minimal.Roots
import Acceptors.Proofs.Minimal.Merged
import Acceptors.Proofs.Dfa.Renumbered
import Acceptors.Proofs.Minimal.Minimized
import Acceptors.Proofs.Automaton
import Acceptors.Proofs.Pattern.Grammatical
import Acceptors.Proofs.Equality
import Acceptors.Proofs.Dfa.Discovered
import Acceptors.Proofs.Dfa.Determinized
import Acceptors.Proofs.Text.Lines
import Acceptors.Proofs.Table.Written
import Acceptors.Proofs.Listing
import Acceptors.Proofs.Table.RoundTrip
import Acceptors.Proofs.Text.Trimmed
import Acceptors.Proofs.Grammar.Declared
import Acceptors.Proofs.Grammar.Written
import Acceptors.Proofs.Grammar.Generated
import Acceptors.Proofs.Grammar.Misread
import Acceptors.Proofs.Table.Misread
import Acceptors.Proofs.Marker
import Acceptors.Proofs.Alike.Nondeterministic
import Acceptors.Proofs.Alike.Deterministic
import Acceptors.Proofs.Alike.Operations
import Acceptors.Proofs.Simulated
import Acceptors.Proofs.Minimal.Canonical
import Acceptors.Proofs.Grammar.RoundTrip
import Acceptors.Proofs.Loaded
import Acceptors.Proofs.InRange
import Acceptors.Proofs.Built
import Acceptors.Proofs.Concatenation
import Acceptors.Proofs.Renamed
import Acceptors.Proofs.Minimal.Classes
import Acceptors.Proofs.Minimal.Arranged
import Acceptors.Proofs.Minimal.Named
import Acceptors.Proofs.Grammar.Minimized
import Acceptors.Proofs.Boolean
import Acceptors.Proofs.Minimal.Fixed
import Acceptors.Proofs.Dfa.Copied
import Acceptors.Proofs.Nfa.Eliminated
import Acceptors.Proofs.Dfa.Constructed
import Acceptors.Proofs.Dfa.Singletons
import Acceptors.Proofs.Pattern.Thompson
import Acceptors.Proofs.Pattern.Parentheses
import Acceptors.Proofs.Pattern.Located
import Acceptors.Proofs.Pattern.Reordered
import Acceptors.Proofs.Pattern.Nested
import Acceptors.Proofs.Pattern.Passes
import Acceptors.Proofs.Pattern.Refused
import Acceptors.Proofs.Dfa.Multiples
import Acceptors.Proofs.Minimal.Multiples
import Acceptors.Proofs.Faults
import Acceptors.Proofs.Table.Spaced
import Acceptors.Proofs.Table.Described
import Acceptors.Proofs.Table.Entered
import Acceptors.Proofs.Grammar.Entered
import Acceptors.Proofs.OneSource
import Acceptors.Proofs.SpelledOut
import Acceptors.Proofs.Stacked
import Acceptors.Proofs.Dfa.Retained
import Acceptors.Proofs.Table.Composed
import Acceptors.Proofs.Minimal.Connected
import Acceptors.Proofs.Minimal.Filled
import Acceptors.Proofs.Pattern.Enclosed
import Acceptors.Proofs.Widened
import Acceptors.Proofs.Nfa.SideBySide
import Acceptors.Proofs.Nfa.Followed
import Acceptors.Proofs.Inserted
