import Acceptors.Definition
import Acceptors.Grammar.Conversion
import Acceptors.Grammar.Reader
import Acceptors.Pattern.Compiler
import Acceptors.Table.Reader

/-!
# Building from one source

An automaton is built from exactly one source: a definition, a pattern, or a table or a grammar
given as a text or as a file. Settings and sources may come in any order; the last settings count,
and a second source is an error whatever the sources say.
-/

namespace Acceptors

/-- What an automaton can be built from. The contents of a file that cannot be read are missing. -/
inductive Source where
  /-- An automaton spelled out. -/
  | definition (d : Definition)
  /-- A table. -/
  | table (text : String)
  /-- A grammar. -/
  | grammar (text : String)
  /-- A file that holds a table. -/
  | tableFile (contents : Option ByteArray)
  /-- A file that holds a grammar. -/
  | grammarFile (contents : Option ByteArray)
  /-- A pattern. -/
  | pattern (text : String)

namespace Source

/-- The text of a file; a file that is missing or that is no UTF-8 has none. -/
def textOf (contents : Option ByteArray) : Except SourceError String :=
  match contents.bind String.fromUTF8? with
  | some text => .ok text
  | none => .error .unreadable

/-- The automaton of a grammar text. -/
def loadGrammar (config : Config) (text : String) : Except SourceError Nfa := do
  (← Grammar.parse config text).toNfa config

/-- The automaton of a source (the cases of `build`). -/
def load (config : Config) : Source → Except SourceError Nfa
  | definition d => (d.toNfa config).mapError .automaton
  | table text => Table.load config text
  | grammar text => loadGrammar config text
  | tableFile contents => do Table.load config (← textOf contents)
  | grammarFile contents => do loadGrammar config (← textOf contents)
  | pattern text => (Compiler.compile { config := config } text).1.mapError .automaton

end Source

/-- The settings and the sources given so far. -/
structure Builder where
  /-- The settings. -/
  config : Config := {}
  /-- The sources, the last one first. -/
  sources : List Source := []

namespace Builder

/-- Takes other settings (`config`). -/
def configure (b : Builder) (config : Config) : Builder := { b with config := config }

/-- Adds a source (`source`). -/
def addSource (b : Builder) (source : Source) : Builder :=
  { b with sources := source :: b.sources }

/-- A call on a builder. -/
inductive Call where
  /-- Other settings. -/
  | configure (config : Config)
  /-- One more source. -/
  | source (source : Source)

/-- Makes a call. -/
def apply (b : Builder) : Call → Builder
  | .configure config => b.configure config
  | .source source => b.addSource source

/-- The builder after some calls, made in order on a new one. -/
def ofCalls (calls : List Call) : Builder := calls.foldl apply {}

/-- Builds the automaton of the only source (`build`). -/
def build (b : Builder) : Except SourceError Nfa :=
  match b.sources with
  | [] => .error .missingSource
  | [source] => source.load b.config
  | _ :: _ :: _ => .error .conflictingSources

end Builder

end Acceptors
