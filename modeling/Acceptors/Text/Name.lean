import Acceptors.Text.Blank

/-!
# Names that can be written

Tables and grammars are written with commas, brackets and blanks around names, so a name can only be
read back if it contains none of these. In grammars an arrow separates the two sides of a rule, so
there a name must not contain an arrow either.
-/

namespace Acceptors

namespace Text

/-- Whether a character separates or surrounds names. -/
def isDelimiter (c : Char) : Bool := [',', '\x7b', '\x7d', '[', ']', '(', ')'].contains c

/-- Whether a text can stand for a symbol or a state in a table: it is not empty and has neither
    blanks nor delimiters (`is_valid_name`). -/
def isName (text : String) : Bool :=
  let cs := text.toList
  !cs.isEmpty && cs.all fun c => !isBlank c && !isDelimiter c

/-- The texts before and after the first arrow. -/
def splitArrow : List Char → Option (List Char × List Char)
  | [] => none
  | '-' :: '>' :: rest => some ([], rest)
  | c :: rest => (splitArrow rest).map fun (before, after) => (c :: before, after)

/-- Whether a text can stand for a terminal or a variable in a grammar (`is_grammar_name`). -/
def isGrammarName (text : String) : Bool := isName text && (splitArrow text.toList).isNone

end Text

end Acceptors
