import OrderedChoice.Grammar.Datum
import OrderedChoice.Grammar.Expr

/-! What can be wrong with a grammar, whether it is put together from parts or
read from a text. -/

namespace OrderedChoice

def entryName : String := "ENTRY"

inductive GrammarError where
  | namelessReference
  | emptyComposite (operator : Operator)
  | partNotExpr (operator : Operator) (part : Datum)
  | nameNotText (name : Datum)
  | definitionNotExpr (name : String) (definition : Datum)
  | missingEntry
  | undefinedReferences (names : List String)
  | definedTwice (name : String)
  /-- A rule to start at, for a text that defines the entry rule itself. -/
  | entryTaken (start : String)
  /-- A tree that is not the tree of any grammar text. -/
  | misshapenTree
deriving Repr

def GrammarError.message : GrammarError → String
  | namelessReference => "A non-terminal needs a name."
  | emptyComposite operator => s!"An empty {operator.label} matches nothing."
  | partNotExpr operator part => s!"{operator.label}: {part.written} is not a grammar node."
  | nameNotText name => s!"Rule name {name.written} is not a string."
  | definitionNotExpr name definition =>
      s!"Rule {quote name}: {definition.written} is not a grammar node."
  | missingEntry => s!"The schema has no {quote entryName} rule."
  | undefinedReferences names => "Undefined non-terminals: " ++ ", ".intercalate names
  | definedTwice name => s!"Rule {quote name} is defined twice."
  | entryTaken start =>
      s!"The grammar defines {entryName}, so it cannot also start at {quote start}."
  | misshapenTree => "The tree is not that of a grammar text."

end OrderedChoice
