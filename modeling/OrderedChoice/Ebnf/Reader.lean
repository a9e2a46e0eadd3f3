import OrderedChoice.Ebnf.Grammar
import OrderedChoice.Grammar.Draft
import OrderedChoice.Machine.Run
import OrderedChoice.Source

/-! From grammar texts to grammars. A text is parsed by the grammar of grammar
texts, and the tree of that parse is read rule by rule. The shape of each tree
follows from the rule it is labelled with. -/

namespace OrderedChoice

namespace Ebnf

/-! ## Bodies of rules -/

inductive Phrase where
  | alternatives
  | sequence
  | item
  | name
  | term
  | group
  | option
  | repetition
deriving DecidableEq, Repr

def Phrase.ofLabel? (label : String) : Option Phrase :=
  if label = "alternatives" then some alternatives
  else if label = "sequence" then some sequence
  else if label = "item" then some item
  else if label = "name" then some name
  else if label = "term" then some term
  else if label = "group" then some group
  else if label = "option" then some option
  else if label = "repeat" then some repetition
  else none

def choiceOf : List Expr → Expr
  | [single] => single
  | several => .choice several

def sequenceOf : List Expr → Expr
  | [single] => single
  | several => .sequence several

def unquoted (characters : List Char) : String :=
  String.ofList characters.tail.dropLast

mutual
def expr? : Tree Char → Option Expr
  | .absent => none
  | .leaf .. => none
  | .node label children _ =>
      match Phrase.ofLabel? label, children with
      | some .alternatives, [.node _ [first, .node _ more _] _] => do
          return choiceOf ((← expr? first) :: (← separated? more))
      | some .sequence, [.node _ [first, .node _ more _] _] => do
          return sequenceOf ((← expr? first) :: (← separated? more))
      | some .item, [.node _ (_ :: inner :: _) _] => expr? inner
      | some .name, children =>
          some (.reference (String.ofList (Tree.elementsOfAll children)))
      | some .term, children => some (.terminal (unquoted (Tree.elementsOfAll children)))
      | some .group, [.node _ (_ :: inner :: _) _] => expr? inner
      | some .option, [.node _ (_ :: inner :: _) _] => do
          return .optional (← expr? inner)
      | some .repetition, [.node _ (_ :: inner :: _) _] => do
          return .repetition (← expr? inner)
      | _, _ => none

/-- The expressions after the first, each with layout and a separator before
it. -/
def separated? : List (Tree Char) → Option (List Expr)
  | [] => some []
  | .node _ [_, _, inner] _ :: rest => do
      return (← expr? inner) :: (← separated? rest)
  | _ => none
end

/-! ## Rules -/

def ruleTrees? : Tree Char → Option (List (Tree Char))
  | .node _ (.node _ rules _ :: _) _ => some rules
  | _ => none

def ruleParts? : Tree Char → Option (String × Tree Char)
  | .node _ (.node _ (_ :: name :: _ :: _ :: definition :: _) _ :: _) _ =>
      some (name.text, definition)
  | _ => none

def orMisshapen (part : Option β) : Except GrammarError β :=
  match part with
  | some part => .ok part
  | none => .error .misshapenTree

def addRule (grammar : Grammar) (rule : Tree Char) : Except GrammarError Grammar := do
  let (name, definition) ← orMisshapen (ruleParts? rule)
  if name ∈ grammar.names then
    throw (.definedTwice name)
  return grammar.insert name (← orMisshapen (expr? definition))

/-- Let the entry rule refer to another rule, if one is given to start at. -/
def addStart (grammar : Grammar) : Option String → Except GrammarError Grammar
  | none => .ok grammar
  | some start => do
      if entryName ∈ grammar.names then
        throw (.entryTaken start)
      return grammar.insert entryName (← Expr.reference? start)

def ofTree (tree : Tree Char) (start : Option String) : Except GrammarError Grammar := do
  let rules ← orMisshapen (ruleTrees? tree)
  addStart (← rules.foldlM addRule .empty) start

/-! ## Texts -/

inductive ReadError where
  /-- The text does not follow the notation. The lines are those of the log. -/
  | syntaxErrors (lines : List String)
  | unfit (cause : GrammarError)
deriving Repr

def ReadError.lines : ReadError → List String
  | syntaxErrors lines => lines
  | unfit cause => [cause.message]

def parseText (text : String) : Machine.State Char :=
  parse grammar (Input.ofText text)

def validated (grammar : Grammar) : Except GrammarError Grammar := do
  grammar.validate
  return grammar

def read (text : String) (start : Option String) : Except ReadError Grammar :=
  let run := parseText text
  if run.isOk then
    match ofTree run.tree start >>= validated with
    | .ok grammar => .ok grammar
    | .error cause => .error (.unfit cause)
  else .error (.syntaxErrors (run.logLines (Input.ofText text)))

end Ebnf

end OrderedChoice
