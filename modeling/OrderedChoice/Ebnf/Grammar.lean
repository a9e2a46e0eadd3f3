import OrderedChoice.Grammar.Basic

/-! The notation for grammars, as a grammar. A text is a list of rules, each a
name, an equals sign, alternatives and a semicolon. Alternatives are separated
by bars and their items by optional commas; an item is a name, a quoted pattern,
or alternatives in parentheses, brackets or braces. Blanks and line comments may
stand between all of these. -/

namespace OrderedChoice

namespace Ebnf

open OrderedChoice.Expr

/-- The ASCII punctuation characters that a quoted pattern may hold without a
backslash: all but the double quote and the backslash. -/
def punctuation : List Char :=
  "!#$%&'()*+,-./:;<=>?@[]^_`\x7b|\x7d~".toList

def layout : Expr := reference "_"

def repeated (items : List Expr) : Expr := repetition (sequence items)

def rules : List (String × Expr) := [
  (entryName, sequence [repetition (reference "rule"), layout]),
  ("_", repetition (choice [terminal "\\s", reference "comment"])),
  ("comment", sequence [terminal "//", repetition (terminal "\\N")]),
  ("rule", sequence [layout, reference "name", layout, terminal "=",
    reference "alternatives", layout, terminal ";"]),
  ("alternatives", sequence [reference "sequence",
    repeated [layout, terminal "|", reference "sequence"]]),
  ("sequence", sequence [reference "item",
    repeated [layout, optional (terminal ","), reference "item"]]),
  ("item", sequence [layout, choice [reference "name", reference "term",
    reference "group", reference "option", reference "repeat"]]),
  ("name", sequence [terminal "\\a", repetition (terminal "\\w")]),
  ("term", sequence [terminal "\\\"", repetition (reference "character"), terminal "\\\""]),
  ("character", choice ([sequence [terminal "\\\\", terminal "\\N"], terminal "\\w",
    terminal " ", terminal "\\t"] ++
    punctuation.map fun character => terminal character.toString)),
  ("group", sequence [terminal "(", reference "alternatives", layout, terminal ")"]),
  ("option", sequence [terminal "[", reference "alternatives", layout, terminal "]"]),
  ("repeat", sequence [terminal "\x7b", reference "alternatives", layout, terminal "\x7d"])]

def grammar : Grammar := Grammar.ofRules rules

def text : String :=
  "\n".intercalate [
    "// The notation, described in itself.",
    "ENTRY = \x7b rule \x7d , _ ;",
    "_ = \x7b \"\\s\" | comment \x7d ;",
    "comment = \"//\" , \x7b \"\\N\" \x7d ;",
    "rule = _ , name , _ , \"=\" , alternatives , _ , \";\" ;",
    "alternatives = sequence , \x7b _ , \"|\" , sequence \x7d ;",
    "sequence = item , \x7b _ , [ \",\" ] , item \x7d ;",
    "item = _ , ( name | term | group | option | repeat ) ;",
    "name = \"\\a\" , \x7b \"\\w\" \x7d ;",
    "term = \"\\\"\" , \x7b character \x7d , \"\\\"\" ;",
    "character = \"\\\\\" , \"\\N\" | \"\\w\" | \" \" | \"\\t\" | " ++
      " | ".intercalate (punctuation.map fun character => "\"" ++ character.toString ++ "\"") ++
      " ;",
    "group = \"(\" , alternatives , _ , \")\" ;",
    "option = \"[\" , alternatives , _ , \"]\" ;",
    "repeat = \"\x7b\" , alternatives , _ , \"\x7d\" ;",
    ""]

end Ebnf

end OrderedChoice
