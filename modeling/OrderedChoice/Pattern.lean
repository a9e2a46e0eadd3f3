import OrderedChoice.CharClass

/-! Terminal patterns. A pattern is cut into units, and each unit accepts one
character: a literal accepts itself and a class code accepts the members of its
class. A backslash announces a class code or makes the next character literal. -/

namespace OrderedChoice

/-! ## Class codes -/

/-- The classes that a pattern can name. An uppercase letter names the
complement of what its lowercase letter names. -/
inductive ClassCode where
  | lead
  | notLead
  | word
  | notWord
  | space
  | notSpace
  | digit
  | notDigit
  | newline
  | notNewline
  | tab
deriving DecidableEq, Repr

namespace ClassCode

def all : List ClassCode :=
  [notLead, notDigit, notNewline, notSpace, notWord, lead, digit, newline, space, tab, word]

def letter : ClassCode → Char
  | lead => 'a'
  | notLead => 'A'
  | word => 'w'
  | notWord => 'W'
  | space => 's'
  | notSpace => 'S'
  | digit => 'd'
  | notDigit => 'D'
  | newline => 'n'
  | notNewline => 'N'
  | tab => 't'

def ofLetter? (character : Char) : Option ClassCode :=
  all.find? fun code => code.letter == character

def members : ClassCode → CharClass
  | lead => CharClass.lead
  | notLead => CharClass.lead.complement
  | word => CharClass.word
  | notWord => CharClass.word.complement
  | space => CharClass.space
  | notSpace => CharClass.space.complement
  | digit => CharClass.digit
  | notDigit => CharClass.digit.complement
  | newline => CharClass.newline
  | notNewline => CharClass.newline.complement
  | tab => CharClass.tab

def written (code : ClassCode) : String :=
  String.ofList ['\\', code.letter]

def ofWritten? (text : String) : Option ClassCode :=
  match text.toList with
  | ['\\', character] => ofLetter? character
  | _ => none

end ClassCode

/-! ## Units -/

inductive MatchUnit where
  | literal (character : Char)
  | member (code : ClassCode)
deriving DecidableEq, Repr

namespace MatchUnit

def accepts (character : Char) : MatchUnit → Bool
  | literal expected => expected == character
  | member code => code.members.containsChar character

def written : MatchUnit → String
  | literal character => character.toString
  | member code => code.written

def escaped (character : Char) : MatchUnit :=
  match ClassCode.ofLetter? character with
  | some code => member code
  | none => literal character

/-- The units of a pattern from left to right. A backslash takes the character
after it along; at the very end it stands for itself. -/
def split : List Char → List MatchUnit
  | [] => []
  | '\\' :: character :: rest => escaped character :: split rest
  | character :: rest => literal character :: split rest

end MatchUnit

namespace Pattern

def units (pattern : String) : List MatchUnit :=
  MatchUnit.split pattern.toList

def tests (pattern : String) : List (Char → Bool) :=
  (units pattern).map fun unit character => unit.accepts character

end Pattern

example :
    MatchUnit.split ['\\', '\\', '\\', 'd', '\\'] =
      [.literal '\\', .member .digit, .literal '\\'] := rfl

end OrderedChoice
