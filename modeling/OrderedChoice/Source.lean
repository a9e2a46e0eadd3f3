import OrderedChoice.Input
import OrderedChoice.Pattern
import OrderedChoice.Text.Lines

/-! Texts as input, one character an element. Line breaks are unified when the
text comes in, so every offset counts characters of the unified text. -/

namespace OrderedChoice

/-- A text whose line breaks are single line feeds, perhaps with the name of
the file it came from. -/
structure Source where
  characters : List Char
  name : Option String
deriving DecidableEq, Repr

inductive ElementError where
  | outOfRange (offset : Int)
  | notOneCharacter (length : Nat)
deriving DecidableEq, Repr

namespace Source

def ofString (text : String) (name : Option String) : Source where
  characters := Lines.unifyBreaks text.toList
  name := name

def text (source : Source) : String :=
  String.ofList source.characters

def size (source : Source) : Nat :=
  source.characters.length

/-- The character at an offset. Offsets before the text are out of range, as
are those from its size on. -/
def elementAt (source : Source) (offset : Int) : Except ElementError Char :=
  match offset with
  | .ofNat index =>
      match source.characters[index]? with
      | some character => .ok character
      | none => .error (.outOfRange offset)
  | .negSucc _ => .error (.outOfRange offset)

def locate (source : Source) (offset : Int) : Int × Int :=
  Lines.locate (Lines.starts source.characters) offset

def position (source : Source) (offset : Int) : String :=
  Lines.describe (source.locate offset)

/-- Whether a unit of a pattern, as it is written, accepts an element, as it is
spelled; no element stands for the end of the input. A class code asks for a
single character, and any other unit for its equal. -/
def accepts (unit : String) : Option String → Except ElementError Bool
  | none => .ok false
  | some element =>
      match ClassCode.ofWritten? unit with
      | none => .ok (unit == element)
      | some code =>
          match element.toList with
          | [character] => .ok (code.members.containsChar character)
          | characters => .error (.notOneCharacter characters.length)

end Source

def Input.ofSource (source : Source) : Input Char :=
  let starts := Lines.starts source.characters
  { elements := source.characters.toArray
    tests := Pattern.tests
    position := fun offset => Lines.describe (Lines.locate starts offset) }

def Input.ofText (text : String) : Input Char :=
  Input.ofSource (Source.ofString text none)

end OrderedChoice
