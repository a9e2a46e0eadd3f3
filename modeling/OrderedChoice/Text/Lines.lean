/-! Lines of a text. Whatever marks the end of a line in the text as it was
written, a line feed marks it here, and offsets count characters after that. -/

namespace OrderedChoice

namespace Lines

def unifyBreaks : List Char → List Char
  | [] => []
  | '\r' :: '\n' :: rest => '\n' :: unifyBreaks rest
  | character :: rest =>
      (if character = '\r' then '\n' else character) :: unifyBreaks rest

def startsFrom (offset : Nat) : List Char → List Nat
  | [] => []
  | character :: rest =>
      if character = '\n' then (offset + 1) :: startsFrom (offset + 1) rest
      else startsFrom (offset + 1) rest

def starts (characters : List Char) : List Nat :=
  0 :: startsFrom 0 characters

/-- The line that holds an offset and the distance from that line's start, both
counted from zero. Offsets beyond the end count on in the last line. An offset
before the text lies on line `-1`, the line before the first, and is measured
from the start of the last line, which is the line before the first when the
lines are taken in a circle. -/
def locate (starts : List Nat) (offset : Int) : Int × Int :=
  let reached := starts.filter fun start : Nat => (start : Int) ≤ offset
  let start := (reached.getLast?.or starts.getLast?).getD 0
  ((reached.length : Int) - 1, offset - start)

def describe (location : Int × Int) : String :=
  s!"{location.1 + 1}:{location.2 + 1}"

end Lines

example : Lines.unifyBreaks ['a', '\r', '\n', '\r', 'b'] = ['a', '\n', '\n', 'b'] := rfl

example :
    let starts := Lines.starts ['a', '\n', 'b']
    Lines.locate starts 1 = (0, 1) ∧ Lines.locate starts 2 = (1, 0) ∧
      Lines.locate starts 9 = (1, 7) ∧ Lines.locate starts (-1) = (-1, -3) := by
  decide

end OrderedChoice
