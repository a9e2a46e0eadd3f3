import OrderedChoice.Ascending

/-! Sets of code points, written as ascending lists of bounds. Membership
starts out false and changes at every bound, so a point belongs to the set
exactly when an odd number of bounds lie at or below it. -/

namespace OrderedChoice

/-- A set of code points, given by the points at which membership changes. -/
structure CharClass where
  bounds : List Int
deriving DecidableEq, Repr

namespace CharClass

/-! ## Membership -/

/-- Bisect the positions `low` to `high` of a list of bounds for the place of a
point: after every bound at or below it and before every bound above it. -/
def bisect (bounds : List Int) (point : Int) (low high : Nat)
    (inside : high ≤ bounds.length) : Nat :=
  if ordered : low < high then
    let middle := (low + high) / 2
    if point < bounds[middle] then
      bisect bounds point low middle (by omega)
    else
      bisect bounds point (middle + 1) high inside
  else low
termination_by high - low

def rank (cls : CharClass) (point : Int) : Nat :=
  bisect cls.bounds point 0 cls.bounds.length (Nat.le_refl _)

def contains (cls : CharClass) (point : Int) : Bool :=
  cls.rank point % 2 == 1

def containsChar (cls : CharClass) (character : Char) : Bool :=
  cls.contains character.toNat

/-! ## Construction -/

def empty : CharClass := ⟨[]⟩

def universal : CharClass := ⟨[0]⟩

def singleton (point : Int) : CharClass := ⟨[point, point + 1]⟩

def range (first last : Int) : CharClass :=
  if first ≤ last then ⟨[first, last + 1]⟩ else ⟨[last, first + 1]⟩

def rangeOfChars (first last : Char) : CharClass :=
  range first.toNat last.toNat

def complement (cls : CharClass) : CharClass :=
  match cls.bounds with
  | [] => universal
  | first :: rest => if first ≤ 0 then ⟨rest⟩ else ⟨0 :: first :: rest⟩

/-- Keep the candidates at which a predicate changes its value, given the value
that holds before the first of them. -/
def changes (holds : Int → Bool) : Bool → List Int → List Int
  | _, [] => []
  | current, candidate :: rest =>
      if current != holds candidate then
        candidate :: changes holds (!current) rest
      else
        changes holds current rest

/-- The points at which membership in either of two sets may change. Zero is
among them because an operation may hold of points in neither set. -/
def candidates (left right : CharClass) : List Int :=
  Ascending.ofList (0 :: left.bounds ++ right.bounds)

def combine (operation : Bool → Bool → Bool) (left right : CharClass) : CharClass :=
  ⟨changes (fun point => operation (left.contains point) (right.contains point))
    false (candidates left right)⟩

def union (left right : CharClass) : CharClass :=
  combine or left right

def unionAll (classes : List CharClass) : CharClass :=
  classes.foldl union empty

/-! ## Common sets -/

def digit : CharClass := rangeOfChars '0' '9'

def letter : CharClass := (rangeOfChars 'A' 'Z').union (rangeOfChars 'a' 'z')

def lead : CharClass := letter.union (singleton '_'.toNat)

def word : CharClass := lead.union digit

def newline : CharClass := singleton 10

def tab : CharClass := singleton 9

/-- Blank characters: the ASCII controls from tab to carriage return, the
space, the spaces and separators of Unicode, and the byte order mark. -/
def space : CharClass :=
  unionAll [
    range 9 13,
    singleton 0x20,
    singleton 0xA0,
    singleton 0x1680,
    range 0x2000 0x200A,
    range 0x2028 0x2029,
    singleton 0x202F,
    singleton 0x205F,
    singleton 0x3000,
    singleton 0xFEFF]

example : letter.bounds = [65, 91, 97, 123] := by decide +kernel

end CharClass

end OrderedChoice
