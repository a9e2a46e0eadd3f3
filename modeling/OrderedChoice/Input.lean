import OrderedChoice.Text.Quoted

/-! The input of a parse: a finite run of elements, with the meaning of terminal
patterns for such elements. Elements may be characters, tokens or anything else
that has a text. -/

namespace OrderedChoice

class Element (α : Type) where
  spell : α → String
  display : α → String := fun element => quote (spell element)

instance : Element Char where
  spell := Char.toString

instance : Element String where
  spell := id

/-- Elements to be read, and how to read them. A terminal pattern puts one
condition on each of a run of elements; beyond the last element no condition
holds. -/
structure Input (α : Type) where
  elements : Array α
  tests : String → List (α → Bool)
  position : Nat → String

namespace Input

def size (input : Input α) : Nat := input.elements.size

def element? (input : Input α) (offset : Nat) : Option α :=
  input.elements[offset]?

theorem start_inside (input : Input α) (start : Nat) : start ≤ max start input.size :=
  Nat.le_max_left _ _

theorem next_inside {input : Input α} {start offset : Nat} (present : offset < input.size) :
    offset + 1 ≤ max start input.size :=
  Nat.le_trans present (Nat.le_max_right _ _)

theorem inside_trans {input : Input α} {start offset stop : Nat}
    (within : offset ≤ max start input.size) (inside : stop ≤ max offset input.size) :
    stop ≤ max start input.size :=
  Nat.le_trans inside (Nat.max_le.mpr ⟨within, Nat.le_max_right _ _⟩)

/-- Tokens that somebody else has cut already. A pattern lists them with spaces
between; a star takes any token, and everything else takes its equal. -/
def ofTokens (tokens : List String) : Input String where
  elements := tokens.toArray
  tests := fun pattern =>
    ((pattern.splitOn " ").filter (· ≠ "")).map fun unit token =>
      unit == "*" || unit == token
  position := fun offset => s!"token:{offset}"

end Input

end OrderedChoice
