/-! Lists in ascending order without repetition, the written form of a finite
set. The order of elements is that of their type: numbers by size, strings by
their code points. -/

namespace OrderedChoice

namespace Ascending

variable {α : Type} [LT α] [DecidableLT α]

def insert (value : α) : List α → List α
  | [] => [value]
  | head :: tail =>
      if value < head then value :: head :: tail
      else if head < value then head :: insert value tail
      else head :: tail

def ofList (values : List α) : List α :=
  values.foldr insert []

end Ascending

example : Ascending.ofList [3, -1, 3, 0] = ([-1, 0, 3] : List Int) := by decide

end OrderedChoice
