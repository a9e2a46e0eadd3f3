import OrderedChoice.Grammar.Expr
import OrderedChoice.Tree.Basic

/-! Written forms of parse trees: all on one line, and one line for each
tree. -/

namespace OrderedChoice

def Span.describe (span : Span) : String :=
  s!"@{span.start}..{span.stop}"

namespace Tree

variable {α : Type} [Element α]

mutual
/-- The tree on one line: a leaf is its text in quotes, a node is its label
and its parts in parentheses, and a dash marks an absent tree. -/
def render : Tree α → String
  | absent => "-"
  | leaf _ elements _ => quote (String.join (elements.map Element.spell))
  | node label children _ =>
      match renderAll children with
      | [] => "(" ++ label ++ ")"
      | parts => "(" ++ label ++ " " ++ " ".intercalate parts ++ ")"

def renderAll : List (Tree α) → List String
  | [] => []
  | head :: tail => head.render :: renderAll tail
end

def indentation (depth : Int) : String :=
  String.ofList (List.replicate (2 * depth.toNat) ' ')

mutual
def outline (depth : Int) : Tree α → List String
  | absent => [indentation depth ++ "-"]
  | leaf pattern elements span =>
      [indentation depth ++ Expr.quotePattern pattern ++ " " ++
        quote (String.join (elements.map Element.spell)) ++ " " ++ span.describe]
  | node label children span =>
      (indentation depth ++ label ++ " " ++ span.describe) :: outlineAll (depth + 1) children

def outlineAll (depth : Int) : List (Tree α) → List String
  | [] => []
  | head :: tail => head.outline depth ++ outlineAll depth tail
end

end Tree

end OrderedChoice
