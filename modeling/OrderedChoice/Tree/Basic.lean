import OrderedChoice.Input

/-! Parse trees. A leaf holds the elements that a terminal took; a node holds
the trees of its parts. An optional part that was not found leaves an absent
tree in its place. Choices leave nothing of their own: the tree of the
alternative that was found stands for the choice. -/

namespace OrderedChoice

/-- The stretch of input between two offsets. A parse produces stretches inside
its input; a tree made by hand may claim any. -/
structure Span where
  start : Int
  stop : Int
deriving DecidableEq, Repr, Inhabited

def Span.between (start stop : Nat) : Span := ⟨start, stop⟩

inductive Tree (α : Type) where
  | absent
  | leaf (pattern : String) (elements : List α) (span : Span)
  | node (label : String) (children : List (Tree α)) (span : Span)
deriving Repr, Inhabited

namespace Tree

/-! ## Equality -/

mutual
def decEq [DecidableEq α] : (left right : Tree α) → Decidable (left = right)
  | absent, absent => .isTrue rfl
  | leaf leftPattern leftElements leftSpan, leaf rightPattern rightElements rightSpan =>
      if equal : leftPattern = rightPattern ∧ leftElements = rightElements ∧
          leftSpan = rightSpan then
        .isTrue (by rw [equal.1, equal.2.1, equal.2.2])
      else .isFalse (by simpa using equal)
  | node leftLabel leftChildren leftSpan, node rightLabel rightChildren rightSpan =>
      match decEqAll leftChildren rightChildren with
      | .isTrue equalChildren =>
          if equal : leftLabel = rightLabel ∧ leftSpan = rightSpan then
            .isTrue (by rw [equalChildren, equal.1, equal.2])
          else .isFalse (by simpa [equalChildren] using equal)
      | .isFalse different => .isFalse (by simp [different])
  | absent, leaf .. | absent, node .. | leaf .., absent
  | leaf .., node .. | node .., absent | node .., leaf .. => .isFalse nofun

def decEqAll [DecidableEq α] : (left right : List (Tree α)) → Decidable (left = right)
  | [], [] => .isTrue rfl
  | leftHead :: leftTail, rightHead :: rightTail =>
      match decEq leftHead rightHead, decEqAll leftTail rightTail with
      | .isTrue equal, .isTrue equalTails => .isTrue (by rw [equal, equalTails])
      | .isFalse different, _ => .isFalse (by simp [different])
      | _, .isFalse different => .isFalse (by simp [different])
  | [], _ :: _ | _ :: _, [] => .isFalse nofun
end

instance [DecidableEq α] : DecidableEq (Tree α) := decEq

/-! ## Shape -/

def isAbsent : Tree α → Bool
  | absent => true
  | _ => false

def isLeaf : Tree α → Bool
  | leaf .. => true
  | _ => false

def label : Tree α → String
  | absent => ""
  | leaf pattern .. => pattern
  | node label .. => label

def children : Tree α → List (Tree α)
  | node _ children _ => children
  | _ => []

def span : Tree α → Span
  | absent => default
  | leaf _ _ span => span
  | node _ _ span => span

def stop? : Tree α → Option Int
  | absent => none
  | leaf _ _ span => some span.stop
  | node _ _ span => some span.stop

/-! ## Contents -/

mutual
def elements : Tree α → List α
  | absent => []
  | leaf _ elements _ => elements
  | node _ children _ => elementsOfAll children

def elementsOfAll : List (Tree α) → List α
  | [] => []
  | head :: tail => head.elements ++ elementsOfAll tail
end

def text [Element α] (tree : Tree α) : String :=
  String.join (tree.elements.map Element.spell)

mutual
/-- The trees inside a tree, itself first, each before its parts. Absent trees
are left out. -/
def walk : Tree α → List (Tree α)
  | absent => []
  | leaf pattern elements span => [leaf pattern elements span]
  | node label children span => node label children span :: walkAll children

def walkAll : List (Tree α) → List (Tree α)
  | [] => []
  | head :: tail => head.walk ++ walkAll tail
end

def findAll (tree : Tree α) (label : String) : List (Tree α) :=
  tree.walk.filter fun inner => inner.label == label

/-! ## Descent -/

inductive PathError where
  | noChildren
  | outOfRange
deriving DecidableEq, Repr

def child? (tree : Tree α) (index : Int) : Except PathError (Tree α) :=
  match tree with
  | node _ children _ =>
      let place := if index < 0 then index + children.length else index
      if place < 0 then .error .outOfRange
      else
        match children[place.toNat]? with
        | some child => .ok child
        | none => .error .outOfRange
  | _ => .error .noChildren

def descend? (tree : Tree α) (path : List Int) : Except PathError (Tree α) :=
  path.foldlM child? tree

end Tree

end OrderedChoice
