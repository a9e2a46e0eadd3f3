/-! Grammar expressions. A rule's definition is an expression over terminal
patterns and references to rules. -/

namespace OrderedChoice

inductive Operator where
  | choice
  | sequence
  | optional
  | repetition
deriving DecidableEq, Repr

def Operator.label : Operator → String
  | choice => "alternation"
  | sequence => "grouping"
  | optional => "optional"
  | repetition => "repetition"

inductive Expr where
  | terminal (pattern : String)
  | reference (name : String)
  /-- The first alternative that can be found. -/
  | choice (alternatives : List Expr)
  | sequence (items : List Expr)
  | optional (operand : Expr)
  | repetition (operand : Expr)
deriving Repr, Inhabited

namespace Expr

/-! ## Equality -/

mutual
def decEq : (left right : Expr) → Decidable (left = right)
  | terminal left, terminal right =>
      if equal : left = right then .isTrue (by rw [equal]) else .isFalse (by simp [equal])
  | reference left, reference right =>
      if equal : left = right then .isTrue (by rw [equal]) else .isFalse (by simp [equal])
  | choice left, choice right =>
      match decEqAll left right with
      | .isTrue equal => .isTrue (by rw [equal])
      | .isFalse different => .isFalse (by simp [different])
  | sequence left, sequence right =>
      match decEqAll left right with
      | .isTrue equal => .isTrue (by rw [equal])
      | .isFalse different => .isFalse (by simp [different])
  | optional left, optional right =>
      match decEq left right with
      | .isTrue equal => .isTrue (by rw [equal])
      | .isFalse different => .isFalse (by simp [different])
  | repetition left, repetition right =>
      match decEq left right with
      | .isTrue equal => .isTrue (by rw [equal])
      | .isFalse different => .isFalse (by simp [different])
  | terminal _, reference _ | terminal _, choice _ | terminal _, sequence _
  | terminal _, optional _ | terminal _, repetition _
  | reference _, terminal _ | reference _, choice _ | reference _, sequence _
  | reference _, optional _ | reference _, repetition _
  | choice _, terminal _ | choice _, reference _ | choice _, sequence _
  | choice _, optional _ | choice _, repetition _
  | sequence _, terminal _ | sequence _, reference _ | sequence _, choice _
  | sequence _, optional _ | sequence _, repetition _
  | optional _, terminal _ | optional _, reference _ | optional _, choice _
  | optional _, sequence _ | optional _, repetition _
  | repetition _, terminal _ | repetition _, reference _ | repetition _, choice _
  | repetition _, sequence _ | repetition _, optional _ => .isFalse nofun

def decEqAll : (left right : List Expr) → Decidable (left = right)
  | [], [] => .isTrue rfl
  | leftHead :: leftTail, rightHead :: rightTail =>
      match decEq leftHead rightHead, decEqAll leftTail rightTail with
      | .isTrue equal, .isTrue equalTails => .isTrue (by rw [equal, equalTails])
      | .isFalse different, _ => .isFalse (by simp [different])
      | _, .isFalse different => .isFalse (by simp [different])
  | [], _ :: _ | _ :: _, [] => .isFalse nofun
end

instance : DecidableEq Expr := decEq

/-! ## Written form -/

def quotePattern (pattern : String) : String :=
  let mark := '\x22'
  String.ofList
    (mark :: pattern.toList.flatMap
      (fun character => if character = mark then ['\\', mark] else [character]) ++ [mark])

mutual
def describe : Expr → String
  | terminal pattern => quotePattern pattern
  | reference name => name
  | choice alternatives => "( " ++ " | ".intercalate (describeAll alternatives) ++ " )"
  | sequence items => "( " ++ " , ".intercalate (describeAll items) ++ " )"
  | optional operand => "[ " ++ operand.describe ++ " ]"
  | repetition operand => "\x7b " ++ operand.describe ++ " \x7d"

def describeAll : List Expr → List String
  | [] => []
  | head :: tail => head.describe :: describeAll tail
end

/-- The expression as a plain text: the bare pattern of a terminal, and the
written form of anything else. -/
def toText : Expr → String
  | terminal pattern => pattern
  | expr => expr.describe

/-! ## References -/

mutual
def references : Expr → List String
  | terminal _ => []
  | reference name => [name]
  | choice alternatives => referencesInAll alternatives
  | sequence items => referencesInAll items
  | optional operand => operand.references
  | repetition operand => operand.references

def referencesInAll : List Expr → List String
  | [] => []
  | head :: tail => head.references ++ referencesInAll tail
end

example :
    (choice [terminal "a", repetition (reference "item")]).references = ["item"] := rfl

end Expr

end OrderedChoice
