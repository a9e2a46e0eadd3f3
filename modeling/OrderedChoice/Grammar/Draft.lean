import OrderedChoice.Grammar.Basic

/-! Grammars described part by part, before anybody has looked at whether the
parts are fit. A draft becomes an expression or the reason why it is none. -/

namespace OrderedChoice

inductive Draft where
  | pattern (text : String)
  | reference (name : String)
  | composite (operator : Operator) (parts : List Draft)
  | datum (value : Datum)
deriving Repr, Inhabited

/-- A draft with its composites built. Data are carried along as they are, for
whoever wants an expression to refuse. -/
inductive Built where
  | expr (expr : Expr)
  | datum (value : Datum)
deriving Repr, Inhabited

namespace Built

def exprs (operator : Operator) : List Built → Except GrammarError (List Expr)
  | [] => .ok []
  | .datum value :: _ => .error (.partNotExpr operator value)
  | .expr head :: rest => do
      let tail ← exprs operator rest
      return head :: tail

end Built

namespace Expr

def reference? (name : String) : Except GrammarError Expr :=
  if name.isEmpty then .error .namelessReference else .ok (.reference name)

/-- The single operand of an optional part or a repetition. Several parts are
taken as a sequence. -/
def operand : List Expr → Expr
  | [single] => single
  | parts => .sequence parts

def composite? (operator : Operator) (parts : List Built) : Except GrammarError Expr := do
  if parts.isEmpty then
    throw (.emptyComposite operator)
  let exprs ← Built.exprs operator parts
  return match operator with
    | .choice => .choice exprs
    | .sequence => .sequence exprs
    | .optional => .optional (operand exprs)
    | .repetition => .repetition (operand exprs)

end Expr

namespace Draft

mutual
def build : Draft → Except GrammarError Built
  | pattern text => .ok (.expr (.terminal text))
  | reference name => return .expr (← Expr.reference? name)
  | composite operator parts => do
      let parts ← buildAll parts
      return .expr (← Expr.composite? operator parts)
  | datum value => .ok (.datum value)

def buildAll : List Draft → Except GrammarError (List Built)
  | [] => .ok []
  | head :: tail => do
      let head ← head.build
      let tail ← buildAll tail
      return head :: tail
end

end Draft

structure RuleDraft where
  name : Datum
  definition : Draft
deriving Repr, Inhabited

namespace Grammar

def putBuilt (name : Datum) (definition : Built) :
    List (Datum × Built) → List (Datum × Built)
  | [] => [(name, definition)]
  | rule :: rest =>
      match rule.1, name with
      | .text left, .text right =>
          if left = right then (name, definition) :: rest
          else rule :: putBuilt name definition rest
      | _, _ => rule :: putBuilt name definition rest

def insertBuilt (grammar : Grammar) : Datum × Built → Except GrammarError Grammar
  | (.text name, .expr definition) => .ok (grammar.insert name definition)
  | (.text name, .datum value) => .error (.definitionNotExpr name value)
  | (name, _) => .error (.nameNotText name)

/-- Build all definitions, then check the rules in the order of their first
appearance, each name before its definition. -/
def ofDrafts (drafts : List RuleDraft) : Except GrammarError Grammar := do
  let definitions ← Draft.buildAll (drafts.map RuleDraft.definition)
  let rules := ((drafts.map RuleDraft.name).zip definitions).foldl
    (fun rules rule => putBuilt rule.1 rule.2 rules) []
  rules.foldlM insertBuilt empty

end Grammar

end OrderedChoice
