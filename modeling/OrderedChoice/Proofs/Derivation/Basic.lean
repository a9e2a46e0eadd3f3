import Mathlib.Data.List.Forall2
import OrderedChoice.Evaluation

/-! Ordered choice read as a relation, without any guard against rules that lead
back to themselves. A derivation shows what an expression comes to at an offset.
Every rule means whatever its definition means, so a rule that only enters itself
has no derivation at all, and neither has a reference without a rule. -/

namespace OrderedChoice

inductive Finding (α : Type) where
  | found (tree : Tree α) (stop : Nat)
  | missed
deriving DecidableEq, Repr

variable {α : Type}

/-- The elements from an offset on that meet conditions, one each. -/
def Input.Meets (input : Input α) (tests : List (α → Bool)) (offset : Nat)
    (elements : List α) : Prop :=
  elements <+: input.elements.toList.drop offset ∧
    List.Forall₂ (fun test element => test element = true) tests elements

/-! ## Derivations -/

mutual
/-- How an expression comes to a finding at an offset. -/
inductive Derivation (grammar : Grammar) (input : Input α) :
    Expr → Nat → Finding α → Type where
  | terminal {pattern start elements} :
      input.Meets (input.tests pattern) start elements →
      Derivation grammar input (.terminal pattern) start
        (.found (.leaf pattern elements (.between start (start + elements.length)))
          (start + elements.length))
  | terminalMissed {pattern start} :
      (∀ elements, ¬ input.Meets (input.tests pattern) start elements) →
      Derivation grammar input (.terminal pattern) start .missed
  | reference {name start definition tree stop} :
      grammar.lookup? name = some definition →
      Derivation grammar input definition start (.found tree stop) →
      Derivation grammar input (.reference name) start
        (.found (.node name [tree] (.between start stop)) stop)
  | referenceMissed {name start definition} :
      grammar.lookup? name = some definition →
      Derivation grammar input definition start .missed →
      Derivation grammar input (.reference name) start .missed
  | choiceMissed {start} : Derivation grammar input (.choice []) start .missed
  | choiceFirst {first rest start tree stop} :
      Derivation grammar input first start (.found tree stop) →
      Derivation grammar input (.choice (first :: rest)) start (.found tree stop)
  | choiceRest {first rest start finding} :
      Derivation grammar input first start .missed →
      Derivation grammar input (.choice rest) start finding →
      Derivation grammar input (.choice (first :: rest)) start finding
  | sequence {items start trees stop} :
      ItemsDerivation grammar input items start (some (trees, stop)) →
      Derivation grammar input (.sequence items) start
        (.found (.node Operator.sequence.label trees (.between start stop)) stop)
  | sequenceMissed {items start} :
      ItemsDerivation grammar input items start none →
      Derivation grammar input (.sequence items) start .missed
  | optional {operand start tree stop} :
      Derivation grammar input operand start (.found tree stop) →
      Derivation grammar input (.optional operand) start
        (.found (.node Operator.optional.label [tree] (.between start stop)) stop)
  | optionalMissed {operand start} :
      Derivation grammar input operand start .missed →
      Derivation grammar input (.optional operand) start (.found .absent start)
  | repetition {operand start trees stop} :
      RoundsDerivation grammar input operand start trees stop →
      Derivation grammar input (.repetition operand) start
        (.found (.node Operator.repetition.label trees (.between start stop)) stop)

inductive ItemsDerivation (grammar : Grammar) (input : Input α) :
    List Expr → Nat → Option (List (Tree α) × Nat) → Type where
  | nil {start} : ItemsDerivation grammar input [] start (some ([], start))
  | cons {item rest start tree middle trees stop} :
      Derivation grammar input item start (.found tree middle) →
      ItemsDerivation grammar input rest middle (some (trees, stop)) →
      ItemsDerivation grammar input (item :: rest) start (some (tree :: trees, stop))
  | firstMissed {item rest start} :
      Derivation grammar input item start .missed →
      ItemsDerivation grammar input (item :: rest) start none
  | restMissed {item rest start tree middle} :
      Derivation grammar input item start (.found tree middle) →
      ItemsDerivation grammar input rest middle none →
      ItemsDerivation grammar input (item :: rest) start none

/-- How the rounds of a repetition come to trees and an offset. The first round
that is missed or takes nothing is the end. -/
inductive RoundsDerivation (grammar : Grammar) (input : Input α) :
    Expr → Nat → List (Tree α) → Nat → Type where
  | missed {operand start} :
      Derivation grammar input operand start .missed →
      RoundsDerivation grammar input operand start [] start
  | idle {operand start tree} :
      Derivation grammar input operand start (.found tree start) →
      RoundsDerivation grammar input operand start [] start
  | round {operand start tree middle trees stop} :
      Derivation grammar input operand start (.found tree middle) →
      start < middle →
      RoundsDerivation grammar input operand middle trees stop →
      RoundsDerivation grammar input operand start (tree :: trees) stop
end

def Derives (grammar : Grammar) (input : Input α) (expr : Expr) (start : Nat)
    (finding : Finding α) : Prop :=
  Nonempty (Derivation grammar input expr start finding)

def DerivesItems (grammar : Grammar) (input : Input α) (items : List Expr) (start : Nat)
    (result : Option (List (Tree α) × Nat)) : Prop :=
  Nonempty (ItemsDerivation grammar input items start result)

def DerivesRounds (grammar : Grammar) (input : Input α) (operand : Expr) (start : Nat)
    (trees : List (Tree α)) (stop : Nat) : Prop :=
  Nonempty (RoundsDerivation grammar input operand start trees stop)

/-! ## Size -/

variable {grammar : Grammar} {input : Input α}

mutual
def Derivation.size {expr : Expr} {start : Nat} {finding : Finding α} :
    Derivation grammar input expr start finding → Nat
  | .terminal _ | .terminalMissed _ | .choiceMissed => 1
  | .reference _ part | .referenceMissed _ part | .choiceFirst part
  | .optional part | .optionalMissed part => part.size + 1
  | .choiceRest first rest => first.size + rest.size + 1
  | .sequence items | .sequenceMissed items => items.size + 1
  | .repetition rounds => rounds.size + 1

def ItemsDerivation.size {items : List Expr} {start : Nat}
    {result : Option (List (Tree α) × Nat)} :
    ItemsDerivation grammar input items start result → Nat
  | .nil => 1
  | .cons first rest | .restMissed first rest => first.size + rest.size + 1
  | .firstMissed first => first.size + 1

def RoundsDerivation.size {operand : Expr} {start : Nat} {trees : List (Tree α)} {stop : Nat} :
    RoundsDerivation grammar input operand start trees stop → Nat
  | .missed first | .idle first => first.size + 1
  | .round first _ rest => first.size + rest.size + 1
end

/-! ## Uniqueness -/

theorem Input.Meets.eq {tests : List (α → Bool)} {offset : Nat} {left right : List α}
    (first : input.Meets tests offset left) (second : input.Meets tests offset right) :
    left = right := by
  have lengths : left.length = right.length :=
    first.2.length_eq.symm.trans second.2.length_eq
  exact (List.prefix_of_prefix_length_le first.1 second.1 (Nat.le_of_eq lengths)).eq_of_length
    lengths

mutual
theorem Derivation.unique {expr : Expr} {start : Nat} {left right : Finding α} :
    (first : Derivation grammar input expr start left) →
    (second : Derivation grammar input expr start right) →
    left = right ∧ first.size = second.size
  | .terminal met, .terminal other => by
      cases met.eq other
      exact ⟨rfl, rfl⟩
  | .terminal met, .terminalMissed unmet => absurd met (unmet _)
  | .terminalMissed unmet, .terminal met => absurd met (unmet _)
  | .terminalMissed _, .terminalMissed _ => ⟨rfl, rfl⟩
  | .reference defined part, .reference same other => by
      cases defined.symm.trans same
      rcases part.unique other with ⟨equal, sizes⟩
      cases equal
      exact ⟨rfl, congrArg (· + 1) sizes⟩
  | .reference defined part, .referenceMissed same other => by
      cases defined.symm.trans same
      cases (part.unique other).1
  | .referenceMissed defined part, .reference same other => by
      cases defined.symm.trans same
      cases (part.unique other).1
  | .referenceMissed defined part, .referenceMissed same other => by
      cases defined.symm.trans same
      exact ⟨rfl, congrArg (· + 1) (part.unique other).2⟩
  | .choiceMissed, .choiceMissed => ⟨rfl, rfl⟩
  | .choiceFirst part, .choiceFirst other => by
      rcases part.unique other with ⟨equal, sizes⟩
      exact ⟨equal, congrArg (· + 1) sizes⟩
  | .choiceFirst part, .choiceRest other _ => nomatch (part.unique other).1
  | .choiceRest part _, .choiceFirst other => nomatch (part.unique other).1
  | .choiceRest part rest, .choiceRest other otherRest => by
      rcases rest.unique otherRest with ⟨equal, sizes⟩
      refine ⟨equal, ?_⟩
      simp only [Derivation.size, (part.unique other).2, sizes]
  | .sequence items, .sequence other => by
      rcases items.unique other with ⟨equal, sizes⟩
      cases equal
      exact ⟨rfl, congrArg (· + 1) sizes⟩
  | .sequence items, .sequenceMissed other => nomatch (items.unique other).1
  | .sequenceMissed items, .sequence other => nomatch (items.unique other).1
  | .sequenceMissed items, .sequenceMissed other =>
      ⟨rfl, congrArg (· + 1) (items.unique other).2⟩
  | .optional part, .optional other => by
      rcases part.unique other with ⟨equal, sizes⟩
      cases equal
      exact ⟨rfl, congrArg (· + 1) sizes⟩
  | .optional part, .optionalMissed other => nomatch (part.unique other).1
  | .optionalMissed part, .optional other => nomatch (part.unique other).1
  | .optionalMissed part, .optionalMissed other =>
      ⟨rfl, congrArg (· + 1) (part.unique other).2⟩
  | .repetition rounds, .repetition other => by
      rcases rounds.unique other with ⟨trees, stops, sizes⟩
      cases trees
      cases stops
      exact ⟨rfl, congrArg (· + 1) sizes⟩

theorem ItemsDerivation.unique {items : List Expr} {start : Nat}
    {left right : Option (List (Tree α) × Nat)} :
    (first : ItemsDerivation grammar input items start left) →
    (second : ItemsDerivation grammar input items start right) →
    left = right ∧ first.size = second.size
  | .nil, .nil => ⟨rfl, rfl⟩
  | .cons part rest, .cons other otherRest => by
      rcases part.unique other with ⟨equal, sizes⟩
      cases equal
      rcases rest.unique otherRest with ⟨equal, restSizes⟩
      cases equal
      refine ⟨rfl, ?_⟩
      simp only [ItemsDerivation.size, sizes, restSizes]
  | .cons part _, .firstMissed other => nomatch (part.unique other).1
  | .cons part rest, .restMissed other otherRest => by
      cases (part.unique other).1
      cases (rest.unique otherRest).1
  | .firstMissed part, .cons other _ => nomatch (part.unique other).1
  | .firstMissed part, .firstMissed other => ⟨rfl, congrArg (· + 1) (part.unique other).2⟩
  | .firstMissed part, .restMissed other _ => nomatch (part.unique other).1
  | .restMissed part rest, .cons other otherRest => by
      cases (part.unique other).1
      cases (rest.unique otherRest).1
  | .restMissed part _, .firstMissed other => nomatch (part.unique other).1
  | .restMissed part rest, .restMissed other otherRest => by
      rcases part.unique other with ⟨equal, sizes⟩
      cases equal
      refine ⟨rfl, ?_⟩
      simp only [ItemsDerivation.size, sizes, (rest.unique otherRest).2]

theorem RoundsDerivation.unique {operand : Expr} {start leftStop rightStop : Nat}
    {left right : List (Tree α)} :
    (first : RoundsDerivation grammar input operand start left leftStop) →
    (second : RoundsDerivation grammar input operand start right rightStop) →
    left = right ∧ leftStop = rightStop ∧ first.size = second.size
  | .missed part, .missed other => ⟨rfl, rfl, congrArg (· + 1) (part.unique other).2⟩
  | .missed part, .idle other => nomatch (part.unique other).1
  | .missed part, .round other _ _ => nomatch (part.unique other).1
  | .idle part, .missed other => nomatch (part.unique other).1
  | .idle part, .idle other => ⟨rfl, rfl, congrArg (· + 1) (part.unique other).2⟩
  | .idle part, .round other progress _ => by
      cases (part.unique other).1
      exact absurd progress (Nat.lt_irrefl _)
  | .round part _ _, .missed other => nomatch (part.unique other).1
  | .round part progress _, .idle other => by
      cases (part.unique other).1
      exact absurd progress (Nat.lt_irrefl _)
  | .round part _ rest, .round other _ otherRest => by
      rcases part.unique other with ⟨equal, sizes⟩
      cases equal
      rcases rest.unique otherRest with ⟨trees, stops, restSizes⟩
      cases trees
      cases stops
      refine ⟨rfl, rfl, ?_⟩
      simp only [RoundsDerivation.size, sizes, restSizes]
end

theorem Derives.unique {expr : Expr} {start : Nat} {left right : Finding α}
    (first : Derives grammar input expr start left)
    (second : Derives grammar input expr start right) : left = right := by
  rcases first with ⟨first⟩
  rcases second with ⟨second⟩
  exact (first.unique second).1

end OrderedChoice
