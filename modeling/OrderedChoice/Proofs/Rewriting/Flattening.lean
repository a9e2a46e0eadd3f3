import OrderedChoice.Proofs.Evaluation.Exchange
import OrderedChoice.Proofs.Grammar.Lookup
import OrderedChoice.Proofs.Machine.Report

/-! Choices among the alternatives of a choice. Such a choice may be put aside, with its own
alternatives in its place: the first alternative that is not missed is the same, and so are the
terminals that are turned down before it. This holds at any place of a definition, and at any
number of places at once. -/

namespace OrderedChoice

open Evaluation

/-! ## Flattened expressions -/

mutual
/-- An expression has become another by putting aside some choices that are alternatives of
choices. -/
inductive Expr.Flattened : Expr → Expr → Prop
  | terminal {pattern} : Flattened (.terminal pattern) (.terminal pattern)
  | reference {name} : Flattened (.reference name) (.reference name)
  | choice {alternatives flat} :
      FlattenedAlternatives alternatives flat → Flattened (.choice alternatives) (.choice flat)
  | sequence {items flat} :
      List.Forall₂ Expr.Flattened items flat → Flattened (.sequence items) (.sequence flat)
  | optional {operand flat} : Flattened operand flat → Flattened (.optional operand) (.optional flat)
  | repetition {operand flat} :
      Flattened operand flat → Flattened (.repetition operand) (.repetition flat)

inductive Expr.FlattenedAlternatives : List Expr → List Expr → Prop
  | nil : FlattenedAlternatives [] []
  | keep {first rest flat flatRest} :
      Expr.Flattened first flat → FlattenedAlternatives rest flatRest →
      FlattenedAlternatives (first :: rest) (flat :: flatRest)
  /-- An alternative that is a choice leaves its alternatives in its place. -/
  | splice {inner rest flat flatRest} :
      FlattenedAlternatives inner flat → FlattenedAlternatives rest flatRest →
      FlattenedAlternatives (.choice inner :: rest) (flat ++ flatRest)
end

def Grammar.Flattened (grammar flat : Grammar) : Prop :=
  List.Forall₂ (fun rule flatRule => flatRule.1 = rule.1 ∧ rule.2.Flattened flatRule.2)
    grammar.rules flat.rules

namespace Evaluation

variable {α : Type} {grammar : Grammar} {input : Input α}

inductive Search.Flattened : Search α → Search α → Prop
  | expr {whole flat} : Expr.Flattened whole flat → Flattened (.expr whole) (.expr flat)
  | alternatives {untried flat} :
      Expr.FlattenedAlternatives untried flat →
      Flattened (.alternatives untried) (.alternatives flat)
  | items {start children rest flat} :
      List.Forall₂ Expr.Flattened rest flat →
      Flattened (.items start children rest) (.items start children flat)
  | rounds {start children operand flat} :
      Expr.Flattened operand flat →
      Flattened (.rounds start children operand) (.rounds start children flat)

/-! ## Alternatives one after the other -/

section Append

variable {active : List (String × Nat)} {start : Nat} {first rest : List Expr}
  {ending : Ending α} {furthest further : Option Nat}

theorem Yields.append_settled
    (yields : Yields grammar input active start (.alternatives first) ending furthest)
    (settled : ending ≠ .missed) (rest : List Expr) :
    Yields grammar input active start (.alternatives (first ++ rest)) ending furthest := by
  induction first generalizing furthest with
  | nil =>
      cases yields
      exact absurd rfl settled
  | cons head tail induction =>
      cases yields with
      | lastAlternative part settled => exact .lastAlternative part settled
      | nextAlternative part others => exact .nextAlternative part (induction others)

theorem Yields.append_missed
    (missed : Yields grammar input active start (.alternatives first) .missed furthest)
    (yields : Yields grammar input active start (.alternatives rest) ending further) :
    Yields grammar input active start (.alternatives (first ++ rest)) ending
      (max furthest further) := by
  induction first generalizing furthest with
  | nil =>
      cases missed
      rwa [Option.max_none_left]
  | cons head tail induction =>
      cases missed with
      | lastAlternative _ settled => exact absurd rfl settled
      | nextAlternative part others =>
          rw [Effort.max_furthest_assoc]
          exact .nextAlternative part (induction others)

end Append

/-- What is looked for comes to the same when it has been flattened. The induction goes over the
rules; where a choice has been put aside it has been tried as a whole before. -/
theorem Yields.flattened {active : List (String × Nat)} {offset : Nat} {search flat : Search α}
    {ending : Ending α} {furthest : Option Nat}
    (yields : Yields grammar input active offset search ending furthest)
    (flattened : search.Flattened flat) :
    Yields grammar input active offset flat ending furthest := by
  induction yields generalizing flat with
  | terminal ends =>
      cases flattened with | expr same =>
      cases same
      exact .terminal ends
  | refused refused =>
      cases flattened with | expr same =>
      cases same
      exact .refused refused
  | undefined inactive missing =>
      cases flattened with | expr same =>
      cases same
      exact .undefined inactive missing
  | entered inactive defined part =>
      cases flattened with | expr same =>
      cases same
      exact .entered inactive defined part
  | choice _ alternatives =>
      cases flattened with | expr whole =>
      cases whole with | choice inner =>
      exact .choice (alternatives (.alternatives inner))
  | sequence _ items =>
      cases flattened with | expr whole =>
      cases whole with | sequence inner =>
      exact .sequence (items (.items inner))
  | optional _ part =>
      cases flattened with | expr whole =>
      cases whole with | optional inner =>
      exact .optional (part (.expr inner))
  | repetition _ rounds =>
      cases flattened with | expr whole =>
      cases whole with | repetition inner =>
      exact .repetition (rounds (.rounds inner))
  | noAlternative =>
      cases flattened with | alternatives none =>
      cases none
      exact .noAlternative
  | lastAlternative _ settled part =>
      cases flattened with | alternatives all =>
      cases all with
      | keep first _ => exact .lastAlternative (part (.expr first)) settled
      | splice inner _ =>
          -- the inner choice has been tried as a whole, so its alternatives are settled
          cases part (.expr (.choice inner)) with | choice alternatives =>
          exact alternatives.append_settled settled _
  | nextAlternative _ _ part others =>
      cases flattened with | alternatives all =>
      cases all with
      | keep first rest =>
          exact .nextAlternative (part (.expr first)) (others (.alternatives rest))
      | splice inner rest =>
          cases part (.expr (.choice inner)) with | choice alternatives =>
          exact alternatives.append_missed (others (.alternatives rest))
  | noItem =>
      cases flattened with | items none =>
      cases none
      exact .noItem
  | lastItem _ settled part =>
      cases flattened with | items all =>
      cases all with | cons first _ =>
      exact .lastItem (part (.expr first)) settled
  | nextItem _ _ part others =>
      cases flattened with | items all =>
      cases all with | cons first rest =>
      exact .nextItem (part (.expr first)) (others (.items rest))
  | lastRound _ idle part =>
      cases flattened with | rounds operand =>
      exact .lastRound (part (.expr operand)) idle
  | nextRound _ progress _ part others =>
      cases flattened with | rounds operand =>
      exact .nextRound (part (.expr operand)) progress (others (.rounds operand))

end Evaluation

/-! ## Flattened grammars -/

namespace Grammar.Flattened

variable {α : Type} {grammar flat : Grammar}

theorem missing (flattened : grammar.Flattened flat) (name : String)
    (missing : grammar.lookup? name = none) : flat.lookup? name = none :=
  (lookup_related flattened name).1 missing

theorem defined (flattened : grammar.Flattened flat) (name : String) (definition : Expr)
    (defined : grammar.lookup? name = some definition) :
    ∃ changed, flat.lookup? name = some changed ∧ definition.Flattened changed :=
  (lookup_related flattened name).2 definition defined

theorem exchanges (flattened : grammar.Flattened flat) (input : Input α) :
    Exchanges grammar flat input where
  missing := flattened.missing
  defined := by
    intro name definition found
    rcases flattened.defined name definition found with ⟨changed, defined, same⟩
    exact ⟨changed, defined, fun _ _ _ _ _ yields => yields.flattened (.expr same)⟩

end Grammar.Flattened

namespace Machine

/-- Nobody can tell from what a run leaves whether there are choices among the alternatives of a
choice. -/
theorem parse_flattened {α : Type} {grammar flat : Grammar} (input : Input α)
    (flattened : grammar.Flattened flat) :
    let final := parse grammar input
    let other := parse flat input
    other.tree = final.tree ∧ other.cursor = final.cursor ∧ other.log = final.log := by
  apply parse_congr (flattened.missing entryName)
  intro definition entry
  rcases flattened.defined entryName definition entry with ⟨changed, defined, same⟩
  refine ⟨changed, defined, ?_⟩
  intro ending furthest yields
  exact (yields.exchange (flattened.exchanges input)).flattened (.expr same)

def nestedChoices : Grammar := .ofRules [
  (entryName, .choice [
    .sequence [.reference "X", .terminal "!"],
    .choice [.terminal "?", .reference "X"]]),
  ("X", .choice [
    .choice [
      .sequence [.terminal "(", .reference "X", .terminal ")"],
      .choice [.terminal "ab", .terminal "ac"]],
    .terminal "a"])]

def flatChoices : Grammar := .ofRules [
  (entryName, .choice [
    .sequence [.reference "X", .terminal "!"],
    .terminal "?",
    .reference "X"]),
  ("X", .choice [
    .sequence [.terminal "(", .reference "X", .terminal ")"],
    .terminal "ab",
    .terminal "ac",
    .terminal "a"])]

theorem nestedChoices_flattened : nestedChoices.Flattened flatChoices := by
  have begin : Expr.Flattened (.sequence [.reference "X", .terminal "!"])
      (.sequence [.reference "X", .terminal "!"]) :=
    .sequence (.cons .reference (.cons .terminal .nil))
  have bracket : Expr.Flattened (.sequence [.terminal "(", .reference "X", .terminal ")"])
      (.sequence [.terminal "(", .reference "X", .terminal ")"]) :=
    .sequence (.cons .terminal (.cons .reference (.cons .terminal .nil)))
  have entry : Expr.FlattenedAlternatives [.terminal "?", .reference "X"]
      [.terminal "?", .reference "X"] := .keep .terminal (.keep .reference .nil)
  have inner : Expr.FlattenedAlternatives [.terminal "ab", .terminal "ac"]
      [.terminal "ab", .terminal "ac"] := .keep .terminal (.keep .terminal .nil)
  refine .cons ⟨rfl, .choice (.keep begin (.splice entry .nil))⟩ (.cons ⟨rfl, .choice ?_⟩ .nil)
  exact .splice (.keep bracket (.splice inner .nil)) (.keep .terminal .nil)

theorem nestedChoices_parse_flattened :
    let input := Input.ofText "(ad"
    let final := parse nestedChoices input
    let other := parse flatChoices input
    nestedChoices.Flattened flatChoices ∧
      other.tree = final.tree ∧ other.cursor = final.cursor ∧ other.log = final.log ∧
      final.log = [.unexpected 'd' 2] := by
  intro input final other
  rcases parse_flattened input nestedChoices_flattened with ⟨tree, cursor, log⟩
  refine ⟨nestedChoices_flattened, tree, cursor, log, ?_⟩
  have ended : (stateAt nestedChoices input 87).stopped = true := by decide +kernel
  have reached : stateAt nestedChoices input 87 = final := stateAt_eq_parse ended
  rw [← reached]
  decide +kernel

end Machine

end OrderedChoice
