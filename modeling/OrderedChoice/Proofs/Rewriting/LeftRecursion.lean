import OrderedChoice.Proofs.Evaluation.Exchange
import OrderedChoice.Proofs.Grammar.Lookup
import OrderedChoice.Proofs.Machine.Report

/-! Alternatives that begin with the rule they belong to. Whenever such an alternative is tried
its rule is under way since the same offset, so it is missed before anything else in it is looked
at, and no terminal is turned down in it. The rule may be entered anywhere; only the entry rule is
not under way where it is evaluated first. -/

namespace OrderedChoice

open Evaluation

variable {α : Type} {grammar : Grammar} {input : Input α} {name : String}

/-- The first thing that an expression looks for is a certain rule. -/
inductive Expr.BeginsWith (name : String) : Expr → Prop
  | reference : BeginsWith name (.reference name)
  | sequence {first rest} :
      BeginsWith name first → BeginsWith name (.sequence (first :: rest))

section Yields

variable {active : List (String × Nat)} {start : Nat} {ending : Ending α}
  {furthest : Option Nat}

/-- While the rule is under way nothing is found that begins with it, and nothing is turned down
on the way. -/
theorem Expr.BeginsWith.missed {expr : Expr} (begins : expr.BeginsWith name)
    (underWay : (name, start) ∈ active)
    (yields : Yields grammar input active start (.expr expr) ending furthest) :
    ending = .missed ∧ furthest = none := by
  induction begins generalizing ending furthest with
  | reference =>
      cases yields with
      | refused => exact ⟨rfl, rfl⟩
      | undefined inactive => exact absurd underWay inactive
      | entered inactive => exact absurd underWay inactive
  | sequence _ induction =>
      cases yields with
      | sequence items =>
          cases items with
          | lastItem first => exact induction first
          | nextItem first => cases (induction first).1

theorem yields_without {before after : List Expr} {dead : Expr} (begins : dead.BeginsWith name)
    (underWay : (name, start) ∈ active)
    (yields : Yields grammar input active start (.alternatives (before ++ dead :: after)) ending
      furthest) :
    Yields grammar input active start (.alternatives (before ++ after)) ending furthest := by
  induction before generalizing furthest with
  | nil =>
      cases yields with
      | lastAlternative first settled => exact absurd (begins.missed underWay first).1 settled
      | nextAlternative first rest =>
          rcases begins.missed underWay first with ⟨_, rfl⟩
          rwa [Option.max_none_left]
  | cons head tail induction =>
      cases yields with
      | lastAlternative first settled => exact .lastAlternative first settled
      | nextAlternative first rest => exact .nextAlternative first (induction rest)

end Yields

theorem exchanges_without (input : Input α) {before after : List Expr} {dead : Expr}
    (defined : grammar.lookup? name = some (.choice (before ++ dead :: after)))
    (begins : dead.BeginsWith name) :
    Exchanges grammar (grammar.insert name (.choice (before ++ after))) input where
  missing := by
    intro other missing
    have different : other ≠ name := by
      rintro rfl
      rw [defined] at missing
      cases missing
    rwa [Grammar.lookup?_insert, if_neg different]
  defined := by
    intro other definition found
    rw [Grammar.lookup?_insert]
    by_cases same : other = name
    · subst same
      rw [defined] at found
      cases found
      refine ⟨_, if_pos rfl, ?_⟩
      intro active start ending furthest underWay yields
      cases yields with
      | choice alternatives => exact .choice (yields_without begins underWay alternatives)
    · exact ⟨definition, (if_neg same).trans found, fun _ _ _ _ _ yields => yields⟩

namespace Machine

/-- Nobody can tell from what a run leaves whether a rule has an alternative that begins with the
rule itself. -/
theorem parse_without_left_recursion (input : Input α) {before after : List Expr} {dead : Expr}
    (ordinary : name ≠ entryName)
    (defined : grammar.lookup? name = some (.choice (before ++ dead :: after)))
    (begins : dead.BeginsWith name) :
    let final := parse grammar input
    let other := parse (grammar.insert name (.choice (before ++ after))) input
    other.tree = final.tree ∧ other.cursor = final.cursor ∧ other.log = final.log := by
  have exchanges := exchanges_without input defined begins
  apply parse_congr
  case missing => exact exchanges.missing entryName
  case yields =>
    intro definition entry
    refine ⟨definition, ?_, fun ending furthest yields => yields.exchange exchanges⟩
    rwa [Grammar.lookup?_insert, if_neg ordinary.symm]

def entryTwice : Grammar := .ofRules [
  (entryName, .sequence [.reference "X", .reference "X"]),
  ("X", .choice [
    .sequence [.terminal "(", .reference "X", .terminal ")"],
    .sequence [.reference "X", .terminal "b"],
    .terminal "a"])]

theorem entryTwice_without_left_recursion :
    let input := Input.ofText "a(ab"
    let before : List Expr := [.sequence [.terminal "(", .reference "X", .terminal ")"]]
    let dead : Expr := .sequence [.reference "X", .terminal "b"]
    let final := parse entryTwice input
    let other := parse (entryTwice.insert "X" (.choice (before ++ [.terminal "a"]))) input
    "X" ≠ entryName ∧
      entryTwice.lookup? "X" = some (.choice (before ++ dead :: [.terminal "a"])) ∧
      dead.BeginsWith "X" ∧
      other.tree = final.tree ∧ other.cursor = final.cursor ∧ other.log = final.log ∧
      final.log = [.unexpected 'b' 3] := by
  intro input before dead final other
  have ordinary : "X" ≠ entryName := by decide
  have defined : entryTwice.lookup? "X" = some (.choice (before ++ dead :: [.terminal "a"])) := rfl
  have begins : dead.BeginsWith "X" := .sequence .reference
  rcases parse_without_left_recursion input ordinary defined begins with ⟨tree, cursor, log⟩
  refine ⟨ordinary, defined, begins, tree, cursor, log, ?_⟩
  have ended : (stateAt entryTwice input 45).stopped = true := by decide +kernel
  have reached : stateAt entryTwice input 45 = final := stateAt_eq_parse ended
  rw [← reached]
  decide +kernel

end Machine

end OrderedChoice
