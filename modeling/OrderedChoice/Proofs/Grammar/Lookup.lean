import Mathlib.Data.List.Forall2
import OrderedChoice.Grammar.Basic

/-! Looking up rules in grammars that have been made from others. -/

namespace OrderedChoice

namespace Grammar

theorem lookup_rule_cons (rule : String × Expr) (rest : List (String × Expr)) (name : String) :
    (rule :: rest).lookup name = if name = rule.1 then some rule.2 else rest.lookup name := by
  rw [List.lookup_cons]
  by_cases first : name = rule.1
  · rw [if_pos first, beq_iff_eq.mpr first]
  · rw [if_neg first, beq_false_of_ne first]

theorem lookup_put (name : String) (definition : Expr) (rules : List (String × Expr))
    (other : String) :
    (put name definition rules).lookup other =
      if other = name then some definition else rules.lookup other := by
  induction rules with
  | nil => exact lookup_rule_cons (name, definition) [] other
  | cons rule rest induction =>
      rw [put, lookup_rule_cons]
      by_cases there : rule.1 = name
      · rw [if_pos there, lookup_rule_cons, there]
        split <;> rfl
      · rw [if_neg there, lookup_rule_cons, induction]
        by_cases first : other = rule.1
        · rw [if_pos first, if_neg (first ▸ there), if_pos first]
        · rw [if_neg first, if_neg first]

theorem lookup?_insert (grammar : Grammar) (name : String) (definition : Expr) (other : String) :
    (grammar.insert name definition).lookup? other =
      if other = name then some definition else grammar.lookup? other :=
  lookup_put name definition grammar.rules other

/-- Lists of rules with the same names and related definitions define the same names, with
related definitions. -/
theorem lookup_related {relates : Expr → Expr → Prop} {rules others : List (String × Expr)}
    (related : List.Forall₂ (fun rule other => other.1 = rule.1 ∧ relates rule.2 other.2) rules
      others) (name : String) :
    (rules.lookup name = none → others.lookup name = none) ∧
      ∀ definition, rules.lookup name = some definition →
        ∃ changed, others.lookup name = some changed ∧ relates definition changed := by
  induction related with
  | nil => exact ⟨fun _ => rfl, nofun⟩
  | @cons rule other _ _ first _ induction =>
      rw [lookup_rule_cons, lookup_rule_cons, first.1]
      by_cases here : name = rule.1
      · rw [if_pos here, if_pos here]
        refine ⟨nofun, ?_⟩
        rintro definition ⟨⟩
        exact ⟨other.2, rfl, first.2⟩
      · rwa [if_neg here, if_neg here]

end Grammar

end OrderedChoice
