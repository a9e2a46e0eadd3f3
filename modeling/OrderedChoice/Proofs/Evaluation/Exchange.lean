import OrderedChoice.Proofs.Evaluation.Yields

/-! Exchanging the definitions of rules. Whatever a grammar yields, another yields as well, if
each rule of the one is a rule of the other and its new definition yields what its old one does.
Nothing has to be known about the places where the rules are referred to. -/

namespace OrderedChoice

namespace Evaluation

variable {α : Type} {grammar other : Grammar} {input : Input α}

/-- The rules of the other grammar are those of this one, and while a rule is under way its new
definition yields what its old definition does. -/
structure Exchanges (grammar other : Grammar) (input : Input α) : Prop where
  missing : ∀ name, grammar.lookup? name = none → other.lookup? name = none
  defined : ∀ name definition, grammar.lookup? name = some definition →
    ∃ changed, other.lookup? name = some changed ∧
      ∀ active start ending furthest, (name, start) ∈ active →
        Yields other input active start (.expr definition) ending furthest →
        Yields other input active start (.expr changed) ending furthest

theorem evaluate_terminal_congr (grammar other : Grammar) (active : List (String × Nat))
    (start : Nat) (pattern : String) :
    evaluate grammar input active start (.terminal pattern) =
      evaluate other input active start (.terminal pattern) := by
  cases tests : input.tests pattern with
  | nil => rw [evaluate_terminal_nil tests, evaluate_terminal_nil tests]
  | cons test rest => rw [evaluate_terminal_cons tests, evaluate_terminal_cons tests]

/-- What a grammar yields is yielded as well after the exchange. The induction goes over the
rules; the new definition of a rule is only met where the rule is entered. -/
theorem Yields.exchange (exchanges : Exchanges grammar other input)
    {active : List (String × Nat)} {offset : Nat} {search : Search α} {ending : Ending α}
    {furthest : Option Nat} (yields : Yields grammar input active offset search ending furthest) :
    Yields other input active offset search ending furthest := by
  induction yields with
  | terminal ends =>
      rw [evaluate_terminal_congr grammar other] at ends
      exact .terminal ends
  | refused refused => exact .refused refused
  | undefined inactive missing => exact .undefined inactive (exchanges.missing _ missing)
  | entered inactive defined _ part =>
      rcases exchanges.defined _ _ defined with ⟨changed, changedDefined, yields⟩
      exact .entered inactive changedDefined (yields _ _ _ _ List.mem_cons_self part)
  | choice _ alternatives => exact .choice alternatives
  | sequence _ items => exact .sequence items
  | optional _ part => exact .optional part
  | repetition _ rounds => exact .repetition rounds
  | noAlternative => exact .noAlternative
  | lastAlternative _ settled part => exact .lastAlternative part settled
  | nextAlternative _ _ part rest => exact .nextAlternative part rest
  | noItem => exact .noItem
  | lastItem _ settled part => exact .lastItem part settled
  | nextItem _ _ part rest => exact .nextItem part rest
  | lastRound _ idle part => exact .lastRound part idle
  | nextRound _ progress _ part rest => exact .nextRound part progress rest

end Evaluation

end OrderedChoice
