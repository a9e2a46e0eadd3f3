import OrderedChoice.Proofs.Evaluation.Recursion

/-! Where the trees of an evaluation end. A tree that covers something says so
itself, which is what a repetition relies on when it asks its latest tree how far
it has come. -/

namespace OrderedChoice

namespace Evaluation

variable {α : Type} {grammar : Grammar} {input : Input α}

/-- A tree that covers at least one element ends where its expression does. -/
def Account.EndsAtStop {start size : Nat} (account : Account α start size) : Prop :=
  match account.verdict with
  | .found tree stop _ _ => start < stop → tree.stop? = some (stop : Int)
  | _ => True

theorem Account.EndsAtStop.after {start size : Nat} {account : Account α start size}
    (ends : account.EndsAtStop) (effort : Effort) : (account.after effort).EndsAtStop :=
  ends

theorem scan_endsAtStop (pattern : String) (start offset : Nat) (forward : start ≤ offset)
    (inside : offset ≤ max start input.size) (taken : List α) (tests : List (α → Bool)) :
    (scan input pattern start offset forward inside taken tests).EndsAtStop := by
  induction tests generalizing offset taken with
  | nil =>
      intro _
      rfl
  | cons test tests induction =>
      rw [scan]
      split
      · dsimp only
        split
        · exact (induction (offset + 1) _ _ _).after _
        · trivial
      · trivial

theorem evaluate_endsAtStop (grammar : Grammar) (input : Input α)
    (active : List (String × Nat)) (start : Nat) (expr : Expr) :
    (evaluate grammar input active start expr).EndsAtStop := by
  refine recursion grammar input
    (fun active start expr => (evaluate grammar input active start expr).EndsAtStop)
    (fun active start alternatives =>
      (evaluateChoice grammar input active start alternatives).EndsAtStop)
    (fun active start offset reached within children items =>
      (evaluateSequence grammar input active start offset reached within children
        items).EndsAtStop)
    (fun active start offset reached within children operand =>
      (evaluateRepetition grammar input active start offset reached within children
        operand).EndsAtStop)
    ?terminal ?refused ?undefined ?entered ?choice ?sequence ?optional ?repetition
    ?noAlternative ?alternative ?noItem ?item ?round active start expr
  case terminal =>
    intro active start pattern
    cases tests : input.tests pattern with
    | nil =>
        rw [evaluate_terminal_nil tests]
        intro _
        rfl
    | cons test tests =>
        rw [evaluate_terminal_cons ‹_›]
        exact scan_endsAtStop _ _ _ _ _ _ _
  case refused =>
    intro active start name refused
    rw [evaluate_refused refused]
    trivial
  case undefined =>
    intro active start name inactive missing
    rw [evaluate_undefined inactive missing]
    trivial
  case entered =>
    intro active start name definition inactive defined _
    rw [evaluate_entered inactive defined]
    split
    · exact fun _ => rfl
    · trivial
    · trivial
  case choice =>
    intro active start alternatives ends
    rwa [evaluate]
  case sequence =>
    intro active start items ends
    rwa [evaluate]
  case optional =>
    intro active start operand ends
    rw [evaluate]
    split
    · exact fun _ => rfl
    -- without its operand an optional part takes nothing
    · exact fun forward => absurd forward (Nat.lt_irrefl _)
    · trivial
  case repetition =>
    intro active start operand ends
    rwa [evaluate]
  case noAlternative =>
    intro active start
    rw [evaluateChoice]
    trivial
  case alternative =>
    intro active start first rest ends further
    rw [evaluateChoice]
    split
    · next found =>
        rw [found] at ends
        exact ends
    · next missed => exact (further _ missed).after _
    · trivial
  case noItem =>
    intro active start offset reached within children
    rw [evaluateSequence]
    exact fun _ => rfl
  case item =>
    intro active start offset reached within children first rest _ further
    rw [evaluateSequence]
    split
    · next found => exact (further _ _ _ _ _ found).after _
    · trivial
    · trivial
  case round =>
    intro active start offset reached within children operand _ further
    rw [evaluateRepetition]
    dsimp only
    split
    · next found =>
        split
        · next progress => exact (further _ _ _ _ _ found progress).after _
        · exact fun _ => rfl
    · exact fun _ => rfl
    · trivial

end Evaluation

end OrderedChoice
