import OrderedChoice.Proofs.Machine.Simulation
import OrderedChoice.Source

/-! What whole runs come to. A run ends, after as many moves as evaluation accounts
for, with the tree, the cursor and the log that evaluation calls for. -/

namespace OrderedChoice

namespace Machine

open Evaluation

variable {α : Type} {grammar : Grammar} {input : Input α} {definition : Expr}

/-! ## The end of a run -/

def logOfFound (input : Input α) (stop : Nat) : List (Diagnostic α) :=
  match input.element? stop with
  | some found => [.expectedEnd found stop]
  | none => []

def logOfMissed (input : Input α) (furthest : Option Nat) : List (Diagnostic α) :=
  match input.element? (furthest.getD 0) with
  | some found => [.unexpected found (furthest.getD 0)]
  | none => [.unexpectedEnd (furthest.getD 0)]

/-- The run that an account of the entry rule calls for. A missing rule leaves the
frames where they are. -/
def EndsAs (input : Input α) (final : State α) (account : Account α 0 input.size) : Prop :=
  match account with
  | ⟨.found tree stop _ _, effort⟩ =>
      final = ⟨stop, effort.furthest, [], [], true, effort.moves, tree, logOfFound input stop⟩
  | ⟨.missed, effort⟩ =>
      final = ⟨0, effort.furthest, [], [], true, effort.moves, .absent,
        logOfMissed input effort.furthest⟩
  | ⟨.undefined name, effort⟩ =>
      final.stopped = true ∧ final.steps = effort.moves ∧ final.furthest = effort.furthest ∧
        final.tree = .absent ∧ final.log = [.undefinedReference name]

theorem start_eq (entry : grammar.lookup? entryName = some definition) :
    (State.start grammar : State α) = State.blank.push definition := by
  simp [State.start, entry]

theorem start_of_missing_entry (missing : grammar.lookup? entryName = none) :
    (State.start grammar : State α) =
      { State.blank with stopped := true, log := [.missingEntry] } := by
  simp [State.start, missing]

theorem moveCount_eq (entry : grammar.lookup? entryName = some definition) :
    moveCount grammar input = (evaluate grammar input [] 0 definition).effort.moves := by
  simp [moveCount, entry]

theorem start_settles (input : Input α)
    (entry : grammar.lookup? entryName = some definition) :
    Settles grammar input (.start grammar) [] [] (evaluate grammar input [] 0 definition) := by
  refine simulated grammar input [] 0 definition _ [] ?_
  rw [start_eq entry]
  exact ⟨rfl, rfl, rfl, rfl, rfl⟩

theorem deliver_found (entry : grammar.lookup? entryName = some definition) (effort : Effort)
    (tree : Tree α) (stop : Nat) :
    ((State.start grammar).after effort stop [] []).deliver input (.found tree) =
      ⟨stop, effort.furthest, [], [], true, effort.moves, tree, logOfFound input stop⟩ := by
  rw [start_eq entry]
  simp only [State.deliver, State.conclude, State.after, State.push, State.blank, logOfFound,
    Option.max_none_left, Nat.zero_add]
  cases input.element? stop <;> rfl

theorem deliver_missed (entry : grammar.lookup? entryName = some definition) (effort : Effort) :
    ((State.start grammar).after effort 0 [] []).deliver input .missed =
      ⟨0, effort.furthest, [], [], true, effort.moves, .absent,
        logOfMissed input effort.furthest⟩ := by
  rw [start_eq entry]
  simp only [State.deliver, State.conclude, State.after, State.push, State.blank, logOfMissed,
    Option.max_none_left, Nat.zero_add, Nat.max_zero]
  cases input.element? (effort.furthest.getD 0) <;> rfl

theorem exists_course (input : Input α)
    (entry : grammar.lookup? entryName = some definition) :
    ∃ final, Course grammar input (.start grammar)
        (evaluate grammar input [] 0 definition).effort final ∧
      final.stopped = true ∧
      EndsAs input final (evaluate grammar input [] 0 definition) := by
  have settles := start_settles input entry
  cases account : evaluate grammar input [] 0 definition with
  | mk verdict effort =>
      rw [account] at settles
      cases verdict with
      | found tree stop forward inside =>
          exact ⟨_, settles, by rw [deliver_found entry], deliver_found entry effort tree stop⟩
      | missed =>
          exact ⟨_, settles, by rw [deliver_missed entry], deliver_missed entry effort⟩
      | undefined name =>
          rcases settles with ⟨spent, cursor, stack, active, total, course, undefined⟩
          rcases State.step_of_undefined undefined with
            ⟨stopped, tree, _, _, _, furthest, steps, log⟩
          cases total
          refine ⟨_, course.trans (.of_undefined undefined), stopped, stopped, ?_⟩
          rw [steps, furthest, tree, log, start_eq entry]
          simp [State.after, State.push, State.blank, Effort.move]

/-! ## Whole runs -/

theorem exec_eq_iterate (grammar : Grammar) (input : Input α) (state : State α) :
    state.exec grammar input = (State.step grammar input)^[moveCount grammar input] state := by
  unfold State.exec
  split
  · next stopped => rw [State.iterate_step_of_stopped stopped]
  · exact State.runFor_eq_iterate _ _

theorem parse_endsAs (entry : grammar.lookup? entryName = some definition) :
    EndsAs input (parse grammar input) (evaluate grammar input [] 0 definition) := by
  rcases exists_course input entry with ⟨final, course, stopped, ends⟩
  have reached := course.iterate_step_of_le stopped (Nat.le_of_eq rfl)
  rw [← moveCount_eq entry, ← exec_eq_iterate] at reached
  rw [parse, reached]
  exact ends

theorem iterate_moveCount_stopped (grammar : Grammar) (input : Input α) :
    ((State.step grammar input)^[moveCount grammar input] (.start grammar)).stopped = true := by
  cases entry : grammar.lookup? entryName with
  | none =>
      have stopped : (State.start grammar : State α).stopped = true := by
        rw [start_of_missing_entry entry]
      rw [State.iterate_step_of_stopped stopped, stopped]
  | some definition =>
      rcases exists_course input entry with ⟨final, course, stopped, _⟩
      rw [moveCount_eq entry, course.iterate_step, stopped]

/-- A run ends exactly as evaluation of the entry rule has it, and no number of
further moves changes anything about that. -/
theorem run_agrees_with_evaluation (entry : grammar.lookup? entryName = some definition) :
    EndsAs input (parse grammar input) (evaluate grammar input [] 0 definition) ∧
      ∀ count, (evaluate grammar input [] 0 definition).effort.moves ≤ count →
        (State.step grammar input)^[count] (.start grammar) = parse grammar input := by
  refine ⟨parse_endsAs entry, ?_⟩
  intro count enough
  rcases exists_course input entry with ⟨final, course, stopped, _⟩
  rw [parse, exec_eq_iterate, moveCount_eq entry, course.iterate_step]
  exact course.iterate_step_of_le stopped enough

def leftRecursive : Grammar := .ofRules [
  (entryName, .reference "X"),
  ("X", .choice [.sequence [.reference "X", .terminal "+", .terminal "a"], .terminal "a"])]

theorem leftRecursive_run_agrees :
    leftRecursive.lookup? entryName = some (.reference "X") ∧
      EndsAs (.ofText "a+a") (parse leftRecursive (.ofText "a+a"))
        (evaluate leftRecursive (.ofText "a+a") [] 0 (.reference "X")) ∧
      ∀ count, (evaluate leftRecursive (.ofText "a+a") [] 0
          (.reference "X")).effort.moves ≤ count →
        (State.step leftRecursive (.ofText "a+a"))^[count] (.start leftRecursive) =
          parse leftRecursive (.ofText "a+a") :=
  ⟨rfl, run_agrees_with_evaluation rfl⟩

/-- From every state that a run comes to, further moves bring it to its end, and
`exec` makes no others. -/
theorem run_ends_from_every_state (grammar : Grammar) (input : Input α) (made : Nat) :
    let state := (State.step grammar input)^[made] (.start grammar)
    ∃ more, ((State.step grammar input)^[more] state).stopped = true ∧
      state.exec grammar input = (State.step grammar input)^[more] state := by
  intro state
  refine ⟨moveCount grammar input, ?_, exec_eq_iterate grammar input state⟩
  have stopped := iterate_moveCount_stopped grammar input
  rw [← Function.iterate_add_apply, Nat.add_comm, Function.iterate_add_apply,
    State.iterate_step_of_stopped stopped, stopped]

end Machine

end OrderedChoice
