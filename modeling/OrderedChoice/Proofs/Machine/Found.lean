import OrderedChoice.Proofs.Machine.Outcome
import OrderedChoice.Proofs.Machine.Stack

/-! What a run finds. Whenever the outermost frame is taken away as found, the run is over
and its tree conforms to the definition of the entry rule, from the start of the input up
to the cursor. This holds with rules that lead back to themselves as well, where the tree
need not be what the definitions mean without a guard. -/

namespace OrderedChoice

namespace Machine

variable {α : Type} {grammar : Grammar} {input : Input α}

/-- The next move takes the outermost frame away, with an outcome. -/
def Concludes (grammar : Grammar) (input : Input α) (made : Nat) (outcome : Outcome α) :
    Prop :=
  ∃ frame progress move,
    Visit grammar input (stateAt grammar input made) frame [] progress move ∧
      move.outcome? = some outcome

theorem parse_eq_stateAt (grammar : Grammar) (input : Input α) :
    parse grammar input = stateAt grammar input (moveCount grammar input) :=
  exec_eq_iterate grammar input _

theorem stateAt_eq_parse {made : Nat} (stopped : (stateAt grammar input made).stopped = true) :
    stateAt grammar input made = parse grammar input := by
  have ended : (stateAt grammar input (moveCount grammar input)).stopped = true :=
    iterate_moveCount_stopped grammar input
  calc stateAt grammar input made
      = stateAt grammar input (made + moveCount grammar input) :=
        (stateAt_of_stopped stopped _).symm
    _ = stateAt grammar input (moveCount grammar input + made) := by rw [Nat.add_comm]
    _ = stateAt grammar input (moveCount grammar input) := stateAt_of_stopped ended _
    _ = parse grammar input := (parse_eq_stateAt grammar input).symm

theorem deliver_entry_found {state : State α} {tree : Tree α} (alone : state.stack = []) :
    let final := state.deliver input (.found tree)
    final.stopped = true ∧ final.stack = [] ∧ final.tree = tree := by
  intro final
  have concluded : final = state.conclude input (.found tree) := by
    unfold final State.deliver
    rw [alone]
  rw [concluded]
  exact ⟨rfl, alone, rfl⟩

/-- A run whose outermost frame is found is over, and its tree conforms to the entry rule
over the stretch of input that the run has taken. -/
theorem found_tree_conforms {made : Nat} {tree : Tree α}
    (concludes : Concludes grammar input made (.found tree)) :
    let final := stateAt grammar input (made + 1)
    final = parse grammar input ∧ final.stopped = true ∧ final.stack = [] ∧
      final.tree = tree ∧
      ∃ definition, grammar.lookup? entryName = some definition ∧
        Conforms grammar input definition 0 tree final.cursor := by
  intro final
  obtain ⟨frame, progress, move, visit, leaves⟩ := concludes
  have stepped : final = _ := (stateAt_succ grammar input made).trans (visit.step_leave leaves)
  have poised := (stateAt_steady grammar input made).poised visit.stack
  have conforms := (poised.leads visit.visit).conforms leaves
  have ends : final.stopped = true ∧ final.stack = [] ∧ final.tree = tree := by
    rw [stepped]
    exact deliver_entry_found rfl
  have cursor : final.cursor = move.exit (stateAt grammar input made).cursor frame.entry := by
    rw [stepped, deliver_cursor]
    rfl
  refine ⟨stateAt_eq_parse ends.1, ends.1, ends.2.1, ends.2.2, ?_⟩
  obtain ⟨entry, zero⟩ := poised.under.outermost
  rw [zero] at conforms cursor
  rw [cursor]
  exact ⟨frame.expr, entry, conforms⟩

def optionThenRepetition : Grammar := .ofRules [
  (entryName, .sequence [.optional (.terminal "a"), .repetition (.terminal "b")])]

theorem optionThenRepetition_tree_conforms :
    let input := Input.ofText "bb"
    let rounds : Tree Char := .node "repetition"
      [.leaf "b" ['b'] (.between 0 1), .leaf "b" ['b'] (.between 1 2)] (.between 0 2)
    let tree : Tree Char := .node "grouping" [.absent, rounds] (.between 0 2)
    let final := stateAt optionThenRepetition input 13
    Concludes optionThenRepetition input 12 (.found tree) ∧
      final = parse optionThenRepetition input ∧ final.stopped = true ∧ final.stack = [] ∧
        final.tree = tree ∧
        ∃ definition, optionThenRepetition.lookup? entryName = some definition ∧
          Conforms optionThenRepetition input definition 0 tree final.cursor := by
  intro input rounds tree final
  have concludes : Concludes optionThenRepetition input 12 (.found tree) := by
    refine ⟨⟨.sequence [.optional (.terminal "a"), .repetition (.terminal "b")], 0,
      .gathered [.absent], some (.found rounds)⟩, .gathered [rounds, .absent], .produce tree,
      ⟨?_, ?_, ?_⟩, rfl⟩
    · decide +kernel
    · decide +kernel
    · decide +kernel
  exact ⟨concludes, found_tree_conforms concludes⟩

end Machine

end OrderedChoice
