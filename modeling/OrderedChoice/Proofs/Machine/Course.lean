import Mathlib.Logic.Function.Iterate
import OrderedChoice.Machine.Run

/-! Courses of the parsing machine: the states that it passes through, and the
effort that the moves between them cost. -/

namespace OrderedChoice

namespace Machine

open Evaluation (Effort)

variable {α : Type} {grammar : Grammar} {input : Input α}

def Move.effort (cursor : Nat) : Move α → Effort
  | .reject => .rejection cursor
  | .refuse => .refusal
  | _ => .move

/-- A machine gets from one state to another by moves that cost an effort. -/
inductive Course (grammar : Grammar) (input : Input α) :
    State α → Effort → State α → Prop
  | rest (state) : Course grammar input state .none state
  | move {state proposal effort final} :
      state.propose grammar input = some proposal →
      Course grammar input (proposal.state.commit input proposal.move) effort final →
      Course grammar input state (proposal.move.effort state.cursor + effort) final

def Proposes (grammar : Grammar) (input : Input α) (state : State α) (move : Move α) : Prop :=
  ∃ proposal, state.propose grammar input = some proposal ∧ proposal.move = move

@[simp] theorem Move.effort_moves (cursor : Nat) (move : Move α) :
    (move.effort cursor).moves = 1 := by
  cases move <;> rfl

namespace Course

theorem trans {first second third : State α} {left right : Effort}
    (before : Course grammar input first left second)
    (after : Course grammar input second right third) :
    Course grammar input first (left + right) third := by
  induction before with
  | rest => simpa using after
  | move proposed _ induction =>
      rw [Effort.add_assoc]
      exact .move proposed (induction after)

theorem single {state final : State α} {proposal : Proposal α}
    (proposed : state.propose grammar input = some proposal)
    (committed : proposal.state.commit input proposal.move = final) :
    Course grammar input state (proposal.move.effort state.cursor) final := by
  have course := Course.move proposed (.rest _)
  rwa [Effort.add_none, committed] at course

end Course

namespace State

theorem stopped_eq_false_of_propose {state : State α} {proposal : Proposal α}
    (proposed : state.propose grammar input = some proposal) : state.stopped = false := by
  cases stopped : state.stopped with
  | false => rfl
  | true => simp [propose, stopped] at proposed

theorem step_of_propose {state : State α} {proposal : Proposal α}
    (proposed : state.propose grammar input = some proposal) :
    state.step grammar input = proposal.state.commit input proposal.move := by
  simp [step, proposed]

theorem step_of_stopped {state : State α} (stopped : state.stopped = true) :
    state.step grammar input = state := by
  simp [step, propose, stopped]

theorem iterate_step_of_stopped {state : State α} (stopped : state.stopped = true)
    (count : Nat) : (step grammar input)^[count] state = state :=
  Function.iterate_fixed (step_of_stopped stopped) count

theorem runFor_eq_iterate (limit : Nat) (state : State α) :
    state.runFor grammar input limit = (step grammar input)^[limit] state := by
  induction limit generalizing state with
  | zero => rfl
  | succ limit induction =>
      rw [Function.iterate_succ_apply, runFor]
      split
      · next stopped =>
          rw [step_of_stopped stopped, iterate_step_of_stopped stopped]
      · exact induction _

end State

namespace Course

variable {state final : State α} {effort : Effort}

theorem iterate_step (course : Course grammar input state effort final) :
    (State.step grammar input)^[effort.moves] state = final := by
  induction course with
  | rest => rfl
  | move proposed _ induction =>
      rw [Effort.add_moves, Move.effort_moves, Nat.add_comm, Function.iterate_succ_apply,
        State.step_of_propose proposed]
      exact induction

theorem iterate_step_of_le (course : Course grammar input state effort final)
    (stopped : final.stopped = true) {count : Nat} (enough : effort.moves ≤ count) :
    (State.step grammar input)^[count] state = final := by
  rw [← Nat.sub_add_cancel enough, Function.iterate_add_apply, course.iterate_step,
    State.iterate_step_of_stopped stopped]

theorem eq_of_stopped (course : Course grammar input state effort final)
    (stopped : state.stopped = true) : final = state := by
  cases course with
  | rest => rfl
  | move proposed _ => simp [State.stopped_eq_false_of_propose proposed] at stopped

/-! ## Moves on the way -/

theorem not_proposes_of_stopped (stopped : state.stopped = true) (move : Move α) :
    ¬ Proposes grammar input state move := by
  rintro ⟨proposal, proposed, _⟩
  simp [State.stopped_eq_false_of_propose proposed] at stopped

theorem exists_refuse (course : Course grammar input state effort final)
    (refusals : 0 < effort.refusals) :
    ∃ made, Proposes grammar input ((State.step grammar input)^[made] state) .refuse := by
  induction course with
  | rest => exact absurd refusals (Nat.lt_irrefl 0)
  | @move state proposal effort final proposed course induction =>
      by_cases refuse : proposal.move = .refuse
      · exact ⟨0, proposal, proposed, refuse⟩
      · have none : (proposal.move.effort state.cursor).refusals = 0 := by
          cases move : proposal.move <;> first | rfl | exact absurd move refuse
        rw [Effort.add_refusals, none, Nat.zero_add] at refusals
        rcases induction refusals with ⟨made, refuses⟩
        refine ⟨made + 1, ?_⟩
        rwa [Function.iterate_succ_apply, State.step_of_propose proposed]

theorem refusals_pos (course : Course grammar input state effort final)
    (stopped : final.stopped = true) {made : Nat}
    (refuses : Proposes grammar input ((State.step grammar input)^[made] state) .refuse) :
    0 < effort.refusals := by
  induction course generalizing made with
  | rest state =>
      rw [State.iterate_step_of_stopped stopped] at refuses
      exact absurd refuses (not_proposes_of_stopped stopped _)
  | move proposed course induction =>
      rw [Effort.add_refusals]
      cases made with
      | zero =>
          rcases refuses with ⟨proposal, same, refuse⟩
          rw [Function.iterate_zero_apply, proposed] at same
          cases same
          rw [refuse]
          exact Nat.lt_of_lt_of_le Nat.zero_lt_one (Nat.le_add_right _ _)
      | succ made =>
          rw [Function.iterate_succ_apply, State.step_of_propose proposed] at refuses
          exact Nat.lt_of_lt_of_le (induction stopped refuses) (Nat.le_add_left _ _)

end Course

/-! ## References without a rule -/

namespace State

variable {state : State α} {name : String}

theorem step_of_undefined
    (undefined : Proposes grammar input state (.undefined name)) :
    let final := state.step grammar input
    final.stopped = true ∧ final.tree = state.tree ∧ final.cursor = state.cursor ∧
      final.depth = state.depth ∧ final.active = state.active ∧
      final.furthest = state.furthest ∧ final.steps = state.steps + 1 ∧
      final.log = state.log ++ [.undefinedReference name] := by
  rcases undefined with ⟨proposal, proposed, undefined⟩
  rw [step_of_propose proposed]
  unfold propose at proposed
  split at proposed
  · cases proposed
  · split at proposed
    · cases proposed
    · next frame below stack =>
        cases proposed
        dsimp only at undefined ⊢
        rw [undefined]
        simp [commit, announce, depth, stack]

end State

theorem Course.of_undefined {state : State α} {name : String}
    (undefined : Proposes grammar input state (.undefined name)) :
    Course grammar input state .move (state.step grammar input) := by
  rcases undefined with ⟨proposal, proposed, undefined⟩
  have course := Course.single proposed (State.step_of_propose proposed).symm
  rwa [undefined] at course

theorem Course.mem_log_of_undefined {state final : State α} {effort : Effort} {name : String}
    (course : Course grammar input state effort final) (stopped : final.stopped = true)
    {made : Nat}
    (undefined :
      Proposes grammar input ((State.step grammar input)^[made] state) (.undefined name)) :
    .undefinedReference name ∈ final.log := by
  induction course generalizing made with
  | rest state =>
      rw [State.iterate_step_of_stopped stopped] at undefined
      exact absurd undefined (not_proposes_of_stopped stopped _)
  | move proposed course induction =>
      cases made with
      | zero =>
          have ended := State.step_of_undefined undefined
          rw [Function.iterate_zero_apply, State.step_of_propose proposed] at ended
          rw [course.eq_of_stopped ended.1, ended.2.2.2.2.2.2.2]
          simp
      | succ made =>
          rw [Function.iterate_succ_apply, State.step_of_propose proposed] at undefined
          exact induction stopped undefined

end Machine

end OrderedChoice
