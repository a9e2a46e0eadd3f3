import OrderedChoice.Proofs.Machine.Visit

/-! What one step makes of a running machine. A move takes an element, puts a part on top
of the stack, or takes the frame on top away and hands its outcome down; every other move
ends the run. The frames below the one that moves are never looked at, except that one of
them may be told an outcome. -/

namespace OrderedChoice

namespace Machine

open Evaluation (Effort)

variable {α : Type} {grammar : Grammar} {input : Input α}

/-! ## Kinds of moves -/

namespace Move

def outcome? : Move α → Option (Outcome α)
  | finish leaf => some (.found leaf)
  | produce tree => some (.found tree)
  | reject | refuse | backtrack => some .missed
  | advance | enter .. | undefined _ | descend _ | stuck => none

def part? : Move α → Option Expr
  | enter _ definition => some definition
  | descend part => some part
  | _ => none

def rule? : Move α → Option (String × Nat)
  | enter rule _ => some rule
  | _ => none

def exit (cursor entry : Nat) : Move α → Nat
  | advance | finish _ => cursor + 1
  | reject | refuse | backtrack => entry
  | enter .. | undefined _ | descend _ | produce _ | stuck => cursor

end Move

/-- The frames below one that is gone, with its outcome handed to the first of them. -/
def handDown (outcome : Outcome α) : List (Frame α) → List (Frame α)
  | [] => []
  | parent :: rest => parent.answered outcome :: rest

@[simp] theorem length_handDown (outcome : Outcome α) (below : List (Frame α)) :
    (handDown outcome below).length = below.length := by
  cases below <;> rfl

section Deliver

variable (state : State α) (outcome : Outcome α)

@[simp] theorem deliver_stack :
    (state.deliver input outcome).stack = handDown outcome state.stack := by
  unfold State.deliver
  split
  · next empty =>
      rw [empty]
      cases outcome <;> exact empty
  · next equal =>
      rw [equal]
      rfl

@[simp] theorem deliver_cursor : (state.deliver input outcome).cursor = state.cursor := by
  cases outcome <;> unfold State.deliver <;> split <;> rfl

@[simp] theorem deliver_active : (state.deliver input outcome).active = state.active := by
  cases outcome <;> unfold State.deliver <;> split <;> rfl

@[simp] theorem deliver_furthest :
    (state.deliver input outcome).furthest = state.furthest := by
  cases outcome <;> unfold State.deliver <;> split <;> rfl

end Deliver

/-! ## Steps by kind -/

section Steps

variable {state : State α} {frame : Frame α} {below : List (Frame α)}
  {progress : Progress α} {move : Move α}

theorem exists_visit (grammar : Grammar) (input : Input α) (running : state.stopped = false)
    (stack : state.stack = frame :: below) :
    ∃ progress move, Visit grammar input state frame below progress move :=
  ⟨_, _, running, stack, rfl⟩

theorem exists_visit_of_proposes (proposes : Proposes grammar input state move) :
    ∃ frame below progress, Visit grammar input state frame below progress move := by
  obtain ⟨proposal, proposed, same⟩ := proposes
  have running := State.stopped_eq_false_of_propose proposed
  cases stack : state.stack with
  | nil => simp [State.propose, running, stack] at proposed
  | cons frame below =>
      obtain ⟨progress, other, visit⟩ := exists_visit grammar input running stack
      rw [visit.propose] at proposed
      cases proposed
      cases same
      exact ⟨frame, below, progress, visit⟩

theorem Visit.proposes_iff {other : Move α}
    (visit : Visit grammar input state frame below progress move) :
    Proposes grammar input state other ↔ move = other := by
  unfold Proposes
  rw [visit.propose]
  exact ⟨fun ⟨_, same, equal⟩ => by cases same; exact equal, fun equal => ⟨_, rfl, equal⟩⟩

theorem Visit.step_leave {outcome : Outcome α}
    (visit : Visit grammar input state frame below progress move)
    (leaves : move.outcome? = some outcome) :
    state.step grammar input =
      (state.after (move.effort state.cursor) (move.exit state.cursor frame.entry) below
        (State.releasedBy (frame.visited progress) state.active)).deliver input outcome := by
  cases move with
  | finish leaf => cases leaves; exact visit.finish.iterate_step
  | produce tree => cases leaves; exact visit.produce.iterate_step
  | reject => cases leaves; exact visit.reject.iterate_step
  | refuse => cases leaves; exact visit.refuse.iterate_step
  | backtrack => cases leaves; exact visit.backtrack.iterate_step
  | advance | enter | undefined | descend | stuck => cases leaves

theorem Visit.step_push {part : Expr}
    (visit : Visit grammar input state frame below progress move)
    (pushes : move.part? = some part) :
    state.step grammar input =
      state.after .move state.cursor
        (.begin part state.cursor :: frame.visited progress :: below)
        (move.rule?.toList ++ state.active) := by
  cases move with
  | enter rule definition => cases pushes; exact visit.enter.iterate_step
  | descend other => cases pushes; exact visit.descend.iterate_step
  | advance | finish | reject | refuse | undefined | produce | backtrack | stuck =>
      cases pushes

theorem Visit.step_stay (visit : Visit grammar input state frame below progress move)
    (stays : move.outcome? = none) (idle : move.part? = none) :
    let next := state.step grammar input
    next.stack = frame.visited progress :: below ∧
      next.cursor = move.exit state.cursor frame.entry ∧
      next.active = state.active ∧ next.furthest = state.furthest ∧
      (next.stopped = false →
        move = .advance ∧
          next = state.after .move (state.cursor + 1) (frame.visited progress :: below)
            state.active) := by
  have proposed := visit.propose
  intro next
  have stepped : next = _ := State.step_of_propose proposed
  cases move with
  | advance =>
      have taken : next = _ := visit.advance.iterate_step
      rw [taken]
      refine ⟨rfl, rfl, rfl, ?_, fun _ => ⟨rfl, rfl⟩⟩
      exact Option.max_none_right
  | undefined name =>
      rw [stepped]
      refine ⟨rfl, rfl, rfl, rfl, ?_⟩
      intro running
      cases running
  | stuck =>
      rw [stepped]
      refine ⟨rfl, rfl, rfl, rfl, ?_⟩
      intro running
      cases running
  | finish | reject | refuse | produce | backtrack => cases stays
  | enter | descend => cases idle

theorem step_of_stack_eq_nil (empty : state.stack = []) :
    state.step grammar input = state := by
  unfold State.step State.propose
  split
  · next none => rfl
  · next proposed =>
      rw [empty] at proposed
      split at proposed <;> cases proposed

/-- The ways a step can go: the run is over or has no frame, the frame that moves is gone,
a part is put on top of it, or it stays on top. -/
theorem step_cases (holds : State α → Prop)
    (rests : state.stopped = true ∨ state.stack = [] → holds state)
    (leaves : ∀ frame below progress move outcome,
      Visit grammar input state frame below progress move → move.outcome? = some outcome →
      holds ((state.after (move.effort state.cursor) (move.exit state.cursor frame.entry) below
        (State.releasedBy (frame.visited progress) state.active)).deliver input outcome))
    (pushes : ∀ frame below progress move part,
      Visit grammar input state frame below progress move → move.part? = some part →
      holds (state.after .move state.cursor
        (.begin part state.cursor :: frame.visited progress :: below)
        (move.rule?.toList ++ state.active)))
    (stays : ∀ frame below progress move,
      Visit grammar input state frame below progress move → move.outcome? = none →
      move.part? = none → holds (state.step grammar input)) :
    holds (state.step grammar input) := by
  cases stopped : state.stopped with
  | true =>
      rw [State.step_of_stopped stopped]
      exact rests (.inl stopped)
  | false =>
      cases stack : state.stack with
      | nil =>
          rw [step_of_stack_eq_nil stack]
          exact rests (.inr stack)
      | cons frame below =>
          obtain ⟨progress, move, visit⟩ := exists_visit grammar input stopped stack
          cases left : move.outcome? with
          | some outcome =>
              rw [visit.step_leave left]
              exact leaves _ _ _ _ _ visit left
          | none =>
              cases pushed : move.part? with
              | some part =>
                  rw [visit.step_push pushed]
                  exact pushes _ _ _ _ _ visit pushed
              | none => exact stays _ _ _ _ visit left pushed

end Steps

/-! ## Runs -/

def stateAt (grammar : Grammar) (input : Input α) (made : Nat) : State α :=
  (State.step grammar input)^[made] (.start grammar)

theorem stateAt_succ (grammar : Grammar) (input : Input α) (made : Nat) :
    stateAt grammar input (made + 1) = (stateAt grammar input made).step grammar input :=
  Function.iterate_succ_apply' _ _ _

theorem stateAt_induction (holds : State α → Prop) (begins : holds (.start grammar))
    (keeps : ∀ state, holds state → holds (state.step grammar input)) (made : Nat) :
    holds (stateAt grammar input made) := by
  induction made with
  | zero => exact begins
  | succ made induction =>
      rw [stateAt_succ]
      exact keeps _ induction

theorem stateAt_of_stopped {made : Nat} (stopped : (stateAt grammar input made).stopped = true)
    (more : Nat) : stateAt grammar input (made + more) = stateAt grammar input made := by
  unfold stateAt at stopped ⊢
  rw [Nat.add_comm, Function.iterate_add_apply, State.iterate_step_of_stopped stopped]

theorem lt_of_stopped {earlier later : Nat}
    (running : (stateAt grammar input earlier).stopped = false)
    (stopped : (stateAt grammar input later).stopped = true) : earlier < later := by
  apply Nat.lt_of_not_le
  intro order
  have same := stateAt_of_stopped stopped (earlier - later)
  rw [Nat.add_sub_of_le order] at same
  rw [same, stopped] at running
  cases running

theorem start_cases (α : Type) (grammar : Grammar) :
    (State.start grammar : State α) =
        { State.blank with stopped := true, log := [.missingEntry] } ∨
      ∃ definition, grammar.lookup? entryName = some definition ∧
        (State.start grammar : State α) = State.blank.push definition := by
  unfold State.start
  split
  · exact .inl rfl
  · next definition entry => exact .inr ⟨definition, entry, rfl⟩

end Machine

end OrderedChoice
