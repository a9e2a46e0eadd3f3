import OrderedChoice.Proofs.Machine.Course

/-! Single moves of the parsing machine. What a move does to a state follows
from what the frame on top proposes; there is one statement for each kind of
move, and nothing below has to look into a move again. -/

namespace OrderedChoice

namespace Machine

open Evaluation (Effort)

variable {α : Type} {grammar : Grammar} {input : Input α}

abbrev Frame.visited (frame : Frame α) (progress : Progress α) : Frame α :=
  { frame with progress, outcome := none }

abbrev Frame.answered (frame : Frame α) (outcome : Outcome α) : Frame α :=
  { frame with outcome := some outcome }

namespace State

def after (state : State α) (effort : Effort) (cursor : Nat) (stack : List (Frame α))
    (active : List (String × Nat)) : State α :=
  { state with
    cursor, stack, active
    steps := state.steps + effort.moves
    furthest := max state.furthest effort.furthest }

section After

variable (state : State α) (effort : Effort) (cursor : Nat) (stack : List (Frame α))
  (active : List (String × Nat))

@[simp] theorem after_stack : (state.after effort cursor stack active).stack = stack := rfl

@[simp] theorem after_active : (state.after effort cursor stack active).active = active := rfl

@[simp] theorem after_stopped :
    (state.after effort cursor stack active).stopped = state.stopped := rfl

@[simp] theorem after_after (later : Effort) (nextCursor : Nat) (nextStack : List (Frame α))
    (nextActive : List (String × Nat)) :
    (state.after effort cursor stack active).after later nextCursor nextStack nextActive =
      state.after (effort + later) nextCursor nextStack nextActive := by
  simp [after, Nat.add_assoc, Effort.max_furthest_assoc]

@[simp] theorem after_none : state.after .none state.cursor state.stack state.active = state := by
  simp [after, Effort.none]

@[simp] theorem deliver_after_cons (parent : Frame α) (outcome : Outcome α) :
    (state.after effort cursor (parent :: stack) active).deliver input outcome =
      state.after effort cursor (parent.answered outcome :: stack) active := rfl

end After

end State

/-- A frame on top of a running machine, and the move that it proposes. -/
structure Visit (grammar : Grammar) (input : Input α) (state : State α) (frame : Frame α)
    (below : List (Frame α)) (progress : Progress α) (move : Move α) : Prop where
  running : state.stopped = false
  stack : state.stack = frame :: below
  visit : frame.visit grammar input state.active state.cursor = (progress, move)

namespace Visit

variable {state : State α} {frame : Frame α} {below : List (Frame α)}
  {progress : Progress α}

theorem releasedBy_visited (composite : ∀ name, frame.expr ≠ .reference name)
    (progress : Progress α) (active : List (String × Nat)) :
    State.releasedBy (frame.visited progress) active = active := by
  unfold State.releasedBy
  split
  · next name equal _ => exact absurd equal (composite name)
  · rfl

theorem releasedBy_entered {name : String} {start : Nat}
    (reference : frame.expr = .reference name) (entry : frame.entry = start)
    (active : List (String × Nat)) :
    State.releasedBy (frame.visited .entered) ((name, start) :: active) = active := by
  simp [State.releasedBy, reference, entry]

theorem propose {move : Move α}
    (visit : Visit grammar input state frame below progress move) :
    state.propose grammar input = some ⟨frame.expr, move,
      { state with
        steps := state.steps + 1
        stack := frame.visited progress :: below }.announce move⟩ := by
  simp [State.propose, visit.running, visit.stack, visit.visit]

theorem proposes {move : Move α}
    (visit : Visit grammar input state frame below progress move) :
    Proposes grammar input state move :=
  ⟨_, visit.propose, rfl⟩

theorem course {move : Move α} {final : State α}
    (visit : Visit grammar input state frame below progress move)
    (committed :
      ({ state with
          steps := state.steps + 1
          stack := frame.visited progress :: below }.announce move).commit input move = final) :
    Course grammar input state (move.effort state.cursor) final :=
  Course.single visit.propose committed

theorem advance (visit : Visit grammar input state frame below progress .advance) :
    Course grammar input state .move
      (state.after .move (state.cursor + 1) (frame.visited progress :: below) state.active) := by
  refine visit.course ?_
  simp [State.commit, State.announce, State.carryOut, State.after, visit.running, Effort.move]

theorem descend {part : Expr}
    (visit : Visit grammar input state frame below progress (.descend part)) :
    Course grammar input state .move
      (state.after .move state.cursor
        (.begin part state.cursor :: frame.visited progress :: below) state.active) := by
  refine visit.course ?_
  simp [State.commit, State.announce, State.push, State.carryOut, State.after, visit.running,
    Effort.move]

theorem enter {rule : String × Nat} {definition : Expr}
    (visit : Visit grammar input state frame below progress (.enter rule definition)) :
    Course grammar input state .move
      (state.after .move state.cursor
        (.begin definition state.cursor :: frame.visited progress :: below)
        (rule :: state.active)) := by
  refine visit.course ?_
  simp [State.commit, State.announce, State.push, State.carryOut, State.after, visit.running,
    Effort.move]

theorem finish {leaf : Tree α}
    (visit : Visit grammar input state frame below progress (.finish leaf)) :
    Course grammar input state .move
      ((state.after .move (state.cursor + 1) below
        (State.releasedBy (frame.visited progress) state.active)).deliver input
          (.found leaf)) := by
  refine visit.course ?_
  simp [State.commit, State.announce, State.carryOut, State.pop, State.after, visit.running,
    Effort.move]

theorem produce {tree : Tree α}
    (visit : Visit grammar input state frame below progress (.produce tree)) :
    Course grammar input state .move
      ((state.after .move state.cursor below
        (State.releasedBy (frame.visited progress) state.active)).deliver input
          (.found tree)) := by
  refine visit.course ?_
  simp [State.commit, State.announce, State.carryOut, State.pop, State.after, visit.running,
    Effort.move]

theorem backtrack (visit : Visit grammar input state frame below progress .backtrack) :
    Course grammar input state .move
      ((state.after .move frame.entry below
        (State.releasedBy (frame.visited progress) state.active)).deliver input .missed) := by
  refine visit.course ?_
  simp [State.commit, State.announce, State.carryOut, State.fail, State.pop, State.after,
    visit.running, Effort.move]

theorem refuse (visit : Visit grammar input state frame below progress .refuse) :
    Course grammar input state .refusal
      ((state.after .refusal frame.entry below
        (State.releasedBy (frame.visited progress) state.active)).deliver input .missed) := by
  refine visit.course ?_
  simp [State.commit, State.announce, State.carryOut, State.fail, State.pop, State.after,
    visit.running, Effort.refusal]

theorem reject (visit : Visit grammar input state frame below progress .reject) :
    Course grammar input state (.rejection state.cursor)
      ((state.after (.rejection state.cursor) frame.entry below
        (State.releasedBy (frame.visited progress) state.active)).deliver input .missed) := by
  refine visit.course ?_
  simp [State.commit, State.announce, State.carryOut, State.fail, State.pop, State.after,
    visit.running, Effort.rejection]

end Visit

end Machine

end OrderedChoice
