import OrderedChoice.Machine.Session
import OrderedChoice.Proofs.Machine.Found

/-! Machines that are driven from outside: asked for single moves, for whole runs, to stop or
to begin anew, with moves that are halted by whoever watches them. However a machine is
driven, its state is one that a run comes to when it is left alone, or one in which such a
run was halted between two moves or in the middle of one. -/

namespace OrderedChoice

namespace Machine

variable {α : Type} {grammar : Grammar} {input : Input α}

/-! ## Calls -/

/-- What can be asked of a machine. A watcher may halt a move that has been reported and is
not carried out yet. -/
inductive Call where
  | step (halted : Bool)
  | stop
  | restart
  /-- All moves up to the end of the run. The watcher may halt the one that follows a number
  of others. -/
  | exec (haltedAfter : Option Nat)
  | result
deriving DecidableEq, Repr

def Call.perform (grammar : Grammar) (input : Input α) (state : State α) : Call → State α
  | step false => state.step grammar input
  | step true => state.stepHalted grammar input
  | stop => state.stop
  | restart => .start grammar
  | exec none => state.exec grammar input
  | exec (some count) => (state.runFor grammar input count).stepHalted grammar input
  | result => state

def afterCalls (grammar : Grammar) (input : Input α) (calls : List Call) : State α :=
  calls.foldl (Call.perform grammar input) (.start grammar)

/-! ## Halts -/

section Stop

variable (state : State α)

@[simp] theorem stop_stopped : state.stop.stopped = true := by
  unfold State.stop
  split
  · assumption
  · split <;> rfl

@[simp] theorem stop_cursor : state.stop.cursor = state.cursor := by
  unfold State.stop
  split
  · rfl
  · split <;> rfl

@[simp] theorem stop_stack : state.stop.stack = state.stack := by
  unfold State.stop
  split
  · rfl
  · split <;> rfl

@[simp] theorem stop_active : state.stop.active = state.active := by
  unfold State.stop
  split
  · rfl
  · split <;> rfl

@[simp] theorem stop_tree : state.stop.tree = state.tree := by
  unfold State.stop
  split
  · rfl
  · split <;> rfl

variable {state}

theorem stop_of_stopped (stopped : state.stopped = true) : state.stop = state := by
  unfold State.stop
  rw [if_pos stopped]

theorem stop_log (running : state.stopped = false) (busy : state.stack ≠ []) :
    state.stop.log = state.log ++ [.halted state.cursor] := by
  have some : state.stack.isEmpty = false := by simpa using busy
  simp [State.stop, running, some]

end Stop

section Announce

variable (state : State α) (move : Move α)

@[simp] theorem announce_stack : (state.announce move).stack =
    (move.part?.map fun part => Frame.begin part state.cursor).toList ++ state.stack := by
  cases move <;> rfl

@[simp] theorem announce_active :
    (state.announce move).active = move.rule?.toList ++ state.active := by
  cases move <;> rfl

@[simp] theorem announce_cursor : (state.announce move).cursor = state.cursor := by
  cases move <;> rfl

@[simp] theorem announce_tree : (state.announce move).tree = state.tree := by
  cases move <;> rfl

theorem announce_going (defined : ∀ name, move ≠ .undefined name) (able : move ≠ .stuck) :
    (state.announce move).stopped = state.stopped ∧
      (state.announce move).log = state.log := by
  cases move with
  | undefined name => exact absurd rfl (defined name)
  | stuck => exact absurd rfl able
  | advance | finish | reject | refuse | enter | descend | produce | backtrack =>
      exact ⟨rfl, rfl⟩

end Announce

section StepHalted

variable {state : State α} {frame : Frame α} {below : List (Frame α)}
  {progress : Progress α} {move : Move α}

theorem Visit.stepHalted (visit : Visit grammar input state frame below progress move) :
    state.stepHalted grammar input =
      ({ state with
          steps := state.steps + 1
          stack := frame.visited progress :: below }.announce move).stop := by
  unfold State.stepHalted
  rw [visit.propose]
  exact if_pos (stop_stopped _)

theorem stepHalted_of_stopped (stopped : state.stopped = true) :
    state.stepHalted grammar input = state := by
  simp [State.stepHalted, State.propose, stopped]

/-- A reference without a rule ends the run as soon as it is reported, so that a stop comes
too late. -/
theorem Visit.stepHalted_undefined {name : String}
    (visit : Visit grammar input state frame below progress (.undefined name)) :
    state.stepHalted grammar input = state.step grammar input := by
  have stepped : state.step grammar input = _ := State.step_of_propose visit.propose
  rw [visit.stepHalted, stepped]
  rfl

end StepHalted

/-! ## Runs that are left alone -/

theorem stack_ne_nil {made : Nat} (running : (stateAt grammar input made).stopped = false) :
    (stateAt grammar input made).stack ≠ [] := by
  revert running
  apply stateAt_induction fun state => state.stopped = false → state.stack ≠ []
  case begins =>
    obtain none | ⟨definition, _, start⟩ := start_cases α grammar
    · rw [none]
      exact nofun
    · rw [start]
      exact fun _ => List.cons_ne_nil _ _
  case keeps =>
    intro state busy
    apply step_cases fun next => next.stopped = false → next.stack ≠ []
    case rests => exact fun _ => busy
    case leaves =>
      intro frame below progress move outcome _ _
      cases below with
      | nil => cases outcome <;> exact nofun
      | cons parent rest =>
          rw [State.deliver_after_cons]
          exact fun _ => List.cons_ne_nil _ _
    case pushes => exact fun _ _ _ _ _ _ _ _ => List.cons_ne_nil _ _
    case stays =>
      intro frame below progress move visit stays idle _
      rw [(visit.step_stay stays idle).1]
      exact List.cons_ne_nil _ _

theorem exists_visit_of_running {made : Nat}
    (running : (stateAt grammar input made).stopped = false) :
    ∃ frame below progress move,
      Visit grammar input (stateAt grammar input made) frame below progress move := by
  obtain ⟨frame, below, stack⟩ := List.exists_cons_of_ne_nil (stack_ne_nil running)
  obtain ⟨progress, move, visit⟩ := exists_visit grammar input running stack
  exact ⟨frame, below, progress, move, visit⟩

theorem iterate_stateAt (made more : Nat) :
    (State.step grammar input)^[more] (stateAt grammar input made) =
      stateAt grammar input (made + more) := by
  rw [stateAt, stateAt, ← Function.iterate_add_apply, Nat.add_comm]

/-! ## Reached states -/

/-- The states that a machine can be in: those of a run that is left alone, and those in
which such a run has been halted, between two moves or in the middle of one. -/
inductive Reached (grammar : Grammar) (input : Input α) : State α → Prop
  | undisturbed (made) : Reached grammar input (stateAt grammar input made)
  | stopped {made} :
      (stateAt grammar input made).stopped = false →
      Reached grammar input (stateAt grammar input made).stop
  | halted {made} :
      (stateAt grammar input made).stopped = false →
      Reached grammar input ((stateAt grammar input made).stepHalted grammar input)

namespace Reached

variable {state : State α}

theorem exists_stateAt (reached : Reached grammar input state)
    (running : state.stopped = false) : ∃ made, state = stateAt grammar input made := by
  cases reached with
  | undisturbed made => exact ⟨made, rfl⟩
  | stopped => simp at running
  | halted before =>
      obtain ⟨_, _, _, _, visit⟩ := exists_visit_of_running before
      simp [visit.stepHalted] at running

end Reached

theorem perform_of_stopped {state : State α} (stopped : state.stopped = true) {call : Call}
    (keeps : call ≠ .restart) : call.perform grammar input state = state := by
  cases call with
  | step halted =>
      cases halted with
      | false => exact State.step_of_stopped stopped
      | true => exact stepHalted_of_stopped stopped
  | stop => exact stop_of_stopped stopped
  | restart => exact absurd rfl keeps
  | exec haltedAfter =>
      cases haltedAfter with
      | none => exact if_pos stopped
      | some count =>
          rw [Call.perform, State.runFor_eq_iterate, State.iterate_step_of_stopped stopped,
            stepHalted_of_stopped stopped]
  | result => rfl

theorem Reached.stepHalted (made : Nat) :
    Reached grammar input ((stateAt grammar input made).stepHalted grammar input) := by
  cases stopped : (stateAt grammar input made).stopped with
  | true =>
      rw [stepHalted_of_stopped stopped]
      exact .undisturbed made
  | false => exact .halted stopped

theorem Reached.perform {state : State α} (reached : Reached grammar input state)
    (call : Call) : Reached grammar input (call.perform grammar input state) := by
  by_cases restarts : call = .restart
  · rw [restarts]
    exact .undisturbed 0
  · cases stopped : state.stopped with
    | true => rwa [perform_of_stopped stopped restarts]
    | false =>
        obtain ⟨made, rfl⟩ := reached.exists_stateAt stopped
        cases call with
        | step halted =>
            cases halted with
            | false =>
                rw [Call.perform, ← stateAt_succ]
                exact .undisturbed _
            | true => exact .halted stopped
        | stop => exact .stopped stopped
        | restart => exact absurd rfl restarts
        | exec haltedAfter =>
            cases haltedAfter with
            | none =>
                rw [Call.perform, exec_eq_iterate, iterate_stateAt]
                exact .undisturbed _
            | some count =>
                rw [Call.perform, State.runFor_eq_iterate, iterate_stateAt]
                exact .stepHalted _
        | result => exact reached

theorem reached_afterCalls (grammar : Grammar) (input : Input α) (calls : List Call) :
    Reached grammar input (afterCalls grammar input calls) := by
  have begins : Reached grammar input (.start grammar) := .undisturbed 0
  unfold afterCalls
  generalize State.start grammar = state at begins ⊢
  induction calls generalizing state with
  | nil => exact begins
  | cons call calls induction => exact induction _ (begins.perform call)

/-! ## Watched runs -/

namespace Session

def InReach (session : Session α) : Prop :=
  Reached session.grammar session.input session.state

variable {session : Session α}

theorem start_inReach (grammar : Grammar) (input : Input α) (stopAt : Option Nat) :
    (Session.start grammar input stopAt).InReach :=
  .undisturbed 0

theorem restart_inReach (session : Session α) : session.restart.InReach :=
  .undisturbed 0

theorem InReach.stop (within : session.InReach) : session.stop.InReach :=
  Reached.perform within .stop

theorem step_state (session : Session α) :
    session.step.1.state = Call.perform session.grammar session.input session.state
      (.step (session.stopAt = some (session.reported + 1))) := by
  unfold Session.step
  by_cases halts : session.stopAt = some (session.reported + 1)
  · cases proposed : session.state.propose session.grammar session.input <;>
      simp [halts, Call.perform, State.stepHalted, proposed]
  · cases proposed : session.state.propose session.grammar session.input <;>
      simp [halts, Call.perform, State.step, proposed]

theorem step_context (session : Session α) :
    session.step.1.grammar = session.grammar ∧ session.step.1.input = session.input := by
  unfold Session.step
  split <;> exact ⟨rfl, rfl⟩

theorem InReach.step (within : session.InReach) : session.step.1.InReach := by
  unfold InReach
  rw [step_state, (step_context session).1, (step_context session).2]
  exact Reached.perform within _

theorem InReach.stepMany (count : Nat) (within : session.InReach)
    (lines : List (TraceLine α)) : (session.stepMany count lines).1.InReach := by
  induction count generalizing session lines with
  | zero => exact within
  | succ count induction => exact induction within.step _

theorem InReach.runFor (limit : Nat) (within : session.InReach)
    (lines : List (TraceLine α)) : (session.runFor limit lines).1.InReach := by
  induction limit generalizing session lines with
  | zero => exact within
  | succ limit induction =>
      unfold Session.runFor
      split
      · exact within
      · exact induction within.step _

theorem InReach.exec (within : session.InReach) : session.exec.1.InReach := by
  unfold Session.exec
  split
  · exact within
  · exact within.runFor _ _

theorem step_stopAt (session : Session α) : session.step.1.stopAt = session.stopAt := by
  unfold Session.step
  split <;> rfl

theorem step_state_of_unhalted (unhalted : session.stopAt = none) :
    session.step.1.state = session.state.step session.grammar session.input := by
  rw [step_state, unhalted]
  rfl

theorem runFor_state_of_unhalted (limit : Nat) (unhalted : session.stopAt = none)
    (lines : List (TraceLine α)) :
    (session.runFor limit lines).1.state =
      session.state.runFor session.grammar session.input limit := by
  induction limit generalizing session lines with
  | zero => rfl
  | succ limit induction =>
      unfold Session.runFor State.runFor
      split
      · rfl
      · have next := induction ((step_stopAt session).trans unhalted)
          (session.step.2.toList ++ lines)
        rw [step_state_of_unhalted unhalted, (step_context session).1,
          (step_context session).2] at next
        exact next

/-- A run that is watched to its end, and not halted, ends like one that nobody watches. -/
theorem exec_state_of_unhalted (unhalted : session.stopAt = none) :
    session.exec.1.state = session.state.exec session.grammar session.input := by
  unfold Session.exec State.exec
  split
  · rfl
  · exact runFor_state_of_unhalted _ unhalted []

end Session

end Machine

end OrderedChoice
