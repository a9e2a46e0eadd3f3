import OrderedChoice.Proofs.Derivation.Run
import OrderedChoice.Proofs.Machine.Ending

/-! The life of a run, however its machine is driven. While it goes on its log is empty and
its tree is absent. Once it is over nothing changes any more, and the log holds one line
that says what was wrong, or none if the whole input was found. A stop from outside ends a
run where it stands, between two moves or in the middle of one. -/

namespace OrderedChoice

namespace Machine

variable {α : Type} [Element α] {grammar : Grammar} {input : Input α}

/-! ## Halts -/

/-- A stop has taken effect at an offset: the run is over with the cursor there, without a
tree, and with nothing but the halt in its log. -/
structure HaltedAt (input : Input α) (offset : Nat) (state : State α) : Prop where
  stopped : state.stopped = true
  tree : state.tree = .absent
  cursor : state.cursor = offset
  log : state.log = [.halted offset]
  lines : state.logLines input =
    ["[error] parse halted before completion @ " ++ input.position offset]

theorem stop_haltedAt {state : State α} (running : state.stopped = false)
    (busy : state.stack ≠ []) (clear : state.tree = .absent ∧ state.log = []) :
    HaltedAt input state.cursor state.stop := by
  have log : state.stop.log = [.halted state.cursor] := by
    rw [stop_log running busy, clear.2]
    rfl
  refine ⟨stop_stopped state, ?_, stop_cursor state, log, ?_⟩
  · rw [stop_tree, clear.1]
  · rw [State.logLines, log]
    rfl

section StepHalted

variable {state : State α} {frame : Frame α} {below : List (Frame α)}
  {progress : Progress α} {move : Move α}

theorem Visit.stepHalted_haltedAt
    (visit : Visit grammar input state frame below progress move)
    (clear : state.tree = .absent ∧ state.log = []) (defined : ∀ name, move ≠ .undefined name)
    (able : move ≠ .stuck) :
    HaltedAt input state.cursor (state.stepHalted grammar input) := by
  rw [visit.stepHalted]
  let visited : State α :=
    { state with
      steps := state.steps + 1
      stack := frame.visited progress :: below }
  obtain ⟨stopped, log⟩ := announce_going visited move defined able
  have busy : (visited.announce move).stack ≠ [] := by simp [visited]
  have halted : HaltedAt input (visited.announce move).cursor (visited.announce move).stop := by
    apply stop_haltedAt (stopped.trans visit.running) busy
    rw [announce_tree, log]
    exact clear
  rwa [announce_cursor] at halted

end StepHalted

/-! ## What can be relied on -/

/-- What can be relied on in every state of a machine. -/
structure Orderly (grammar : Grammar) (input : Input α) (state : State α) : Prop where
  single : state.log.length ≤ 1
  clear : state.stopped = false → state.tree = .absent ∧ state.log = []
  lasting : state.stopped = true → ∀ call, call ≠ Call.restart →
    call.perform grammar input state = state
  succeeded : state.stopped = true → state.log = [] →
    state.stack = [] ∧ state.cursor = input.size ∧
      ∃ made tree, Concludes grammar input made (.found tree) ∧
        state = stateAt grammar input (made + 1)
  /-- A move that takes the outermost frame away as found, with nothing of the input left,
  writes nothing to the log. -/
  complete : ∀ frame progress move tree, Visit grammar input state frame [] progress move →
    move.outcome? = some (.found tree) → (state.step grammar input).cursor = input.size →
    (state.step grammar input).log = []
  tree : state.tree ≠ .absent → state.stack = []
  stop : state.stopped = false → state.stack ≠ [] ∧ HaltedAt input state.cursor state.stop
  stepHalted : ∀ move, Proposes grammar input state move → (∀ name, move ≠ .undefined name) →
    HaltedAt input state.cursor (state.stepHalted grammar input)
  /-- Where a move has ended the run by itself, a stop comes too late. -/
  undefined : ∀ name, Proposes grammar input state (.undefined name) →
    state.stepHalted grammar input = state.step grammar input

namespace Orderly

variable {state : State α}

theorem of_stopped (stopped : state.stopped = true) (single : state.log.length ≤ 1)
    (succeeded : state.log = [] → state.stack = [] ∧ state.cursor = input.size ∧
      ∃ made tree, Concludes grammar input made (.found tree) ∧
        state = stateAt grammar input (made + 1))
    (tree : state.tree ≠ .absent → state.stack = []) : Orderly grammar input state where
  single := single
  clear := fun running => by rw [stopped] at running; cases running
  lasting := fun _ call keeps => perform_of_stopped stopped keeps
  succeeded := fun _ => succeeded
  complete := fun _ _ _ _ visit =>
    absurd visit.proposes (Course.not_proposes_of_stopped stopped _)
  tree := tree
  stop := fun running => by rw [stopped] at running; cases running
  stepHalted := fun move proposes =>
    absurd proposes (Course.not_proposes_of_stopped stopped move)
  undefined := fun name proposes =>
    absurd proposes (Course.not_proposes_of_stopped stopped (.undefined name))

theorem of_failed (stopped : state.stopped = true) (line : state.log.length = 1)
    (absent : state.tree = .absent) : Orderly grammar input state := by
  apply of_stopped stopped (Nat.le_of_eq line)
  · intro empty
    rw [empty] at line
    cases line
  · exact fun present => absurd absent present

theorem of_haltedAt {offset : Nat} (halted : HaltedAt input offset state) :
    Orderly grammar input state :=
  of_failed halted.stopped (by rw [halted.log]; rfl) halted.tree

theorem of_running {made : Nat} (running : (stateAt grammar input made).stopped = false) :
    Orderly grammar input (stateAt grammar input made) where
  single := by rw [(clear_of_running running).2]; exact Nat.zero_le _
  clear := fun _ => clear_of_running running
  lasting := fun stopped => by rw [running] at stopped; cases stopped
  succeeded := fun stopped => by rw [running] at stopped; cases stopped
  complete := by
    intro frame progress move tree visit leaves whole
    have concludes : Concludes grammar input made (.found tree) :=
      ⟨frame, progress, move, visit, leaves⟩
    rw [← stateAt_succ] at whole ⊢
    rw [concludes.found.log, logOfFound_eq_nil]
    exact Nat.le_of_eq whole.symm
  tree := fun present => absurd (clear_of_running running).1 present
  stop := fun _ =>
    ⟨stack_ne_nil running, stop_haltedAt running (stack_ne_nil running) (clear_of_running running)⟩
  stepHalted := by
    intro move proposes defined
    obtain ⟨frame, below, progress, visit⟩ := exists_visit_of_proposes proposes
    apply visit.stepHalted_haltedAt (clear_of_running running) defined
    rintro rfl
    exact ((stateAt_steady grammar input made).poised visit.stack).leads visit.visit
  undefined := by
    intro name proposes
    obtain ⟨frame, below, progress, visit⟩ := exists_visit_of_proposes proposes
    exact visit.stepHalted_undefined

theorem of_found {last : Nat} {tree : Tree α}
    (concludes : Concludes grammar input last (.found tree)) :
    Orderly grammar input (stateAt grammar input (last + 1)) := by
  have ends := concludes.found
  apply of_stopped ends.stopped
  · rw [ends.log]
    exact length_logOfFound input _
  · intro clear
    rw [ends.log, logOfFound_eq_nil] at clear
    exact ⟨ends.stack, Nat.le_antisymm ends.inside clear, last, tree, concludes, rfl⟩
  · exact fun _ => ends.stack

theorem of_stateAt (made : Nat) : Orderly grammar input (stateAt grammar input made) := by
  apply stateAt_cases (Orderly grammar input)
  case goes => exact fun made running => of_running running
  case missing => exact fun _ => of_failed rfl rfl rfl
  case found => exact fun last tree concludes => of_found concludes
  case missed =>
    intro last concludes
    have ends := concludes.missed
    apply of_failed ends.stopped _ ends.tree
    rw [ends.log]
    exact length_logOfMissed input _
  case undefined =>
    intro last name undefined
    have ends := undefined_ends undefined
    apply of_failed ends.stopped _ ends.tree
    rw [ends.log]
    rfl

end Orderly

theorem stepHalted_stateAt_cases {made : Nat}
    (running : (stateAt grammar input made).stopped = false) :
    (stateAt grammar input made).stepHalted grammar input = stateAt grammar input (made + 1) ∨
      HaltedAt input (stateAt grammar input made).cursor
        ((stateAt grammar input made).stepHalted grammar input) := by
  obtain ⟨_, _, _, move, visit⟩ := exists_visit_of_running running
  -- a reference without a rule has ended the run before the stop comes
  by_cases undefined : ∃ name, move = .undefined name
  · obtain ⟨name, rfl⟩ := undefined
    left
    rw [visit.stepHalted_undefined, ← stateAt_succ]
  · right
    apply (Orderly.of_running running).stepHalted move visit.proposes
    exact fun name equal => undefined ⟨name, equal⟩

theorem Reached.halted_or_undisturbed {state : State α}
    (reached : Reached grammar input state) :
    (∃ offset, HaltedAt input offset state) ∨
      ∃ made, state = stateAt grammar input made := by
  cases reached with
  | undisturbed made => exact .inr ⟨made, rfl⟩
  | stopped running => exact .inl ⟨_, ((Orderly.of_running running).stop running).2⟩
  | @halted made running =>
      rcases stepHalted_stateAt_cases running with late | halted
      · exact .inr ⟨made + 1, late⟩
      · exact .inl ⟨_, halted⟩

theorem Orderly.of_reached {state : State α} (reached : Reached grammar input state) :
    Orderly grammar input state := by
  rcases reached.halted_or_undisturbed with ⟨offset, halted⟩ | ⟨made, rfl⟩
  · exact of_haltedAt halted
  · exact of_stateAt made

theorem Session.InReach.orderly {session : Session α} (within : session.InReach) :
    Orderly session.grammar session.input session.state :=
  .of_reached within

/-! ## Calls -/

/-- Whatever is asked of a machine, and whoever stops it at whatever moment, its log, its tree
and its cursor are in order: one line in the log at most, no tree and no line before the end,
nothing that changes after the end, and a halt that leaves the cursor where it came. -/
theorem calls_leave_orderly (grammar : Grammar) (input : Input α) (calls : List Call) :
    Orderly grammar input (afterCalls grammar input calls) :=
  .of_reached (reached_afterCalls grammar input calls)

end Machine

end OrderedChoice
