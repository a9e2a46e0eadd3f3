import OrderedChoice.Proofs.Machine.Calls
import OrderedChoice.Proofs.Machine.Conservation

/-! How a run ends that is left alone. Until its last move nothing is written to the log and
no tree is there. The last move takes the outermost frame away, or it comes to a reference
without a rule; each of the two leaves its own mark. -/

namespace OrderedChoice

namespace Machine

variable {α : Type} {grammar : Grammar} {input : Input α}

/-! ## While a run goes on -/

theorem step_going {state : State α} (going : (state.step grammar input).stopped = false) :
    (state.step grammar input).tree = state.tree ∧
      (state.step grammar input).log = state.log := by
  revert going
  apply step_cases fun next =>
    next.stopped = false → next.tree = state.tree ∧ next.log = state.log
  case rests => exact fun _ _ => ⟨rfl, rfl⟩
  case leaves =>
    intro frame below progress move outcome _ _ going
    cases below with
    | nil => cases outcome <;> cases going
    | cons parent rest => exact ⟨rfl, rfl⟩
  case pushes => exact fun _ _ _ _ _ _ _ _ => ⟨rfl, rfl⟩
  case stays =>
    intro frame below progress move visit stays idle going
    rw [((visit.step_stay stays idle).2.2.2.2 going).2]
    exact ⟨rfl, rfl⟩

theorem clear_of_running {made : Nat} (running : (stateAt grammar input made).stopped = false) :
    (stateAt grammar input made).tree = .absent ∧ (stateAt grammar input made).log = [] := by
  revert running
  apply stateAt_induction fun state => state.stopped = false → state.tree = .absent ∧ state.log = []
  case begins =>
    obtain none | ⟨definition, _, start⟩ := start_cases α grammar
    · rw [none]
      exact nofun
    · rw [start]
      exact fun _ => ⟨rfl, rfl⟩
  case keeps =>
    intro state clear going
    obtain ⟨tree, log⟩ := step_going going
    rw [tree, log]
    apply clear
    -- a run that is over does not go on
    cases stopped : state.stopped with
    | false => rfl
    | true => rw [State.step_of_stopped stopped, stopped] at going; cases going

/-! ## The last move -/

theorem length_logOfFound (input : Input α) (stop : Nat) :
    (logOfFound input stop).length ≤ 1 := by
  unfold logOfFound
  cases input.element? stop <;> simp

theorem length_logOfMissed (input : Input α) (furthest : Option Nat) :
    (logOfMissed input furthest).length = 1 := by
  unfold logOfMissed
  cases input.element? (furthest.getD 0) <;> rfl

section Conclude

variable {state : State α}

theorem conclude_found_log {tree : Tree α} (clear : state.log = []) :
    (state.conclude input (.found tree)).log = logOfFound input state.cursor := by
  simp only [State.conclude, logOfFound, clear]
  cases input.element? state.cursor <;> rfl

theorem conclude_missed_log (clear : state.log = []) (begun : state.cursor = 0) :
    (state.conclude input .missed).log = logOfMissed input state.furthest := by
  simp only [State.conclude, logOfMissed, clear, begun, Nat.max_zero]
  cases input.element? (state.furthest.getD 0) <;> rfl

end Conclude

theorem Visit.entry_eq_zero {made : Nat} {frame : Frame α} {progress : Progress α}
    {move : Move α}
    (visit : Visit grammar input (stateAt grammar input made) frame [] progress move) :
    frame.entry = 0 :=
  ((stateAt_steady grammar input made).poised visit.stack).under.outermost.2

structure EndsFound (input : Input α) (tree : Tree α) (final : State α) : Prop where
  stopped : final.stopped = true
  stack : final.stack = []
  tree : final.tree = tree
  inside : final.cursor ≤ input.size
  log : final.log = logOfFound input final.cursor

structure EndsMissed (input : Input α) (final : State α) : Prop where
  stopped : final.stopped = true
  stack : final.stack = []
  tree : final.tree = .absent
  cursor : final.cursor = 0
  log : final.log = logOfMissed input final.furthest

structure EndsUndefined (name : String) (offset : Nat) (final : State α) : Prop where
  stopped : final.stopped = true
  tree : final.tree = .absent
  cursor : final.cursor = offset
  log : final.log = [.undefinedReference name]

theorem Concludes.found {made : Nat} {tree : Tree α}
    (concludes : Concludes grammar input made (.found tree)) :
    EndsFound input tree (stateAt grammar input (made + 1)) := by
  obtain ⟨frame, progress, move, visit, leaves⟩ := concludes
  have clear := (clear_of_running visit.running).2
  have conforms :=
    (((stateAt_steady grammar input made).poised visit.stack).leads visit.visit).conforms leaves
  rw [visit.entry_eq_zero] at conforms
  rw [stateAt_succ, visit.step_leave leaves, visit.entry_eq_zero]
  exact ⟨rfl, rfl, rfl, conforms.stretch.eq_take.2, conclude_found_log clear⟩

theorem Concludes.missed {made : Nat} (concludes : Concludes grammar input made .missed) :
    EndsMissed input (stateAt grammar input (made + 1)) := by
  obtain ⟨frame, progress, move, visit, leaves⟩ := concludes
  obtain ⟨absent, clear⟩ := clear_of_running visit.running
  rw [stateAt_succ, visit.step_leave leaves, exit_of_missed leaves, visit.entry_eq_zero]
  exact ⟨rfl, rfl, absent, rfl, conclude_missed_log clear rfl⟩

theorem undefined_ends {made : Nat} {name : String}
    (undefined : Proposes grammar input (stateAt grammar input made) (.undefined name)) :
    EndsUndefined name (stateAt grammar input made).cursor (stateAt grammar input (made + 1)) := by
  obtain ⟨_, _, _, visit⟩ := exists_visit_of_proposes undefined
  obtain ⟨absent, clear⟩ := clear_of_running visit.running
  obtain ⟨stopped, tree, cursor, _, _, _, _, log⟩ := State.step_of_undefined undefined
  rw [absent] at tree
  rw [clear] at log
  rw [stateAt_succ]
  exact ⟨stopped, tree, cursor, log⟩

/-- A move that ends the run takes the outermost frame away, or it comes to a reference
without a rule. -/
theorem Visit.ends {state : State α} {frame : Frame α} {below : List (Frame α)}
    {progress : Progress α} {move : Move α}
    (visit : Visit grammar input state frame below progress move)
    (steady : Steady grammar input state)
    (stopped : (state.step grammar input).stopped = true) :
    (below = [] ∧ ∃ outcome, move.outcome? = some outcome) ∨ ∃ name, move = .undefined name := by
  have leads := (steady.poised visit.stack).leads visit.visit
  cases left : move.outcome? with
  | some outcome =>
      cases below with
      | nil => exact .inl ⟨rfl, outcome, rfl⟩
      | cons parent rest =>
          rw [visit.step_leave left, State.deliver_after_cons, State.after_stopped,
            visit.running] at stopped
          cases stopped
  | none =>
      cases move with
      | undefined name => exact .inr ⟨name, rfl⟩
      | stuck => exact leads.elim
      | finish | produce | reject | refuse | backtrack => cases left
      | enter | descend =>
          rw [visit.step_push rfl, State.after_stopped, visit.running] at stopped
          cases stopped
      | advance =>
          have taken : state.step grammar input = _ := visit.advance.iterate_step
          rw [taken, State.after_stopped, visit.running] at stopped
          cases stopped

theorem stopped_cases {made : Nat} (stopped : (stateAt grammar input made).stopped = true) :
    (grammar.lookup? entryName = none ∧
        stateAt grammar input made =
          { State.blank with stopped := true, log := [.missingEntry] }) ∨
      ∃ last, stateAt grammar input (last + 1) = stateAt grammar input made ∧
        ((∃ outcome, Concludes grammar input last outcome) ∨
          ∃ name, Proposes grammar input (stateAt grammar input last) (.undefined name)) := by
  induction made with
  | zero =>
      left
      cases entry : grammar.lookup? entryName with
      | none => exact ⟨rfl, start_of_missing_entry entry⟩
      | some definition =>
          have running : (State.start grammar : State α).stopped = false := by
            rw [start_eq entry]
            rfl
          exact absurd stopped (by simp [stateAt, running])
  | succ made induction =>
      cases before : (stateAt grammar input made).stopped with
      | true =>
          rw [stateAt_of_stopped before 1]
          -- the last move was made earlier
          exact induction before
      | false =>
          right
          obtain ⟨frame, below, progress, move, visit⟩ := exists_visit_of_running before
          rw [stateAt_succ] at stopped
          refine ⟨made, rfl, ?_⟩
          obtain ⟨rfl, outcome, leaves⟩ | ⟨name, rfl⟩ :=
            visit.ends (stateAt_steady grammar input made) stopped
          · exact .inl ⟨outcome, frame, progress, move, visit, leaves⟩
          · exact .inr ⟨name, visit.proposes⟩

/-- The states of a run that is left alone: those in which it goes on, and the one in which
it is over, for one of four reasons. -/
theorem stateAt_cases (holds : State α → Prop)
    (goes : ∀ made, (stateAt grammar input made).stopped = false →
      holds (stateAt grammar input made))
    (missing : grammar.lookup? entryName = none →
      holds { State.blank with stopped := true, log := [.missingEntry] })
    (found : ∀ last tree, Concludes grammar input last (.found tree) →
      holds (stateAt grammar input (last + 1)))
    (missed : ∀ last, Concludes grammar input last .missed →
      holds (stateAt grammar input (last + 1)))
    (undefined : ∀ last name,
      Proposes grammar input (stateAt grammar input last) (.undefined name) →
      holds (stateAt grammar input (last + 1)))
    (made : Nat) : holds (stateAt grammar input made) := by
  cases stopped : (stateAt grammar input made).stopped with
  | false => exact goes made stopped
  | true =>
      obtain ⟨absent, same⟩ | ⟨last, same, ⟨outcome, concludes⟩ | ⟨name, proposes⟩⟩ :=
        stopped_cases stopped
      · rw [same]
        exact missing absent
      · rw [← same]
        cases outcome with
        | found tree => exact found last tree concludes
        | missed => exact missed last concludes
      · rw [← same]
        exact undefined last name proposes

theorem Concludes.exists_conforms {made : Nat} {tree : Tree α}
    (concludes : Concludes grammar input made (.found tree)) :
    ∃ definition stop, grammar.lookup? entryName = some definition ∧
      Conforms grammar input definition 0 tree stop := by
  obtain ⟨frame, progress, move, visit, leaves⟩ := concludes
  have poised := (stateAt_steady grammar input made).poised visit.stack
  have conforms := (poised.leads visit.visit).conforms leaves
  rw [visit.entry_eq_zero] at conforms
  exact ⟨frame.expr, _, poised.under.outermost.1, conforms⟩

/-- A run leaves no tree, or one that conforms to the definition of the entry rule, also where
it leaves diagnostics. -/
theorem parse_tree_cases (grammar : Grammar) (input : Input α) :
    (parse grammar input).tree = .absent ∨
      ∃ definition stop, grammar.lookup? entryName = some definition ∧
        Conforms grammar input definition 0 (parse grammar input).tree stop := by
  rw [parse_eq_stateAt]
  apply stateAt_cases fun state => state.tree = .absent ∨
    ∃ definition stop, grammar.lookup? entryName = some definition ∧
      Conforms grammar input definition 0 state.tree stop
  case goes => exact fun made running => .inl (clear_of_running running).1
  case missing => exact fun _ => .inl rfl
  case found =>
    intro last tree concludes
    rw [concludes.found.tree]
    exact .inr concludes.exists_conforms
  case missed => exact fun last concludes => .inl concludes.missed.tree
  case undefined => exact fun last name undefined => .inl (undefined_ends undefined).tree

theorem cursor_le_size (grammar : Grammar) (input : Input α) (made : Nat) :
    (stateAt grammar input made).cursor ≤ input.size := by
  have goes : ∀ made, (stateAt grammar input made).stopped = false →
      (stateAt grammar input made).cursor ≤ input.size :=
    fun made running =>
      ((stateAt_steady grammar input made).resolve_left (stack_ne_nil running)).stretch.eq_take.2
  apply stateAt_cases fun state => state.cursor ≤ input.size
  case goes => exact goes
  case missing => exact fun _ => Nat.zero_le _
  case found => exact fun last tree concludes => concludes.found.inside
  case missed =>
    intro last concludes
    rw [concludes.missed.cursor]
    exact Nat.zero_le _
  case undefined =>
    intro last name undefined
    obtain ⟨_, _, _, visit⟩ := exists_visit_of_proposes undefined
    rw [(undefined_ends undefined).cursor]
    exact goes last visit.running

end Machine

end OrderedChoice
