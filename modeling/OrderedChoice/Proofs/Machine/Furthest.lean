import OrderedChoice.Proofs.Machine.Transition

/-! The furthest refusal. It is the greatest of the offsets at which terminals have been turned
down, and nothing else in a run touches it. -/

namespace OrderedChoice

namespace Machine

open Evaluation (Effort)

variable {α : Type} {grammar : Grammar} {input : Input α}

/-! ## It never comes nearer -/

theorem furthest_refl (furthest : Option Nat) : furthest ≤ furthest := by
  cases furthest with
  | none => exact Option.none_le
  | some offset => exact Nat.le_refl offset

theorem furthest_trans {first second third : Option Nat} (before : first ≤ second)
    (after : second ≤ third) : first ≤ third := by
  cases first with
  | none => exact Option.none_le
  | some offset =>
      cases second with
      | none => exact absurd before Option.not_some_le_none
      | some middle =>
          cases third with
          | none => exact absurd after Option.not_some_le_none
          | some last =>
              exact Option.some_le_some.mpr
                (Nat.le_trans (Option.some_le_some.mp before) (Option.some_le_some.mp after))

theorem furthest_le_after (state : State α) (effort : Effort) (cursor : Nat)
    (stack : List (Frame α)) (active : List (String × Nat)) :
    state.furthest ≤ (state.after effort cursor stack active).furthest :=
  Option.left_le_max Nat.le_refl Nat.le_max_left

theorem furthest_le_step (grammar : Grammar) (input : Input α) (state : State α) :
    state.furthest ≤ (state.step grammar input).furthest := by
  apply step_cases fun next => state.furthest ≤ next.furthest
  case rests => exact fun _ => furthest_refl _
  case leaves =>
    intro frame below progress move outcome _ _
    rw [deliver_furthest]
    exact furthest_le_after _ _ _ _ _
  case pushes =>
    intro frame below progress move part _ _
    exact furthest_le_after _ _ _ _ _
  case stays =>
    intro frame below progress move visit stays idle
    rw [(visit.step_stay stays idle).2.2.2.1]
    exact furthest_refl _

theorem furthest_mono (grammar : Grammar) (input : Input α) {earlier later : Nat}
    (order : earlier ≤ later) :
    (stateAt grammar input earlier).furthest ≤ (stateAt grammar input later).furthest := by
  induction order with
  | refl => exact furthest_refl _
  | @step later _ induction =>
      rw [stateAt_succ]
      exact furthest_trans induction (furthest_le_step grammar input _)

/-! ## It is where a terminal was turned down -/

theorem step_furthest (state : State α) :
    (state.step grammar input).furthest = state.furthest ∨
      Proposes grammar input state .reject ∧
        (state.step grammar input).furthest = max state.furthest (some state.cursor) := by
  apply step_cases fun next => next.furthest = state.furthest ∨
    Proposes grammar input state .reject ∧ next.furthest = max state.furthest (some state.cursor)
  case rests => exact fun _ => .inl rfl
  case leaves =>
    intro frame below progress move outcome visit leaves
    rw [deliver_furthest]
    cases move with
    | reject => exact .inr ⟨visit.proposes, rfl⟩
    | finish | produce | refuse | backtrack => exact .inl Option.max_none_right
    | advance | enter | undefined | descend | stuck => cases leaves
  case pushes => exact fun _ _ _ _ _ _ _ => .inl Option.max_none_right
  case stays =>
    intro frame below progress move visit stays idle
    exact .inl (visit.step_stay stays idle).2.2.2.1

theorem max_furthest_eq {furthest : Option Nat} {cursor offset : Nat}
    (equal : max furthest (some cursor) = some offset) :
    furthest = some offset ∨ cursor = offset := by
  cases furthest with
  | none => exact .inr (Option.some.inj equal)
  | some earlier =>
      have greater : max earlier cursor = offset := Option.some.inj equal
      rcases Nat.le_total earlier cursor with order | order
      · exact .inr ((Nat.max_eq_right order).symm.trans greater)
      · exact .inl (congrArg some ((Nat.max_eq_left order).symm.trans greater))

theorem exists_reject_of_furthest {made offset : Nat}
    (furthest : (stateAt grammar input made).furthest = some offset) :
    ∃ earlier, Proposes grammar input (stateAt grammar input earlier) .reject ∧
      (stateAt grammar input earlier).cursor = offset := by
  induction made with
  | zero =>
      obtain none | ⟨definition, _, start⟩ := start_cases α grammar
      · rw [stateAt, Function.iterate_zero_apply, none] at furthest
        cases furthest
      · rw [stateAt, Function.iterate_zero_apply, start] at furthest
        cases furthest
  | succ made induction =>
      rw [stateAt_succ] at furthest
      obtain same | ⟨rejects, later⟩ :=
        step_furthest (stateAt grammar input made)
      · exact induction (same.symm.trans furthest)
      · rw [later] at furthest
        rcases max_furthest_eq furthest with before | here
        · exact induction before
        · exact ⟨made, rejects, here⟩

/-- No terminal is turned down any further. -/
theorem cursor_le_furthest {made later : Nat}
    (rejects : Proposes grammar input (stateAt grammar input made) .reject)
    (order : made < later) :
    some (stateAt grammar input made).cursor ≤ (stateAt grammar input later).furthest := by
  obtain ⟨_, _, _, visit⟩ := exists_visit_of_proposes rejects
  apply furthest_trans _ (furthest_mono grammar input order)
  rw [stateAt_succ, visit.step_leave rfl, deliver_furthest]
  exact Option.right_le_max Nat.le_refl Nat.le_max_right

theorem terminal_of_reject {frame : Frame α} {active : List (String × Nat)} {cursor : Nat}
    {progress : Progress α}
    (visit : frame.visit grammar input active cursor = (progress, .reject)) :
    ∃ pattern, frame.expr = .terminal pattern ∧ input.tests pattern ≠ [] := by
  unfold Frame.visit visitReference visitChoice visitSequence visitRepetition closeRepetition
    at visit
  repeat' split at visit
  all_goals first
    | cases visit
    | next terminal _ =>
        refine ⟨_, terminal, fun unconditional => ?_⟩
        rw [visitTerminal, unconditional] at visit
        cases visit

end Machine

end OrderedChoice
