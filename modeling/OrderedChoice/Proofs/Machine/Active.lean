import OrderedChoice.Proofs.Machine.Transition

/-! The rules under way. The machine keeps them beside the stack, but they are never more
or less than what the frames on the stack have entered, in the order of the frames; so a
frame that is taken away leaves exactly the rules of the frames below it. -/

namespace OrderedChoice

namespace Machine

variable {α : Type} {grammar : Grammar} {input : Input α}

/-! ## Rules of frames -/

def Frame.rule? (frame : Frame α) : Option (String × Nat) :=
  match frame.expr, frame.progress with
  | .reference name, .entered => some (name, frame.entry)
  | _, _ => none

def rulesOf (stack : List (Frame α)) : List (String × Nat) :=
  stack.filterMap Frame.rule?

theorem rulesOf_cons (frame : Frame α) (below : List (Frame α)) :
    rulesOf (frame :: below) = frame.rule?.toList ++ rulesOf below := by
  unfold rulesOf
  rw [List.filterMap_cons]
  cases frame.rule? <;> rfl

theorem rulesOf_begin (expr : Expr) (entry : Nat) (below : List (Frame α)) :
    rulesOf (.begin expr entry :: below) = rulesOf below := by
  rw [rulesOf_cons]
  cases expr <;> rfl

@[simp] theorem rule?_answered (frame : Frame α) (outcome : Outcome α) :
    (frame.answered outcome).rule? = frame.rule? := rfl

@[simp] theorem rulesOf_handDown (outcome : Outcome α) (below : List (Frame α)) :
    rulesOf (handDown outcome below) = rulesOf below := by
  cases below with
  | nil => rfl
  | cons parent rest => rw [handDown, rulesOf_cons, rulesOf_cons, rule?_answered]

/-- A frame that is gone takes its own rule away, and no other. -/
theorem releasedBy_rulesOf (frame : Frame α) (below : List (Frame α)) :
    State.releasedBy frame (frame.rule?.toList ++ rulesOf below) = rulesOf below := by
  unfold State.releasedBy
  split
  · next reference entered => simp [Frame.rule?, reference, entered]
  · next other =>
      have none : frame.rule? = Option.none := by
        unfold Frame.rule?
        split
        · next name reference entered => exact absurd entered (other name reference)
        · rfl
      rw [none]
      rfl

section Visits

variable {frame : Frame α} {active : List (String × Nat)} {cursor entry : Nat}
  {progress : Progress α} {move : Move α}

theorem visitTerminal_rule? {pattern : String} {taken : List α}
    (visit : visitTerminal input cursor entry pattern taken = (progress, move)) :
    move.rule? = none := by
  unfold visitTerminal at visit
  dsimp only at visit
  repeat' split at visit
  all_goals cases visit; rfl

theorem visitChoice_rule? {alternatives : List Expr} {tried : Nat}
    (visit : visitChoice alternatives tried = (progress, move)) : move.rule? = none := by
  unfold visitChoice at visit
  split at visit <;> cases visit <;> rfl

theorem visitSequence_rule? {items : List Expr} {children : List (Tree α)}
    (visit : visitSequence cursor entry items children = (progress, move)) :
    move.rule? = none := by
  unfold visitSequence at visit
  split at visit <;> cases visit <;> rfl

theorem visitRepetition_rule? {operand : Expr} {children : List (Tree α)} {tree : Tree α}
    (visit : visitRepetition cursor entry operand children tree = (progress, move)) :
    move.rule? = none := by
  unfold visitRepetition closeRepetition at visit
  repeat' split at visit
  all_goals cases visit; rfl

theorem rule?_eq_none_of_visit (composite : ∀ name, frame.expr ≠ .reference name)
    (visit : frame.visit grammar input active cursor = (progress, move)) :
    move.rule? = none := by
  unfold Frame.visit at visit
  split at visit
  all_goals first
    | cases visit; rfl
    | exact visitTerminal_rule? visit
    | exact visitChoice_rule? visit
    | exact visitSequence_rule? visit
    | exact visitRepetition_rule? visit
    | next reference _ => exact absurd reference (composite _)

theorem Frame.rule?_eq_none (composite : ∀ name, frame.expr ≠ .reference name) :
    frame.rule? = none := by
  unfold Frame.rule?
  split
  · next reference _ => exact absurd reference (composite _)
  · rfl

theorem visit_reference {name : String} (reference : frame.expr = .reference name)
    (visited : frame.progress ≠ .fresh)
    (visit : frame.visit grammar input active cursor = (progress, move)) :
    progress = frame.progress ∧ move.rule? = none := by
  unfold Frame.visit at visit
  split at visit
  all_goals first
    | next fresh => exact absurd fresh visited
    | next other _ => rw [reference] at other; cases other
    | next other _ _ => rw [reference] at other; cases other
    | next entered _ => cases visit; exact ⟨entered.symm, rfl⟩
    | cases visit; exact ⟨rfl, rfl⟩

/-- A visit leaves a rule in its frame only where its move enters that rule, and takes
none away. -/
theorem rule?_visited
    (visit : frame.visit grammar input active cursor = (progress, move)) :
    (frame.visited progress).rule?.toList = move.rule?.toList ++ frame.rule?.toList := by
  by_cases reference : ∃ name, frame.expr = .reference name
  case neg =>
    have composite : ∀ name, frame.expr ≠ .reference name :=
      fun name equal => reference ⟨name, equal⟩
    have visited : (frame.visited progress).rule? = none := Frame.rule?_eq_none composite
    rw [visited, Frame.rule?_eq_none composite, rule?_eq_none_of_visit composite visit]
    rfl
  case pos =>
    obtain ⟨name, reference⟩ := reference
    by_cases fresh : frame.progress = .fresh
    · simp only [Frame.visit, reference, fresh, visitReference] at visit
      repeat' split at visit
      all_goals cases visit; simp [Frame.rule?, reference, fresh, Move.rule?]
    · obtain ⟨same, none⟩ := visit_reference reference fresh visit
      rw [same, none]
      rfl

end Visits

/-! ## Runs -/

theorem rule?_of_outcome {move : Move α} {outcome : Outcome α}
    (leaves : move.outcome? = some outcome) : move.rule? = none := by
  cases move with
  | finish | produce | reject | refuse | backtrack => rfl
  | advance | enter | undefined | descend | stuck => cases leaves

theorem rule?_of_part {move : Move α} (idle : move.part? = none) : move.rule? = none := by
  cases move with
  | enter => cases idle
  | advance | finish | reject | refuse | undefined | descend | produce | backtrack | stuck => rfl

def Tracks (state : State α) : Prop := state.active = rulesOf state.stack

theorem Tracks.released {state : State α} {frame : Frame α} {below : List (Frame α)}
    {progress : Progress α} {move : Move α} {outcome : Outcome α} (tracks : Tracks state)
    (visit : Visit grammar input state frame below progress move)
    (leaves : move.outcome? = some outcome) :
    State.releasedBy (frame.visited progress) state.active = rulesOf below := by
  have same := rule?_visited visit.visit
  rw [rule?_of_outcome leaves, Option.toList_none, List.nil_append] at same
  rw [tracks, visit.stack, rulesOf_cons, ← same]
  exact releasedBy_rulesOf _ _

theorem Tracks.step {state : State α} (tracks : Tracks state) :
    Tracks (state.step grammar input) := by
  apply step_cases Tracks
  case rests => exact fun _ => tracks
  case leaves =>
    intro frame below progress move outcome visit leaves
    unfold Tracks
    rw [deliver_active, deliver_stack, rulesOf_handDown]
    exact tracks.released visit leaves
  case pushes =>
    intro frame below progress move part visit pushes
    have entered := rule?_visited visit.visit
    unfold Tracks
    rw [State.after_active, State.after_stack, tracks, visit.stack, rulesOf_begin, rulesOf_cons,
      rulesOf_cons, entered, List.append_assoc]
  case stays =>
    intro frame below progress move visit stays idle
    have same := rule?_visited visit.visit
    rw [rule?_of_part idle, Option.toList_none, List.nil_append] at same
    obtain ⟨frames, _, active, _⟩ := visit.step_stay stays idle
    unfold Tracks
    rw [active, frames, tracks, visit.stack, rulesOf_cons, rulesOf_cons, same]

theorem start_tracks (grammar : Grammar) : Tracks (.start grammar : State α) := by
  obtain none | ⟨definition, entry, start⟩ := start_cases α grammar
  · rw [none]
    rfl
  · rw [start]
    exact (rulesOf_begin definition 0 []).symm

theorem stateAt_tracks (grammar : Grammar) (input : Input α) (made : Nat) :
    Tracks (stateAt grammar input made) :=
  stateAt_induction _ (start_tracks grammar) (fun _ tracks => tracks.step) made

end Machine

end OrderedChoice
