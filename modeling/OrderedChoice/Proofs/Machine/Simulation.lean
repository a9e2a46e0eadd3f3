import OrderedChoice.Proofs.Evaluation.Stop
import OrderedChoice.Proofs.Machine.Visit

/-! The machine does what evaluation says. A frame that has just been pushed is
settled by exactly the moves that evaluation accounts for; then the frames below
it and the rules under way are what they were, the cursor is where the expression
ends, and the outcome has been handed down. A reference without a rule leaves
the machine just before the move that finds out. -/

namespace OrderedChoice

namespace Machine

open Evaluation

variable {α : Type} {grammar : Grammar} {input : Input α}

def Dangles (grammar : Grammar) (input : Input α) (state : State α) (name : String)
    (effort : Effort) : Prop :=
  ∃ spent cursor stack active, effort = spent + .move ∧
    Course grammar input state spent (state.after spent cursor stack active) ∧
    Proposes grammar input (state.after spent cursor stack active) (.undefined name)

/-- The frame on top of a state comes to what an account says. Beneath it are
the frames `below`, and `active` are the rules under way once it is gone. -/
def Settles (grammar : Grammar) (input : Input α) (state : State α)
    (below : List (Frame α)) (active : List (String × Nat)) {start size : Nat}
    (account : Account α start size) : Prop :=
  match account.verdict with
  | .found tree stop _ _ =>
      Course grammar input state account.effort
        ((state.after account.effort stop below active).deliver input (.found tree))
  | .missed =>
      Course grammar input state account.effort
        ((state.after account.effort start below active).deliver input .missed)
  | .undefined name => Dangles grammar input state name account.effort

structure Stands (state : State α) (frame : Frame α) (below : List (Frame α))
    (active : List (String × Nat)) (start cursor : Nat) : Prop where
  running : state.stopped = false
  stack : state.stack = frame :: below
  active : state.active = active
  cursor : state.cursor = cursor
  entry : frame.entry = start

/-- A frame pushed for an expression comes to what evaluation says. -/
def Simulated (grammar : Grammar) (input : Input α) (active : List (String × Nat))
    (start : Nat) (expr : Expr) : Prop :=
  ∀ (state : State α) (below : List (Frame α)),
    Stands state (.begin expr start) below active start start →
    Settles grammar input state below active (evaluate grammar input active start expr)

theorem Stands.visit {state : State α} {frame : Frame α} {below : List (Frame α)}
    {active : List (String × Nat)} {start cursor : Nat} {progress : Progress α} {move : Move α}
    (stands : Stands state frame below active start cursor)
    (visit : frame.visit grammar input active cursor = (progress, move)) :
    Visit grammar input state frame below progress move :=
  ⟨stands.running, stands.stack, by rw [stands.active, stands.cursor, visit]⟩

theorem Stands.after {state : State α} {frame : Frame α} {start : Nat}
    (running : state.stopped = false) (entry : frame.entry = start) (effort : Effort)
    (cursor : Nat) (below : List (Frame α)) (active : List (String × Nat)) :
    Stands (state.after effort cursor (frame :: below) active) frame below active start cursor :=
  ⟨running, rfl, rfl, rfl, entry⟩

/-! ## Putting courses together -/

section Composition

variable {state : State α} {spent : Effort} {cursor start size : Nat}
  {stack below : List (Frame α)} {active rules : List (String × Nat)}

theorem Course.leave {effort : Effort} {last : Nat} {outcome : Outcome α}
    (course : Course grammar input state spent (state.after spent cursor stack rules))
    (left : Course grammar input (state.after spent cursor stack rules) effort
      (((state.after spent cursor stack rules).after effort last below active).deliver input
        outcome)) :
    Course grammar input state (spent + effort)
      ((state.after (spent + effort) last below active).deliver input outcome) := by
  have whole := course.trans left
  rwa [State.after_after] at whole

theorem Dangles.of_course {name : String} {effort : Effort}
    (course : Course grammar input state spent (state.after spent cursor stack rules))
    (dangles : Dangles grammar input (state.after spent cursor stack rules) name effort) :
    Dangles grammar input state name (spent + effort) := by
  rcases dangles with ⟨further, lastCursor, lastStack, lastActive, total, rest, undefined⟩
  rw [State.after_after] at rest undefined
  refine ⟨spent + further, lastCursor, lastStack, lastActive, ?_, course.trans rest, undefined⟩
  rw [total, Effort.add_assoc]

theorem Dangles.of_proposes {name : String}
    (undefined : Proposes grammar input state (.undefined name)) :
    Dangles grammar input state name .move := by
  refine ⟨.none, state.cursor, state.stack, state.active, rfl, ?_, ?_⟩
  · rw [State.after_none]
    exact .rest state
  · rwa [State.after_none]

theorem Settles.of_course {account : Account α start size}
    (course : Course grammar input state spent (state.after spent cursor stack rules))
    (settles : Settles grammar input (state.after spent cursor stack rules) below active
      account) :
    Settles grammar input state below active (account.after spent) := by
  rcases account with ⟨verdict, effort⟩
  cases verdict with
  | found tree stop forward inside => exact course.leave settles
  | missed => exact course.leave settles
  | undefined name => exact Dangles.of_course course settles

variable {part : Expr} {waiting : Frame α} {effort : Effort}

theorem Simulated.settles (simulated : Simulated grammar input active cursor part)
    (running : state.stopped = false)
    (pushed : Course grammar input state spent
      (state.after spent cursor (.begin part cursor :: waiting :: below) active)) :
    Settles grammar input state (waiting :: below) active
      ((evaluate grammar input active cursor part).after spent) :=
  .of_course pushed (simulated _ _ (.after running rfl _ _ _ _))

theorem Simulated.found {tree : Tree α} {stop : Nat} {forward : cursor ≤ stop}
    {inside : stop ≤ max cursor input.size}
    (simulated : Simulated grammar input active cursor part)
    (running : state.stopped = false)
    (pushed : Course grammar input state spent
      (state.after spent cursor (.begin part cursor :: waiting :: below) active))
    (entry : waiting.entry = start)
    (result : evaluate grammar input active cursor part =
      ⟨.found tree stop forward inside, effort⟩) :
    let final := state.after (spent + effort) stop (waiting.answered (.found tree) :: below) active
    Course grammar input state (spent + effort) final ∧
      Stands final (waiting.answered (.found tree)) below active start stop := by
  have settled := simulated.settles running pushed
  rw [result] at settled
  exact ⟨settled, running, rfl, rfl, rfl, entry⟩

theorem Simulated.missed (simulated : Simulated grammar input active cursor part)
    (running : state.stopped = false)
    (pushed : Course grammar input state spent
      (state.after spent cursor (.begin part cursor :: waiting :: below) active))
    (entry : waiting.entry = start)
    (result : evaluate grammar input active cursor part = ⟨.missed, effort⟩) :
    let final := state.after (spent + effort) cursor (waiting.answered .missed :: below) active
    Course grammar input state (spent + effort) final ∧
      Stands final (waiting.answered .missed) below active start cursor := by
  have settled := simulated.settles running pushed
  rw [result] at settled
  exact ⟨settled, running, rfl, rfl, rfl, entry⟩

theorem Simulated.undefined {name : String}
    (simulated : Simulated grammar input active cursor part)
    (running : state.stopped = false)
    (pushed : Course grammar input state spent
      (state.after spent cursor (.begin part cursor :: waiting :: below) active))
    (result : evaluate grammar input active cursor part = ⟨.undefined name, effort⟩) :
    Dangles grammar input state name (spent + effort) := by
  have settled := simulated.settles running pushed
  rw [result] at settled
  exact settled

end Composition

/-! ## Terminals -/

theorem visitTerminal_eq {pattern : String} {cursor entry : Nat} {taken : List α}
    {met rest : List (α → Bool)} {test : α → Bool}
    (tests : input.tests pattern = met ++ test :: rest) (length : met.length = taken.length) :
    visitTerminal input cursor entry pattern taken =
      match input.element? cursor with
      | none => (.taken taken, .reject)
      | some element =>
          if test element then
            if rest.isEmpty then
              (.taken (element :: taken),
                .finish (.leaf pattern (element :: taken).reverse
                  (.between entry (entry + (taken.length + 1)))))
            else (.taken (element :: taken), .advance)
          else (.taken taken, .reject) := by
  have current : (met ++ test :: rest)[taken.length]? = some test := by
    rw [← length, List.getElem?_append_right (Nat.le_refl _), Nat.sub_self]
    rfl
  have more : taken.length + 1 < (met ++ test :: rest).length ↔ rest.isEmpty = false := by
    cases rest <;> simp [length]
  simp only [visitTerminal, tests, current, List.length_cons, more]
  cases input.element? cursor with
  | none => simp
  | some element => cases rest <;> simp

theorem settles_scan {pattern : String} {start : Nat} {below : List (Frame α)}
    {active : List (String × Nat)} (met rest : List (α → Bool)) {state : State α}
    {frame : Frame α} {offset : Nat} {taken : List α} {test : α → Bool}
    (forward : start ≤ offset) (inside : offset ≤ max start input.size)
    (stands : Stands state frame below active start offset)
    (terminal : frame.expr = .terminal pattern)
    (visit : frame.visit grammar input active offset =
      visitTerminal input offset start pattern taken)
    (tests : input.tests pattern = met ++ test :: rest) (length : met.length = taken.length)
    (place : offset = start + taken.length) :
    Settles grammar input state below active
      (scan input pattern start offset forward inside taken (test :: rest)) := by
  have kept : ∀ progress, State.releasedBy (frame.visited progress) state.active =
      active := by
    intro progress
    rw [Visit.releasedBy_visited (by simp [terminal]), stands.active]
  rw [visitTerminal_eq tests length] at visit
  by_cases accepted : ∃ element, input.element? offset = some element ∧ test element = true
  case neg =>
    have rejected : ∀ element, input.element? offset = some element → test element = false := by
      intro element present
      exact Bool.eq_false_iff.mpr fun holds => accepted ⟨element, present, holds⟩
    have move : frame.visit grammar input active offset = (.taken taken, .reject) := by
      rw [visit]
      cases present : input.element? offset with
      | none => rfl
      | some element => simp [rejected element present]
    have course := (stands.visit move).reject
    rw [kept, stands.entry, stands.cursor] at course
    rw [scan_rejected rejected]
    exact course
  case pos =>
    rcases accepted with ⟨element, present, holds⟩
    simp only [present, holds, if_true] at visit
    rw [scan_met present holds]
    cases rest with
    | nil =>
        have course := (stands.visit visit).finish
        have total : start + (taken.length + 1) = offset + 1 := by omega
        rw [kept, stands.cursor, total] at course
        rw [scan]
        exact course
    | cons next rest =>
        have course := (stands.visit visit).advance
        rw [stands.cursor, stands.active] at course
        refine .of_course course ?_
        -- one more condition is met, and the scan goes on with one less
        refine settles_scan (met ++ [test]) rest _ _ (.after stands.running ?_ _ _ _ _)
          terminal ?_ ?_ ?_ ?_
        · exact stands.entry
        · simp [Frame.visit, terminal, stands.entry]
        · simp [tests]
        · simp [length]
        · simp only [List.length_cons]
          omega

/-! ## Composites -/

section Composites

variable {state : State α} {frame : Frame α} {below : List (Frame α)}
  {active : List (String × Nat)} {start cursor : Nat} {part : Expr} {progress : Progress α}

theorem Stands.descend (stands : Stands state frame below active start cursor)
    (visit : frame.visit grammar input active cursor = (progress, .descend part)) :
    Course grammar input state .move
      (state.after .move cursor
        (.begin part cursor :: frame.visited progress :: below) active) := by
  have course := (stands.visit visit).descend
  rwa [stands.cursor, stands.active] at course

theorem Stands.produce {tree : Tree α} {rules : List (String × Nat)}
    (stands : Stands state frame below active start cursor)
    (visit : frame.visit grammar input active cursor = (progress, .produce tree))
    (released : State.releasedBy (frame.visited progress) active = rules) :
    Course grammar input state .move
      ((state.after .move cursor below rules).deliver input (.found tree)) := by
  have course := (stands.visit visit).produce
  rwa [stands.cursor, stands.active, released] at course

theorem Stands.backtrack {rules : List (String × Nat)}
    (stands : Stands state frame below active start cursor)
    (visit : frame.visit grammar input active cursor = (progress, .backtrack))
    (released : State.releasedBy (frame.visited progress) active = rules) :
    Course grammar input state .move
      ((state.after .move start below rules).deliver input .missed) := by
  have course := (stands.visit visit).backtrack
  rwa [stands.entry, stands.active, released] at course

end Composites

/-! ## All expressions -/

variable (grammar input)

/-- Whatever the grammar and the input, the machine does what evaluation says of an
expression that it has just pushed. The induction is that of evaluation; lists of
alternatives, lists of items and rounds are met in the middle of their frame. -/
theorem simulated (active : List (String × Nat)) (start : Nat) (expr : Expr) :
    Simulated grammar input active start expr := by
  refine recursion grammar input (Simulated grammar input)
    (fun active start alternatives =>
      ∀ (state : State α) (frame : Frame α) (below : List (Frame α)) (all : List Expr)
        (tried : Nat), Stands state frame below active start start →
        frame.expr = .choice all → all.drop tried = alternatives →
        frame.visit grammar input active start = visitChoice all tried →
        Settles grammar input state below active
          (evaluateChoice grammar input active start alternatives))
    (fun active start offset reached within children items =>
      ∀ (state : State α) (frame : Frame α) (below : List (Frame α)) (all : List Expr),
        Stands state frame below active start offset →
        frame.expr = .sequence all → all.drop children.length = items →
        frame.visit grammar input active offset = visitSequence offset start all children →
        Settles grammar input state below active
          (evaluateSequence grammar input active start offset reached within children items))
    (fun active start offset reached within children operand =>
      ∀ (state : State α) (frame : Frame α) (below : List (Frame α)),
        Stands state frame below active start offset →
        frame.expr = .repetition operand → reached? start children = some (offset : Int) →
        frame.visit grammar input active offset = (.repeated children, .descend operand) →
        Settles grammar input state below active
          (evaluateRepetition grammar input active start offset reached within children
            operand))
    ?terminal ?refused ?undefined ?entered ?choice ?sequence ?optional ?repetition
    ?noAlternative ?alternative ?noItem ?item ?round active start expr
  case terminal =>
    intro active start pattern state below stands
    cases tests : input.tests pattern with
    | nil =>
        have visit : Frame.visit grammar input active start (.begin (.terminal pattern) start) =
            (.taken [], .produce (.leaf pattern [] (.between start start))) := by
          simp [Frame.visit, Frame.begin, visitTerminal, tests]
        rw [evaluate_terminal_nil tests]
        exact stands.produce visit rfl
    | cons test rest =>
        rw [evaluate_terminal_cons tests]
        exact settles_scan [] rest _ _ stands rfl rfl tests rfl rfl
  case refused =>
    intro active start name refused state below stands
    have visit : Frame.visit grammar input active start (.begin (.reference name) start) =
        (.fresh, .refuse) := by
      simp [Frame.visit, Frame.begin, visitReference, refused]
    have course := (stands.visit visit).refuse
    rw [evaluate_refused refused]
    rw [stands.active] at course
    exact course
  case undefined =>
    intro active start name inactive missing state below stands
    have visit : Frame.visit grammar input active start (.begin (.reference name) start) =
        (.fresh, .undefined name) := by
      simp [Frame.visit, Frame.begin, visitReference, inactive, missing]
    rw [evaluate_undefined inactive missing]
    exact .of_proposes (stands.visit visit).proposes
  case entered =>
    intro active start name definition inactive defined induction state below stands
    have visit : Frame.visit grammar input active start (.begin (.reference name) start) =
        (.entered, .enter (name, start) definition) := by
      simp [Frame.visit, Frame.begin, visitReference, inactive, defined]
    have pushed := (stands.visit visit).enter
    rw [stands.cursor, stands.active] at pushed
    rw [evaluate_entered inactive defined]
    split
    · next result =>
        rcases induction.found stands.running pushed rfl result with ⟨course, answered⟩
        -- the rule goes with the frame that entered it
        exact course.leave (answered.produce rfl (Visit.releasedBy_entered rfl rfl _))
    · next result =>
        rcases induction.missed stands.running pushed rfl result with ⟨course, answered⟩
        exact course.leave (answered.backtrack rfl (Visit.releasedBy_entered rfl rfl _))
    · next result => exact induction.undefined stands.running pushed result
  case choice =>
    intro active start alternatives induction state below stands
    rw [evaluate]
    exact induction state _ below alternatives 0 stands rfl rfl rfl
  case sequence =>
    intro active start items induction state below stands
    rw [evaluate]
    exact induction state _ below items stands rfl rfl rfl
  case optional =>
    intro active start operand induction state below stands
    have pushed : Course grammar input state .move _ := stands.descend rfl
    rw [evaluate]
    split
    · next result =>
        rcases induction.found stands.running pushed rfl result with ⟨course, answered⟩
        exact course.leave (answered.produce rfl rfl)
    · next result =>
        rcases induction.missed stands.running pushed rfl result with ⟨course, answered⟩
        exact course.leave (answered.produce rfl rfl)
    · next result => exact induction.undefined stands.running pushed result
  case repetition =>
    intro active start operand induction state below stands
    rw [evaluate]
    exact induction state _ below stands rfl rfl rfl
  case noAlternative =>
    intro active start state frame below all tried stands choice rest visit
    have done : all[tried]? = none := by
      rw [List.getElem?_eq_none_iff]
      exact List.drop_eq_nil_iff.mp rest
    rw [visitChoice, done] at visit
    rw [evaluateChoice]
    exact stands.backtrack visit (Visit.releasedBy_visited (by simp [choice]) _ _)
  case alternative =>
    intro active start first rest induction further state frame below all tried stands choice
      remaining visit
    have current : all[tried]? = some first := by
      rw [← List.head?_drop, remaining]
      rfl
    rw [visitChoice, current] at visit
    have pushed := stands.descend visit
    rw [evaluateChoice]
    split
    · next tree stop _ _ _ result =>
        rcases induction.found stands.running pushed stands.entry result with ⟨course, answered⟩
        have answer : Frame.visit grammar input active stop
            ((frame.visited (.tried (tried + 1))).answered (.found tree)) =
              (.tried (tried + 1), .produce tree) := by
          simp [Frame.visit, choice]
        exact course.leave
          (answered.produce answer (Visit.releasedBy_visited (by simp [choice]) _ _))
    · next result =>
        rcases induction.missed stands.running pushed stands.entry result with ⟨course, answered⟩
        refine .of_course course (further _ result _ _ _ all (tried + 1) answered choice ?_ ?_)
        · rw [← List.drop_drop, remaining]
          rfl
        · simp [Frame.visit, choice]
    · next result => exact induction.undefined stands.running pushed result
  case noItem =>
    intro active start offset reached within children state frame below all stands sequence rest
      visit
    have done : all[children.length]? = none := by
      rw [List.getElem?_eq_none_iff]
      exact List.drop_eq_nil_iff.mp rest
    rw [visitSequence, done] at visit
    rw [evaluateSequence]
    exact stands.produce visit (Visit.releasedBy_visited (by simp [sequence]) _ _)
  case item =>
    intro active start offset reached within children first rest induction further state frame
      below all stands sequence remaining visit
    have current : all[children.length]? = some first := by
      rw [← List.head?_drop, remaining]
      rfl
    rw [visitSequence, current] at visit
    have entry := stands.entry
    have pushed := stands.descend visit
    rw [evaluateSequence]
    split
    · next result =>
        rcases induction.found stands.running pushed stands.entry result with ⟨course, answered⟩
        refine .of_course course (further _ _ _ _ _ result _ _ _ all answered sequence ?_ ?_)
        · rw [List.length_cons, ← List.drop_drop, remaining]
          rfl
        · simp [Frame.visit, sequence, entry]
    · next result =>
        rcases induction.missed stands.running pushed stands.entry result with ⟨course, answered⟩
        have answer : Frame.visit grammar input active offset
            ((frame.visited (.gathered children)).answered .missed) =
              (.gathered children, .backtrack) := by
          simp [Frame.visit, sequence]
        exact course.leave
          (answered.backtrack answer (Visit.releasedBy_visited (by simp [sequence]) _ _))
    · next result => exact induction.undefined stands.running pushed result
  case round =>
    intro active start offset reached within children operand induction further state frame
      below stands repetition latest visit
    have kept : ∀ (answer : Outcome α), State.releasedBy
        (((frame.visited (.repeated children)).answered answer).visited
          (.repeated children)) active = active := fun _ =>
      Visit.releasedBy_visited (by simp [repetition]) _ _
    have entry := stands.entry
    have pushed := stands.descend visit
    rw [evaluateRepetition]
    dsimp only
    split
    · next tree stop forward inside effort result =>
        rcases induction.found stands.running pushed entry result with ⟨course, answered⟩
        split
        · next progress =>
            -- the machine reads off the tree of a round where the next one begins
            have ends := evaluate_endsAtStop grammar input active offset operand
            rw [result] at ends
            refine .of_course course
              (further _ _ _ _ _ result progress _ _ _ answered repetition (ends progress) ?_)
            simp [Frame.visit, repetition, visitRepetition, entry, latest, progress]
        · next idle =>
            -- a round that takes nothing is the last, and its tree is not kept
            have same : stop = offset := by omega
            subst same
            refine course.leave (answered.produce ?_ (kept _))
            simp [Frame.visit, repetition, visitRepetition, closeRepetition, entry, latest]
    · next result =>
        rcases induction.missed stands.running pushed entry result with ⟨course, answered⟩
        refine course.leave (answered.produce ?_ (kept _))
        simp [Frame.visit, repetition, closeRepetition, entry]
    · next result => exact induction.undefined stands.running pushed result

end Machine

end OrderedChoice
