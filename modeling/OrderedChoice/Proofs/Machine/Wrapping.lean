import OrderedChoice.Proofs.Grammar.Lookup
import OrderedChoice.Proofs.Machine.Active
import OrderedChoice.Proofs.Machine.Completion
import OrderedChoice.Proofs.Machine.Definedness

/-! Beginning at a rule through a reference to it. Where an entry rule refers to a rule that has
the definition of another grammar's entry rule, the machines of the two grammars move in step.
The one has a frame more at the bottom of its stack, and a rule more under way; nothing asks for
that rule, and the frame only moves before and after all the others. -/

namespace OrderedChoice

def Grammar.enteredThrough (grammar : Grammar) (name : String) (definition : Expr) : Grammar :=
  (grammar.insert entryName (.reference name)).insert name definition

namespace Machine

variable {α : Type} {grammar wrapper : Grammar} {input : Input α} {name : String}

/-! ## Grammars -/

/-- A grammar begins with a reference to a rule that has the definition of another grammar's
entry rule. Whatever that other grammar mentions is the same in both, and is not this rule. -/
structure Wraps (grammar wrapper : Grammar) (name : String) : Prop where
  entry : wrapper.lookup? entryName = some (.reference name)
  inner : wrapper.lookup? name = grammar.lookup? entryName
  others : ∀ rule ∈ grammar.rules, ∀ other ∈ rule.2.references,
    other ≠ name ∧ wrapper.lookup? other = grammar.lookup? other

theorem wraps_enteredThrough {definition : Expr}
    (entry : grammar.lookup? entryName = some definition)
    (unreferred : ∀ rule ∈ grammar.rules, entryName ∉ rule.2.references)
    (free : name ∉ grammar.names)
    (unmentioned : ∀ rule ∈ grammar.rules, name ∉ rule.2.references) :
    Wraps grammar (grammar.enteredThrough name definition) name := by
  have different : entryName ≠ name := by
    rintro rfl
    exact free (Grammar.mem_names_of_lookup? entry)
  refine ⟨?_, ?_, ?_⟩
  · rw [Grammar.enteredThrough, Grammar.lookup?_insert, if_neg different,
      Grammar.lookup?_insert, if_pos rfl]
  · rw [Grammar.enteredThrough, Grammar.lookup?_insert, if_pos rfl, entry]
  · intro rule member other mentioned
    have notName : other ≠ name := fun same => unmentioned rule member (same ▸ mentioned)
    have notEntry : other ≠ entryName := fun same => unreferred rule member (same ▸ mentioned)
    refine ⟨notName, ?_⟩
    rw [Grammar.enteredThrough, Grammar.lookup?_insert, if_neg notName,
      Grammar.lookup?_insert, if_neg notEntry]

/-- If an expression refers to a rule, it is not this rule, and it is the same in both grammars. -/
def Unaffected (grammar wrapper : Grammar) (name : String) (expr : Expr) : Prop :=
  ∀ other, expr = .reference other →
    other ≠ name ∧ wrapper.lookup? other = grammar.lookup? other

theorem Wraps.unaffected (wraps : Wraps grammar wrapper name) {made : Nat} {frame : Frame α}
    {below : List (Frame α)} {progress : Progress α} {move : Move α}
    (visit : Visit grammar input (stateAt grammar input made) frame below progress move) :
    Unaffected grammar wrapper name frame.expr := by
  intro other reference
  have poised := (stateAt_steady grammar input made).poised visit.stack
  rcases poised.under.partOf with ⟨rule, member, within⟩
  rw [reference] at within
  exact wraps.others rule member other (Expr.mem_references_iff.mpr within)

/-! ## A frame more at the bottom -/

def outermost (name : String) : Frame α := ⟨.reference name, 0, .entered, none⟩

/-- A state with the frame that has entered the rule under all others, and with the move that
has entered it counted. -/
def State.wrapped (state : State α) (name : String) : State α :=
  { state with
    steps := state.steps + 1
    stack := state.stack ++ [outermost name]
    active := state.active ++ [(name, 0)] }

theorem after_wrapped (state : State α) (effort : Evaluation.Effort) (cursor : Nat)
    (stack : List (Frame α)) (active : List (String × Nat)) :
    (state.wrapped name).after effort cursor (stack ++ [outermost name])
        (active ++ [(name, 0)]) =
      (state.after effort cursor stack active).wrapped name := by
  simp [State.wrapped, State.after, Nat.add_right_comm]

theorem visit_wrapped {frame : Frame α} {active : List (String × Nat)} {cursor : Nat}
    (unaffected : Unaffected grammar wrapper name frame.expr) :
    frame.visit wrapper input (active ++ [(name, 0)]) cursor =
      frame.visit grammar input active cursor := by
  rcases frame with ⟨expr, entry, progress, outcome⟩
  cases expr with
  | reference other =>
      rcases unaffected other rfl with ⟨different, same⟩
      have underWay : (other, entry) ∈ active ++ [(name, 0)] ↔ (other, entry) ∈ active := by
        simp [different]
      cases progress with
      | fresh => simp only [Frame.visit, visitReference, underWay, same]
      | taken | entered | tried | begun | gathered | repeated =>
          rcases outcome with _ | _ | _ <;> rfl
  | terminal | choice | sequence | optional | repetition =>
      rcases outcome with _ | _ | _ <;> cases progress <;> rfl

theorem releasedBy_wrapped {frame : Frame α} (active : List (String × Nat))
    (unaffected : Unaffected grammar wrapper name frame.expr) :
    State.releasedBy frame (active ++ [(name, 0)]) =
      State.releasedBy frame active ++ [(name, 0)] := by
  unfold State.releasedBy
  split
  · next other reference _ =>
      have different : (other, frame.entry) ≠ (name, 0) :=
        fun same => (unaffected other reference).1 (congrArg Prod.fst same)
      rw [List.erase_append]
      split
      · rfl
      · next absent =>
          rw [List.erase_of_not_mem absent,
            List.erase_of_not_mem (by simpa using different)]
  · rfl

/-! ## Steps -/

section Steps

variable {state : State α} {frame : Frame α} {below : List (Frame α)}
  {progress : Progress α} {move : Move α}

theorem Visit.wrapped (visit : Visit grammar input state frame below progress move)
    (unaffected : Unaffected grammar wrapper name frame.expr) :
    Visit wrapper input (state.wrapped name) frame (below ++ [outermost name]) progress move where
  running := visit.running
  stack := by rw [State.wrapped, visit.stack, List.cons_append]
  visit := (visit_wrapped unaffected).trans visit.visit

theorem Visit.step_wrapped (visit : Visit grammar input state frame below progress move)
    (unaffected : Unaffected grammar wrapper name frame.expr)
    (going : (state.step grammar input).stopped = false) :
    (state.wrapped name).step wrapper input = (state.step grammar input).wrapped name := by
  have above := visit.wrapped unaffected
  cases left : move.outcome? with
  | some outcome =>
      rw [visit.step_leave left] at going ⊢
      cases below with
      -- without the outermost frame the run is over
      | nil => cases outcome <;> cases going
      | cons parent rest =>
          have released : State.releasedBy (frame.visited progress) _ = _ :=
            releasedBy_wrapped state.active unaffected
          rw [above.step_leave left, State.deliver_after_cons, ← after_wrapped, ← released]
          rfl
  | none =>
      cases pushed : move.part? with
      | some part =>
          rw [visit.step_push pushed, above.step_push pushed, ← after_wrapped, List.append_assoc]
          rfl
      | none =>
          rcases (visit.step_stay left pushed).2.2.2.2 going with ⟨rfl, taken⟩
          have stepped : (state.wrapped name).step wrapper input = _ := above.advance.iterate_step
          rw [stepped, taken, ← after_wrapped]
          rfl

end Steps

/-! ## Runs -/

variable {made last : Nat} {outcome : Outcome α}

theorem stateAt_one (input : Input α) (wraps : Wraps grammar wrapper name) {definition : Expr}
    (entry : grammar.lookup? entryName = some definition) :
    stateAt wrapper input 1 = (stateAt grammar input 0).wrapped name := by
  have start : (State.start wrapper : State α) = State.blank.push (.reference name) :=
    start_eq wraps.entry
  have visit : Visit wrapper input (State.start wrapper) (.begin (.reference name) 0) []
      .entered (.enter (name, 0) definition) := by
    rw [start]
    refine ⟨rfl, rfl, ?_⟩
    simp [Frame.visit, Frame.begin, visitReference, State.push, State.blank, wraps.inner, entry]
  rw [stateAt_succ, stateAt, Function.iterate_zero_apply, visit.step_push rfl, start, stateAt,
    Function.iterate_zero_apply, start_eq entry]
  rfl

/-- As long as the one run goes on, the other is a move ahead and has the frame at the
bottom. -/
theorem stateAt_wrapped (wraps : Wraps grammar wrapper name)
    (going : (stateAt grammar input made).stopped = false) :
    stateAt wrapper input (made + 1) = (stateAt grammar input made).wrapped name := by
  induction made with
  | zero =>
      rcases start_cases α grammar with none | ⟨definition, entry, _⟩
      · rw [stateAt, Function.iterate_zero_apply, none] at going
        cases going
      · exact stateAt_one input wraps entry
  | succ made induction =>
      have before : (stateAt grammar input made).stopped = false := by
        cases stopped : (stateAt grammar input made).stopped with
        | false => rfl
        | true => exact absurd (lt_of_stopped going stopped) (Nat.not_lt.mpr (Nat.le_succ made))
      -- a step that does not end the run does not see the frame at the bottom
      rcases exists_visit_of_running before with ⟨frame, below, progress, move, visit⟩
      rw [stateAt_succ, induction before]
      rw [stateAt_succ] at going ⊢
      exact visit.step_wrapped (wraps.unaffected visit) going

/-! ## Ends -/

def Outcome.within (outcome : Outcome α) (name : String) (stop : Nat) : Outcome α :=
  match outcome with
  | .found tree => .found (.node name [tree] (.between 0 stop))
  | .missed => .missed

@[simp] theorem deliver_steps (state : State α) (outcome : Outcome α) :
    (state.deliver input outcome).steps = state.steps := by
  cases outcome <;> unfold State.deliver <;> split <;> rfl

/-- Where the one run has taken its outermost frame away, the other has handed its outcome to
the frame at the bottom. -/
theorem stateAt_outermost (wraps : Wraps grammar wrapper name)
    (concludes : Concludes grammar input last outcome) :
    let final := stateAt grammar input (last + 1)
    let other := stateAt wrapper input (last + 2)
    other.stopped = false ∧ other.stack = [(outermost name).answered outcome] ∧
      other.active = [(name, 0)] ∧ other.cursor = final.cursor ∧
      other.furthest = final.furthest ∧ other.steps = final.steps + 1 := by
  intro final other
  rcases concludes with ⟨frame, progress, move, visit, leaves⟩
  have unaffected := wraps.unaffected visit
  have above := visit.wrapped unaffected
  have released : State.releasedBy (frame.visited progress) _ = _ :=
    releasedBy_wrapped (stateAt grammar input last).active unaffected
  rw [(stateAt_tracks grammar input last).released visit leaves] at released
  have ends : final = _ := (stateAt_succ grammar input last).trans (visit.step_leave leaves)
  have goes : other = _ := (stateAt_succ wrapper input (last + 1)).trans
    ((congrArg _ (stateAt_wrapped wraps visit.running)).trans (above.step_leave leaves))
  rw [ends, goes]
  simp only [deliver_cursor, deliver_furthest, deliver_steps]
  refine ⟨visit.running, rfl, released, rfl, rfl, ?_⟩
  exact Nat.add_right_comm _ _ _

theorem visit_outermost (wrapper : Grammar) (input : Input α) (name : String)
    (active : List (String × Nat)) {cursor : Nat} (outcome : Outcome α)
    (back : outcome = .missed → cursor = 0) :
    ∃ move, ((outermost name).answered outcome).visit wrapper input active cursor =
        (.entered, move) ∧ move.outcome? = some (outcome.within name cursor) ∧
      move.exit cursor 0 = cursor ∧ (move.effort cursor).furthest = none := by
  cases outcome with
  | found tree => exact ⟨_, rfl, rfl, rfl, rfl⟩
  | missed => exact ⟨_, rfl, rfl, (back rfl).symm, rfl⟩

theorem concludes_within (wraps : Wraps grammar wrapper name)
    (concludes : Concludes grammar input last outcome) :
    let final := stateAt grammar input (last + 1)
    let other := stateAt wrapper input (last + 3)
    Concludes wrapper input (last + 2) (outcome.within name final.cursor) ∧
      other.cursor = final.cursor ∧ other.furthest = final.furthest ∧
      other.steps = final.steps + 2 := by
  intro final other
  rcases stateAt_outermost wraps concludes with ⟨running, stack, active, cursor, furthest, steps⟩
  have back : outcome = .missed → (stateAt wrapper input (last + 2)).cursor = 0 := by
    rintro rfl
    exact cursor.trans concludes.missed.cursor
  have handed := visit_outermost wrapper input name (stateAt wrapper input (last + 2)).active
    outcome back
  rcases handed with ⟨move, visited, leaves, exit, silent⟩
  have visit : Visit wrapper input (stateAt wrapper input (last + 2)) _ [] .entered move :=
    ⟨running, stack, visited⟩
  have ends : other = _ := (stateAt_succ wrapper input (last + 2)).trans (visit.step_leave leaves)
  rw [cursor] at leaves
  refine ⟨⟨_, _, _, visit, leaves⟩, ?_, ?_, ?_⟩
  · rw [ends, deliver_cursor, ← cursor]
    exact exit
  · rw [ends, deliver_furthest, State.after, silent, furthest]
    exact Option.max_none_right
  · rw [ends, deliver_steps, State.after, steps, Move.effort_moves]

theorem proposes_wrapped (wraps : Wraps grammar wrapper name) {missing : String}
    (undefined : Proposes grammar input (stateAt grammar input last) (.undefined missing)) :
    Proposes wrapper input (stateAt wrapper input (last + 1)) (.undefined missing) ∧
      (stateAt wrapper input (last + 1)).cursor = (stateAt grammar input last).cursor := by
  rcases exists_visit_of_proposes undefined with ⟨frame, below, progress, visit⟩
  rw [stateAt_wrapped wraps visit.running]
  exact ⟨(visit.wrapped (wraps.unaffected visit)).proposes, rfl⟩

/-! ## Whole runs -/

theorem completes_iff (wraps : Wraps grammar wrapper name) {definition : Expr}
    (entry : grammar.lookup? entryName = some definition) :
    Completes wrapper input outcome ↔
      ∃ inner, Completes grammar input inner ∧
        outcome = inner.within name (parse grammar input).cursor := by
  constructor
  · intro completes
    rcases parse_cases input entry with ⟨last, same, ⟨inner, concludes⟩ | ⟨missing, undefined⟩⟩
    · have ends := (concludes_within wraps concludes).1
      rw [same] at ends
      exact ⟨inner, ⟨last, concludes⟩, completes.unique ⟨_, ends⟩⟩
    · exact absurd (proposes_wrapped wraps undefined).1 completes.not_undefined
  · rintro ⟨inner, ⟨last, concludes⟩, rfl⟩
    have ends := (concludes_within wraps concludes).1
    rw [concludes.eq_parse] at ends
    exact ⟨_, ends⟩

theorem Completes.parse_within (wraps : Wraps grammar wrapper name)
    (completes : Completes grammar input outcome) :
    let final := parse grammar input
    let other := parse wrapper input
    other.log = final.log ∧ other.cursor = final.cursor ∧ other.steps = final.steps + 2 ∧
      ∀ tree, outcome = .found tree →
        final.tree = tree ∧ other.tree = .node name [tree] (.between 0 final.cursor) := by
  intro final other
  have ⟨last, concludes⟩ := completes
  rcases concludes_within wraps concludes with ⟨ends, cursor, furthest, steps⟩
  rw [concludes.eq_parse] at ends
  rw [ends.eq_parse, concludes.eq_parse] at cursor furthest steps
  have otherCompletes : Completes wrapper input (outcome.within name final.cursor) := ⟨_, ends⟩
  cases outcome with
  | found tree =>
      refine ⟨?_, cursor, steps, ?_⟩
      · rw [otherCompletes.found.log, completes.found.log, cursor]
      · rintro _ ⟨⟩
        exact ⟨completes.found.tree, otherCompletes.found.tree⟩
  | missed =>
      refine ⟨?_, cursor, steps, nofun⟩
      rw [otherCompletes.missed.log, completes.missed.log, furthest]

/-- To begin at a rule through a reference to it changes nothing but what is around it. -/
theorem parse_enteredThrough (input : Input α) {definition : Expr}
    (entry : grammar.lookup? entryName = some definition)
    (unreferred : ∀ rule ∈ grammar.rules, entryName ∉ rule.2.references)
    (free : name ∉ grammar.names)
    (unmentioned : ∀ rule ∈ grammar.rules, name ∉ rule.2.references) :
    let final := parse grammar input
    let other := parse (grammar.enteredThrough name definition) input
    other.log = final.log ∧ other.cursor = final.cursor ∧
      (∀ outcome, Completes (grammar.enteredThrough name definition) input outcome ↔
        ∃ inner, Completes grammar input inner ∧ outcome = inner.within name final.cursor) ∧
      (∀ tree, Completes grammar input (.found tree) →
        final.tree = tree ∧ other.tree = .node name [tree] (.between 0 final.cursor)) ∧
      ∀ outcome, Completes grammar input outcome → other.steps = final.steps + 2 := by
  intro final other
  have wraps := wraps_enteredThrough entry unreferred free unmentioned
  have alike : other.log = final.log ∧ other.cursor = final.cursor := by
    -- the two runs end in the same way, whether with a frame or at a missing rule
    rcases parse_cases input entry with ⟨last, same, ⟨outcome, concludes⟩ | ⟨missing, undefined⟩⟩
    · have completes : Completes grammar input outcome := ⟨last, concludes⟩
      rcases completes.parse_within wraps with ⟨log, cursor, _⟩
      exact ⟨log, cursor⟩
    · rcases proposes_wrapped wraps undefined with ⟨proposes, here⟩
      have ends := undefined_ends undefined
      have otherEnds := undefined_ends proposes
      rw [same] at ends
      rw [stateAt_eq_parse otherEnds.stopped, here] at otherEnds
      exact ⟨otherEnds.log.trans ends.log.symm, otherEnds.cursor.trans ends.cursor.symm⟩
  refine ⟨alike.1, alike.2, fun outcome => completes_iff wraps entry, ?_, ?_⟩
  · intro tree completes
    exact (completes.parse_within wraps).2.2.2 tree rfl
  · intro outcome completes
    exact (completes.parse_within wraps).2.2.1

theorem leftRecursive_entered_through_reference :
    let input := Input.ofText "a+a"
    let inner : Tree Char := .node "X" [.leaf "a" ['a'] (.between 0 1)] (.between 0 1)
    let final := parse leftRecursive input
    let other := parse (leftRecursive.enteredThrough "start" (.reference "X")) input
    leftRecursive.lookup? entryName = some (.reference "X") ∧
      (∀ rule ∈ leftRecursive.rules, entryName ∉ rule.2.references) ∧
      "start" ∉ leftRecursive.names ∧
      (∀ rule ∈ leftRecursive.rules, "start" ∉ rule.2.references) ∧
      Completes leftRecursive input (.found inner) ∧
      other.log = final.log ∧ other.cursor = final.cursor ∧ final.tree = inner ∧
      other.tree = .node "start" [inner] (.between 0 final.cursor) ∧
      other.steps = final.steps + 2 := by
  intro input inner final other
  have unreferred : ∀ rule ∈ leftRecursive.rules, entryName ∉ rule.2.references := by decide +kernel
  have unmentioned : ∀ rule ∈ leftRecursive.rules, "start" ∉ rule.2.references := by decide +kernel
  have free : "start" ∉ leftRecursive.names := by decide +kernel
  have completes : Completes leftRecursive input (.found inner) := by
    refine ⟨8, ⟨.reference "X", 0, .entered, some (.found (.leaf "a" ['a'] (.between 0 1)))⟩,
      .entered, .produce inner, ⟨?_, ?_, ?_⟩, rfl⟩ <;> decide +kernel
  rcases parse_enteredThrough input rfl unreferred free unmentioned with
    ⟨log, cursor, _, trees, steps⟩
  rcases trees inner completes with ⟨tree, otherTree⟩
  exact ⟨rfl, unreferred, free, unmentioned, completes, log, cursor, tree, otherTree,
    steps _ completes⟩

end Machine

end OrderedChoice
