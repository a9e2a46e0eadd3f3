import OrderedChoice.Proofs.Machine.Ending
import OrderedChoice.Proofs.Machine.Furthest
import OrderedChoice.Proofs.Text.Lines
import OrderedChoice.Source

/-! How much of the input a run depends on. Composites look at outcomes and never at the
input, so a run goes the same way on every other input that holds the same elements wherever
a terminal has looked. What is written to the log may tell more: the element that follows
what was found has perhaps not been looked at before. -/

namespace OrderedChoice

namespace Machine

variable {α : Type} {grammar : Grammar}

def State.unlogged (state : State α) : State α := { state with log := [] }

@[simp] theorem unlogged_furthest (state : State α) :
    state.unlogged.furthest = state.furthest := rfl

/-- After a number of moves, a terminal is about to look at what there is at an offset, an
element or the end. It does so if it puts any conditions on elements. -/
def Examines (grammar : Grammar) (input : Input α) (made offset : Nat) : Prop :=
  let state := stateAt grammar input made
  state.stopped = false ∧ state.cursor = offset ∧
    ∃ frame below pattern, state.stack = frame :: below ∧ frame.expr = .terminal pattern ∧
      input.tests pattern ≠ []

/-! ## Moves on two inputs -/

section Moves

variable {left right : Input α}

theorem visitTerminal_congr {pattern : String} {cursor entry : Nat} {taken : List α}
    (tests : left.tests = right.tests)
    (shown : left.tests pattern ≠ [] → left.element? cursor = right.element? cursor) :
    visitTerminal left cursor entry pattern taken =
      visitTerminal right cursor entry pattern taken := by
  unfold visitTerminal
  rw [← tests]
  cases conditions : left.tests pattern with
  | nil => rfl
  | cons test rest =>
      rw [shown (by rw [conditions]; exact List.cons_ne_nil _ _)]

theorem visit_congr {frame : Frame α} {active : List (String × Nat)} {cursor : Nat}
    (tests : left.tests = right.tests)
    (shown : ∀ pattern, frame.expr = .terminal pattern → left.tests pattern ≠ [] →
      left.element? cursor = right.element? cursor) :
    frame.visit grammar left active cursor = frame.visit grammar right active cursor := by
  obtain ⟨expr, entry, progress, outcome⟩ := frame
  cases expr with
  | terminal pattern =>
      cases progress with
      | fresh | taken => exact visitTerminal_congr tests (shown pattern rfl)
      | entered | tried | begun | gathered | repeated => rfl
  | reference | choice | sequence | optional | repetition =>
      rcases outcome with _ | _ | _ <;> cases progress <;> rfl

theorem conclude_unlogged (state : State α) (outcome : Outcome α) :
    (state.conclude left outcome).unlogged = (state.conclude right outcome).unlogged := by
  cases outcome <;> rfl

theorem deliver_unlogged (state : State α) (outcome : Outcome α) :
    (state.deliver left outcome).unlogged = (state.deliver right outcome).unlogged := by
  unfold State.deliver
  cases state.stack with
  | nil => exact conclude_unlogged state outcome
  | cons parent rest => rfl

theorem step_unlogged {state : State α}
    (alike : ∀ frame below, state.stack = frame :: below →
      frame.visit grammar left state.active state.cursor =
        frame.visit grammar right state.active state.cursor) :
    (state.step grammar left).unlogged = (state.step grammar right).unlogged := by
  have moved : ∀ {frame below progress move},
      Visit grammar left state frame below progress move →
      Visit grammar right state frame below progress move :=
    fun visit => ⟨visit.running, visit.stack, (alike _ _ visit.stack).symm.trans visit.visit⟩
  apply step_cases fun next => next.unlogged = (state.step grammar right).unlogged
  case rests =>
    rintro (stopped | empty)
    · rw [State.step_of_stopped stopped]
    · rw [step_of_stack_eq_nil empty]
  case leaves =>
    intro frame below progress move outcome visit leaves
    rw [(moved visit).step_leave leaves]
    exact deliver_unlogged _ _
  case pushes =>
    intro frame below progress move part visit pushes
    rw [(moved visit).step_push pushes]
  case stays =>
    intro frame below progress move visit stays idle
    rw [State.step_of_propose visit.propose, State.step_of_propose (moved visit).propose]
    cases move with
    | advance | undefined | stuck => rfl
    | finish | reject | refuse | produce | backtrack => cases stays
    | enter | descend => cases idle

end Moves

/-! ## Runs on two inputs -/

/-- Two inputs hold the same wherever a terminal looks in a run on the first. -/
structure LookAlike (grammar : Grammar) (left right : Input α) : Prop where
  tests : left.tests = right.tests
  shown : ∀ made offset, Examines grammar left made offset →
    left.element? offset = right.element? offset

namespace LookAlike

variable {left right : Input α} {made : Nat}

theorem visit_eq (alike : LookAlike grammar left right)
    (running : (stateAt grammar left made).stopped = false) {frame : Frame α}
    {below : List (Frame α)} (stack : (stateAt grammar left made).stack = frame :: below) :
    let state := stateAt grammar left made
    frame.visit grammar left state.active state.cursor =
      frame.visit grammar right state.active state.cursor := by
  apply visit_congr alike.tests
  intro pattern terminal conditions
  exact alike.shown made _ ⟨running, rfl, frame, below, pattern, stack, terminal, conditions⟩

theorem stateAt_eq_of_unlogged
    (same : (stateAt grammar right made).unlogged = (stateAt grammar left made).unlogged)
    (running : (stateAt grammar left made).stopped = false) :
    stateAt grammar right made = stateAt grammar left made := by
  have going : (stateAt grammar right made).stopped = false :=
    (congrArg State.stopped same).trans running
  have leftClear := (clear_of_running running).2
  have rightClear := (clear_of_running going).2
  calc stateAt grammar right made
      = (stateAt grammar right made).unlogged := by rw [State.unlogged, ← rightClear]
    _ = (stateAt grammar left made).unlogged := same
    _ = stateAt grammar left made := by rw [State.unlogged, ← leftClear]

theorem stateAt_unlogged (alike : LookAlike grammar left right) (made : Nat) :
    (stateAt grammar right made).unlogged = (stateAt grammar left made).unlogged := by
  induction made with
  | zero => rfl
  | succ made induction =>
      rw [stateAt_succ, stateAt_succ]
      cases stopped : (stateAt grammar left made).stopped with
      | true =>
          have ended : (stateAt grammar right made).stopped = true :=
            (congrArg State.stopped induction).trans stopped
          rw [State.step_of_stopped stopped, State.step_of_stopped ended]
          exact induction
      | false =>
          rw [stateAt_eq_of_unlogged induction stopped]
          exact (step_unlogged fun _ _ => alike.visit_eq stopped).symm

theorem stateAt_eq (alike : LookAlike grammar left right)
    (running : (stateAt grammar left made).stopped = false) :
    stateAt grammar right made = stateAt grammar left made :=
  stateAt_eq_of_unlogged (alike.stateAt_unlogged made) running

theorem visit_iff (alike : LookAlike grammar left right) {frame : Frame α}
    {below : List (Frame α)} {progress : Progress α} {move : Move α} :
    Visit grammar right (stateAt grammar right made) frame below progress move ↔
      Visit grammar left (stateAt grammar left made) frame below progress move := by
  cases stopped : (stateAt grammar left made).stopped with
  | true =>
      have ended : (stateAt grammar right made).stopped = true :=
        (congrArg State.stopped (alike.stateAt_unlogged made)).trans stopped
      constructor
      · exact fun visit => absurd visit.proposes (Course.not_proposes_of_stopped ended _)
      · exact fun visit => absurd visit.proposes (Course.not_proposes_of_stopped stopped _)
  | false =>
      rw [alike.stateAt_eq stopped]
      constructor
      · intro visit
        exact ⟨stopped, visit.stack, (alike.visit_eq stopped visit.stack).trans visit.visit⟩
      · intro visit
        exact ⟨stopped, visit.stack, (alike.visit_eq stopped visit.stack).symm.trans visit.visit⟩

theorem proposes_iff (alike : LookAlike grammar left right) {move : Move α} :
    Proposes grammar right (stateAt grammar right made) move ↔
      Proposes grammar left (stateAt grammar left made) move := by
  constructor
  · intro proposes
    obtain ⟨_, _, _, visit⟩ := exists_visit_of_proposes proposes
    exact (alike.visit_iff.mp visit).proposes
  · intro proposes
    obtain ⟨_, _, _, visit⟩ := exists_visit_of_proposes proposes
    exact (alike.visit_iff.mpr visit).proposes

theorem concludes_iff (alike : LookAlike grammar left right) {outcome : Outcome α} :
    Concludes grammar right made outcome ↔ Concludes grammar left made outcome := by
  unfold Concludes
  simp only [alike.visit_iff]

theorem parse_unlogged (alike : LookAlike grammar left right) :
    (parse grammar right).unlogged = (parse grammar left).unlogged := by
  have same := alike.stateAt_unlogged (moveCount grammar left)
  have stopped : (stateAt grammar left (moveCount grammar left)).stopped = true :=
    iterate_moveCount_stopped grammar left
  have ended := (congrArg State.stopped same).trans stopped
  rwa [stateAt_eq_parse ended, stateAt_eq_parse stopped] at same

end LookAlike

/-! ## Logs -/

theorem examines_of_reject {input : Input α} {made : Nat}
    (rejects : Proposes grammar input (stateAt grammar input made) .reject) :
    Examines grammar input made (stateAt grammar input made).cursor := by
  obtain ⟨frame, below, _, visit⟩ := exists_visit_of_proposes rejects
  obtain ⟨pattern, terminal, conditions⟩ := terminal_of_reject visit.visit
  exact ⟨visit.running, rfl, frame, below, pattern, visit.stack, terminal, conditions⟩

theorem exists_log_of_missed {input : Input α} {made rejected : Nat}
    (concludes : Concludes grammar input made .missed)
    (rejects : Proposes grammar input (stateAt grammar input rejected) .reject) :
    ∃ earlier offset, Examines grammar input earlier offset ∧
      (parse grammar input).furthest = some offset ∧
      (parse grammar input).log = logOfMissed input (some offset) := by
  obtain ⟨stopped, _, _, _, log⟩ := concludes.missed
  have running := (examines_of_reject rejects).1
  have reached := cursor_le_furthest rejects (lt_of_stopped running stopped)
  rw [stateAt_eq_parse stopped] at log reached
  cases furthest : (parse grammar input).furthest with
  | none =>
      rw [furthest] at reached
      exact absurd reached Option.not_some_le_none
  | some offset =>
      rw [furthest] at log
      rw [← stateAt_eq_parse stopped] at furthest
      obtain ⟨earlier, turnedDown, rfl⟩ := exists_reject_of_furthest furthest
      exact ⟨earlier, _, examines_of_reject turnedDown, rfl, log⟩

theorem parse_log_of_undefined {input : Input α} {made : Nat} {name : String}
    (undefined : Proposes grammar input (stateAt grammar input made) (.undefined name)) :
    (parse grammar input).log = [.undefinedReference name] := by
  have ends := undefined_ends undefined
  rw [← stateAt_eq_parse ends.stopped, ends.log]

theorem parse_log_of_missing_entry {input : Input α} (missing : grammar.lookup? entryName = none) :
    (parse grammar input).log = [.missingEntry] := by
  have begun : stateAt grammar input 0 = _ := start_of_missing_entry missing
  have stopped : (stateAt grammar input 0).stopped = true := by rw [begun]
  rw [← stateAt_eq_parse stopped, begun]

/-- What is wrong with a run can be traced back to what it has looked at: it misses after a
terminal was turned down, or there is something wrong with the grammar. -/
inductive Traceable (grammar : Grammar) (input : Input α) : Prop
  | missed {made rejected} : Concludes grammar input made .missed →
      Proposes grammar input (stateAt grammar input rejected) .reject → Traceable grammar input
  | missingEntry : grammar.lookup? entryName = none → Traceable grammar input
  | undefined {made name} :
      Proposes grammar input (stateAt grammar input made) (.undefined name) →
      Traceable grammar input

theorem located_congr [Element α] {left right : Input α} {offset : Nat}
    (place : left.position offset = right.position offset) (message : String) :
    Diagnostic.message.located right message offset =
      Diagnostic.message.located left message offset := by
  unfold Diagnostic.message.located
  rw [place]

theorem logOfMissed_message [Element α] {left right : Input α} {offset : Nat}
    (place : left.position offset = right.position offset) :
    (logOfMissed left (some offset)).map (Diagnostic.message right) =
      (logOfMissed left (some offset)).map (Diagnostic.message left) := by
  unfold logOfMissed
  rw [Option.getD_some]
  cases left.element? offset with
  | some element => exact congrArg (fun line => [line]) (located_congr place _)
  | none => exact congrArg (fun line => [line]) (located_congr place _)

theorem LookAlike.log_eq [Element α] {left right : Input α}
    (alike : LookAlike grammar left right) (traceable : Traceable grammar left)
    (places : ∀ made offset, Examines grammar left made offset →
      left.position offset = right.position offset) :
    (parse grammar right).log = (parse grammar left).log ∧
      (parse grammar right).logLines right = (parse grammar left).logLines left := by
  unfold State.logLines
  cases traceable with
  | missed concludes rejects =>
      obtain ⟨earlier, offset, examines, furthest, leftLog⟩ :=
        exists_log_of_missed concludes rejects
      obtain ⟨_, other, _, rightFurthest, rightLog⟩ :=
        exists_log_of_missed (alike.concludes_iff.mpr concludes) (alike.proposes_iff.mpr rejects)
      have same := congrArg State.furthest alike.parse_unlogged
      rw [unlogged_furthest, unlogged_furthest, rightFurthest, furthest] at same
      have log : logOfMissed right (some offset) = logOfMissed left (some offset) := by
        rw [logOfMissed, logOfMissed, Option.getD_some, alike.shown earlier offset examines]
      rw [leftLog, rightLog, same, log]
      exact ⟨rfl, logOfMissed_message (places earlier offset examines)⟩
  | missingEntry missing =>
      rw [parse_log_of_missing_entry missing, parse_log_of_missing_entry missing]
      exact ⟨rfl, rfl⟩
  | undefined undefined =>
      rw [parse_log_of_undefined undefined,
        parse_log_of_undefined (alike.proposes_iff.mpr undefined)]
      exact ⟨rfl, rfl⟩

/-! ## Texts -/

section Texts

variable {left right : Source} {offset : Nat}

theorem element?_ofSource (source : Source) (offset : Nat) :
    (Input.ofSource source).element? offset = source.characters[offset]? :=
  List.getElem?_toArray

theorem position_congr
    (same : ∀ place ≤ offset, left.characters[place]? = right.characters[place]?) :
    (Input.ofSource left).position offset = (Input.ofSource right).position offset := by
  have before : left.characters.take offset = right.characters.take offset := by
    apply List.ext_getElem?
    intro place
    rw [List.getElem?_take, List.getElem?_take]
    split
    · next within => exact same place (Nat.le_of_lt within)
    · rfl
  exact congrArg Lines.describe (Lines.locate_congr before)

end Texts

/-- A run on a text depends only on the characters up to those that its terminals have looked
at. On every text that has the same of these, ends included, a run takes the same moves to the
same end; and if it fails for a reason that can be traced back to what it has looked at, it
writes the same lines. -/
theorem run_depends_on_examined (grammar : Grammar) {left right : Source}
    (agree : ∀ made offset, Examines grammar (.ofSource left) made offset →
      ∀ place ≤ offset, left.characters[place]? = right.characters[place]?) :
    let first := Input.ofSource left
    let second := Input.ofSource right
    (∀ made, (stateAt grammar second made).unlogged = (stateAt grammar first made).unlogged) ∧
    (∀ made outcome, Concludes grammar second made outcome ↔
      Concludes grammar first made outcome) ∧
    (parse grammar second).unlogged = (parse grammar first).unlogged ∧
    (Traceable grammar first →
      (parse grammar second).log = (parse grammar first).log ∧
        (parse grammar second).logLines second = (parse grammar first).logLines first) := by
  intro first second
  have alike : LookAlike grammar first second := by
    refine ⟨rfl, ?_⟩
    intro made offset examines
    rw [element?_ofSource, element?_ofSource]
    exact agree made offset examines offset (Nat.le_refl offset)
  refine ⟨alike.stateAt_unlogged, ?_, alike.parse_unlogged, ?_⟩
  · intro made outcome
    exact alike.concludes_iff
  · intro traceable
    apply alike.log_eq traceable
    intro made offset examines
    exact position_congr (agree made offset examines)

def lineThenLetter : Grammar := .ofRules [
  (entryName, .choice [.sequence [.terminal "a\n", .terminal "b"], .terminal "c"])]

theorem lineThenLetter_depends_on_examined :
    let left : Source := ⟨['a', '\n', 'x', ';'], none⟩
    let right : Source := ⟨['a', '\n', 'x', 'y', 'z'], none⟩
    let first := Input.ofSource left
    let second := Input.ofSource right
    (∀ made offset, Examines lineThenLetter first made offset →
      ∀ place ≤ offset, left.characters[place]? = right.characters[place]?) ∧
    (∀ made, (stateAt lineThenLetter second made).unlogged =
      (stateAt lineThenLetter first made).unlogged) ∧
    (∀ made outcome, Concludes lineThenLetter second made outcome ↔
      Concludes lineThenLetter first made outcome) ∧
    (parse lineThenLetter second).unlogged = (parse lineThenLetter first).unlogged ∧
    Traceable lineThenLetter first ∧
      (parse lineThenLetter second).log = (parse lineThenLetter first).log ∧
      (parse lineThenLetter second).logLines second =
        (parse lineThenLetter first).logLines first := by
  intro left right first second
  have near : ∀ made, (stateAt lineThenLetter first made).cursor ≤ 2 := by
    have early : ∀ made < 11, (stateAt lineThenLetter first made).cursor ≤ 2 := by decide +kernel
    have ended : (stateAt lineThenLetter first 10).stopped = true := by decide +kernel
    intro made
    rcases Nat.lt_or_ge made 11 with within | beyond
    · exact early made within
    · rw [← Nat.add_sub_of_le (Nat.le_of_lt beyond), stateAt_of_stopped ended]
      exact early 10 (by decide)
  have same : ∀ place ≤ 2, left.characters[place]? = right.characters[place]? := by decide
  have agree : ∀ made offset, Examines lineThenLetter first made offset →
      ∀ place ≤ offset, left.characters[place]? = right.characters[place]? := by
    rintro made offset ⟨_, rfl, _⟩ place within
    exact same place (Nat.le_trans within (near made))
  have concludes : Concludes lineThenLetter first 9 .missed := by
    refine ⟨⟨.choice [.sequence [.terminal "a\n", .terminal "b"], .terminal "c"], 0, .tried 2,
      some .missed⟩, .tried 2, .backtrack, ⟨?_, ?_, ?_⟩, rfl⟩ <;> decide +kernel
  have rejects : Proposes lineThenLetter first (stateAt lineThenLetter first 5) .reject := by
    have visit : Visit lineThenLetter first (stateAt lineThenLetter first 5)
        (.begin (.terminal "b") 2) (stateAt lineThenLetter first 5).stack.tail (.taken [])
        .reject := by
      constructor <;> decide +kernel
    exact visit.proposes
  have traceable : Traceable lineThenLetter first := .missed concludes rejects
  obtain ⟨states, outcomes, ends, logs⟩ := run_depends_on_examined lineThenLetter agree
  exact ⟨agree, states, outcomes, ends, traceable, logs traceable⟩

end Machine

end OrderedChoice
