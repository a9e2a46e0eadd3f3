import OrderedChoice.Proofs.Machine.Readiness

/-! What the log of a whole run says. A run that misses its outermost frame shows the furthest
place at which some terminal was turned down, wherever that terminal stood and whatever became
of the expressions around it. A run that finds it shows where input is left over, if any is. -/

namespace OrderedChoice

namespace Machine

variable {α : Type} {grammar : Grammar} {input : Input α}

/-! ## Terminals that are turned down -/

/-- The frame on top is a terminal, and the element at the cursor does not meet the condition
that its pattern puts on it: that of the same number as the elements that it has taken. Where
the input has ended there is no element to meet it. -/
def TurnsDown (input : Input α) (state : State α) : Prop :=
  state.stopped = false ∧ ∃ frame below pattern test,
    state.stack = frame :: below ∧ frame.expr = .terminal pattern ∧
      (input.tests pattern)[state.cursor - frame.entry]? = some test ∧
      ∀ element, input.element? state.cursor = some element → test element = false

theorem visitTerminal_reject_iff {cursor entry : Nat} {pattern : String} {taken : List α} :
    (visitTerminal input cursor entry pattern taken).2 = .reject ↔
      ∃ test, (input.tests pattern)[taken.length]? = some test ∧
        ∀ element, input.element? cursor = some element → test element = false := by
  unfold visitTerminal
  dsimp only
  cases current : (input.tests pattern)[taken.length]? with
  | none =>
      simp only [reduceCtorEq, false_and, exists_false, iff_false]
      split <;> nofun
  | some test =>
      have conditions : (input.tests pattern).isEmpty = false := by
        cases tests : input.tests pattern with
        | nil => rw [tests] at current; cases current
        | cons => rfl
      rw [conditions, if_neg Bool.false_ne_true]
      cases present : input.element? cursor with
      | none => simp
      | some element =>
          cases holds : test element with
          | false => simp [holds]
          | true =>
              simp only [if_true, Option.some.injEq, exists_eq_left', forall_eq', holds,
                Bool.true_eq_false, iff_false]
              split <;> nofun

theorem Poised.visit_terminal {frame : Frame α} {below : List (Frame α)} {cursor : Nat}
    {pattern : String} (poised : Poised grammar input (frame :: below) cursor)
    (terminal : frame.expr = .terminal pattern) (active : List (String × Nat)) :
    ∃ taken, cursor - frame.entry = taken.length ∧
      frame.visit grammar input active cursor =
        visitTerminal input cursor frame.entry pattern taken := by
  cases poised with
  | begins =>
      cases terminal
      exact ⟨[], Nat.sub_self _, rfl⟩
  | takes _ _ _ =>
      cases terminal
      exact ⟨_, Nat.add_sub_cancel_left _ _, rfl⟩
  | found awaits => cases awaits <;> cases terminal
  | missed awaits => cases awaits <;> cases terminal

theorem turnsDown_iff {made : Nat} :
    TurnsDown input (stateAt grammar input made) ↔
      Proposes grammar input (stateAt grammar input made) .reject := by
  constructor
  · rintro ⟨running, frame, below, pattern, test, stack, terminal, current, unmet⟩
    rcases exists_visit grammar input running stack with ⟨progress, move, visit⟩
    have poised := (stateAt_steady grammar input made).poised stack
    rcases poised.visit_terminal terminal (stateAt grammar input made).active with
      ⟨taken, count, visited⟩
    rw [count] at current
    have rejects : (visitTerminal input _ frame.entry pattern taken).2 = .reject :=
      visitTerminal_reject_iff.mpr ⟨test, current, unmet⟩
    rw [← visited, visit.visit] at rejects
    exact visit.proposes_iff.mpr rejects
  · intro proposes
    rcases exists_visit_of_proposes proposes with ⟨frame, below, progress, visit⟩
    rcases terminal_of_reject visit.visit with ⟨pattern, terminal, _⟩
    have poised := (stateAt_steady grammar input made).poised visit.stack
    rcases poised.visit_terminal terminal (stateAt grammar input made).active with
      ⟨taken, count, visited⟩
    have rejects := congrArg Prod.snd (visited.symm.trans visit.visit)
    rcases visitTerminal_reject_iff.mp rejects with ⟨test, current, unmet⟩
    rw [← count] at current
    exact ⟨visit.running, frame, below, pattern, test, visit.stack, terminal, current, unmet⟩

/-! ## The furthest refusal -/

/-- An offset is the greatest at which a run turns a terminal down, in whatever state, or zero
if it turns none down. -/
def Furthest (grammar : Grammar) (input : Input α) (offset : Nat) : Prop :=
  (∀ made, TurnsDown input (stateAt grammar input made) →
      (stateAt grammar input made).cursor ≤ offset) ∧
    ((∃ made, TurnsDown input (stateAt grammar input made) ∧
        (stateAt grammar input made).cursor = offset) ∨
      (∀ made, ¬ TurnsDown input (stateAt grammar input made)) ∧ offset = 0)

theorem furthest_of_stopped {made : Nat}
    (stopped : (stateAt grammar input made).stopped = true) :
    Furthest grammar input ((stateAt grammar input made).furthest.getD 0) := by
  have kept : ∀ earlier, TurnsDown input (stateAt grammar input earlier) →
      some (stateAt grammar input earlier).cursor ≤ (stateAt grammar input made).furthest := by
    intro earlier turnsDown
    exact cursor_le_furthest (turnsDown_iff.mp turnsDown) (lt_of_stopped turnsDown.1 stopped)
  cases furthest : (stateAt grammar input made).furthest with
  | none =>
      rw [furthest] at kept
      have never : ∀ earlier, ¬ TurnsDown input (stateAt grammar input earlier) :=
        fun earlier turnsDown => Option.not_some_le_none (kept earlier turnsDown)
      exact ⟨fun earlier turnsDown => absurd turnsDown (never earlier), .inr ⟨never, rfl⟩⟩
  | some offset =>
      rw [furthest] at kept
      rcases exists_reject_of_furthest furthest with ⟨earlier, rejects, here⟩
      refine ⟨?_, .inl ⟨earlier, turnsDown_iff.mpr rejects, here⟩⟩
      exact fun earlier turnsDown => Option.some_le_some.mp (kept earlier turnsDown)

/-! ## Reports -/

variable [Element α]

inductive ReportsMissed (input : Input α) (offset : Nat) (final : State α) : Prop
  | ended :
      offset = input.size →
      final.log = [.unexpectedEnd offset] →
      final.logLines input =
        ["[error] " ++ "unexpected end of input" ++ " @ " ++ input.position offset] →
      ReportsMissed input offset final
  | element (found) :
      input.Holds offset found →
      final.log = [.unexpected found offset] →
      final.logLines input =
        ["[error] " ++ ("unexpected " ++ Element.display found) ++ " @ " ++
          input.position offset] →
      ReportsMissed input offset final

inductive ReportsFound (input : Input α) (final : State α) : Prop
  | whole : final.cursor = input.size → final.log = [] → ReportsFound input final
  | left (found) :
      input.Holds final.cursor found →
      final.log = [.expectedEnd found final.cursor] →
      final.logLines input =
        ["[error] " ++ ("expected end of input, got: " ++ Element.display found) ++ " @ " ++
          input.position final.cursor] →
      ReportsFound input final

theorem Concludes.reportsMissed {made : Nat} (concludes : Concludes grammar input made .missed) :
    let final := stateAt grammar input (made + 1)
    ReportsMissed input (final.furthest.getD 0) final := by
  intro final
  have log := concludes.missed.log
  unfold logOfMissed at log
  rcases holds_or_ended (furthest_le_size grammar input (made + 1)) with
    ⟨found, holds⟩ | ⟨ended, absent⟩
  · rw [holds.2] at log
    exact .element found holds log (by rw [State.logLines, log]; rfl)
  · rw [absent] at log
    exact .ended ended log (by rw [State.logLines, log]; rfl)

theorem Concludes.reportsFound {made : Nat} {tree : Tree α}
    (concludes : Concludes grammar input made (.found tree)) :
    ReportsFound input (stateAt grammar input (made + 1)) := by
  have ends := concludes.found
  have log := ends.log
  unfold logOfFound at log
  rcases holds_or_ended ends.inside with ⟨found, holds⟩ | ⟨ended, absent⟩
  · rw [holds.2] at log
    exact .left found holds log (by rw [State.logLines, log]; rfl)
  · rw [absent] at log
    exact .whole ended log

/-- A whole run that misses its outermost frame is back at the start of the input and writes one
line, about the greatest offset at which any terminal has been turned down, also inside what
was found or given up around it. That offset is not beyond the input; the line speaks of the end
exactly where it is the end, and otherwise shows the element. A run that finds its outermost
frame writes nothing exactly if it has taken the whole input, and otherwise one line about the
element where it stopped. -/
theorem run_reports_furthest_refusal {last : Nat} {outcome : Outcome α}
    (concludes : Concludes grammar input last outcome) :
    let final := stateAt grammar input (last + 1)
    final = parse grammar input ∧ final.stopped = true ∧ final.depth = 0 ∧
      match outcome with
      | .missed =>
          final.cursor = 0 ∧ ∃ offset, Furthest grammar input offset ∧ offset ≤ input.size ∧
            ReportsMissed input offset final ∧
            (final.log = [.unexpectedEnd offset] ↔ offset = input.size)
      | .found tree =>
          final.tree = tree ∧ final.cursor ≤ input.size ∧ ReportsFound input final ∧
            (final.log = [] ↔ final.cursor = input.size) := by
  intro final
  cases outcome with
  | missed =>
      have ends := concludes.missed
      have reports := concludes.reportsMissed
      refine ⟨stateAt_eq_parse ends.stopped, ends.stopped, congrArg List.length ends.stack,
        ends.cursor, final.furthest.getD 0, furthest_of_stopped ends.stopped,
        furthest_le_size grammar input (last + 1), reports, ?_⟩
      cases reports with
      | ended ended log _ => exact ⟨fun _ => ended, fun _ => log⟩
      | element found holds log _ =>
          constructor
          · intro other
            rw [log] at other
            cases other
          · intro ended
            exact absurd holds.1 (Nat.not_lt_of_ge (Nat.le_of_eq ended.symm))
  | found tree =>
      have ends := concludes.found
      have reports := concludes.reportsFound
      refine ⟨stateAt_eq_parse ends.stopped, ends.stopped, congrArg List.length ends.stack,
        ends.tree, ends.inside, reports, ?_⟩
      rw [ends.log, logOfFound_eq_nil]
      constructor
      · exact fun whole => Nat.le_antisymm ends.inside whole
      · exact fun whole => Nat.le_of_eq whole.symm

def optionBetween : Grammar := .ofRules [
  (entryName, .choice [
    .sequence [.terminal "a", .optional (.terminal "bc"), .terminal "d"], .terminal "x"])]

/-- The report is about the option, which was found absent, and not about the letter after it,
where the alternative was given up. -/
theorem optionBetween_reports_option :
    let input := Input.ofText "abe"
    let final := stateAt optionBetween input 14
    Concludes optionBetween input 13 .missed ∧ final.furthest = some 2 ∧
      final = parse optionBetween input ∧ final.stopped = true ∧ final.depth = 0 ∧
      final.cursor = 0 ∧ ∃ offset, Furthest optionBetween input offset ∧ offset ≤ input.size ∧
        ReportsMissed input offset final ∧
        (final.log = [.unexpectedEnd offset] ↔ offset = input.size) := by
  intro input final
  have concludes : Concludes optionBetween input 13 .missed := by
    refine ⟨⟨.choice [.sequence [.terminal "a", .optional (.terminal "bc"), .terminal "d"],
      .terminal "x"], 0, .tried 2, some .missed⟩, .tried 2, .backtrack, ⟨?_, ?_, ?_⟩, rfl⟩
    · decide +kernel
    · decide +kernel
    · decide +kernel
  have furthest : final.furthest = some 2 := by decide +kernel
  exact ⟨concludes, furthest, run_reports_furthest_refusal concludes⟩

end Machine

end OrderedChoice
