import OrderedChoice.Proofs.Grammar.References
import OrderedChoice.Proofs.Grammar.Shape
import OrderedChoice.Proofs.Machine.Lifecycle

/-! What a run can have against its grammar. Every frame on a stack stands for a part of some
definition, so a reference without a rule is one that validation collects. A machine that reads
by a valid grammar never blames the grammar: its runs are halted by somebody, or they end with
the outermost frame. -/

namespace OrderedChoice

/-! ## Diagnostics -/

namespace Diagnostic

/-- What a run that is left alone can write to its log. Where it blames the grammar it is
right. -/
def Due {α : Type} (grammar : Grammar) : Diagnostic α → Prop
  | .missingEntry => entryName ∉ grammar.names
  | .undefinedReference name => grammar.Dangling name
  | .halted _ => False
  | .expectedEnd .. | .unexpected .. | .unexpectedEnd _ => True

theorem not_schemaError_located {α : Type} (input : Input α) (message : String) (offset : Nat) :
    ¬ "[schema error]".toList <+: (Diagnostic.message.located input message offset).toList := by
  unfold Diagnostic.message.located
  simp [String.toList_append]

def undefinedLetters (name : String) : List Char :=
  "[schema error] non-terminal \"".toList ++ (name.toList ++ "\" is not defined.".toList)

theorem undefinedLetters_injective {left right : String}
    (same : undefinedLetters left = undefinedLetters right) : left = right := by
  unfold undefinedLetters at same
  rw [List.append_cancel_left_eq, List.append_cancel_right_eq] at same
  exact String.toList_inj.mp same

theorem toList_message_undefined (name : String) :
    (s!"[schema error] non-terminal \"{name}\" is not defined.").toList =
      undefinedLetters name := by
  unfold undefinedLetters
  simp only [toString, String.toList_append, List.append_assoc]

variable {α : Type} [Element α] {input : Input α} {diagnostic : Diagnostic α}

theorem of_schemaError
    (begins : "[schema error]".toList <+: (diagnostic.message input).toList) :
    diagnostic = .missingEntry ∨ ∃ name, diagnostic = .undefinedReference name := by
  cases diagnostic with
  | missingEntry => exact .inl rfl
  | undefinedReference name => exact .inr ⟨name, rfl⟩
  | halted | expectedEnd | unexpected | unexpectedEnd =>
      exact absurd begins (not_schemaError_located input _ _)

theorem eq_of_message_undefined {name : String}
    (same : diagnostic.message input =
      s!"[schema error] non-terminal \"{name}\" is not defined.") :
    diagnostic = .undefinedReference name := by
  have letters := congrArg String.toList same
  rw [toList_message_undefined] at letters
  have begins : "[schema error] n".toList <+: (diagnostic.message input).toList := by
    rw [letters]
    unfold undefinedLetters
    simp
  have schemaError : "[schema error]".toList <+: "[schema error] n".toList := by simp
  rcases of_schemaError (schemaError.trans begins) with rfl | ⟨other, rfl⟩
  · change "[schema error] n".toList <+:
      "[schema error] the schema has no \"ENTRY\" rule.".toList at begins
    simp at begins
  · have equal := (toList_message_undefined other).symm.trans letters
    rw [undefinedLetters_injective equal]

end Diagnostic

namespace Machine

variable {α : Type} {grammar : Grammar} {input : Input α}

/-! ## Frames and definitions -/

theorem Awaits.partOf {stack : List (Frame α)} {part : Expr} {offset : Nat}
    (awaits : Awaits grammar input stack part offset) :
    ∃ rule ∈ grammar.rules, part.PartOf rule.2 := by
  induction awaits with
  | entry defined => exact ⟨_, Grammar.mem_rules_of_lookup? defined, .self⟩
  | reference _ defined _ => exact ⟨_, Grammar.mem_rules_of_lookup? defined, .self⟩
  | choice _ current induction =>
      rcases induction with ⟨rule, member, within⟩
      have part := Expr.PartOf.choice (List.mem_of_getElem? current) .self
      exact ⟨rule, member, part.trans within⟩
  | sequence _ _ current induction =>
      rcases induction with ⟨rule, member, within⟩
      have part := Expr.PartOf.sequence (List.mem_of_getElem? current) .self
      exact ⟨rule, member, part.trans within⟩
  | @optional _ operand _ _ induction =>
      rcases induction with ⟨rule, member, within⟩
      have part : operand.PartOf (.optional operand) := .optional .self
      exact ⟨rule, member, part.trans within⟩
  | @repetition _ operand _ _ _ _ _ induction =>
      rcases induction with ⟨rule, member, within⟩
      have part : operand.PartOf (.repetition operand) := .repetition .self
      exact ⟨rule, member, part.trans within⟩

theorem reference_of_undefined {frame : Frame α} {active : List (String × Nat)} {cursor : Nat}
    {progress : Progress α} {name : String}
    (visit : frame.visit grammar input active cursor = (progress, .undefined name)) :
    frame.expr = .reference name ∧ grammar.lookup? name = none := by
  unfold Frame.visit visitTerminal visitReference visitChoice visitSequence visitRepetition
    closeRepetition at visit
  dsimp only at visit
  repeat' split at visit
  all_goals cases visit
  next missing => exact ⟨‹frame.expr = .reference name›, missing⟩

theorem dangling_of_proposes {made : Nat} {name : String}
    (undefined : Proposes grammar input (stateAt grammar input made) (.undefined name)) :
    grammar.Dangling name := by
  rcases exists_visit_of_proposes undefined with ⟨frame, below, progress, visit⟩
  rcases reference_of_undefined visit.visit with ⟨reference, missing⟩
  have awaits := ((stateAt_steady grammar input made).poised visit.stack).under
  rw [reference] at awaits
  exact ⟨awaits.partOf, Grammar.not_mem_names_of_lookup? missing⟩

/-! ## Logs -/

theorem logOfFound_due (grammar : Grammar) (input : Input α) (stop : Nat) :
    ∀ diagnostic ∈ logOfFound input stop, Diagnostic.Due grammar diagnostic := by
  unfold logOfFound
  split
  · exact List.forall_mem_singleton.mpr trivial
  · exact List.forall_mem_nil _

theorem logOfMissed_due (grammar : Grammar) (input : Input α) (furthest : Option Nat) :
    ∀ diagnostic ∈ logOfMissed input furthest, Diagnostic.Due grammar diagnostic := by
  unfold logOfMissed
  split <;> exact List.forall_mem_singleton.mpr trivial

theorem stateAt_due (grammar : Grammar) (input : Input α) (made : Nat) :
    ∀ diagnostic ∈ (stateAt grammar input made).log, Diagnostic.Due grammar diagnostic := by
  apply stateAt_cases fun state => ∀ diagnostic ∈ state.log, Diagnostic.Due grammar diagnostic
  case goes =>
    intro made running
    rw [(clear_of_running running).2]
    exact List.forall_mem_nil _
  case missing =>
    intro missing
    exact List.forall_mem_singleton.mpr (Grammar.not_mem_names_of_lookup? missing)
  case found =>
    intro last tree concludes
    rw [concludes.found.log]
    exact logOfFound_due grammar input _
  case missed =>
    intro last concludes
    rw [concludes.missed.log]
    exact logOfMissed_due grammar input _
  case undefined =>
    intro last name undefined
    rw [(undefined_ends undefined).log]
    exact List.forall_mem_singleton.mpr (dangling_of_proposes undefined)

/-! ## Halts -/

def Call.Halts : Call → Prop
  | .step halted => halted = true
  | .stop => True
  | .exec haltedAfter => haltedAfter.isSome = true
  | .restart | .result => False

theorem Call.perform_stateAt {call : Call} (harmless : ¬ call.Halts) (made : Nat) :
    ∃ later, call.perform grammar input (stateAt grammar input made) =
      stateAt grammar input later := by
  cases call with
  | step halted =>
      cases halted with
      | false => exact ⟨made + 1, (stateAt_succ grammar input made).symm⟩
      | true => exact absurd rfl harmless
  | stop => exact absurd trivial harmless
  | restart => exact ⟨0, rfl⟩
  | exec haltedAfter =>
      cases haltedAfter with
      | none =>
          refine ⟨made + moveCount grammar input, ?_⟩
          rw [Call.perform, exec_eq_iterate, iterate_stateAt]
      | some count => exact absurd rfl harmless
  | result => exact ⟨made, rfl⟩

section Halted

variable [Element α]

theorem not_haltedAt_stateAt (made offset : Nat) :
    ¬ HaltedAt input offset (stateAt grammar input made) := by
  intro halted
  apply stateAt_due grammar input made (.halted offset)
  rw [halted.log]
  exact List.mem_singleton_self _

/-- One of some calls stops the run, and none after it begins a new one. -/
def Halting (calls : List Call) : Prop :=
  ∃ before halt after, calls = before ++ halt :: after ∧ halt.Halts ∧ Call.restart ∉ after

theorem Halting.cons {calls : List Call} (halting : Halting calls) (call : Call) :
    Halting (call :: calls) := by
  rcases halting with ⟨before, halt, after, split, halts, goes⟩
  exact ⟨call :: before, halt, after, congrArg (call :: ·) split, halts, goes⟩

/-- A machine that is halted after some calls has been halted before them already, or by one
of them. -/
theorem halting_of_haltedAt {state : State α} (reached : Reached grammar input state)
    {calls : List Call} {offset : Nat}
    (halted : HaltedAt input offset (calls.foldl (Call.perform grammar input) state)) :
    (∃ offset, HaltedAt input offset state) ∧ Call.restart ∉ calls ∨ Halting calls := by
  induction calls generalizing state with
  | nil => exact .inl ⟨⟨offset, halted⟩, List.not_mem_nil⟩
  | cons call calls induction =>
      rcases induction (reached.perform call) halted with ⟨⟨here, ended⟩, goes⟩ | later
      · by_cases halts : call.Halts
        · exact .inr ⟨[], call, calls, rfl, halts, goes⟩
        · left
          rcases reached.halted_or_undisturbed with before | ⟨made, alone⟩
          · refine ⟨before, ?_⟩
            intro member
            rcases List.mem_cons.mp member with restarts | member
            · rw [← restarts] at ended
              exact absurd ended (not_haltedAt_stateAt 0 here)
            · exact goes member
          · rcases Call.perform_stateAt halts made with ⟨later, same⟩
            rw [alone, same] at ended
            exact absurd ended (not_haltedAt_stateAt later here)
      · exact .inr (later.cons call)

theorem halting_of_afterCalls {calls : List Call} {offset : Nat}
    (halted : HaltedAt input offset (afterCalls grammar input calls)) : Halting calls := by
  have begins : Reached grammar input (.start grammar) := .undisturbed 0
  rcases halting_of_haltedAt begins halted with ⟨⟨here, before⟩, _⟩ | halting
  · exact absurd before (not_haltedAt_stateAt 0 here)
  · exact halting

/-! ## Calls -/

theorem afterCalls_due (grammar : Grammar) (input : Input α) (calls : List Call) :
    ∀ diagnostic ∈ (afterCalls grammar input calls).log,
      Diagnostic.Due grammar diagnostic ∨ ∃ offset, diagnostic = .halted offset := by
  intro diagnostic member
  rcases (reached_afterCalls grammar input calls).halted_or_undisturbed with
    ⟨offset, halted⟩ | ⟨made, alone⟩
  · rw [halted.log] at member
    exact .inr ⟨offset, List.mem_singleton.mp member⟩
  · rw [alone] at member
    exact .inl (stateAt_due grammar input made diagnostic member)

end Halted

/-! ## Valid grammars -/

theorem not_dangling_of_valid (valid : grammar.validate = .ok ()) (name : String) :
    ¬ grammar.Dangling name := by
  intro dangling
  rcases Grammar.mem_undefinedNames.mp (Grammar.mem_undefinedNames_iff.mpr dangling) with
    ⟨mentioned, absent⟩
  exact absent ((Grammar.validate_eq_ok_iff.mp valid).2 name mentioned)

theorem exists_concludes_of_valid (valid : grammar.validate = .ok ()) (input : Input α) :
    ∃ last outcome, Concludes grammar input last outcome ∧
      parse grammar input = stateAt grammar input (last + 1) := by
  rcases stopped_cases (iterate_moveCount_stopped grammar input) with
    ⟨missing, _⟩ | ⟨last, ended, ⟨outcome, concludes⟩ | ⟨name, undefined⟩⟩
  · have entry := (Grammar.validate_eq_ok_iff.mp valid).1
    exact absurd entry (Grammar.not_mem_names_of_lookup? missing)
  · exact ⟨last, outcome, concludes, (parse_eq_stateAt grammar input).trans ended.symm⟩
  · exact absurd (dangling_of_proposes undefined) (not_dangling_of_valid valid name)

theorem exec_stateAt (made : Nat) :
    (stateAt grammar input made).exec grammar input = parse grammar input := by
  rw [exec_eq_iterate, iterate_stateAt]
  apply stateAt_eq_parse
  rw [Nat.add_comm, stateAt_of_stopped]
  · exact iterate_moveCount_stopped grammar input
  · exact iterate_moveCount_stopped grammar input

variable [Element α]

theorem not_schemaError_of_valid (valid : grammar.validate = .ok ()) (calls : List Call) :
    ∀ line ∈ (afterCalls grammar input calls).logLines input,
      ¬ "[schema error]".toList <+: line.toList := by
  intro line shown begins
  rcases List.mem_map.mp shown with ⟨diagnostic, member, rfl⟩
  rcases afterCalls_due grammar input calls diagnostic member with due | ⟨offset, rfl⟩
  · rcases Diagnostic.of_schemaError begins with rfl | ⟨name, rfl⟩
    · exact due (Grammar.validate_eq_ok_iff.mp valid).1
    · exact not_dangling_of_valid valid name due
  · exact Diagnostic.not_schemaError_located input _ _ begins

theorem halted_or_concludes_of_valid (valid : grammar.validate = .ok ()) (calls : List Call) :
    let state := afterCalls grammar input calls
    (Halting calls ∧ ∃ offset, HaltedAt input offset state) ∨
      ∃ last outcome, Concludes grammar input last outcome ∧
        state.exec grammar input = stateAt grammar input (last + 1) := by
  intro state
  rcases (reached_afterCalls grammar input calls).halted_or_undisturbed with
    ⟨offset, halted⟩ | ⟨made, alone⟩
  · exact .inl ⟨halting_of_afterCalls halted, offset, halted⟩
  · rcases exists_concludes_of_valid valid input with ⟨last, outcome, concludes, ended⟩
    refine .inr ⟨last, outcome, concludes, ?_⟩
    unfold state
    rw [alone, exec_stateAt, ended]

theorem undefined_name_is_listed (entry : entryName ∈ grammar.names) {calls : List Call}
    {name : String}
    (shown : s!"[schema error] non-terminal \"{name}\" is not defined." ∈
      (afterCalls grammar input calls).logLines input) :
    ∃ names, grammar.validate = .error (.undefinedReferences names) ∧ name ∈ names := by
  rcases List.mem_map.mp shown with ⟨diagnostic, member, same⟩
  rw [Diagnostic.eq_of_message_undefined same] at member
  have dangling : grammar.Dangling name := by
    rcases afterCalls_due grammar input calls _ member with due | ⟨offset, halted⟩
    · exact due
    · cases halted
  have listed := Grammar.mem_undefinedNames_iff.mpr dangling
  refine ⟨grammar.undefinedNames, ?_, listed⟩
  rw [Grammar.validate_of_entry entry, if_neg (List.ne_nil_of_mem listed)]

/-- Validation and runs agree. By a valid grammar no run blames the grammar, whatever is asked
of the machine, and a run that none of the calls halts ends with its outermost frame, found or
missed. Where a run comes to a reference without a rule, validation refuses the grammar and
lists that name; and the names that it lists are those to which some definition refers at
whatever depth and which are no rules, each once and in ascending order. -/
theorem runs_blame_what_validation_lists (grammar : Grammar) (input : Input α)
    (calls : List Call) :
    let state := afterCalls grammar input calls
    (grammar.validate = .ok () →
      (∀ line ∈ state.logLines input, ¬ "[schema error]".toList <+: line.toList) ∧
        ((Halting calls ∧ ∃ offset, HaltedAt input offset state) ∨
          ∃ last outcome, Concludes grammar input last outcome ∧
            state.exec grammar input = stateAt grammar input (last + 1))) ∧
      (entryName ∈ grammar.names →
        (∀ name, s!"[schema error] non-terminal \"{name}\" is not defined." ∈
            state.logLines input →
          ∃ names, grammar.validate = .error (.undefinedReferences names) ∧ name ∈ names) ∧
        ∃ names : List String, names.Pairwise (· < ·) ∧
          (∀ name, name ∈ names ↔ grammar.Dangling name) ∧
          grammar.validate =
            if names = [] then .ok () else .error (.undefinedReferences names)) := by
  intro state
  constructor
  · intro valid
    exact ⟨not_schemaError_of_valid valid calls, halted_or_concludes_of_valid valid calls⟩
  · intro entry
    constructor
    · exact fun name shown => undefined_name_is_listed entry shown
    · exact ⟨grammar.undefinedNames, grammar.pairwise_undefinedNames,
        fun _ => Grammar.mem_undefinedNames_iff, Grammar.validate_of_entry entry⟩

def openChoice : Grammar := .ofRules [
  (entryName, .choice [.terminal "a", .optional (.reference "B")])]

def closedChoice : Grammar := .ofRules [
  (entryName, .choice [.terminal "a", .optional (.reference "B")]),
  ("B", .terminal "b")]

theorem openChoice_is_blamed :
    let input := Input.ofText "b"
    let calls := [Call.step false, .stop, .restart, .step false, .step false, .step false,
      .step false, .step false]
    let opened := afterCalls openChoice input calls
    let closed := afterCalls closedChoice input calls
    (closedChoice.validate = .ok () ∧
        (∀ line ∈ closed.logLines input, ¬ "[schema error]".toList <+: line.toList)) ∧
      (entryName ∈ openChoice.names ∧
        "[schema error] non-terminal \"B\" is not defined." ∈ opened.logLines input ∧
        ∃ names, openChoice.validate = .error (.undefinedReferences names) ∧ "B" ∈ names) := by
  intro input calls opened closed
  have valid : closedChoice.validate = .ok () := by rfl
  have entry : entryName ∈ openChoice.names := by decide +kernel
  have log : opened.log = [.undefinedReference "B"] := by decide +kernel
  have shown : "[schema error] non-terminal \"B\" is not defined." ∈ opened.logLines input := by
    rw [State.logLines, log]
    exact List.mem_singleton_self _
  constructor
  · exact ⟨valid, ((runs_blame_what_validation_lists closedChoice input calls).1 valid).1⟩
  · exact ⟨entry, shown,
      ((runs_blame_what_validation_lists openChoice input calls).2 entry).1 "B" shown⟩

end Machine

end OrderedChoice
