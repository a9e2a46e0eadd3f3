import OrderedChoice.Proofs.CommandLine.Display
import OrderedChoice.Proofs.Ebnf.Refusal
import OrderedChoice.Proofs.Machine.Ending

/-! The verdict of the program on its files. The complaints about the files depend on nothing but
their texts and, with an input, the rule to start at. Status, diagnostics and the message that all
went well follow from whether there are any. What is displayed and what is reported besides is
independent of them. -/

namespace OrderedChoice

namespace CommandLine

open Machine (Session TraceLine)

/-! ## Runs -/

/-- The lines that report a run to a watcher who halts no move. -/
def report (grammar : Grammar) (text : String) : List String :=
  (Session.start grammar (.ofText text) none).exec.2.map TraceLine.render

theorem neutral_outline_parse {grammar : Grammar} (legible : Legible grammar)
    (input : Input Char) : ∀ line ∈ (parse grammar input).tree.outline 0, Neutral line := by
  rcases Machine.parse_tree_cases grammar input with absent | ⟨definition, stop, entry, conforms⟩
  · rw [absent]
    exact neutral_outline_absent
  · have inline := legible.patterns _ (Grammar.mem_rules_of_lookup? entry)
    exact neutral_outline legible 0 inline conforms

namespace Job

variable (job : Job) (settings : Settings)

def complaints : List String :=
  (parse job.grammar (.ofText job.text)).logLines (.ofText job.text)

theorem complete_eq (verbose : Bool) :
    job.complete verbose =
      (parse job.grammar (.ofText job.text),
        if verbose then (Session.start job.grammar (.ofText job.text) none).exec.2 else []) := by
  cases verbose with
  | false => rfl
  | true =>
      have unhalted : (Session.start job.grammar (.ofText job.text) none).stopAt = none := rfl
      exact Prod.ext (Session.exec_state_of_unhalted unhalted) rfl

theorem isOk_parse :
    (parse job.grammar (.ofText job.text)).isOk = decide (job.complaints = []) := by
  rw [Machine.State.isOk, complaints, Machine.State.logLines]
  cases (parse job.grammar (.ofText job.text)).log <;> rfl

end Job

/-! ## Answers -/

/-- An answer that gives the status, the diagnostics and the message that complaints about a file
call for, besides lines that are displayed and reported. -/
structure Answers (path : String) (reports complaints : List String) (answer : Answer) :
    Prop where
  status : answer.status = if complaints = [] then 0 else 1
  stderr : answer.stderr = printed (reports ++ complaints)
  stdout : ∃ displayed, (∀ line ∈ displayed, Neutral line) ∧
    answer.stdout = printed (displayed ++ if complaints = [] then [message path] else [])

theorem Job.perform_answers {job : Job} (legible : Legible job.grammar) (settings : Settings) :
    Answers job.path (if settings.verbose then report job.grammar job.text else [])
      job.complaints (job.perform settings) := by
  simp only [perform, complete_eq, isOk_parse, decide_eq_true_eq]
  constructor
  · rfl
  · cases settings.verbose <;> rfl
  · refine ⟨_, ?_, rfl⟩
    rw [List.forall_mem_append]
    constructor
    · split
      · exact legible.neutral
      · exact List.forall_mem_nil _
    · split
      · exact neutral_outline_parse legible _
      · exact List.forall_mem_nil _

theorem answers_refusal {path : String} {lines : List String} (spoken : lines ≠ []) :
    Answers path [] lines ⟨1, "", printed lines⟩ := by
  constructor
  · rw [if_neg spoken]
  · rfl
  · refine ⟨[], List.forall_mem_nil _, ?_⟩
    rw [if_neg spoken]
    rfl

namespace Answers

variable {path : String} {reports complaints : List String} {answer : Answer}

theorem status_eq_zero_iff (answers : Answers path reports complaints answer) :
    answer.status = 0 ↔ complaints = [] := by
  rw [answers.status]
  split
  · next none => exact iff_of_true rfl none
  · next some => exact iff_of_false Nat.one_ne_zero some

theorem status_eq_one (answers : Answers path reports complaints answer)
    (bad : answer.status ≠ 0) : answer.status = 1 := by
  rw [answers.status, if_neg (mt answers.status_eq_zero_iff.mpr bad)]

theorem hasLine_iff (answers : Answers path reports complaints answer) :
    HasLine answer.stdout (message path) ↔ complaints = [] := by
  obtain ⟨displayed, neutral, stdout⟩ := answers.stdout
  rw [stdout]
  split
  · next none => exact iff_of_true (hasLine_printed_concat _ _) none
  · next some =>
      rw [List.append_nil]
      exact iff_of_false (not_hasLine_printed neutral path) some

end Answers

/-! ## Complaints -/

section Verdict

variable {files : String → Option String} {grammarPath : String} {inputPath : Option String}
  {start : Option StartWord} {grammarText : String} {inputText : Option String}

/-- Nothing is wrong with the texts: a grammar that is alone follows the notation, and one that
comes with an input can be read and accepts it. -/
def InOrder (start : Option StartWord) (grammarText : String) : Option String → Prop
  | none => (Ebnf.parseText grammarText).log = []
  | some inputText =>
      ∃ grammar, Ebnf.read grammarText (start.map StartWord.name) = .ok grammar ∧
        (parse grammar (.ofText inputText)).log = []

def complaints (start : Option StartWord) (grammarText : String) : Option String → List String
  | none => (Ebnf.parseText grammarText).logLines (.ofText grammarText)
  | some inputText =>
      match Ebnf.read grammarText (start.map StartWord.name) with
      | .error error => readErrorLines start error
      | .ok grammar => (parse grammar (.ofText inputText)).logLines (.ofText inputText)

/-- The lines that report the run that the texts call for. By a grammar that cannot be read
nothing is run. -/
def trace (start : Option StartWord) (grammarText : String) : Option String → List String
  | none => report Ebnf.grammar grammarText
  | some inputText =>
      match Ebnf.read grammarText (start.map StartWord.name) with
      | .error _ => []
      | .ok grammar => report grammar inputText

def traceLines (settings : Settings) (grammarText : String) (inputText : Option String) :
    List String :=
  if settings.verbose then trace settings.start grammarText inputText else []

theorem lines_ne_nil_of_read {name : Option String} {error : Ebnf.ReadError}
    (refused : Ebnf.read grammarText name = .error error) : error.lines ≠ [] := by
  by_cases clear : (Ebnf.parseText grammarText).log = []
  · cases error with
    | unfit cause => exact List.cons_ne_nil _ _
    | syntaxErrors lines =>
        -- a text without faults of notation is not refused for any
        simp only [Ebnf.read, Machine.State.isOk, clear, List.isEmpty_nil, if_true] at refused
        split at refused <;> cases refused
  · rw [Ebnf.read_of_log_ne_nil clear] at refused
    cases refused
    simpa [Ebnf.ReadError.lines, Machine.State.logLines] using clear

theorem readErrorLines_ne_nil {error : Ebnf.ReadError}
    (refused : Ebnf.read grammarText (start.map StartWord.name) = .error error) :
    readErrorLines start error ≠ [] := by
  unfold readErrorLines
  split
  · exact List.cons_ne_nil _ _
  · exact lines_ne_nil_of_read refused

theorem complaints_eq_nil_iff :
    complaints start grammarText inputText = [] ↔ InOrder start grammarText inputText := by
  cases inputText with
  | none => exact List.map_eq_nil_iff
  | some inputText =>
      rw [complaints, InOrder]
      cases reads : Ebnf.read grammarText (start.map StartWord.name) with
      | error error => simp [readErrorLines_ne_nil reads]
      | ok grammar => simp [Machine.State.logLines]

/-! ## Verdicts -/

theorem exists_answers (grammarThere : files grammarPath = some grammarText)
    (inputThere : inputPath.mapM files = some inputText) (settings : Settings) :
    ∃ answer, perform files ⟨grammarPath, inputPath, settings⟩ = .answer answer ∧
      Answers (inputPath.getD grammarPath) (traceLines settings grammarText inputText)
        (complaints settings.start grammarText inputText) answer := by
  simp only [perform, grammarThere]
  cases inputPath with
  | none =>
      cases inputThere
      let job : Job := ⟨Ebnf.grammar, grammarPath, grammarText⟩
      exact ⟨_, rfl, job.perform_answers legible_notation settings⟩
  | some path =>
      have opened : (files path).map some = some inputText := inputThere
      obtain ⟨text, found, rfl⟩ := Option.map_eq_some_iff.mp opened
      simp only [traceLines, trace, complaints]
      cases reads : Ebnf.read grammarText (settings.start.map StartWord.name) with
      | error error =>
          rw [ite_self]
          exact ⟨_, rfl, answers_refusal (readErrorLines_ne_nil reads)⟩
      | ok grammar =>
          let job : Job := ⟨grammar, path, text⟩
          refine ⟨job.perform settings, ?_, job.perform_answers (legible_of_read reads) _⟩
          simp only [found]
          rfl

/-- With its files there, the program ends with status zero exactly if they are in order, and with
one otherwise. It says that all went well exactly if the status is zero, and unless moves are
reported, standard error is empty exactly then. Status and diagnostics, which come after the
reported lines, stay the same with other settings, as long as the rule to start at stays the same
or there is no input. -/
theorem status_tells_truth (grammarThere : files grammarPath = some grammarText)
    (inputThere : inputPath.mapM files = some inputText) (settings : Settings) :
    ∃ answer, perform files ⟨grammarPath, inputPath, settings⟩ = .answer answer ∧
      (answer.status = 0 ↔ InOrder settings.start grammarText inputText) ∧
      (answer.status ≠ 0 → answer.status = 1) ∧
      (HasLine answer.stdout (message (inputPath.getD grammarPath)) ↔ answer.status = 0) ∧
      (settings.verbose = false → (answer.stderr = "" ↔ answer.status = 0)) ∧
      ∀ changed : Settings, changed.start = settings.start ∨ inputPath = none →
        ∃ other, perform files ⟨grammarPath, inputPath, changed⟩ = .answer other ∧
          other.status = answer.status ∧
          ∃ diagnostics,
            answer.stderr = printed (traceLines settings grammarText inputText ++ diagnostics) ∧
            other.stderr = printed (traceLines changed grammarText inputText ++ diagnostics) := by
  obtain ⟨answer, given, answers⟩ := exists_answers grammarThere inputThere settings
  refine ⟨answer, given, ?_, answers.status_eq_one, ?_, ?_, ?_⟩
  · rw [answers.status_eq_zero_iff, complaints_eq_nil_iff]
  · rw [answers.hasLine_iff, answers.status_eq_zero_iff]
  · intro quiet
    rw [answers.stderr, traceLines, quiet, if_neg Bool.false_ne_true, List.nil_append,
      printed_eq_empty_iff, answers.status_eq_zero_iff]
  · intro changed kept
    have same : complaints changed.start grammarText inputText =
        complaints settings.start grammarText inputText := by
      rcases kept with start | rfl
      · rw [start]
      · cases inputThere
        rfl
    obtain ⟨other, alsoGiven, others⟩ := exists_answers grammarThere inputThere changed
    rw [same] at others
    exact ⟨other, alsoGiven, others.status.trans answers.status.symm, _, answers.stderr,
      others.stderr⟩

end Verdict

/-- The only rule of a grammar takes the whole of one input and leaves a letter of another. All
that the program can display and report is asked for. -/
theorem whole_accepted_longer_refused :
    let files := (List.lookup · [("grammar", "a=\"x\";"), ("whole", "x"), ("longer", "xx")])
    let settings : Settings := ⟨some (.named "a"), true, true, true, false⟩
    (∃ answer, perform files ⟨"grammar", some "whole", settings⟩ = .answer answer ∧
      answer.status = 0 ∧ HasLine answer.stdout "Parsed without error: whole") ∧
      ∃ answer, perform files ⟨"grammar", some "longer", settings⟩ = .answer answer ∧
        answer.status = 1 ∧ ¬ HasLine answer.stdout "Parsed without error: longer" := by
  intro files settings
  have ends : ∀ text ∈ ["x", "xx"],
      (Machine.stateAt Ebnf.startedAtRule (.ofText text) 4).stopped = true := by decide +kernel
  have whole : (parse Ebnf.startedAtRule (.ofText "x")).log = [] := by
    rw [← Machine.stateAt_eq_parse (ends "x" (by decide))]
    decide +kernel
  have longer : (parse Ebnf.startedAtRule (.ofText "xx")).log ≠ [] := by
    rw [← Machine.stateAt_eq_parse (ends "xx" (by decide))]
    decide +kernel
  constructor
  · obtain ⟨answer, given, zero, _, said, _⟩ :=
      @status_tells_truth files "grammar" (some "whole") "a=\"x\";" (some "x") rfl rfl settings
    have good := zero.mpr ⟨_, Ebnf.read_startedAtRule, whole⟩
    exact ⟨answer, given, good, said.mpr good⟩
  · obtain ⟨answer, given, zero, one, said, _⟩ :=
      @status_tells_truth files "grammar" (some "longer") "a=\"x\";" (some "xx") rfl rfl settings
    have bad : answer.status ≠ 0 := by
      intro good
      obtain ⟨grammar, reads, clear⟩ := zero.mp good
      cases Ebnf.read_startedAtRule.symm.trans reads
      exact longer clear
    exact ⟨answer, given, one bad, fun line => bad (said.mp line)⟩

end CommandLine

end OrderedChoice
