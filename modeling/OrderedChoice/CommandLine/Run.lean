import OrderedChoice.CommandLine.Options
import OrderedChoice.Ebnf.Reader
import OrderedChoice.Machine.Session
import OrderedChoice.Tree.Outline

/-! What the program does for a command line, given the files there are. With a
grammar alone it checks that the grammar is well written; with an input it
parses the input by the grammar. Complaints go to standard error, and the status
says whether there were any. -/

namespace OrderedChoice

namespace CommandLine

structure Answer where
  status : Nat
  stdout : String
  stderr : String
deriving DecidableEq, Repr

inductive Result where
  | answer (answer : Answer)
  | missingFile (path : String)
deriving DecidableEq, Repr

def missingFileMessage (path : String) : String :=
  s!"[Errno 2] No such file or directory: {quote path}"

def programName : String := "py -m metawalk"

def usage : String :=
  s!"usage: {programName} [-h] [-s START] [-t] [--schema] [-v] grammar_path [input_path]"

def printed (lines : List String) : String :=
  String.join (lines.map fun line => line ++ "\n")

/-! ## Starting -/

def StartWord.name : StartWord → String
  | named name => name
  | nameless => ""

/-- The lines that report why a grammar cannot be read. A start without a name
is shown as an empty list. -/
def readErrorLines (start : Option StartWord) (error : Ebnf.ReadError) : List String :=
  match start, error with
  | some .nameless, .unfit (.entryTaken _) =>
      [s!"The grammar defines {entryName}, so it cannot also start at []."]
  | _, error => error.lines

/-! ## Running -/

structure Job where
  grammar : Grammar
  path : String
  text : String

namespace Job

def source (job : Job) : Source := Source.ofString job.text (some job.path)

def complete (job : Job) (verbose : Bool) :
    Machine.State Char × List (Machine.TraceLine Char) :=
  let input := Input.ofSource job.source
  if verbose then
    let (session, trace) := (Machine.Session.start job.grammar input none).exec
    (session.state, trace)
  else (parse job.grammar input, [])

def perform (job : Job) (settings : Settings) : Answer :=
  let (state, trace) := job.complete settings.verbose
  let schemaLines := if settings.showSchema then job.grammar.describe else []
  let treeLines := if settings.showTree then state.tree.outline 0 else []
  let successLines := if state.isOk then [s!"Parsed without error: {job.path}"] else []
  { status := if state.isOk then 0 else 1
    stdout := printed (schemaLines ++ treeLines ++ successLines)
    stderr := printed
      (trace.map Machine.TraceLine.render ++ state.logLines (Input.ofSource job.source)) }

end Job

/-- Open the files that the options name, and do what they ask for. A grammar
that cannot be read is reported before its input is opened. -/
def perform (files : String → Option String) (options : Options) : Result :=
  match files options.grammarPath with
  | none => .missingFile options.grammarPath
  | some grammarText =>
      match options.inputPath with
      | none =>
          let job : Job := ⟨Ebnf.grammar, options.grammarPath, grammarText⟩
          .answer (job.perform options.settings)
      | some inputPath =>
          match Ebnf.read grammarText (options.settings.start.map StartWord.name) with
          | .error error =>
              .answer ⟨1, "", printed (readErrorLines options.settings.start error)⟩
          | .ok grammar =>
              match files inputPath with
              | none => .missingFile inputPath
              | some inputText =>
                  let job : Job := ⟨grammar, inputPath, inputText⟩
                  .answer (job.perform options.settings)

def run (files : String → Option String) (words : List String) : Result :=
  match Request.ofWords words with
  | .error error =>
      .answer ⟨2, "", printed [usage, s!"{programName}: error: {error.message}"]⟩
  | .ok .help => .answer ⟨0, printed [usage], ""⟩
  | .ok (.perform options) => perform files options

end CommandLine

end OrderedChoice
