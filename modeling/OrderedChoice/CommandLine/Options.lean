import OrderedChoice.Text.Digit
import OrderedChoice.Text.Quoted

/-! The words of a command line and what they ask for. Switches begin with a
dash and may stand anywhere; all other words are operands. Short switches can
share one word, long ones can be cut short as long as it is clear which is
meant, and a double dash on its own makes operands of all words after it. -/

namespace OrderedChoice

namespace CommandLine

/-! ## Switches -/

inductive Switch where
  | help
  | start
  | tree
  | schema
  | verbose
deriving DecidableEq, Repr

namespace Switch

def spellings : List (String × Switch) := [
  ("-h", help), ("--help", help), ("-s", start), ("--start", start), ("-t", tree),
  ("--tree", tree), ("--schema", schema), ("-v", verbose), ("--verbose", verbose)]

def takesValue : Switch → Bool
  | start => true
  | _ => false

def title (switch : Switch) : String :=
  "/".intercalate ((spellings.filter fun spelling => spelling.2 == switch).map Prod.fst)

def ofSpelling? (text : String) : Option Switch :=
  spellings.lookup text

def ofLetter? (letter : Char) : Option Switch :=
  ofSpelling? (String.ofList ['-', letter])

end Switch

/-! ## Requests -/

/-- The rule to start at. A double dash is no value even where one is expected,
so it leaves a start without a name. -/
inductive StartWord where
  | named (name : String)
  | nameless
deriving DecidableEq, Repr

def StartWord.ofWord (word : String) : StartWord :=
  if word = "--" then nameless else named word

structure Settings where
  start : Option StartWord
  showTree : Bool
  showSchema : Bool
  verbose : Bool
  help : Bool
deriving DecidableEq, Repr

namespace Settings

def initial : Settings := ⟨none, false, false, false, false⟩

def turnOn (settings : Settings) : Switch → Settings
  | .help => { settings with help := true }
  | .tree => { settings with showTree := true }
  | .schema => { settings with showSchema := true }
  | .verbose => { settings with verbose := true }
  | .start => settings

def startAt (settings : Settings) (word : String) : Settings :=
  { settings with start := some (.ofWord word) }

end Settings

structure Options where
  grammarPath : String
  inputPath : Option String
  settings : Settings
deriving DecidableEq, Repr

inductive UsageError where
  | ambiguous (word : String) (matching : List String)
  | valueExpected (switch : Switch)
  | valueIgnored (switch : Switch) (value : String)
  | grammarRequired
  | unrecognized (words : List String)
deriving DecidableEq, Repr

def UsageError.message : UsageError → String
  | ambiguous word matching =>
      s!"ambiguous option: {word} could match " ++ ", ".intercalate matching
  | valueExpected switch => s!"argument {switch.title}: expected one argument"
  | valueIgnored switch value =>
      s!"argument {switch.title}: ignored explicit argument {quote value}"
  | grammarRequired => "the following arguments are required: grammar_path"
  | unrecognized words => "unrecognized arguments: " ++ " ".intercalate words

/-! ## Words -/

inductive Word where
  | operand (text : String)
  | separator
  /-- A switch, whether it was written as a letter, and the value written in the
  same word. -/
  | switch (switch : Switch) (short : Bool) (value : Option String)
  | stranger (text : String)
deriving DecidableEq, Repr

namespace Word

def text : Word → String
  | operand text => text
  | separator => "--"
  | switch .. => ""
  | stranger text => text

def splitAtEquals (characters : List Char) : String × Option String :=
  let before := characters.takeWhile (· ≠ '=')
  match characters.drop before.length with
  | [] => (String.ofList before, none)
  | _ :: after => (String.ofList before, some (String.ofList after))

/-- The switches that a word may mean when it spells none in full: with one dash,
the switch of the first letter and a value after it; with two dashes, all whose
long spelling begins like this. -/
def possible (characters : List Char) : List (String × Word) :=
  match characters with
  | '-' :: '-' :: _ =>
      let (beginning, value) := splitAtEquals characters
      Switch.spellings.filterMap fun spelling =>
        if beginning.toList.isPrefixOf spelling.1.toList then
          some (spelling.1, .switch spelling.2 false value)
        else none
  | '-' :: letter :: rest =>
      Switch.spellings.filterMap fun spelling =>
        if spelling.1.toList = ['-', letter] then
          some (spelling.1, .switch spelling.2 true (some (String.ofList rest)))
        else none
  | _ => []

def spelled? (text : String) (value : Option String) : Option Word :=
  (Switch.ofSpelling? text).map fun switch => .switch switch (text.length == 2) value

def spelledWithValue? (characters : List Char) : Option Word :=
  match splitAtEquals characters with
  | (_, none) => none
  | (text, value) => spelled? text value

def classify (text : String) : Except UsageError Word :=
  if text.toList.head? ≠ some '-' ∨ text = "-" then .ok (.operand text)
  else
    match spelled? text none <|> spelledWithValue? text.toList with
    | some word => .ok word
    | none =>
        match possible text.toList with
        | [] =>
            if DecimalDigit.isNegativeNumber text ∨ ' ' ∈ text.toList then .ok (.operand text)
            else .ok (.stranger text)
        | [(_, word)] => .ok word
        | several => .error (.ambiguous text (several.map Prod.fst))

def classifyAll : List String → Except UsageError (List Word)
  | [] => .ok []
  | text :: rest =>
      if text = "--" then .ok (separator :: rest.map operand)
      else do
        let word ← classify text
        let words ← classifyAll rest
        return word :: words

end Word

/-! ## Operands -/

def takeOperand? (words : List Word) : Option (List String × List Word) :=
  let before := words.takeWhile (· == .separator)
  match words.drop before.length with
  | [] => none
  | operand :: rest =>
      let after := rest.takeWhile (· == .separator)
      some ((before ++ operand :: after).map Word.text, rest.drop after.length)

/-- The operand among the texts that were taken for one: what remains when one
double dash is dropped. -/
def operandOf (texts : List String) : Option String :=
  (texts.erase "--").head?

/-- The paths that a run of operands gives, and the words that are left. The
path of the input can only be given right behind that of the grammar. -/
def takePaths? (words : List Word) : Option ((String × Option String) × List Word) := do
  let (texts, rest) ← takeOperand? words
  let grammarPath ← operandOf texts
  match takeOperand? rest with
  | none => return ((grammarPath, none), rest)
  | some (texts, rest) => return ((grammarPath, operandOf texts), rest)

/-! ## Understanding a command line -/

structure Reading where
  settings : Settings
  waiting : Option Switch
  run : List Word
  paths : Option (String × Option String)
  strangers : List String
deriving Repr

namespace Reading

def initial : Reading := ⟨.initial, none, [], none, []⟩

def closeRun (reading : Reading) : Reading :=
  let (paths, rest) := match reading.paths, takePaths? reading.run with
    | none, some (paths, rest) => (some paths, rest)
    | paths, _ => (paths, reading.run)
  { reading with
    paths
    run := []
    strangers := reading.strangers ++ rest.map Word.text }

/-- Follow a switch and the letters that share its word. Letters behind a switch
with a value are that value; without any, the value is the next word. -/
def followLetters (reading : Reading) (switch : Switch) :
    (letters : List Char) → Except UsageError Reading
  | [] =>
      if switch.takesValue then .ok { reading with waiting := some switch }
      else .ok { reading with settings := reading.settings.turnOn switch }
  | letter :: rest =>
      let letters := String.ofList (letter :: rest)
      if switch.takesValue then
        .ok { reading with settings := reading.settings.startAt letters }
      else
        match Switch.ofLetter? letter with
        | none => .error (.valueIgnored switch letters)
        | some next =>
            followLetters { reading with settings := reading.settings.turnOn switch } next rest

def follow (reading : Reading) (switch : Switch) (short : Bool) :
    Option String → Except UsageError Reading
  | none => reading.followLetters switch []
  | some value =>
      if short && !value.isEmpty then reading.followLetters switch value.toList
      else if switch.takesValue then
        .ok { reading with settings := reading.settings.startAt value }
      else .error (.valueIgnored switch value)

/-- Understand one more word. A switch that waits for its value has it before
anything else happens; after that, once help is asked for, nothing matters. -/
def takeWord (reading : Reading) (word : Word) : Except UsageError Reading :=
  match reading.waiting, word with
  | some _, .operand text =>
      .ok { reading with waiting := none, settings := reading.settings.startAt text }
  | some switch, _ => .error (.valueExpected switch)
  | none, word =>
      if reading.settings.help then .ok reading
      else
        match word with
        | .stranger text =>
            let closed := reading.closeRun
            .ok { closed with strangers := closed.strangers ++ [text] }
        | .switch switch short value => reading.closeRun.follow switch short value
        | .operand _ | .separator => .ok { reading with run := reading.run ++ [word] }

end Reading

inductive Request where
  | help
  | perform (options : Options)
deriving Repr

/-- Understand a command line. Of several faults the one that comes first is
reported; a missing path counts before words that fit nowhere, and both come
after everything else. -/
def Request.ofWords (words : List String) : Except UsageError Request := do
  let words ← Word.classifyAll words
  let reading ← words.foldlM Reading.takeWord .initial
  if let some switch := reading.waiting then
    throw (.valueExpected switch)
  if reading.settings.help then
    return .help
  let reading := reading.closeRun
  match reading.paths with
  | none => throw .grammarRequired
  | some (grammarPath, inputPath) =>
      if reading.strangers.isEmpty then
        return .perform ⟨grammarPath, inputPath, reading.settings⟩
      else throw (.unrecognized reading.strangers)

end CommandLine

end OrderedChoice
