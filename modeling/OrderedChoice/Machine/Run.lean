import OrderedChoice.Evaluation
import OrderedChoice.Machine.Step

/-! Whole runs of the parsing machine: how one begins, and how it is brought to
its end. Every run ends, and the recursive reading of the grammar tells after
how many moves; that number bounds the loop. -/

namespace OrderedChoice

namespace Machine

/-- The moves of a whole run: those it takes to evaluate the definition of the
entry rule at the start of the input. -/
def moveCount (grammar : Grammar) (input : Input α) : Nat :=
  match grammar.lookup? entryName with
  | none => 0
  | some definition =>
      (Evaluation.evaluate grammar input [] 0 definition).effort.moves

namespace State

variable {α : Type}

def blank : State α :=
  ⟨0, none, [], [], false, 0, .absent, []⟩

def start (grammar : Grammar) : State α :=
  match grammar.lookup? entryName with
  | none => { blank with stopped := true, log := [.missingEntry] }
  | some definition => blank.push definition

def runFor (grammar : Grammar) (input : Input α) : Nat → State α → State α
  | 0, state => state
  | limit + 1, state =>
      if state.stopped then state
      else runFor grammar input limit (state.step grammar input)

/-- Bring a run to its end. No run takes more moves from any of its states than
it takes from its start. -/
def exec (grammar : Grammar) (input : Input α) (state : State α) : State α :=
  if state.stopped then state
  else state.runFor grammar input (moveCount grammar input)

end State

end Machine

def parse (grammar : Grammar) (input : Input α) : Machine.State α :=
  (Machine.State.start grammar).exec grammar input

end OrderedChoice
