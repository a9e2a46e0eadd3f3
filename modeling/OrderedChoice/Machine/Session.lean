import OrderedChoice.Machine.Run

/-! Runs that somebody watches. Every move is reported on one line, after it is
proposed and before it is carried out, and the watcher may stop the run on
seeing a line of a given number. -/

namespace OrderedChoice

namespace Machine

structure TraceLine (α : Type) where
  step : Nat
  cursor : Nat
  element : Option α
  expr : Expr
  flow : Flow
deriving Repr

namespace TraceLine

def ofProposal (input : Input α) (proposal : Proposal α) : TraceLine α where
  step := proposal.state.steps
  cursor := proposal.state.cursor
  element := input.element? proposal.state.cursor
  expr := proposal.expr
  flow := proposal.move.flow

def render [Element α] (line : TraceLine α) : String :=
  let shown := match line.element with
    | some element => Element.display element
    | none => "end of input"
  s!"[{line.step}] {line.cursor}: {shown} ==> {line.expr.describe} : {line.flow.label}"

end TraceLine

structure Session (α : Type) where
  grammar : Grammar
  input : Input α
  state : State α
  /-- The number of lines reported so far, also in runs before a restart. -/
  reported : Nat
  /-- The number of the line at which the watcher stops the run. -/
  stopAt : Option Nat

namespace Session

variable {α : Type}

def start (grammar : Grammar) (input : Input α) (stopAt : Option Nat) : Session α :=
  ⟨grammar, input, State.start grammar, 0, stopAt⟩

def restart (session : Session α) : Session α :=
  { session with state := State.start session.grammar }

def stop (session : Session α) : Session α :=
  { session with state := session.state.stop }

def step (session : Session α) : Session α × Option (TraceLine α) :=
  match session.state.propose session.grammar session.input with
  | none => (session, none)
  | some proposal =>
      let reported := session.reported + 1
      let pending :=
        if session.stopAt = some reported then proposal.state.stop else proposal.state
      ({ session with reported, state := pending.commit session.input proposal.move },
        some (.ofProposal session.input proposal))

/-- Make a number of moves, and collect their reports behind earlier ones, which
are given latest first. -/
def stepMany : Nat → Session α → List (TraceLine α) → Session α × List (TraceLine α)
  | 0, session, lines => (session, lines.reverse)
  | count + 1, session, lines =>
      let (session, line) := session.step
      stepMany count session (line.toList ++ lines)

def runFor : Nat → Session α → List (TraceLine α) → Session α × List (TraceLine α)
  | 0, session, lines => (session, lines.reverse)
  | limit + 1, session, lines =>
      if session.state.stopped then (session, lines.reverse)
      else
        let (session, line) := session.step
        runFor limit session (line.toList ++ lines)

def exec (session : Session α) : Session α × List (TraceLine α) :=
  if session.state.stopped then (session, [])
  else session.runFor (moveCount session.grammar session.input) []

end Session

end Machine

end OrderedChoice
