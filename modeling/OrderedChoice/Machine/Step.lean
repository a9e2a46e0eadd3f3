import OrderedChoice.Grammar.Basic
import OrderedChoice.Machine.State

/-! The moves of the parsing machine. The frame on top of the stack looks at
the element under the cursor and at the outcome of the part it waited for, and
proposes a move. A proposal already pushes the next part; taking an element and
leaving a frame happen when it is carried out. In between, somebody who watches
the run may stop it. -/

namespace OrderedChoice

namespace Machine

/-! ## Moves -/

inductive Move (α : Type) where
  | advance
  | finish (leaf : Tree α)
  | reject
  | refuse
  | enter (rule : String × Nat) (definition : Expr)
  | undefined (name : String)
  | descend (part : Expr)
  | produce (tree : Tree α)
  | backtrack
  /-- The frame has no move: its progress is not that of its expression. -/
  | stuck
deriving DecidableEq, Repr

inductive Flow where
  | stay
  | leave
  | back
deriving DecidableEq, Repr

def Flow.label : Flow → String
  | stay => "stay"
  | leave => "return"
  | back => "back"

def Move.flow : Move α → Flow
  | advance | enter .. | undefined _ | descend _ | stuck => .stay
  | finish _ | produce _ => .leave
  | reject | refuse | backtrack => .back

/-! ## What each kind of expression does -/

section Visits

variable {α : Type}

def visitTerminal (input : Input α) (cursor entry : Nat) (pattern : String)
    (taken : List α) : Progress α × Move α :=
  let tests := input.tests pattern
  if tests.isEmpty then
    (.taken taken, .produce (.leaf pattern [] (.between entry entry)))
  else
    match tests[taken.length]? with
    | none => (.taken taken, .stuck)
    | some test =>
        match input.element? cursor with
        | none => (.taken taken, .reject)
        | some element =>
            if test element then
              let taken := element :: taken
              if taken.length < tests.length then (.taken taken, .advance)
              else
                (.taken taken,
                  .finish (.leaf pattern taken.reverse (.between entry (entry + taken.length))))
            else (.taken taken, .reject)

/-- A reference enters its rule, unless that rule has been entered at the same
offset and is still under way: no element was taken since, so it would only
enter itself again for ever. -/
def visitReference (grammar : Grammar) (active : List (String × Nat)) (entry : Nat)
    (name : String) : Progress α × Move α :=
  if (name, entry) ∈ active then (.fresh, .refuse)
  else
    match grammar.lookup? name with
    | none => (.fresh, .undefined name)
    | some definition => (.entered, .enter (name, entry) definition)

def visitChoice (alternatives : List Expr) (tried : Nat) : Progress α × Move α :=
  match alternatives[tried]? with
  | some alternative => (.tried (tried + 1), .descend alternative)
  | none => (.tried tried, .backtrack)

def visitSequence (cursor entry : Nat) (items : List Expr) (children : List (Tree α)) :
    Progress α × Move α :=
  match items[children.length]? with
  | some item => (.gathered children, .descend item)
  | none =>
      (.gathered children,
        .produce (.node Operator.sequence.label children.reverse (.between entry cursor)))

def reached? (entry : Nat) : List (Tree α) → Option Int
  | [] => some entry
  | latest :: _ => latest.stop?

def closeRepetition (cursor entry : Nat) (children : List (Tree α)) : Progress α × Move α :=
  (.repeated children,
    .produce (.node Operator.repetition.label children.reverse (.between entry cursor)))

/-- A repetition gathers the tree of a round and looks for the next, unless the
round took nothing: it would only be followed by its like. -/
def visitRepetition (cursor entry : Nat) (operand : Expr) (children : List (Tree α))
    (tree : Tree α) : Progress α × Move α :=
  match reached? entry children with
  | none => (.repeated children, .stuck)
  | some reached =>
      if reached < cursor then (.repeated (tree :: children), .descend operand)
      else closeRepetition cursor entry children

def Frame.visit (grammar : Grammar) (input : Input α) (active : List (String × Nat))
    (cursor : Nat) (frame : Frame α) : Progress α × Move α :=
  match frame.expr, frame.progress, frame.outcome with
  | .terminal pattern, .fresh, _ => visitTerminal input cursor frame.entry pattern []
  | .terminal pattern, .taken elements, _ =>
      visitTerminal input cursor frame.entry pattern elements
  | .reference name, .fresh, _ => visitReference grammar active frame.entry name
  | .reference name, .entered, some (.found tree) =>
      (.entered, .produce (.node name [tree] (.between frame.entry cursor)))
  | .reference _, .entered, some .missed => (.entered, .backtrack)
  | .choice alternatives, .fresh, _ => visitChoice alternatives 0
  | .choice _, .tried count, some (.found tree) => (.tried count, .produce tree)
  | .choice alternatives, .tried count, some .missed => visitChoice alternatives count
  | .sequence items, .fresh, _ => visitSequence cursor frame.entry items []
  | .sequence items, .gathered children, some (.found tree) =>
      visitSequence cursor frame.entry items (tree :: children)
  | .sequence _, .gathered children, some .missed => (.gathered children, .backtrack)
  | .optional operand, .fresh, _ => (.begun, .descend operand)
  | .optional _, .begun, some (.found tree) =>
      (.begun, .produce (.node Operator.optional.label [tree] (.between frame.entry cursor)))
  | .optional _, .begun, some .missed => (.begun, .produce .absent)
  | .repetition operand, .fresh, _ => (.repeated [], .descend operand)
  | .repetition operand, .repeated children, some (.found tree) =>
      visitRepetition cursor frame.entry operand children tree
  | .repetition _, .repeated children, some .missed =>
      closeRepetition cursor frame.entry children
  | _, progress, _ => (progress, .stuck)

end Visits

/-! ## One step of the machine -/

/-- A move that the frame on top intends, with the state that it is to be
carried out in. -/
structure Proposal (α : Type) where
  expr : Expr
  move : Move α
  state : State α

namespace State

variable {α : Type}

def announce (state : State α) : Move α → State α
  | .enter rule definition =>
      { state.push definition with active := rule :: state.active }
  | .descend part => state.push part
  | .reject => { state with furthest := max state.furthest (some state.cursor) }
  | .undefined name =>
      { state with stopped := true, log := state.log ++ [.undefinedReference name] }
  | .stuck => { state with stopped := true }
  | .advance | .finish _ | .refuse | .produce _ | .backtrack => state

def propose (grammar : Grammar) (input : Input α) (state : State α) : Option (Proposal α) :=
  if state.stopped then none
  else
    match state.stack with
    | [] => none
    | frame :: below =>
        let (progress, move) := frame.visit grammar input state.active state.cursor
        let visited := { frame with progress, outcome := none }
        let state := { state with steps := state.steps + 1, stack := visited :: below }
        some ⟨frame.expr, move, state.announce move⟩

def conclude (input : Input α) (state : State α) : Outcome α → State α
  | .found tree =>
      { state with
        stopped := true
        tree
        log := match input.element? state.cursor with
          | some found => state.log ++ [.expectedEnd found state.cursor]
          | none => state.log }
  | .missed =>
      let offset := max (state.furthest.getD 0) state.cursor
      { state with
        stopped := true
        log := match input.element? offset with
          | some found => state.log ++ [.unexpected found offset]
          | none => state.log ++ [.unexpectedEnd offset] }

def releasedBy (frame : Frame α) (active : List (String × Nat)) : List (String × Nat) :=
  match frame.expr, frame.progress with
  | .reference name, .entered => active.erase (name, frame.entry)
  | _, _ => active

def deliver (input : Input α) (state : State α) (outcome : Outcome α) : State α :=
  match state.stack with
  | [] => state.conclude input outcome
  | parent :: rest =>
      { state with stack := { parent with outcome := some outcome } :: rest }

def pop (input : Input α) (state : State α) (outcome : Outcome α) : State α :=
  match state.stack with
  | [] => state
  | frame :: below =>
      deliver input
        { state with stack := below, active := releasedBy frame state.active } outcome

def fail (input : Input α) (state : State α) : State α :=
  match state.stack with
  | [] => state
  | frame :: _ => { state with cursor := frame.entry }.pop input .missed

def carryOut (input : Input α) (state : State α) : Move α → State α
  | .advance => { state with cursor := state.cursor + 1 }
  | .finish leaf => { state with cursor := state.cursor + 1 }.pop input (.found leaf)
  | .produce tree => state.pop input (.found tree)
  | .reject | .refuse | .backtrack => state.fail input
  | .enter .. | .undefined _ | .descend _ | .stuck => state

def commit (input : Input α) (move : Move α) (state : State α) : State α :=
  if state.stopped then state else state.carryOut input move

def step (grammar : Grammar) (input : Input α) (state : State α) : State α :=
  match state.propose grammar input with
  | none => state
  | some proposal => proposal.state.commit input proposal.move

/-- Make one move, with a stop from outside before it is carried out. -/
def stepHalted (grammar : Grammar) (input : Input α) (state : State α) : State α :=
  match state.propose grammar input with
  | none => state
  | some proposal => proposal.state.stop.commit input proposal.move

end State

end Machine

end OrderedChoice
