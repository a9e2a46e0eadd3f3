import OrderedChoice.Proofs.Derivation.Conformance
import OrderedChoice.Proofs.Machine.Simulation
import OrderedChoice.Proofs.Machine.Transition

/-! The stack of a machine between two moves. Every frame below the top waits for the part
that the frame above it stands for, and what it has gathered conforms to the parts before
that one; so the frames of a stack fit together end to end, from the start of the input up
to the cursor. Every move keeps this, whatever grammar and input are given. -/

namespace OrderedChoice

namespace Machine

variable {α : Type} {grammar : Grammar} {input : Input α}

/-! ## Frames that wait -/

/-- The frames of a stack wait for an expression that begins at an offset. -/
inductive Awaits (grammar : Grammar) (input : Input α) :
    List (Frame α) → Expr → Nat → Prop
  | entry {definition} :
      grammar.lookup? entryName = some definition → Awaits grammar input [] definition 0
  | reference {below name definition start} :
      Awaits grammar input below (.reference name) start →
      grammar.lookup? name = some definition →
      Awaits grammar input (⟨.reference name, start, .entered, none⟩ :: below) definition start
  | choice {below alternatives alternative start count} :
      Awaits grammar input below (.choice alternatives) start →
      alternatives[count]? = some alternative →
      Awaits grammar input (⟨.choice alternatives, start, .tried (count + 1), none⟩ :: below)
        alternative start
  | sequence {below items item start children offset} :
      Awaits grammar input below (.sequence items) start →
      ConformAll grammar input (items.take children.length) start children.reverse offset →
      items[children.length]? = some item →
      Awaits grammar input (⟨.sequence items, start, .gathered children, none⟩ :: below)
        item offset
  | optional {below operand start} :
      Awaits grammar input below (.optional operand) start →
      Awaits grammar input (⟨.optional operand, start, .begun, none⟩ :: below) operand start
  | repetition {below operand start children offset} :
      Awaits grammar input below (.repetition operand) start →
      ConformRounds grammar input operand start children.reverse offset →
      Awaits grammar input (⟨.repetition operand, start, .repeated children, none⟩ :: below)
        operand offset

theorem Awaits.under {frame : Frame α} {below : List (Frame α)} {part : Expr} {offset : Nat}
    (awaits : Awaits grammar input (frame :: below) part offset) :
    Awaits grammar input below frame.expr frame.entry := by
  cases awaits <;> assumption

theorem Awaits.outermost {expr : Expr} {start : Nat}
    (awaits : Awaits grammar input [] expr start) :
    grammar.lookup? entryName = some expr ∧ start = 0 := by
  cases awaits with
  | entry entry => exact ⟨entry, rfl⟩

/-! ## The frame on top -/

/-- A stack is ready for the next move, with the cursor at an offset. -/
inductive Poised (grammar : Grammar) (input : Input α) : List (Frame α) → Nat → Prop
  | begins {below expr cursor} :
      Awaits grammar input below expr cursor →
      Poised grammar input (.begin expr cursor :: below) cursor
  | takes {below pattern start met test rest elements} :
      Awaits grammar input below (.terminal pattern) start →
      input.tests pattern = met ++ test :: rest →
      input.Meets met start elements.reverse →
      Poised grammar input (⟨.terminal pattern, start, .taken elements, none⟩ :: below)
        (start + elements.length)
  | found {frame below part start tree cursor} :
      Awaits grammar input (frame :: below) part start →
      Conforms grammar input part start tree cursor →
      Poised grammar input (frame.answered (.found tree) :: below) cursor
  | missed {frame below part cursor} :
      Awaits grammar input (frame :: below) part cursor →
      Poised grammar input (frame.answered .missed :: below) cursor

theorem Poised.under {frame : Frame α} {below : List (Frame α)} {cursor : Nat}
    (poised : Poised grammar input (frame :: below) cursor) :
    Awaits grammar input below frame.expr frame.entry := by
  cases poised with
  | begins awaits => exact awaits
  | takes awaits => exact awaits
  | found awaits => exact awaits.under
  | missed awaits => exact awaits.under

/-! ## What a move leads to -/

/-- What a move of a frame that began at `entry` leads to, with the frames below it and
the progress that the visit has left in it. No frame is ever stuck. -/
def Leads (grammar : Grammar) (input : Input α) (below : List (Frame α)) (expr : Expr)
    (entry cursor : Nat) (progress : Progress α) : Move α → Prop
  | .advance => Poised grammar input (⟨expr, entry, progress, none⟩ :: below) (cursor + 1)
  | .enter _ part | .descend part =>
      Awaits grammar input (⟨expr, entry, progress, none⟩ :: below) part cursor
  | .finish tree => Conforms grammar input expr entry tree (cursor + 1)
  | .produce tree => Conforms grammar input expr entry tree cursor
  | .undefined _ => Poised grammar input (⟨expr, entry, progress, none⟩ :: below) cursor
  | .reject | .refuse | .backtrack => True
  | .stuck => False

section Visits

variable {below : List (Frame α)} {start cursor : Nat} {active : List (String × Nat)}
  {progress : Progress α} {move : Move α}

theorem Awaits.leads_terminal {pattern : String} {met rest : List (α → Bool)}
    {test : α → Bool} {elements : List α}
    (awaits : Awaits grammar input below (.terminal pattern) start)
    (tests : input.tests pattern = met ++ test :: rest)
    (meets : input.Meets met start elements.reverse)
    (visit : visitTerminal input (start + elements.length) start pattern elements =
      (progress, move)) :
    Leads grammar input below (.terminal pattern) start (start + elements.length) progress
      move := by
  have length : met.length = elements.length := by
    rw [meets.2.length_eq, List.length_reverse]
  rw [visitTerminal_eq tests length] at visit
  split at visit
  · cases visit
    trivial
  · next element present =>
      split at visit
      · next holds =>
          have more : input.Meets (met ++ [test]) start (element :: elements).reverse := by
            rw [List.reverse_cons]
            apply meets.snoc _ holds
            rwa [List.length_reverse]
          cases rest with
          | nil =>
              cases visit
              rw [← tests] at more
              have conforms : Conforms grammar input _ _ _ _ := .terminal more
              rwa [List.length_reverse, List.length_cons] at conforms
          | cons next others =>
              cases visit
              have split : input.tests pattern = (met ++ [test]) ++ next :: others := by
                rw [tests, List.append_assoc]
                rfl
              exact .takes awaits split more
      · cases visit
        trivial

theorem Awaits.leads_reference {name : String}
    (awaits : Awaits grammar input below (.reference name) start)
    (visit : visitReference grammar active start name = (progress, move)) :
    Leads grammar input below (.reference name) start start progress move := by
  unfold visitReference at visit
  split at visit
  · cases visit
    trivial
  · split at visit
    · cases visit
      exact .begins awaits
    · next defined =>
        cases visit
        exact .reference awaits defined

theorem Awaits.leads_choice {alternatives : List Expr} {tried : Nat}
    (awaits : Awaits grammar input below (.choice alternatives) start)
    (visit : visitChoice alternatives tried = (progress, move)) :
    Leads grammar input below (.choice alternatives) start start progress move := by
  unfold visitChoice at visit
  split at visit
  · next current =>
      cases visit
      exact .choice awaits current
  · cases visit
    trivial

theorem Awaits.leads_sequence {items : List Expr} {children : List (Tree α)}
    (awaits : Awaits grammar input below (.sequence items) start)
    (gathered : ConformAll grammar input (items.take children.length) start children.reverse
      cursor)
    (visit : visitSequence cursor start items children = (progress, move)) :
    Leads grammar input below (.sequence items) start cursor progress move := by
  unfold visitSequence at visit
  split at visit
  · next current =>
      cases visit
      exact .sequence awaits gathered current
  · next done =>
      cases visit
      rw [List.take_of_length_le (List.getElem?_eq_none_iff.mp done)] at gathered
      exact .sequence gathered

theorem leads_close {operand : Expr} {children : List (Tree α)}
    (rounds : ConformRounds grammar input operand start children.reverse cursor)
    (visit : closeRepetition cursor start children = (progress, move)) :
    Leads grammar input below (.repetition operand) start cursor progress move := by
  cases visit
  exact .repetition rounds

theorem reached?_eq {operand : Expr} {children : List (Tree α)}
    (rounds : ConformRounds grammar input operand start children.reverse cursor) :
    reached? start children = some (cursor : Int) := by
  cases children with
  | nil =>
      cases rounds
      rfl
  | cons latest earlier =>
      rw [List.reverse_cons] at rounds
      obtain ⟨_, present, conforms⟩ := rounds.latest
      obtain ⟨absent, _⟩ | ⟨_, stop⟩ := conforms.absent_or_span_eq
      · exact absurd absent present
      · exact stop

theorem Awaits.leads_repetition {operand : Expr} {children : List (Tree α)} {tree : Tree α}
    {offset : Nat} (awaits : Awaits grammar input below (.repetition operand) start)
    (rounds : ConformRounds grammar input operand start children.reverse offset)
    (conforms : Conforms grammar input operand offset tree cursor)
    (visit : visitRepetition cursor start operand children tree = (progress, move)) :
    Leads grammar input below (.repetition operand) start cursor progress move := by
  have forward := conforms.stretch.forward
  unfold visitRepetition at visit
  rw [reached?_eq rounds] at visit
  dsimp only at visit
  split at visit
  · next further =>
      cases visit
      have further : offset < cursor := by omega
      have more := rounds.snoc (conforms.ne_absent further) further conforms
      rw [← List.reverse_cons] at more
      exact .repetition awaits more
  · next idle =>
      have same : offset = cursor := by omega
      subst same
      exact leads_close rounds visit

end Visits

theorem Awaits.leads_begin {below : List (Frame α)} {expr : Expr} {cursor : Nat}
    {active : List (String × Nat)} {progress : Progress α} {move : Move α}
    (awaits : Awaits grammar input below expr cursor)
    (visit : (Frame.begin expr cursor).visit grammar input active cursor = (progress, move)) :
    Leads grammar input below expr cursor cursor progress move := by
  cases expr with
  | terminal pattern =>
      have visit : visitTerminal input cursor cursor pattern [] = (progress, move) := visit
      cases tests : input.tests pattern with
      | nil =>
          rw [visitTerminal, tests] at visit
          cases visit
          have none : input.Meets (input.tests pattern) cursor [] := by
            rw [tests]
            exact ⟨List.nil_prefix, .nil⟩
          exact .terminal none
      | cons test rest =>
          have none : input.Meets [] cursor ([] : List α).reverse := ⟨List.nil_prefix, .nil⟩
          exact awaits.leads_terminal tests none visit
  | reference name => exact awaits.leads_reference visit
  | choice alternatives => exact awaits.leads_choice visit
  | sequence items => exact awaits.leads_sequence .nil visit
  | optional operand =>
      cases visit
      exact .optional awaits
  | repetition operand =>
      cases visit
      exact .repetition awaits .nil

theorem Awaits.leads_found {frame : Frame α} {below : List (Frame α)} {part : Expr}
    {start cursor : Nat} {tree : Tree α} {active : List (String × Nat)}
    {progress : Progress α} {move : Move α}
    (awaits : Awaits grammar input (frame :: below) part start)
    (conforms : Conforms grammar input part start tree cursor)
    (visit : (frame.answered (.found tree)).visit grammar input active cursor =
      (progress, move)) :
    Leads grammar input below frame.expr frame.entry cursor progress move := by
  cases awaits with
  | reference awaits defined =>
      cases visit
      exact .reference defined conforms
  | choice awaits current =>
      cases visit
      exact .choice (List.mem_of_getElem? current) conforms
  | sequence awaits gathered current =>
      have more := gathered.snoc conforms
      rw [← List.reverse_cons] at more
      apply awaits.leads_sequence _ visit
      rwa [List.length_cons, List.take_add_one, current]
  | optional awaits =>
      cases visit
      exact .optional conforms
  | repetition awaits rounds => exact awaits.leads_repetition rounds conforms visit

theorem Awaits.leads_missed {frame : Frame α} {below : List (Frame α)} {part : Expr}
    {cursor : Nat} {active : List (String × Nat)} {progress : Progress α} {move : Move α}
    (awaits : Awaits grammar input (frame :: below) part cursor)
    (visit : (frame.answered .missed).visit grammar input active cursor = (progress, move)) :
    Leads grammar input below frame.expr frame.entry cursor progress move := by
  cases awaits with
  | reference =>
      cases visit
      trivial
  | choice awaits => exact awaits.leads_choice visit
  | sequence =>
      cases visit
      trivial
  | optional =>
      cases visit
      exact .optionalAbsent
  | repetition _ rounds => exact leads_close rounds visit

theorem Poised.leads {frame : Frame α} {below : List (Frame α)} {cursor : Nat}
    {active : List (String × Nat)} {progress : Progress α} {move : Move α}
    (poised : Poised grammar input (frame :: below) cursor)
    (visit : frame.visit grammar input active cursor = (progress, move)) :
    Leads grammar input below frame.expr frame.entry cursor progress move := by
  cases poised with
  | begins awaits => exact awaits.leads_begin visit
  | takes awaits tests meets => exact awaits.leads_terminal tests meets visit
  | found awaits conforms => exact awaits.leads_found conforms visit
  | missed awaits => exact awaits.leads_missed visit

section Leads

variable {below : List (Frame α)} {expr part : Expr} {entry cursor : Nat}
  {progress : Progress α} {move : Move α} {tree : Tree α}

theorem Leads.conforms (leads : Leads grammar input below expr entry cursor progress move)
    (leaves : move.outcome? = some (.found tree)) :
    Conforms grammar input expr entry tree (move.exit cursor entry) := by
  cases move with
  | finish | produce => cases leaves; exact leads
  | advance | reject | refuse | enter | undefined | descend | backtrack | stuck => cases leaves

theorem Leads.awaits (leads : Leads grammar input below expr entry cursor progress move)
    (pushes : move.part? = some part) :
    Awaits grammar input (⟨expr, entry, progress, none⟩ :: below) part cursor := by
  cases move with
  | enter | descend => cases pushes; exact leads
  | advance | finish | reject | refuse | undefined | produce | backtrack | stuck => cases pushes

theorem Leads.poised (leads : Leads grammar input below expr entry cursor progress move)
    (stays : move.outcome? = none) (idle : move.part? = none) :
    Poised grammar input (⟨expr, entry, progress, none⟩ :: below) (move.exit cursor entry) := by
  cases move with
  | advance | undefined => exact leads
  | stuck => exact leads.elim
  | finish | reject | refuse | produce | backtrack => cases stays
  | enter | descend => cases idle

end Leads

theorem exit_of_missed {move : Move α} (leaves : move.outcome? = some .missed)
    (cursor entry : Nat) : move.exit cursor entry = entry := by
  cases move with
  | reject | refuse | backtrack => rfl
  | finish | produce => cases leaves
  | advance | enter | undefined | descend | stuck => cases leaves

/-! ## Runs -/

/-- What holds of a state between two moves: no frame is left, or the frames are ready for
the next move. -/
def Steady (grammar : Grammar) (input : Input α) (state : State α) : Prop :=
  state.stack = [] ∨ Poised grammar input state.stack state.cursor

theorem Steady.poised {state : State α} {frame : Frame α} {below : List (Frame α)}
    (steady : Steady grammar input state) (stack : state.stack = frame :: below) :
    Poised grammar input (frame :: below) state.cursor := by
  cases steady with
  | inl empty => rw [stack] at empty; cases empty
  | inr poised => rwa [stack] at poised

theorem start_steady (grammar : Grammar) (input : Input α) :
    Steady grammar input (.start grammar) := by
  obtain none | ⟨definition, entry, start⟩ := start_cases α grammar
  · rw [none]
    exact .inl rfl
  · rw [start]
    exact .inr (.begins (.entry entry))

theorem Awaits.steady_deliver {state : State α} {part : Expr} {start : Nat}
    {outcome : Outcome α} (awaits : Awaits grammar input state.stack part start)
    (fits : match outcome with
      | .found tree => Conforms grammar input part start tree state.cursor
      | .missed => state.cursor = start) :
    Steady grammar input (state.deliver input outcome) := by
  unfold Steady
  rw [deliver_stack, deliver_cursor]
  cases below : state.stack with
  | nil => exact .inl rfl
  | cons parent rest =>
      rw [below] at awaits
      right
      cases outcome with
      | found tree => exact .found awaits fits
      | missed =>
          rw [← fits] at awaits
          exact .missed awaits

theorem Steady.step {state : State α} (steady : Steady grammar input state) :
    Steady grammar input (state.step grammar input) := by
  apply step_cases (Steady grammar input)
  case rests => exact fun _ => steady
  case leaves =>
    intro frame below progress move outcome visit leaves
    have poised := steady.poised visit.stack
    have leads := poised.leads visit.visit
    apply Awaits.steady_deliver poised.under
    cases outcome with
    | found tree => exact leads.conforms leaves
    | missed => exact exit_of_missed leaves _ _
  case pushes =>
    intro frame below progress move part visit pushes
    have leads := (steady.poised visit.stack).leads visit.visit
    exact .inr (.begins (leads.awaits pushes))
  case stays =>
    intro frame below progress move visit stays idle
    have leads := (steady.poised visit.stack).leads visit.visit
    obtain ⟨frames, cursor, _⟩ := visit.step_stay stays idle
    right
    rw [frames, cursor]
    exact leads.poised stays idle

theorem stateAt_steady (grammar : Grammar) (input : Input α) (made : Nat) :
    Steady grammar input (stateAt grammar input made) :=
  stateAt_induction _ (start_steady grammar input) (fun _ steady => steady.step) made

end Machine

end OrderedChoice
