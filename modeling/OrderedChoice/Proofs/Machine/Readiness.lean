import OrderedChoice.Proofs.Grammar.Shape
import OrderedChoice.Proofs.Machine.Furthest
import OrderedChoice.Proofs.Machine.Lifecycle

/-! No machine is ever at a loss. A run that goes on has a frame on top, this frame has been
told what it waits for, and whatever it refers to by number or looks at in what it has
gathered is there. This holds of all grammars whose choices and sequences have parts, as
those put together from drafts do. -/

namespace OrderedChoice

theorem ConformRounds.exists_stop {α : Type} {grammar : Grammar} {input : Input α}
    {operand : Expr} {start stop : Nat} {trees : List (Tree α)}
    (rounds : ConformRounds grammar input operand start trees stop) :
    ∀ tree ∈ trees, ∃ stop, tree.stop? = some stop := by
  induction trees generalizing start with
  | nil => exact List.forall_mem_nil _
  | cons tree others induction =>
      cases rounds with
      | cons present _ conforms rest =>
          refine List.forall_mem_cons.mpr ⟨?_, induction rest⟩
          obtain ⟨absent, _⟩ | ⟨_, stop⟩ := conforms.absent_or_span_eq
          · exact absurd absent present
          · exact ⟨_, stop⟩

def Input.Holds {α : Type} (input : Input α) (offset : Nat) (element : α) : Prop :=
  offset < input.size ∧ input.element? offset = some element

theorem Input.holds_of_element? {α : Type} {input : Input α} {offset : Nat} {element : α}
    (present : input.element? offset = some element) : input.Holds offset element :=
  ⟨(Array.getElem?_eq_some_iff.mp present).1, present⟩

def Diagnostic.Fits {α : Type} (input : Input α) : Diagnostic α → Prop
  | expectedEnd found offset | unexpected found offset => input.Holds offset found
  | unexpectedEnd offset => offset = input.size
  | halted offset => offset ≤ input.size
  | missingEntry | undefinedReference _ => True

namespace Machine

variable {α : Type} {grammar : Grammar} {input : Input α}

/-! ## What frames rely on -/

/-- What a frame has achieved fits its expression, and the numbers by which it finds its next
part are in range: a terminal has met less than all conditions, a choice has alternatives
and has tried no more than these, a sequence has gathered fewer trees than it has items, and
every round of a repetition is a tree that ends somewhere. -/
def Frame.InRange (input : Input α) (frame : Frame α) : Prop :=
  match frame.expr, frame.progress with
  | .terminal pattern, .taken elements => elements.length < (input.tests pattern).length
  | .choice alternatives, .fresh => 0 < alternatives.length
  | .choice alternatives, .tried count => 0 < count ∧ count ≤ alternatives.length
  | .sequence items, .fresh => 0 < items.length
  | .sequence items, .gathered children => children.length < items.length
  | .repetition _, .repeated children => ∀ child ∈ children, ∃ stop, child.stop? = some stop
  | .terminal _, .fresh | .reference _, .fresh | .reference _, .entered
  | .optional _, .fresh | .optional _, .begun | .repetition _, .fresh => True
  | _, _ => False

theorem Frame.InRange.answered {frame : Frame α} (inRange : frame.InRange input)
    (outcome : Outcome α) : (frame.answered outcome).InRange input :=
  inRange

theorem Awaits.inRange {stack : List (Frame α)} {part : Expr} {offset : Nat}
    (awaits : Awaits grammar input stack part offset) :
    ∀ frame ∈ stack, frame.InRange input := by
  induction awaits with
  | entry => exact List.forall_mem_nil _
  | reference _ _ induction => exact List.forall_mem_cons.mpr ⟨trivial, induction⟩
  | @choice _ _ _ _ count _ current induction =>
      have bound := (List.getElem?_eq_some_iff.mp current).1
      exact List.forall_mem_cons.mpr ⟨⟨Nat.succ_pos count, bound⟩, induction⟩
  | sequence _ _ current induction =>
      have bound := (List.getElem?_eq_some_iff.mp current).1
      exact List.forall_mem_cons.mpr ⟨bound, induction⟩
  | optional _ induction => exact List.forall_mem_cons.mpr ⟨trivial, induction⟩
  | repetition _ rounds induction =>
      refine List.forall_mem_cons.mpr ⟨?_, induction⟩
      intro child member
      exact rounds.exists_stop child (List.mem_reverse.mpr member)

theorem Awaits.filled {stack : List (Frame α)} {part : Expr} {offset : Nat}
    (awaits : Awaits grammar input stack part offset) (filled : grammar.Filled) :
    part.Filled := by
  induction awaits with
  | entry defined => exact filled _ (Grammar.mem_rules_of_lookup? defined)
  | reference _ defined _ => exact filled _ (Grammar.mem_rules_of_lookup? defined)
  | choice _ current induction =>
      cases induction with
      | choice parts => exact parts _ (List.mem_of_getElem? current)
  | sequence _ _ current induction =>
      cases induction with
      | sequence parts => exact parts _ (List.mem_of_getElem? current)
  | optional _ induction =>
      cases induction with
      | optional operand => exact operand
  | repetition _ _ induction =>
      cases induction with
      | repetition operand => exact operand

theorem begin_inRange {expr : Expr} (filled : expr.Filled) (cursor : Nat) :
    (Frame.begin expr cursor).InRange input := by
  cases filled with
  | choice => exact Nat.succ_pos _
  | sequence => exact Nat.succ_pos _
  | terminal | reference | optional | repetition => trivial

theorem Poised.inRange {stack : List (Frame α)} {cursor : Nat}
    (poised : Poised grammar input stack cursor) (filled : grammar.Filled) :
    ∀ frame ∈ stack, frame.InRange input := by
  cases poised with
  | begins awaits =>
      exact List.forall_mem_cons.mpr
        ⟨begin_inRange (awaits.filled filled) cursor, awaits.inRange⟩
  | @takes _ _ _ met test rest elements awaits tests meets =>
      have length : met.length = elements.length := by
        rw [meets.2.length_eq, List.length_reverse]
      have more : elements.length < (met ++ test :: rest).length := by
        rw [List.length_append, List.length_cons]
        omega
      rw [← tests] at more
      exact List.forall_mem_cons.mpr ⟨more, awaits.inRange⟩
  | found awaits =>
      obtain ⟨top, rest⟩ := List.forall_mem_cons.mp awaits.inRange
      exact List.forall_mem_cons.mpr ⟨top.answered _, rest⟩
  | missed awaits =>
      obtain ⟨top, rest⟩ := List.forall_mem_cons.mp awaits.inRange
      exact List.forall_mem_cons.mpr ⟨top.answered _, rest⟩

/-! ## What frames are told -/

/-- A frame that has not moved yet has been told nothing. A composite that has moved has been
told what became of the part that it waited for. -/
structure Frame.Told (frame : Frame α) : Prop where
  fresh : frame.progress = .fresh → frame.outcome = none
  visited : (∀ pattern, frame.expr ≠ .terminal pattern) → frame.progress ≠ .fresh →
    ∃ outcome, frame.outcome = some outcome

theorem Awaits.progress_ne_fresh {frame : Frame α} {below : List (Frame α)} {part : Expr}
    {offset : Nat} (awaits : Awaits grammar input (frame :: below) part offset) :
    frame.progress ≠ .fresh := by
  cases awaits <;> exact nofun

theorem Poised.told {frame : Frame α} {below : List (Frame α)} {cursor : Nat}
    (poised : Poised grammar input (frame :: below) cursor) : frame.Told := by
  cases poised with
  | begins => exact ⟨fun _ => rfl, fun _ visited => absurd rfl visited⟩
  | takes => exact ⟨fun _ => rfl, fun composite _ => absurd rfl (composite _)⟩
  | found awaits =>
      exact ⟨fun fresh => absurd fresh awaits.progress_ne_fresh, fun _ _ => ⟨_, rfl⟩⟩
  | missed awaits =>
      exact ⟨fun fresh => absurd fresh awaits.progress_ne_fresh, fun _ _ => ⟨_, rfl⟩⟩

/-! ## What repetitions have gathered -/

def Frame.Rounded (frame : Frame α) : Prop :=
  ∀ children, frame.progress = .repeated children →
    ∀ child ∈ children, ∃ stop, child.stop? = some stop

theorem Frame.InRange.rounded {frame : Frame α} (inRange : frame.InRange input) :
    frame.Rounded := by
  intro children gathered
  unfold Frame.InRange at inRange
  rw [gathered] at inRange
  split at inRange
  all_goals first
    | contradiction
    | next same => cases same; exact inRange

section Visits

variable {cursor entry : Nat} {children : List (Tree α)} {move : Move α}

theorem visitTerminal_ne_repeated {pattern : String} {taken : List α} :
    visitTerminal input cursor entry pattern taken ≠ (.repeated children, move) := by
  intro visit
  unfold visitTerminal at visit
  dsimp only at visit
  repeat' split at visit
  all_goals cases visit

theorem visitReference_ne_repeated {active : List (String × Nat)} {name : String} :
    visitReference grammar active entry name ≠ (.repeated children, move) := by
  intro visit
  unfold visitReference at visit
  repeat' split at visit
  all_goals cases visit

theorem visitChoice_ne_repeated {alternatives : List Expr} {tried : Nat} :
    visitChoice alternatives tried ≠ (.repeated children, move) := by
  intro visit
  unfold visitChoice at visit
  split at visit <;> cases visit

theorem visitSequence_ne_repeated {items : List Expr} {gathered : List (Tree α)} :
    visitSequence cursor entry items gathered ≠ (.repeated children, move) := by
  intro visit
  unfold visitSequence at visit
  split at visit <;> cases visit

theorem visitRepetition_repeated {operand : Expr} {gathered : List (Tree α)} {tree : Tree α}
    (visit : visitRepetition cursor entry operand gathered tree = (.repeated children, move))
    (idle : move.part? = none) : gathered = children := by
  unfold visitRepetition closeRepetition at visit
  repeat' split at visit
  · cases visit
    rfl
  · cases visit
    cases idle
  · cases visit
    rfl

theorem visit_repeated {frame : Frame α} {active : List (String × Nat)}
    (visit : frame.visit grammar input active cursor = (.repeated children, move))
    (idle : move.part? = none) : frame.progress = .repeated children := by
  unfold Frame.visit at visit
  split at visit
  all_goals first
    | exact absurd visit visitTerminal_ne_repeated
    | exact absurd visit visitReference_ne_repeated
    | exact absurd visit visitChoice_ne_repeated
    | exact absurd visit visitSequence_ne_repeated
    | next gathered _ => rw [visitRepetition_repeated visit idle] at gathered; exact gathered
    | next gathered _ => exact gathered.trans (Prod.mk.inj visit).1
    | exact (Prod.mk.inj visit).1
    | cases visit <;> cases idle

end Visits

theorem Frame.Rounded.visited {frame : Frame α} {active : List (String × Nat)} {cursor : Nat}
    {progress : Progress α} {move : Move α} (rounded : frame.Rounded)
    (visit : frame.visit grammar input active cursor = (progress, move))
    (idle : move.part? = none) : (frame.visited progress).Rounded := by
  intro children gathered
  have same : progress = .repeated children := gathered
  rw [same] at visit
  exact rounded children (visit_repeated visit idle)

/-! ## What can be relied on -/

/-- What can be relied on in every state of a machine, so that it never looks at something that
is not there. -/
structure Sound (grammar : Grammar) (input : Input α) (state : State α) : Prop where
  able : state.stopped = false → ∃ frame below progress move,
    Visit grammar input state frame below progress move ∧ frame.Told ∧ move ≠ .stuck
  inRange : state.stopped = false → ∀ frame ∈ state.stack, frame.InRange input
  rounded : ∀ frame ∈ state.stack, frame.Rounded
  lasting : state.stopped = true → ∀ call, call ≠ Call.restart →
    call.perform grammar input state = state
  shown : (∃ element, input.Holds state.cursor element) ∨
    state.cursor = input.size ∧ input.element? state.cursor = none
  fits : ∀ diagnostic ∈ state.log, diagnostic.Fits input

theorem holds_or_ended {offset : Nat} (inside : offset ≤ input.size) :
    (∃ element, input.Holds offset element) ∨
      offset = input.size ∧ input.element? offset = none := by
  cases looked : input.element? offset with
  | some element => exact .inl ⟨element, Input.holds_of_element? looked⟩
  | none =>
      have beyond : input.size ≤ offset := Array.getElem?_eq_none_iff.mp looked
      exact .inr ⟨Nat.le_antisymm inside beyond, rfl⟩

theorem logOfFound_fits (input : Input α) (stop : Nat) :
    ∀ diagnostic ∈ logOfFound input stop, diagnostic.Fits input := by
  unfold logOfFound
  split
  · next present => exact List.forall_mem_singleton.mpr (Input.holds_of_element? present)
  · exact List.forall_mem_nil _

theorem furthest_le_size (grammar : Grammar) (input : Input α) (made : Nat) :
    (stateAt grammar input made).furthest.getD 0 ≤ input.size := by
  cases furthest : (stateAt grammar input made).furthest with
  | none => exact Nat.zero_le _
  | some offset =>
      obtain ⟨earlier, _, rfl⟩ := exists_reject_of_furthest furthest
      exact cursor_le_size grammar input earlier

theorem logOfMissed_fits {furthest : Option Nat} (inside : furthest.getD 0 ≤ input.size) :
    ∀ diagnostic ∈ logOfMissed input furthest, diagnostic.Fits input := by
  unfold logOfMissed
  obtain ⟨element, holds⟩ | ⟨ended, absent⟩ := holds_or_ended inside
  · rw [holds.2]
    exact List.forall_mem_singleton.mpr holds
  · rw [absent]
    exact List.forall_mem_singleton.mpr ended

theorem stateAt_fits (grammar : Grammar) (input : Input α) (made : Nat) :
    ∀ diagnostic ∈ (stateAt grammar input made).log, diagnostic.Fits input := by
  apply stateAt_cases fun state => ∀ diagnostic ∈ state.log, diagnostic.Fits input
  case goes =>
    intro made running
    rw [(clear_of_running running).2]
    exact List.forall_mem_nil _
  case missing => exact fun _ => List.forall_mem_singleton.mpr trivial
  case found =>
    intro last tree concludes
    rw [concludes.found.log]
    exact logOfFound_fits input _
  case missed =>
    intro last concludes
    rw [concludes.missed.log]
    exact logOfMissed_fits (furthest_le_size grammar input _)
  case undefined =>
    intro last name undefined
    rw [(undefined_ends undefined).log]
    exact List.forall_mem_singleton.mpr trivial

namespace Sound

variable {state : State α}

theorem inRange_stateAt (filled : grammar.Filled) (made : Nat) :
    ∀ frame ∈ (stateAt grammar input made).stack, frame.InRange input := by
  cases stateAt_steady grammar input made with
  | inl empty =>
      rw [empty]
      exact List.forall_mem_nil _
  | inr poised => exact poised.inRange filled

theorem of_stateAt (filled : grammar.Filled) (made : Nat) :
    Sound grammar input (stateAt grammar input made) where
  able := by
    intro running
    obtain ⟨frame, below, progress, move, visit⟩ := exists_visit_of_running running
    have poised := (stateAt_steady grammar input made).poised visit.stack
    refine ⟨frame, below, progress, move, visit, poised.told, ?_⟩
    rintro rfl
    exact poised.leads visit.visit
  inRange := fun _ => inRange_stateAt filled made
  rounded := fun frame member => (inRange_stateAt filled made frame member).rounded
  lasting := fun stopped call keeps => perform_of_stopped stopped keeps
  shown := holds_or_ended (cursor_le_size grammar input made)
  fits := stateAt_fits grammar input made

theorem rounded_stepHalted {made : Nat} {frame : Frame α} {below : List (Frame α)}
    {progress : Progress α} {move : Move α} (filled : grammar.Filled)
    (visit : Visit grammar input (stateAt grammar input made) frame below progress move) :
    ∀ other ∈ ((stateAt grammar input made).stepHalted grammar input).stack, other.Rounded := by
  rw [visit.stepHalted, stop_stack, announce_stack]
  cases pushed : move.part? with
  | some part =>
      -- a part that is pushed makes the frames below it wait, as it does without a halt
      have next : Sound grammar input (stateAt grammar input (made + 1)) := of_stateAt filled _
      rw [stateAt_succ, visit.step_push pushed] at next
      exact next.rounded
  | none =>
      have now : Sound grammar input (stateAt grammar input made) := of_stateAt filled made
      have rounded := now.rounded
      rw [visit.stack] at rounded
      obtain ⟨top, rest⟩ := List.forall_mem_cons.mp rounded
      exact List.forall_mem_cons.mpr ⟨top.visited visit.visit pushed, rest⟩

section Halts

variable [Element α]

theorem of_haltedAt {offset : Nat} (halted : HaltedAt input offset state)
    (inside : offset ≤ input.size) (rounded : ∀ frame ∈ state.stack, frame.Rounded) :
    Sound grammar input state where
  able := fun running => by rw [halted.stopped] at running; cases running
  inRange := fun running => by rw [halted.stopped] at running; cases running
  rounded := rounded
  lasting := fun stopped call keeps => perform_of_stopped stopped keeps
  shown := by
    rw [halted.cursor]
    exact holds_or_ended inside
  fits := by
    rw [halted.log]
    exact List.forall_mem_singleton.mpr inside

theorem of_reached (filled : grammar.Filled) (reached : Reached grammar input state) :
    Sound grammar input state := by
  cases reached with
  | undisturbed made => exact of_stateAt filled made
  | @stopped made running =>
      apply of_haltedAt ((Orderly.of_running running).stop running).2 (cursor_le_size ..)
      rw [stop_stack]
      exact (of_stateAt filled made).rounded
  | @halted made running =>
      obtain ⟨frame, below, progress, move, visit⟩ := exists_visit_of_running running
      rcases stepHalted_stateAt_cases running with late | halted
      · rw [late]
        exact of_stateAt filled (made + 1)
      · exact of_haltedAt halted (cursor_le_size grammar input made)
          (rounded_stepHalted filled visit)

end Halts

end Sound

/-! ## Calls -/

/-- A machine that reads by a grammar put together from drafts is never at a loss, whatever is
asked of it and whoever stops it at whatever moment: as long as its run goes on it has a move,
everything its frames refer to is there, and it speaks of nothing beyond the input. -/
theorem calls_never_at_loss [Element α] {drafts : List RuleDraft}
    (made : Grammar.ofDrafts drafts = .ok grammar) (input : Input α) (calls : List Call) :
    Sound grammar input (afterCalls grammar input calls) :=
  .of_reached (Grammar.filled_of_ofDrafts made) (reached_afterCalls grammar input calls)

def selfBeginningRounds : List RuleDraft := [
  ⟨.text entryName, .composite .repetition [.composite .choice [.pattern "ab", .reference "X"]]⟩,
  ⟨.text "X", .composite .choice [.reference "X", .pattern "c"]⟩]

theorem selfBeginningRounds_never_at_loss :
    let grammar : Grammar := .ofRules [
      (entryName, .repetition (.choice [.terminal "ab", .reference "X"])),
      ("X", .choice [.reference "X", .terminal "c"])]
    let input := Input.ofText "cab"
    let calls := [.exec none, .restart, .exec (some 14), .step false]
    Grammar.ofDrafts selfBeginningRounds = .ok grammar ∧
      Sound grammar input (afterCalls grammar input calls) := by
  intro grammar input calls
  have made : Grammar.ofDrafts selfBeginningRounds = .ok grammar := by rfl
  exact ⟨made, calls_never_at_loss made input calls⟩

end Machine

end OrderedChoice
