import OrderedChoice.Proofs.Machine.Found

/-! No element is lost or doubled while a run is under way. What the frames of a stack hold
is, from the bottom to the top, exactly what the input holds before the cursor: elements
are only passed on, from a terminal to its leaf, from an outcome to the trees that a frame
has gathered, and from those to the tree that the frame hands down. -/

namespace OrderedChoice

namespace Machine

variable {α : Type} {grammar : Grammar} {input : Input α}

/-! ## What a stack holds -/

def Progress.elements : Progress α → List α
  | taken elements => elements.reverse
  | gathered children | repeated children => Tree.elementsOfAll children.reverse
  | fresh | entered | tried _ | begun => []

def Outcome.elements : Outcome α → List α
  | found tree => tree.elements
  | missed => []

/-- The elements that a frame has taken or gathered, and those of an outcome that it has
not looked at yet. -/
def Frame.elements (frame : Frame α) : List α :=
  frame.progress.elements ++ (frame.outcome.map Outcome.elements).getD []

def held (stack : List (Frame α)) : List α :=
  stack.reverse.flatMap Frame.elements

theorem held_cons (frame : Frame α) (below : List (Frame α)) :
    held (frame :: below) = held below ++ frame.elements := by
  simp [held]

theorem held_answered {frame : Frame α} (waits : frame.outcome = none)
    (outcome : Outcome α) (below : List (Frame α)) :
    held (frame.answered outcome :: below) = held (frame :: below) ++ outcome.elements := by
  simp [held_cons, Frame.elements, waits]

theorem Awaits.outcome_eq_none {frame : Frame α} {below : List (Frame α)} {part : Expr}
    {offset : Nat} (awaits : Awaits grammar input (frame :: below) part offset) :
    frame.outcome = none := by
  cases awaits <;> rfl

/-! ## Stretches of frames -/

theorem held_stretch {frame : Frame α} {below : List (Frame α)} {start stop : Nat}
    (before : input.Stretch 0 (held below) start)
    (own : input.Stretch start frame.progress.elements stop) (waits : frame.outcome = none) :
    input.Stretch 0 (held (frame :: below)) stop := by
  rw [held_cons, Frame.elements, waits]
  simpa using before.append own

theorem Awaits.stretch {stack : List (Frame α)} {part : Expr} {offset : Nat}
    (awaits : Awaits grammar input stack part offset) :
    input.Stretch 0 (held stack) offset := by
  induction awaits with
  | entry => exact .nil input 0
  | reference _ _ before => exact held_stretch before (.nil input _) rfl
  | choice _ _ before => exact held_stretch before (.nil input _) rfl
  | sequence _ gathered _ before => exact held_stretch before gathered.stretch rfl
  | optional _ before => exact held_stretch before (.nil input _) rfl
  | repetition _ rounds before => exact held_stretch before rounds.stretch rfl

theorem Poised.stretch {stack : List (Frame α)} {cursor : Nat}
    (poised : Poised grammar input stack cursor) :
    input.Stretch 0 (held stack) cursor := by
  cases poised with
  | begins awaits => exact held_stretch awaits.stretch (.nil input _) rfl
  | takes awaits _ meets =>
      apply held_stretch awaits.stretch _ rfl
      exact ⟨congrArg _ List.length_reverse.symm, meets.1⟩
  | found awaits conforms =>
      rw [held_answered awaits.outcome_eq_none]
      exact awaits.stretch.append conforms.stretch
  | missed awaits =>
      rw [held_answered awaits.outcome_eq_none]
      exact awaits.stretch.append (.nil input _)

/-! ## Where frames began -/

theorem Awaits.start_eq {stack : List (Frame α)} {part : Expr} {offset : Nat}
    (awaits : Awaits grammar input stack part offset) : offset = (held stack).length :=
  awaits.stretch.1.trans (Nat.zero_add _)

theorem Awaits.entry_eq {above below : List (Frame α)} {frame : Frame α} {part : Expr}
    {offset : Nat} (awaits : Awaits grammar input (above ++ frame :: below) part offset) :
    frame.entry = (held below).length := by
  induction above generalizing part offset with
  | nil => exact awaits.under.start_eq
  | cons upper rest induction => exact induction awaits.under

theorem Poised.entry_eq {above below : List (Frame α)} {frame : Frame α} {cursor : Nat}
    (poised : Poised grammar input (above ++ frame :: below) cursor) :
    frame.entry = (held below).length := by
  cases above with
  | nil => exact poised.under.start_eq
  | cons upper rest => exact poised.under.entry_eq

theorem pairwise_entry {stack : List (Frame α)}
    (entries : ∀ above frame below, stack = above ++ frame :: below →
      frame.entry = (held below).length) :
    (stack.reverse.map Frame.entry).Pairwise (· ≤ ·) := by
  rw [List.pairwise_map, List.pairwise_reverse]
  induction stack with
  | nil => exact .nil
  | cons upper rest induction =>
      apply List.Pairwise.cons
      · intro lower member
        obtain ⟨between, below, split⟩ := List.append_of_mem member
        have first := entries [] upper rest rfl
        have second := entries (upper :: between) lower below (by rw [split]; rfl)
        rw [first, second, split]
        simp [held]
      · apply induction
        intro above frame below split
        exact entries (upper :: above) frame below (by rw [split]; rfl)

/-! ## Runs -/

/-- As long as frames are left, they hold the elements before the cursor, each once and in
order, and every frame began where those below it end. -/
theorem held_eq_take {made : Nat} (busy : (stateAt grammar input made).stack ≠ []) :
    let state := stateAt grammar input made
    held state.stack = input.elements.toList.take state.cursor ∧
      (∀ above frame below, state.stack = above ++ frame :: below →
        frame.entry = (held below).length) ∧
      (state.stack.reverse.map Frame.entry).Pairwise (· ≤ ·) ∧
      state.cursor ≤ input.size := by
  intro state
  have poised : Poised grammar input state.stack state.cursor :=
    (stateAt_steady grammar input made).resolve_left busy
  obtain ⟨taken, inside⟩ := poised.stretch.eq_take
  -- a frame anywhere in the stack is the top of what is left of it
  have entries : ∀ above frame below, state.stack = above ++ frame :: below →
      frame.entry = (held below).length := by
    intro above frame below split
    rw [split] at poised
    exact poised.entry_eq
  exact ⟨taken, entries, pairwise_entry entries, inside⟩

theorem optionThenRepetition_held_eq_take :
    let state := stateAt optionThenRepetition (.ofText "bb") 9
    state.stack ≠ [] ∧
      held state.stack = (Input.ofText "bb").elements.toList.take state.cursor ∧
      (∀ above frame below, state.stack = above ++ frame :: below →
        frame.entry = (held below).length) ∧
      (state.stack.reverse.map Frame.entry).Pairwise (· ≤ ·) ∧
      state.cursor ≤ (Input.ofText "bb").size := by
  have busy : (stateAt optionThenRepetition (.ofText "bb") 9).stack ≠ [] := by decide +kernel
  exact ⟨busy, held_eq_take busy⟩

end Machine

end OrderedChoice
