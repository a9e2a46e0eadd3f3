import OrderedChoice.Proofs.Machine.Active
import OrderedChoice.Proofs.Machine.Furthest
import OrderedChoice.Proofs.Machine.Stack
import OrderedChoice.Source

/-! From the move that puts a frame on the stack to the move that takes it away. In between
the frames below it are as they were, and afterwards the machine is as it was as well, apart
from the outcome that is handed down, the cursor if the frame was found, the count of moves
and the furthest refusal. -/

namespace OrderedChoice

namespace Machine

open Evaluation (Effort)

variable {α : Type} {grammar : Grammar} {input : Input α}

/-! ## Frames that stay -/

/-- A stack has the frame of an expression that began at `entry` directly above the frames
`below`, and perhaps more frames above that one. -/
inductive Keeps (expr : Expr) (entry : Nat) (below : List (Frame α)) :
    List (Frame α) → Prop
  | top {frame} :
      frame.expr = expr → frame.entry = entry → Keeps expr entry below (frame :: below)
  | under {upper rest} : Keeps expr entry below rest → Keeps expr entry below (upper :: rest)

namespace Keeps

variable {expr : Expr} {entry : Nat} {below stack : List (Frame α)} {frame : Frame α}

theorem length_lt (keeps : Keeps expr entry below stack) : below.length < stack.length := by
  induction keeps with
  | top => exact Nat.lt_succ_self _
  | under _ induction => exact Nat.lt_succ_of_lt induction

theorem exists_append (keeps : Keeps expr entry below stack) :
    ∃ above frame, stack = above ++ frame :: below ∧ frame.expr = expr ∧
      frame.entry = entry := by
  induction keeps with
  | top same began => exact ⟨[], _, rfl, same, began⟩
  | @under upper _ _ induction =>
      obtain ⟨above, frame, rfl, same, began⟩ := induction
      exact ⟨upper :: above, frame, rfl, same, began⟩

theorem visited (keeps : Keeps expr entry below (frame :: stack)) (progress : Progress α) :
    Keeps expr entry below (frame.visited progress :: stack) := by
  cases keeps with
  | top same began => exact .top same began
  | under keeps => exact .under keeps

theorem handDown (keeps : Keeps expr entry below stack) (outcome : Outcome α) :
    Keeps expr entry below (handDown outcome stack) := by
  cases keeps with
  | top same began => exact .top same began
  | under keeps => exact .under keeps

end Keeps

/-! ## While a frame is on the stack -/

/-- What a run has changed, after some moves, since a frame was put above others. -/
structure Within (before : State α) (expr : Expr) (below : List (Frame α)) (spent : Nat)
    (state : State α) : Prop where
  frames : Keeps expr before.cursor below state.stack
  unsettled : state.stopped = false → ∃ effort, effort.moves = spent ∧
    state = before.after effort state.cursor state.stack state.active

namespace Within

variable {before state : State α} {expr : Expr} {below : List (Frame α)} {spent : Nat}

theorem begin (stack : before.stack = .begin expr before.cursor :: below) :
    Within before expr below 0 before where
  frames := by rw [stack]; exact .top rfl rfl
  unsettled := fun _ => ⟨.none, rfl, before.after_none.symm⟩

theorem exists_after (within : Within before expr below spent state)
    (running : state.stopped = false) {effort : Effort} (single : effort.moves = 1)
    (cursor : Nat) (stack : List (Frame α)) (active : List (String × Nat)) :
    ∃ total, total.moves = spent + 1 ∧
      state.after effort cursor stack active = before.after total cursor stack active := by
  obtain ⟨earlier, moves, equal⟩ := within.unsettled running
  refine ⟨earlier + effort, ?_, ?_⟩
  · rw [Effort.add_moves, moves, single]
  · rw [equal, State.after_after]

theorem step (within : Within before expr below spent state)
    (higher : below.length < (state.step grammar input).depth) :
    Within before expr below (spent + 1) (state.step grammar input) := by
  revert higher
  apply step_cases fun next =>
    below.length < next.depth → Within before expr below (spent + 1) next
  case rests =>
    intro rests _
    obtain stopped | empty := rests
    · exact ⟨within.frames, fun running => by rw [stopped] at running; cases running⟩
    · have keeps := within.frames
      rw [empty] at keeps
      cases keeps
  case leaves =>
    intro frame others progress move outcome visit leaves higher
    have keeps := within.frames
    rw [visit.stack] at keeps
    cases keeps with
    | top =>
        rw [State.depth, deliver_stack, length_handDown] at higher
        -- without the frame itself the stack would be no higher than the frames below it
        exact absurd higher (Nat.lt_irrefl _)
    | under keeps =>
        cases others with
        | nil => cases keeps
        | cons parent rest =>
            rw [State.deliver_after_cons]
            refine ⟨keeps.handDown outcome, fun running => ?_⟩
            exact within.exists_after visit.running (move.effort_moves _) _ _ _
  case pushes =>
    intro frame others progress move part visit pushes higher
    have keeps := within.frames
    rw [visit.stack] at keeps
    refine ⟨.under (keeps.visited progress), fun running => ?_⟩
    exact within.exists_after visit.running rfl _ _ _
  case stays =>
    intro frame others progress move visit stays idle higher
    have keeps := within.frames
    rw [visit.stack] at keeps
    obtain ⟨frames, _, _, _, going⟩ := visit.step_stay stays idle
    refine ⟨by rw [frames]; exact keeps.visited progress, fun running => ?_⟩
    rw [(going running).2]
    exact within.exists_after visit.running rfl _ _ _

end Within

/-! ## When the frame is taken away -/

def Outcome.EndsAt (start cursor : Nat) : Outcome α → Prop
  | found tree =>
      start ≤ cursor ∧ (tree.stop? = some (cursor : Int) ∨ tree = .absent ∧ cursor = start)
  | missed => cursor = start

theorem Leads.endsAt {below : List (Frame α)} {expr : Expr} {entry cursor : Nat}
    {progress : Progress α} {move : Move α} {outcome : Outcome α}
    (leads : Leads grammar input below expr entry cursor progress move)
    (leaves : move.outcome? = some outcome) :
    outcome.EndsAt entry (move.exit cursor entry) := by
  cases outcome with
  | missed => exact exit_of_missed leaves cursor entry
  | found tree =>
      have conforms := leads.conforms leaves
      refine ⟨conforms.stretch.forward, ?_⟩
      obtain idle | ends := conforms.absent_or_span_eq
      · exact .inr idle
      · exact .inl ends.2

theorem Within.leave {before state : State α} {expr : Expr} {below : List (Frame α)}
    {spent : Nat} (within : Within before expr below spent state)
    (steady : Steady grammar input state) (tracks : Tracks state)
    (active : before.active = rulesOf below)
    (lower : (state.step grammar input).depth ≤ below.length) :
    ∃ move outcome effort cursor, Proposes grammar input state move ∧
      move.outcome? = some outcome ∧ outcome.EndsAt before.cursor cursor ∧
      effort.moves = spent + 1 ∧
      state.step grammar input =
        (before.after effort cursor below before.active).deliver input outcome := by
  have higher := within.frames.length_lt
  revert lower
  apply step_cases fun next => next.depth ≤ below.length →
    ∃ move outcome effort cursor, Proposes grammar input state move ∧
      move.outcome? = some outcome ∧ outcome.EndsAt before.cursor cursor ∧
      effort.moves = spent + 1 ∧
      next = (before.after effort cursor below before.active).deliver input outcome
  case rests => exact fun _ lower => absurd higher (Nat.not_lt.mpr lower)
  case leaves =>
    intro frame others progress move outcome visit leaves lower
    have keeps := within.frames
    rw [visit.stack] at keeps
    cases keeps with
    | under keeps =>
        -- a frame further up is gone, so that the frame itself is still there
        rw [State.depth, deliver_stack, length_handDown] at lower
        exact absurd keeps.length_lt (Nat.not_lt.mpr lower)
    | top same began =>
        have leads := (steady.poised visit.stack).leads visit.visit
        have ends := leads.endsAt leaves
        rw [began] at ends
        have released : State.releasedBy (frame.visited progress) state.active =
            before.active := by
          rw [tracks.released visit leaves, active]
        obtain ⟨effort, moves, equal⟩ := within.exists_after visit.running
          (move.effort_moves state.cursor) (move.exit state.cursor frame.entry) below
          before.active
        rw [released, equal]
        exact ⟨move, outcome, effort, _, visit.proposes, leaves, by rw [began]; exact ends,
          moves, rfl⟩
  case pushes =>
    intro frame others progress move part visit _ lower
    rw [visit.stack] at higher
    exact absurd (Nat.lt_succ_of_lt higher) (Nat.not_lt.mpr lower)
  case stays =>
    intro frame others progress move visit stays idle lower
    rw [State.depth, (visit.step_stay stays idle).1] at lower
    rw [visit.stack] at higher
    exact absurd higher (Nat.not_lt.mpr lower)

/-! ## Runs -/

/-- The frame on top of others was put there by the latest move; the outermost frame is
there from the start. -/
def Pushed (grammar : Grammar) (input : Input α) (made : Nat) (frame : Frame α)
    (below : List (Frame α)) : Prop :=
  (stateAt grammar input made).stack = frame :: below ∧
    ∀ earlier, made = earlier + 1 →
      (stateAt grammar input earlier).depth < (stateAt grammar input made).depth

theorem Pushed.eq_begin {made : Nat} {frame : Frame α} {below : List (Frame α)}
    (pushed : Pushed grammar input made frame below) :
    frame = .begin frame.expr (stateAt grammar input made).cursor := by
  obtain ⟨stack, rises⟩ := pushed
  cases made with
  | zero =>
      have start : (State.start grammar).stack = frame :: below := stack
      obtain missing | ⟨definition, _, begun⟩ := start_cases α grammar
      · rw [missing] at start
        cases start
      · rw [begun] at start
        cases start
        change Frame.begin definition 0 = Frame.begin definition (State.start grammar).cursor
        rw [begun]
        rfl
  | succ earlier =>
      have rises := rises earlier rfl
      rw [stateAt_succ] at stack rises ⊢
      revert stack rises
      apply step_cases fun next => next.stack = frame :: below →
        (stateAt grammar input earlier).depth < next.depth →
        frame = .begin frame.expr next.cursor
      -- the stack has become higher, which only a push does
      case rests => exact fun _ _ rises => absurd rises (Nat.lt_irrefl _)
      case leaves =>
        intro top others progress move outcome visit _ _ rises
        rw [State.depth, State.depth, deliver_stack, length_handDown, visit.stack] at rises
        exact absurd rises (Nat.not_lt.mpr (Nat.le_succ _))
      case pushes =>
        intro top others progress move part visit _ stack _
        cases stack
        rfl
      case stays =>
        intro top others progress move visit stays idle _ rises
        rw [State.depth, State.depth, (visit.step_stay stays idle).1, visit.stack] at rises
        exact absurd rises (Nat.lt_irrefl _)

theorem Pushed.within {made lasted : Nat} {frame : Frame α} {below : List (Frame α)}
    (pushed : Pushed grammar input made frame below)
    (higher : ∀ between, between ≤ lasted →
      below.length < (stateAt grammar input (made + between)).depth) :
    Within (stateAt grammar input made) frame.expr below lasted
      (stateAt grammar input (made + lasted)) := by
  induction lasted with
  | zero =>
      apply Within.begin
      rw [pushed.1]
      exact congrArg (· :: below) pushed.eq_begin
  | succ lasted induction =>
      have within := induction fun between order => higher between (Nat.le_succ_of_le order)
      have last := higher (lasted + 1) (Nat.le_refl _)
      rw [← Nat.add_assoc, stateAt_succ] at last ⊢
      exact within.step last

/-- What is left when a frame has been taken away with an outcome: the frames below it as
they were, but for the outcome handed to the first of them, the rules that were under way,
and the cursor where the outcome ends. All else is as it was, but for the moves counted and
the furthest refusal, and for the end of the run if there is no frame below. -/
structure Restored (input : Input α) (before : State α) (below : List (Frame α))
    (spent : Nat) (outcome : Outcome α) (after : State α) : Prop where
  frames : after.stack = handDown outcome below
  active : after.active = before.active
  ends : outcome.EndsAt before.cursor after.cursor
  settled : ∃ effort, effort.moves = spent ∧
    after = (before.after effort after.cursor below before.active).deliver input outcome

/-- From the move that puts a frame on the stack to the move that takes it away, the frames
below are as they were. Afterwards nothing is left of what was done in between, apart from
the outcome, the count of moves and the furthest refusal. -/
theorem bracket_restores {made lasted : Nat} {frame : Frame α} {below : List (Frame α)}
    (pushed : Pushed grammar input made frame below)
    (higher : ∀ between, between ≤ lasted →
      below.length < (stateAt grammar input (made + between)).depth) :
    let before := stateAt grammar input made
    let last := stateAt grammar input (made + lasted)
    let after := stateAt grammar input (made + lasted + 1)
    (∀ between, between ≤ lasted →
      ∃ above top, (stateAt grammar input (made + between)).stack = above ++ top :: below ∧
        top.expr = frame.expr ∧ top.entry = before.cursor) ∧
    (after.depth ≤ below.length →
      ∃ move outcome, Proposes grammar input last move ∧ move.outcome? = some outcome ∧
        Restored input before below (lasted + 1) outcome after) ∧
    ∀ earlier later, earlier ≤ later →
      (stateAt grammar input earlier).furthest ≤ (stateAt grammar input later).furthest := by
  intro before last after
  have within : ∀ between, between ≤ lasted → Within before frame.expr below between
      (stateAt grammar input (made + between)) :=
    fun between order => pushed.within fun sooner first =>
      higher sooner (Nat.le_trans first order)
  refine ⟨fun between order => (within between order).frames.exists_append, ?_,
    fun earlier later order => furthest_mono grammar input order⟩
  intro lower
  have active : before.active = rulesOf below := by
    have tracks : before.active = rulesOf before.stack := stateAt_tracks grammar input made
    rw [tracks, pushed.1, pushed.eq_begin]
    exact rulesOf_begin _ _ _
  have stepped : after = last.step grammar input := stateAt_succ grammar input _
  rw [stepped] at lower
  obtain ⟨move, outcome, effort, cursor, proposes, leaves, ends, moves, equal⟩ :=
    (within lasted (Nat.le_refl _)).leave (stateAt_steady grammar input _)
      (stateAt_tracks grammar input _) active lower
  rw [← stepped] at equal
  have exit : after.cursor = cursor := by rw [equal, deliver_cursor]; rfl
  refine ⟨move, outcome, proposes, leaves, ?_, ?_, ?_, effort, moves, ?_⟩
  · rw [equal, deliver_stack]
    rfl
  · rw [equal, deliver_active]
    rfl
  · rw [exit]
    exact ends
  · rw [exit]
    exact equal

def sharedPrefix : Grammar := .ofRules [
  (entryName, .choice [
    .sequence [.reference "A", .terminal "b"],
    .sequence [.reference "A", .terminal "c"]]),
  ("A", .terminal "a")]

/-- The first alternative finds the rule and then fails, as the second has to be tried. -/
theorem sharedPrefix_bracket_restores :
    let input := Input.ofText "ac"
    let choice : Expr := .choice [
      .sequence [.reference "A", .terminal "b"], .sequence [.reference "A", .terminal "c"]]
    let first := Frame.begin (.sequence [.reference "A", .terminal "b"]) 0
    let below : List (Frame Char) := [⟨choice, 0, .tried 1, none⟩]
    let before := stateAt sharedPrefix input 1
    let after := stateAt sharedPrefix input 8
    Pushed sharedPrefix input 1 first below ∧
      (∀ between, between ≤ 6 →
        below.length < (stateAt sharedPrefix input (1 + between)).depth) ∧
      after.depth ≤ below.length ∧
      ∃ move outcome, Proposes sharedPrefix input (stateAt sharedPrefix input 7) move ∧
        move.outcome? = some outcome ∧ Restored input before below 7 outcome after := by
  intro input choice first below before after
  have pushed : Pushed sharedPrefix input 1 first below := by
    refine ⟨by decide +kernel, ?_⟩
    intro earlier equal
    cases equal
    decide +kernel
  have higher : ∀ between, between ≤ 6 →
      below.length < (stateAt sharedPrefix input (1 + between)).depth := by
    decide +kernel
  have lower : after.depth ≤ below.length := by decide +kernel
  exact ⟨pushed, higher, lower, (bracket_restores pushed higher).2.1 lower⟩

end Machine

end OrderedChoice
