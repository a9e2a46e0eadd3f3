import Mathlib.Data.List.ProdSigma
import OrderedChoice.Proofs.Grammar.Shape
import OrderedChoice.Proofs.Machine.Active
import OrderedChoice.Proofs.Machine.Ending

/-! How deep a stack can be. Between a reference and the next the frames of a stack are a way
down the definition of a rule, and no rule is under way twice from the same offset. So the
rules and the offsets of the input bound the stack, whatever the grammar and the input are,
and however the machine is driven. -/

namespace OrderedChoice

namespace Machine

variable {α : Type} {grammar : Grammar} {input : Input α}

/-! ## Ways down definitions -/

theorem rulesOf_entered (name : String) (start : Nat) (below : List (Frame α)) :
    rulesOf (⟨.reference name, start, .entered, none⟩ :: below) =
      (name, start) :: rulesOf below :=
  rulesOf_cons _ _

theorem length_add_height_le_cons {frame : Frame α} {below : List (Frame α)}
    {part whole : Expr} (idle : frame.rule? = none) (lower : part.height + 1 ≤ whole.height)
    (bound : below.length + whole.height ≤ grammar.height * (1 + (rulesOf below).length)) :
    (frame :: below).length + part.height ≤
      grammar.height * (1 + (rulesOf (frame :: below)).length) := by
  rw [rulesOf_cons, idle, Option.toList_none, List.nil_append, List.length_cons]
  omega

/-- The frames that wait, together with the part that they wait for, are no more than the
rules that they have entered make room for. -/
theorem Awaits.length_add_height_le {stack : List (Frame α)} {part : Expr} {offset : Nat}
    (awaits : Awaits grammar input stack part offset) :
    stack.length + part.height ≤ grammar.height * (1 + (rulesOf stack).length) := by
  induction awaits with
  | entry defined =>
      have lower := Grammar.height_le_of_lookup? defined
      simpa [rulesOf] using lower
  | @reference below name definition start _ defined induction =>
      -- each rule entered makes room for one more definition
      have lower := Grammar.height_le_of_lookup? defined
      have room : grammar.height * (1 + ((rulesOf below).length + 1)) =
          grammar.height * (1 + (rulesOf below).length) + grammar.height := Nat.mul_succ _ _
      rw [Expr.height] at induction
      rw [rulesOf_entered, List.length_cons, List.length_cons, room]
      omega
  | choice _ current induction =>
      have lower := Expr.height_le_of_mem (List.mem_of_getElem? current)
      apply length_add_height_le_cons rfl _ induction
      exact Nat.succ_le_succ lower
  | sequence _ _ current induction =>
      have lower := Expr.height_le_of_mem (List.mem_of_getElem? current)
      apply length_add_height_le_cons rfl _ induction
      exact Nat.succ_le_succ lower
  | optional _ induction => exact length_add_height_le_cons rfl (Nat.le_refl _) induction
  | repetition _ _ induction => exact length_add_height_le_cons rfl (Nat.le_refl _) induction

theorem mem_rulesOf_iff {stack : List (Frame α)} {name : String} {entry : Nat} :
    (name, entry) ∈ rulesOf stack ↔
      ∃ frame ∈ stack, frame.expr = .reference name ∧ frame.progress = .entered ∧
        frame.entry = entry := by
  have entered : ∀ frame : Frame α, frame.rule? = some (name, entry) ↔
      frame.expr = .reference name ∧ frame.progress = .entered ∧ frame.entry = entry := by
    intro frame
    unfold Frame.rule?
    split
    · next other reference progress => simp [reference, progress]
    · next different =>
        refine ⟨nofun, fun holds => ?_⟩
        exact absurd holds.2.1 (different name holds.1)
  unfold rulesOf
  rw [List.mem_filterMap]
  exact exists_congr fun frame => and_congr_right fun _ => entered frame

theorem length_rulesOf_le (frame : Frame α) (below : List (Frame α)) :
    (rulesOf below).length ≤ (rulesOf (frame :: below)).length := by
  rw [rulesOf_cons, List.length_append]
  exact Nat.le_add_left _ _

theorem Poised.length_le {stack : List (Frame α)} {cursor : Nat}
    (poised : Poised grammar input stack cursor) :
    stack.length ≤ grammar.height * (1 + (rulesOf stack).length) := by
  cases stack with
  | nil => exact Nat.zero_le _
  | cons frame below =>
      have room := poised.under.length_add_height_le
      have high := frame.expr.one_le_height
      have fewer := length_rulesOf_le frame below
      calc (frame :: below).length
          ≤ below.length + frame.expr.height := by rw [List.length_cons]; omega
        _ ≤ grammar.height * (1 + (rulesOf below).length) := room
        _ ≤ grammar.height * (1 + (rulesOf (frame :: below)).length) :=
          Nat.mul_le_mul_left _ (Nat.add_le_add_left fewer 1)

/-! ## Rules under way -/

theorem Awaits.mem_rulesOf {stack : List (Frame α)} {part : Expr} {offset : Nat}
    {rule : String × Nat} (awaits : Awaits grammar input stack part offset)
    (member : rule ∈ rulesOf stack) : rule.1 ∈ grammar.names ∧ rule.2 ≤ offset := by
  induction awaits with
  | entry => cases member
  | reference _ defined induction =>
      rw [rulesOf_entered] at member
      rcases List.mem_cons.mp member with rfl | member
      · exact ⟨Grammar.mem_names_of_lookup? defined, Nat.le_refl _⟩
      · exact induction member
  | choice _ _ induction => exact induction member
  | sequence _ gathered _ induction =>
      have earlier := induction member
      exact ⟨earlier.1, Nat.le_trans earlier.2 gathered.stretch.forward⟩
  | optional _ induction => exact induction member
  | repetition _ rounds induction =>
      have earlier := induction member
      exact ⟨earlier.1, Nat.le_trans earlier.2 rounds.stretch.forward⟩

theorem Poised.mem_rulesOf {stack : List (Frame α)} {cursor : Nat} {rule : String × Nat}
    (poised : Poised grammar input stack cursor) (member : rule ∈ rulesOf stack) :
    rule.1 ∈ grammar.names ∧ rule.2 ≤ cursor := by
  cases poised with
  | begins awaits =>
      rw [rulesOf_begin] at member
      exact awaits.mem_rulesOf member
  | takes awaits =>
      have earlier := awaits.mem_rulesOf member
      exact ⟨earlier.1, Nat.le_trans earlier.2 (Nat.le_add_right _ _)⟩
  | found awaits conforms =>
      rw [rulesOf_cons, rule?_answered, ← rulesOf_cons] at member
      have earlier := awaits.mem_rulesOf member
      exact ⟨earlier.1, Nat.le_trans earlier.2 conforms.stretch.forward⟩
  | missed awaits =>
      rw [rulesOf_cons, rule?_answered, ← rulesOf_cons] at member
      exact awaits.mem_rulesOf member

/-- Rules that are under way but once, from offsets of the input, are no more than there are
pairs of a rule and an offset. -/
theorem length_rules_le {rules : List (String × Nat)} (distinct : rules.Nodup)
    (known : ∀ rule ∈ rules, rule.1 ∈ grammar.names ∧ rule.2 ≤ input.size) :
    rules.length ≤ grammar.size * (input.size + 1) := by
  -- every rule under way is one of the pairs of a name and an offset
  have inside : rules ⊆ grammar.names ×ˢ List.range (input.size + 1) := by
    intro rule member
    obtain ⟨named, bound⟩ := known rule member
    exact List.mem_product.mpr ⟨named, List.mem_range.mpr (Nat.lt_succ_of_le bound)⟩
  calc rules.length
      ≤ (grammar.names ×ˢ List.range (input.size + 1)).length :=
        distinct.length_le_of_subset inside
    _ = grammar.size * (input.size + 1) := by
        rw [List.length_product, List.length_range, Grammar.names, List.length_map, Grammar.size]

/-! ## Entering -/

section Visits

variable {frame : Frame α} {active : List (String × Nat)} {cursor : Nat}
  {progress : Progress α} {move : Move α}

theorem not_mem_of_enters {rule : String × Nat}
    (visit : frame.visit grammar input active cursor = (progress, move))
    (enters : move.rule? = some rule) : rule ∉ active := by
  by_cases reference : ∃ name, frame.expr = .reference name
  case neg =>
    have composite : ∀ name, frame.expr ≠ .reference name :=
      fun name equal => reference ⟨name, equal⟩
    rw [rule?_eq_none_of_visit composite visit] at enters
    cases enters
  case pos =>
    obtain ⟨name, reference⟩ := reference
    by_cases fresh : frame.progress = .fresh
    · simp only [Frame.visit, reference, fresh, visitReference] at visit
      split at visit
      · cases visit
        cases enters
      · next absent =>
          split at visit
          · cases visit
            cases enters
          · cases visit
            cases enters
            exact absent
    · rw [(visit_reference reference fresh visit).2] at enters
      cases enters

theorem refuses_iff_mem {name : String} {entry : Nat} {outcome : Option (Outcome α)}
    (visit : (⟨.reference name, entry, .fresh, outcome⟩ : Frame α).visit grammar input active
      cursor = (progress, move)) : move = .refuse ↔ (name, entry) ∈ active := by
  have visit : visitReference grammar active entry name = (progress, move) := visit
  unfold visitReference at visit
  split at visit
  · next member =>
      cases visit
      exact ⟨fun _ => member, fun _ => rfl⟩
  · next absent =>
      split at visit
      all_goals
        cases visit
        exact ⟨nofun, fun member => absurd member absent⟩

end Visits

theorem Awaits.mem_rulesOf_iff {stack : List (Frame α)} {part : Expr} {offset : Nat}
    (awaits : Awaits grammar input stack part offset) {name : String} {entry : Nat} :
    (name, entry) ∈ rulesOf stack ↔
      ∃ frame ∈ stack, frame.expr = .reference name ∧ frame.entry = entry := by
  induction awaits with
  | entry => simp [rulesOf]
  | reference _ _ induction => rw [rulesOf_entered, List.mem_cons, induction]; simp [eq_comm]
  | choice _ _ induction => exact induction.trans (by simp)
  | sequence _ _ _ induction => exact induction.trans (by simp)
  | optional _ induction => exact induction.trans (by simp)
  | repetition _ _ induction => exact induction.trans (by simp)

/-! ## Runs -/

section Step

variable {state : State α} {frame : Frame α} {below : List (Frame α)}
  {progress : Progress α} {move : Move α}

theorem Visit.rulesOf_visited (visit : Visit grammar input state frame below progress move) :
    rulesOf (frame.visited progress :: below) = move.rule?.toList ++ rulesOf state.stack := by
  rw [visit.stack, rulesOf_cons, rulesOf_cons, rule?_visited visit.visit, List.append_assoc]

theorem Visit.distinct_visited (visit : Visit grammar input state frame below progress move)
    (tracks : Tracks state) (distinct : (rulesOf state.stack).Nodup) :
    (rulesOf (frame.visited progress :: below)).Nodup := by
  rw [visit.rulesOf_visited]
  cases enters : move.rule? with
  | none => exact distinct
  | some rule =>
      apply List.nodup_cons.mpr ⟨_, distinct⟩
      rw [← tracks]
      exact not_mem_of_enters visit.visit enters

theorem Tracks.distinct_step (tracks : Tracks state) (distinct : (rulesOf state.stack).Nodup) :
    (rulesOf (state.step grammar input).stack).Nodup := by
  apply step_cases fun next => (rulesOf next.stack).Nodup
  case rests => exact fun _ => distinct
  case leaves =>
    intro frame below progress move outcome visit _
    rw [visit.stack, rulesOf_cons] at distinct
    rw [deliver_stack, State.after_stack, rulesOf_handDown]
    exact (List.nodup_append.mp distinct).2.1
  case pushes =>
    intro frame below progress move part visit _
    rw [State.after_stack, rulesOf_begin]
    exact visit.distinct_visited tracks distinct
  case stays =>
    intro frame below progress move visit stays idle
    rw [(visit.step_stay stays idle).1]
    exact visit.distinct_visited tracks distinct

end Step

theorem stateAt_distinct (grammar : Grammar) (input : Input α) (made : Nat) :
    (rulesOf (stateAt grammar input made).stack).Nodup := by
  induction made with
  | zero =>
      obtain none | ⟨definition, _, start⟩ := start_cases α grammar
      · rw [stateAt, Function.iterate_zero_apply, none]
        exact List.nodup_nil
      · rw [stateAt, Function.iterate_zero_apply, start, State.push, rulesOf_begin]
        exact List.nodup_nil
  | succ made induction =>
      rw [stateAt_succ]
      exact (stateAt_tracks grammar input made).distinct_step induction

/-- What the rules under way say about the stack of a state. -/
structure Mirrors (grammar : Grammar) (input : Input α) (state : State α) : Prop where
  tracks : Tracks state
  distinct : (rulesOf state.stack).Nodup
  room : state.depth ≤ grammar.height * (1 + grammar.size * (input.size + 1))

namespace Mirrors

theorem of_stateAt (made : Nat) : Mirrors grammar input (stateAt grammar input made) where
  tracks := stateAt_tracks grammar input made
  distinct := stateAt_distinct grammar input made
  room := by
    cases stateAt_steady grammar input made with
    | inl empty =>
        rw [State.depth, empty]
        exact Nat.zero_le _
    | inr poised =>
        have inside := cursor_le_size grammar input made
        have few := length_rules_le (stateAt_distinct grammar input made)
          fun rule member => (poised.mem_rulesOf member).imp_right fun earlier =>
            Nat.le_trans earlier inside
        exact Nat.le_trans poised.length_le (Nat.mul_le_mul_left _ (Nat.add_le_add_left few 1))

theorem congr {state other : State α} (mirrors : Mirrors grammar input state)
    (stack : other.stack = state.stack) (active : other.active = state.active) :
    Mirrors grammar input other where
  tracks := by
    unfold Tracks
    rw [stack, active]
    exact mirrors.tracks
  distinct := by
    rw [stack]
    exact mirrors.distinct
  room := by
    rw [State.depth, stack]
    exact mirrors.room

theorem stepHalted {made : Nat} (running : (stateAt grammar input made).stopped = false) :
    Mirrors grammar input ((stateAt grammar input made).stepHalted grammar input) := by
  obtain ⟨frame, below, progress, move, visit⟩ := exists_visit_of_running running
  have now : Mirrors grammar input (stateAt grammar input made) := of_stateAt made
  rw [visit.stepHalted]
  cases pushed : move.part? with
  | some part =>
      have next : Mirrors grammar input (stateAt grammar input (made + 1)) := of_stateAt _
      rw [stateAt_succ, visit.step_push pushed] at next
      apply next.congr
      · rw [stop_stack, announce_stack, pushed]
        rfl
      · rw [stop_active, announce_active]
        rfl
  | none =>
      have entered := rule?_of_part pushed
      have same := visit.rulesOf_visited
      rw [entered, Option.toList_none, List.nil_append] at same
      constructor
      · unfold Tracks
        rw [stop_active, announce_active, stop_stack, announce_stack, pushed, entered]
        exact now.tracks.trans same.symm
      · rw [stop_stack, announce_stack, pushed]
        exact visit.distinct_visited now.tracks now.distinct
      · have room := now.room
        rw [State.depth, visit.stack] at room
        rw [State.depth, stop_stack, announce_stack, pushed]
        exact room

theorem of_reached {state : State α} (reached : Reached grammar input state) :
    Mirrors grammar input state := by
  cases reached with
  | undisturbed made => exact of_stateAt made
  | @stopped made _ => exact (of_stateAt made).congr (stop_stack _) (stop_active _)
  | halted running => exact stepHalted running

end Mirrors

/-! ## Calls -/

/-- However a machine is driven, the rules under way are those that the references on its
stack have entered, and no two of these have entered the same rule from the same offset. So a
reference is refused on its first visit exactly if an ancestor refers to the same rule from
the same offset, and the stack is never deeper than the definitions are high, once for the
entry rule and once for each rule at each offset. -/
theorem active_mirrors_stack (grammar : Grammar) (input : Input α) (calls : List Call) :
    let state := afterCalls grammar input calls
    (∀ name entry, (name, entry) ∈ state.active ↔
      ∃ frame ∈ state.stack, frame.expr = .reference name ∧ frame.progress = .entered ∧
        frame.entry = entry) ∧
    (rulesOf state.stack).Nodup ∧
    (∀ name entry outcome below, state.stopped = false →
      state.stack = ⟨.reference name, entry, .fresh, outcome⟩ :: below →
      (Proposes grammar input state .refuse ↔
        ∃ ancestor ∈ below, ancestor.expr = .reference name ∧ ancestor.entry = entry)) ∧
    state.depth ≤ grammar.height * (1 + grammar.size * (input.size + 1)) := by
  intro state
  have reached : Reached grammar input state := reached_afterCalls grammar input calls
  have mirrors := Mirrors.of_reached reached
  refine ⟨?_, mirrors.distinct, ?_, mirrors.room⟩
  · intro name entry
    rw [mirrors.tracks]
    exact mem_rulesOf_iff
  · intro name entry outcome below running stack
    -- a run that goes on has not been halted
    obtain ⟨made, same⟩ := reached.exists_stateAt running
    obtain ⟨progress, move, visit⟩ := exists_visit grammar input running stack
    have steady : Steady grammar input state := by
      rw [same]
      exact stateAt_steady grammar input made
    have active : state.active = rulesOf below := by
      rw [mirrors.tracks, stack]
      rfl
    rw [visit.proposes_iff, refuses_iff_mem visit.visit, active]
    exact (steady.poised stack).under.mem_rulesOf_iff

end Machine

end OrderedChoice
