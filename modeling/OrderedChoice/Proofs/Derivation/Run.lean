import OrderedChoice.Proofs.Derivation.Guard
import OrderedChoice.Proofs.Machine.Outcome

/-! What derivations say about runs. The entry rule has a derivation exactly if
its run neither turns a rule down for being under way nor reaches for a rule that
is not there, and such a run ends with what is derived. -/

namespace OrderedChoice

namespace Machine

open Evaluation

variable {α : Type} {grammar : Grammar} {input : Input α} {definition : Expr}

/-- No state that a run comes to refuses a rule or finds one missing. -/
def Unguarded (grammar : Grammar) (input : Input α) : Prop :=
  ∀ made,
    let state := (State.step grammar input)^[made] (.start grammar)
    ¬ Proposes grammar input state .refuse ∧
      ∀ name, ¬ Proposes grammar input state (.undefined name)

def Shows (input : Input α) (final : State α) : Finding α → Prop
  | .found tree stop =>
      final.stopped = true ∧ final.tree = tree ∧ final.cursor = stop ∧
        final.log = logOfFound input stop
  | .missed =>
      final.stopped = true ∧ final.tree = .absent ∧ final.cursor = 0 ∧
        final.log = logOfMissed input final.furthest

theorem not_mem_logOfFound (name : String) (stop : Nat) :
    .undefinedReference name ∉ logOfFound input stop := by
  unfold logOfFound
  cases input.element? stop <;> simp

theorem not_mem_logOfMissed (name : String) (furthest : Option Nat) :
    .undefinedReference name ∉ logOfMissed input furthest := by
  unfold logOfMissed
  cases input.element? (furthest.getD 0) <;> simp

theorem EndsAs.shows {final : State α} {account : Account α 0 input.size} {finding : Finding α}
    (ends : EndsAs input final account) (comes : account.ComesTo finding) :
    Shows input final finding := by
  cases finding with
  | found tree stop =>
      rcases comes.exists_found with ⟨forward, inside, effort, equal, _⟩
      subst equal
      subst ends
      exact ⟨rfl, rfl, rfl, rfl⟩
  | missed =>
      rcases comes.exists_missed with ⟨effort, equal, _⟩
      subst equal
      subst ends
      exact ⟨rfl, rfl, rfl, rfl⟩

theorem Shows.not_mem_log {final : State α} {finding : Finding α}
    (shows : Shows input final finding) (name : String) :
    .undefinedReference name ∉ final.log := by
  cases finding with
  | found tree stop =>
      rw [shows.2.2.2]
      exact not_mem_logOfFound name stop
  | missed =>
      rw [shows.2.2.2]
      exact not_mem_logOfMissed name final.furthest

theorem logOfFound_eq_nil {stop : Nat} : logOfFound input stop = [] ↔ input.size ≤ stop := by
  unfold logOfFound Input.element? Input.size
  rw [← Array.getElem?_eq_none_iff]
  cases input.elements[stop]? <;> simp

theorem logOfMissed_ne_nil (furthest : Option Nat) : logOfMissed input furthest ≠ [] := by
  unfold logOfMissed
  cases input.element? (furthest.getD 0) <;> simp

theorem Shows.isOk_iff {final : State α} {finding : Finding α}
    (shows : Shows input final finding) :
    final.isOk = true ↔ ∃ tree stop, finding = .found tree stop ∧ input.size ≤ stop := by
  unfold State.isOk
  rw [List.isEmpty_iff]
  cases finding with
  | found tree stop =>
      rw [shows.2.2.2, logOfFound_eq_nil]
      constructor
      · exact fun reached => ⟨tree, stop, rfl, reached⟩
      · rintro ⟨_, _, equal, reached⟩
        cases equal
        exact reached
  | missed =>
      rw [shows.2.2.2]
      constructor
      · exact fun empty => absurd empty (logOfMissed_ne_nil final.furthest)
      · rintro ⟨_, _, equal, _⟩
        cases equal

theorem unguarded_of_comesTo (entry : grammar.lookup? entryName = some definition)
    {finding : Finding α}
    (comes : (evaluate grammar input [] 0 definition).ComesTo finding) :
    Unguarded grammar input := by
  rcases exists_course input entry with ⟨final, course, stopped, ends⟩
  intro made
  refine ⟨?_, ?_⟩
  · intro refuses
    have refusals := course.refusals_pos stopped refuses
    rw [comes.2] at refusals
    exact Nat.lt_irrefl 0 refusals
  · intro name undefined
    exact (ends.shows comes).not_mem_log name (course.mem_log_of_undefined stopped undefined)

theorem Unguarded.exists_comesTo (unguarded : Unguarded grammar input)
    (entry : grammar.lookup? entryName = some definition) :
    ∃ finding, (evaluate grammar input [] 0 definition).ComesTo finding := by
  rcases exists_course input entry with ⟨final, course, _, _⟩
  have idle : (evaluate grammar input [] 0 definition).effort.refusals = 0 := by
    refine Nat.eq_zero_of_not_pos fun refusals => ?_
    rcases course.exists_refuse refusals with ⟨made, refuses⟩
    exact (unguarded made).1 refuses
  have settles := start_settles input entry
  cases account : evaluate grammar input [] 0 definition with
  | mk verdict effort =>
      rw [account] at settles idle
      cases verdict with
      | found tree stop forward inside => exact ⟨.found tree stop, rfl, idle⟩
      | missed => exact ⟨.missed, rfl, idle⟩
      | undefined name =>
          rcases settles with ⟨spent, cursor, stack, active, _, course, undefined⟩
          rw [← course.iterate_step] at undefined
          exact absurd undefined ((unguarded spent.moves).2 name)

/-- The entry rule has a derivation exactly if its run is unguarded, and the run
shows what is derived. -/
theorem derivable_iff_unguarded (entry : grammar.lookup? entryName = some definition) :
    ((∃ finding, Derives grammar input definition 0 finding) ↔ Unguarded grammar input) ∧
      ∀ finding, Derives grammar input definition 0 finding →
        Shows input (parse grammar input) finding := by
  refine ⟨⟨?_, ?_⟩, ?_⟩
  · rintro ⟨finding, derives⟩
    exact unguarded_of_comesTo entry (derives_iff_comesTo.mp derives)
  · intro unguarded
    rcases unguarded.exists_comesTo entry with ⟨finding, comes⟩
    exact ⟨finding, derives_iff_comesTo.mpr comes⟩
  · intro finding derives
    exact (parse_endsAs entry).shows (derives_iff_comesTo.mp derives)

/-- A rule that leads back to itself, but only after it has taken something. -/
def nested : Grammar := .ofRules [
  (entryName, .choice [.sequence [.terminal "(", .reference entryName, .terminal ")"],
    .terminal "x"])]

theorem nested_derivable_iff_unguarded :
    let definition : Expr := .choice
      [.sequence [.terminal "(", .reference entryName, .terminal ")"], .terminal "x"]
    nested.lookup? entryName = some definition ∧
      ((∃ finding, Derives nested (.ofText "(x)") definition 0 finding) ↔
        Unguarded nested (.ofText "(x)")) ∧
      ∀ finding, Derives nested (.ofText "(x)") definition 0 finding →
        Shows (.ofText "(x)") (parse nested (.ofText "(x)")) finding :=
  ⟨rfl, derivable_iff_unguarded rfl⟩

end Machine

end OrderedChoice
