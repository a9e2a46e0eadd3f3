import OrderedChoice.Ascending

/-! What is in an ascending list and how it is ordered, for any type where of two values that
are not the same one comes before the other. -/

namespace OrderedChoice

namespace Ascending

variable {α : Type} [LT α] [DecidableLT α]
  (trichotomy : ∀ left right : α, ¬ left < right → ¬ right < left → left = right)

include trichotomy

theorem mem_insert {value other : α} {values : List α} :
    other ∈ insert value values ↔ other = value ∨ other ∈ values := by
  induction values with
  | nil => exact List.mem_cons
  | cons head tail induction =>
      unfold insert
      split
      · exact List.mem_cons
      · next notBelow =>
          split
          · rw [List.mem_cons, List.mem_cons, induction, or_left_comm]
          · next notAbove =>
              rw [trichotomy value head notBelow notAbove, List.mem_cons]
              exact or_self_left.symm

theorem mem_ofList {value : α} {values : List α} : value ∈ ofList values ↔ value ∈ values := by
  induction values with
  | nil => rfl
  | cons head tail induction =>
      rw [List.mem_cons, ← induction]
      exact mem_insert trichotomy

variable (transitive : ∀ first second third : α, first < second → second < third → first < third)

include transitive

theorem pairwise_insert {value : α} {values : List α} (ascending : values.Pairwise (· < ·)) :
    (insert value values).Pairwise (· < ·) := by
  induction values with
  | nil => exact List.pairwise_singleton _ _
  | cons head tail induction =>
      rcases List.pairwise_cons.mp ascending with ⟨first, rest⟩
      unfold insert
      split
      · next below =>
          apply List.pairwise_cons.mpr
          refine ⟨List.forall_mem_cons.mpr ⟨below, ?_⟩, ascending⟩
          exact fun other member => transitive value head other below (first other member)
      · split
        · next above =>
            apply List.pairwise_cons.mpr
            refine ⟨?_, induction rest⟩
            intro other member
            rcases (mem_insert trichotomy).mp member with equal | member
            · rwa [equal]
            · exact first other member
        · exact ascending

theorem pairwise_ofList (values : List α) : (ofList values).Pairwise (· < ·) := by
  induction values with
  | nil => exact List.Pairwise.nil
  | cons head tail induction => exact pairwise_insert trichotomy transitive induction

end Ascending

end OrderedChoice
