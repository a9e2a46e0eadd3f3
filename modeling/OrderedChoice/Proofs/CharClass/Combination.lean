import OrderedChoice.Proofs.Ascending
import OrderedChoice.Proofs.CharClass.Membership

/-! Combining sets of code points. A Boolean operation on membership in two sets can change its
value at their bounds only, and a combination has a bound exactly where it does. So from the first
of the bounds on, and from zero on, membership in the combination is what the operation makes of
membership in the two sets. -/

namespace OrderedChoice

namespace CharClass

/-! ## Changes -/

theorem changes_sublist (holds : Int → Bool) (current : Bool) (candidates : List Int) :
    (changes holds current candidates).Sublist candidates := by
  induction candidates generalizing current with
  | nil => exact .slnil
  | cons candidate rest induction =>
      unfold changes
      split
      · exact (induction _).cons_cons _
      · exact (induction _).cons _

theorem changes_cons (holds : Int → Bool) (current : Bool) (candidate : Int) (rest : List Int) :
    changes holds current (candidate :: rest) =
      if current = holds candidate then changes holds (holds candidate) rest
      else candidate :: changes holds (holds candidate) rest := by
  rw [changes]
  cases current <;> cases holds candidate <;> rfl

theorem sorted_changes (holds : Int → Bool) (current : Bool) {candidates : List Int}
    (ascending : candidates.Pairwise (· < ·)) :
    (changes holds current candidates).Pairwise (· ≤ ·) :=
  (ascending.sublist (changes_sublist holds current candidates)).imp Int.le_of_lt

/-- Up to the next candidate, a predicate keeps the value that it has at a candidate. -/
def SettledBy (candidates : List Int) (holds : Int → Bool) : Prop :=
  ∀ lower ∈ candidates, ∀ upper, lower ≤ upper →
    (∀ candidate ∈ candidates, candidate ≤ lower ∨ upper < candidate) → holds lower = holds upper

theorem SettledBy.tail {candidate : Int} {rest : List Int} {holds : Int → Bool}
    (ascending : (candidate :: rest).Pairwise (· < ·))
    (settled : SettledBy (candidate :: rest) holds) : SettledBy rest holds := by
  intro lower member upper ordered between
  have first := (List.pairwise_cons.mp ascending).1 lower member
  apply settled lower (List.mem_cons_of_mem _ member) upper ordered
  exact List.forall_mem_cons.mpr ⟨.inl (Int.le_of_lt first), between⟩

/-- Where a predicate can only change at candidates, and one of them has been reached, membership
by the changes says whether the predicate differs from the value assumed at first. -/
theorem contains_changes {holds : Int → Bool} {candidates : List Int}
    (ascending : candidates.Pairwise (· < ·)) (settled : SettledBy candidates holds)
    (current : Bool) {point : Int} (reached : ∃ candidate ∈ candidates, candidate ≤ point) :
    contains ⟨changes holds current candidates⟩ point = (current != holds point) := by
  -- Changes behind the first candidate are counted from the value there, which is also that of
  -- all points up to the next one, so these may be before the first of the other candidates.
  induction candidates generalizing current with
  | nil => simp at reached
  | cons candidate rest induction =>
      rcases List.pairwise_cons.mp ascending with ⟨first, others⟩
      have here : candidate ≤ point := by
        rcases reached with ⟨other, member, below⟩
        rcases List.mem_cons.mp member with rfl | later
        · exact below
        · exact Int.le_of_lt (Int.lt_of_lt_of_le (first other later) below)
      have behind : contains ⟨changes holds (holds candidate) rest⟩ point =
          (holds candidate != holds point) := by
        by_cases later : ∃ candidate ∈ rest, candidate ≤ point
        · exact induction others (settled.tail ascending) _ later
        · simp only [not_exists, not_and, Int.not_le] at later
          have same : holds candidate = holds point :=
            settled candidate List.mem_cons_self point here
              (List.forall_mem_cons.mpr
                ⟨.inl (Int.le_refl _), fun other member => .inr (later other member)⟩)
          rw [same, bne_self_eq_false]
          apply contains_of_before (sorted_changes holds _ others)
          exact fun bound member => later bound ((changes_sublist holds _ rest).subset member)
      have sorted := sorted_changes holds current ascending
      rw [changes_cons] at sorted ⊢
      by_cases same : current = holds candidate
      · rw [if_pos same, same]
        exact behind
      · rw [if_neg same] at sorted ⊢
        rw [contains_cons sorted, behind, decide_eq_true here, Bool.eq_not_of_ne same]
        cases holds candidate <;> cases holds point <;> rfl

/-! ## Combinations -/

theorem bound_trichotomy (left right : Int) (notBelow : ¬ left < right)
    (notAbove : ¬ right < left) : left = right :=
  Int.le_antisymm (Int.not_lt.mp notAbove) (Int.not_lt.mp notBelow)

theorem mem_candidates {left right : CharClass} {bound : Int} :
    bound ∈ candidates left right ↔ bound ∈ 0 :: left.bounds ++ right.bounds := by
  rw [candidates, Ascending.mem_ofList bound_trichotomy]

theorem pairwise_candidates (left right : CharClass) :
    (candidates left right).Pairwise (· < ·) :=
  Ascending.pairwise_ofList bound_trichotomy (fun _ _ _ before after => Int.lt_trans before after) _

variable {left right : CharClass} (operation : Bool → Bool → Bool)

theorem pairwise_combine (left right : CharClass) :
    (combine operation left right).bounds.Pairwise (· < ·) :=
  (pairwise_candidates left right).sublist (changes_sublist _ _ _)

theorem mem_candidates_of_mem_combine {bound : Int}
    (member : bound ∈ (combine operation left right).bounds) :
    bound ∈ 0 :: left.bounds ++ right.bounds :=
  mem_candidates.mp ((changes_sublist _ _ _).subset member)

theorem settledBy_contains {cls : CharClass} (sorted : cls.bounds.Pairwise (· ≤ ·))
    {candidates : List Int} (among : ∀ bound ∈ cls.bounds, bound ∈ candidates) :
    SettledBy candidates cls.contains :=
  fun _ _ _ ordered between =>
    contains_congr sorted ordered fun bound member => between bound (among bound member)

theorem contains_combine_of_settled
    (settled : SettledBy (candidates left right)
      fun point => operation (left.contains point) (right.contains point))
    {point : Int} (reached : ∃ bound ∈ 0 :: left.bounds ++ right.bounds, bound ≤ point) :
    (combine operation left right).contains point =
      operation (left.contains point) (right.contains point) := by
  rcases reached with ⟨bound, member, below⟩
  have among : ∃ candidate ∈ candidates left right, candidate ≤ point :=
    ⟨bound, mem_candidates.mpr member, below⟩
  rw [combine, contains_changes (pairwise_candidates left right) settled false among]
  exact Bool.false_bne _

theorem contains_combine_of_before {point : Int}
    (before : ∀ bound ∈ 0 :: left.bounds ++ right.bounds, point < bound) :
    (combine operation left right).contains point = false :=
  contains_of_before ((pairwise_combine operation left right).imp Int.le_of_lt)
    fun bound member => before bound (mem_candidates_of_mem_combine operation member)

section Sorted

variable (leftSorted : left.bounds.Pairwise (· ≤ ·)) (rightSorted : right.bounds.Pairwise (· ≤ ·))

include leftSorted rightSorted

theorem contains_combine {point : Int}
    (reached : ∃ bound ∈ 0 :: left.bounds ++ right.bounds, bound ≤ point) :
    (combine operation left right).contains point =
      operation (left.contains point) (right.contains point) := by
  have settledLeft : SettledBy (candidates left right) left.contains :=
    settledBy_contains leftSorted fun bound member =>
      mem_candidates.mpr (List.mem_append_left _ (List.mem_cons_of_mem _ member))
  have settledRight : SettledBy (candidates left right) right.contains :=
    settledBy_contains rightSorted fun bound member =>
      mem_candidates.mpr (List.mem_append_right _ member)
  apply contains_combine_of_settled operation _ reached
  intro lower member upper ordered between
  simp only [settledLeft lower member upper ordered between,
    settledRight lower member upper ordered between]

theorem contains_union (point : Int) :
    (left.union right).contains point = (left.contains point || right.contains point) := by
  by_cases reached : ∃ bound ∈ 0 :: left.bounds ++ right.bounds, bound ≤ point
  · exact contains_combine or leftSorted rightSorted reached
  · simp only [not_exists, not_and, Int.not_le] at reached
    have outsideLeft := contains_of_before leftSorted fun bound member =>
      reached bound (List.mem_append_left _ (List.mem_cons_of_mem _ member))
    have outsideRight := contains_of_before rightSorted fun bound member =>
      reached bound (List.mem_append_right _ member)
    rw [outsideLeft, outsideRight, union, contains_combine_of_before or reached]
    rfl

end Sorted

theorem sorted_union (left right : CharClass) : (left.union right).bounds.Pairwise (· ≤ ·) :=
  (pairwise_combine or left right).imp Int.le_of_lt

theorem contains_foldl_union {classes : List CharClass} {first : CharClass}
    (firstSorted : first.bounds.Pairwise (· ≤ ·))
    (sorted : ∀ cls ∈ classes, cls.bounds.Pairwise (· ≤ ·)) (point : Int) :
    (classes.foldl union first).contains point = true ↔
      first.contains point = true ∨ ∃ cls ∈ classes, cls.contains point = true := by
  induction classes generalizing first with
  | nil => simp
  | cons next others induction =>
      rcases List.forall_mem_cons.mp sorted with ⟨nextSorted, othersSorted⟩
      rw [List.foldl_cons, induction (sorted_union first next) othersSorted,
        contains_union firstSorted nextSorted, Bool.or_eq_true, or_assoc]
      simp only [List.mem_cons, exists_eq_or_imp]

/-- The bounds of a combination are strictly ascending, even where the bounds of the two sets are
repeated. Membership in it is decided by the operation, except before zero and all bounds, where
nothing is in it. So the union of any number of sets has the members of all of them. -/
theorem combination_decides_membership :
    (∀ (operation : Bool → Bool → Bool) (left right : CharClass),
      left.bounds.Pairwise (· ≤ ·) → right.bounds.Pairwise (· ≤ ·) →
        (combine operation left right).bounds.Pairwise (· < ·) ∧
          ∀ point : Int,
            ((∃ bound ∈ 0 :: left.bounds ++ right.bounds, bound ≤ point) →
              (combine operation left right).contains point =
                operation (left.contains point) (right.contains point)) ∧
            ((∀ bound ∈ 0 :: left.bounds ++ right.bounds, point < bound) →
              (combine operation left right).contains point = false)) ∧
      ∀ classes : List CharClass, (∀ cls ∈ classes, cls.bounds.Pairwise (· ≤ ·)) →
        ∀ point : Int, (unionAll classes).contains point = true ↔
          ∃ cls ∈ classes, cls.contains point = true := by
  refine ⟨?_, ?_⟩
  · intro operation left right leftSorted rightSorted
    refine ⟨pairwise_combine operation left right, fun point => ⟨?_, ?_⟩⟩
    · exact contains_combine operation leftSorted rightSorted
    · exact contains_combine_of_before operation
  · intro classes sorted point
    have none : empty.bounds.Pairwise (· ≤ ·) := .nil
    rw [unionAll, contains_foldl_union none sorted, empty, contains_nil]
    simp only [Bool.false_eq_true, false_or]

theorem neither_decides_membership :
    let left : CharClass := ⟨[-2, -2, 5]⟩
    let right : CharClass := ⟨[3, 3, 3]⟩
    let neither := combine (fun inLeft inRight => !(inLeft || inRight)) left right
    let classes : List CharClass := [left, right, ⟨[-4, -1]⟩]
    (left.bounds.Pairwise (· ≤ ·) ∧ right.bounds.Pairwise (· ≤ ·) ∧
      neither.bounds.Pairwise (· < ·) ∧
      (-2 ∈ 0 :: left.bounds ++ right.bounds ∧ neither.contains (-1) = true) ∧
      (∀ bound ∈ 0 :: left.bounds ++ right.bounds, -3 < bound) ∧ neither.contains (-3) = false) ∧
    (∀ cls ∈ classes, cls.bounds.Pairwise (· ≤ ·)) ∧
      ((unionAll classes).contains (-3) = true ↔ ∃ cls ∈ classes, cls.contains (-3) = true) := by
  intro left right neither classes
  have leftSorted : left.bounds.Pairwise (· ≤ ·) := by decide
  have rightSorted : right.bounds.Pairwise (· ≤ ·) := by decide
  have sorted : ∀ cls ∈ classes, cls.bounds.Pairwise (· ≤ ·) := by decide
  rcases combination_decides_membership with ⟨combined, united⟩
  rcases combined (fun inLeft inRight => !(inLeft || inRight)) left right leftSorted rightSorted
    with ⟨ascending, decides⟩
  have reached : -2 ∈ 0 :: left.bounds ++ right.bounds := by decide
  have before : ∀ bound ∈ 0 :: left.bounds ++ right.bounds, -3 < bound := by decide
  refine ⟨⟨leftSorted, rightSorted, ascending, ⟨reached, ?_⟩, before, ?_⟩, sorted, ?_⟩
  · exact ((decides (-1)).1 ⟨-2, reached, by decide⟩).trans (by decide +kernel)
  · exact (decides (-3)).2 before
  · exact united classes sorted (-3)

end CharClass

end OrderedChoice
